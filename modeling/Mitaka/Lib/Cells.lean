/-
  Subject: A machine over a dict that reads and writes the cell of its input's key.

  What it puts out for the inputs of one key is what a machine with this cell alone puts
  out for these inputs (`run_filter`), and the cell ends as that machine's (`get_after`).
-/
import Mitaka.Lib.Dict

namespace Mitaka.Cells

variable {α κ ν β : Type*} [DecidableEq κ] (key : α → κ) (next : Option ν → α → ν × Option β)

/-- One input: the cells afterwards, and what is put out. -/
def step (d : Dict κ ν) (a : α) : Dict κ ν × Option β :=
  (d.set (key a) (next (d.get (key a)) a).1, (next (d.get (key a)) a).2)

/-- The cells after some inputs. -/
def after (d : Dict κ ν) (l : List α) : Dict κ ν := l.foldl (fun d a => (step key next d a).1) d

/-- The inputs, each with what is put out for it. -/
def run : Dict κ ν → List α → List (α × Option β)
  | _, [] => []
  | d, a :: l => (a, (step key next d a).2) :: run (step key next d a).1 l

omit [DecidableEq κ] in
/-- One cell after some inputs. -/
def afterCell (c : Option ν) (l : List α) : Option ν := l.foldl (fun c a => some (next c a).1) c

/-- The machine with one cell. -/
def runCell : Option ν → List α → List (α × Option β)
  | _, [] => []
  | c, a :: l => (a, (next c a).2) :: runCell (some (next c a).1) l

theorem get_step (d : Dict κ ν) (a : α) (k : κ) :
    (step key next d a).1.get k = if key a = k then some (next (d.get k) a).1 else d.get k := by
  rw [step, Dict.get_set]
  by_cases hk : key a = k
  · rw [if_pos hk, if_pos hk, hk]
  · rw [if_neg hk, if_neg hk]

variable {key next}

/-- **The outputs for one key** are those of the machine with its cell. -/
theorem run_filter (d : Dict κ ν) (l : List α) (k : κ) :
    (run key next d l).filter (fun x => key x.1 = k) = runCell next (d.get k) (l.filter fun a => key a = k) := by
  induction l generalizing d with
  | nil => rfl
  | cons a l ih =>
    have hcell := get_step key next d a k
    rw [run, List.filter_cons, List.filter_cons, ih]
    by_cases hk : key a = k
    · rw [if_pos hk] at hcell
      rw [if_pos (decide_eq_true hk), if_pos (decide_eq_true hk), runCell, hcell, step, hk]
    · rw [if_neg hk] at hcell
      rw [if_neg (by simpa using hk), if_neg (by simpa using hk), hcell]

/-- **The cell of a key** is that of the machine with this cell. -/
theorem get_after (d : Dict κ ν) (l : List α) (k : κ) :
    (after key next d l).get k = afterCell next (d.get k) (l.filter fun a => key a = k) := by
  induction l generalizing d with
  | nil => rfl
  | cons a l ih =>
    have hcell := get_step key next d a k
    rw [after, List.foldl_cons, ← after, ih, List.filter_cons]
    by_cases hk : key a = k
    · rw [if_pos hk] at hcell
      rw [if_pos (decide_eq_true hk), hcell]
      rfl
    · rw [if_neg hk] at hcell
      rw [if_neg (by simpa using hk), hcell]

omit [DecidableEq κ] in
/-- A cell that has been written stays. -/
theorem isSome_afterCell {c : Option ν} (h : c.isSome = true) (l : List α) : (afterCell next c l).isSome = true := by
  induction l generalizing c with
  | nil => exact h
  | cons a l ih => exact ih rfl

theorem run_inputs (d : Dict κ ν) (l : List α) : (run key next d l).map Prod.fst = l := by
  induction l generalizing d with
  | nil => rfl
  | cons a l ih => rw [run, List.map_cons, ih]

theorem after_concat (d : Dict κ ν) (l : List α) (a : α) :
    after key next d (l ++ [a]) = (step key next (after key next d l) a).1 := by
  rw [after, List.foldl_append]
  rfl

theorem keysNodup_after {d : Dict κ ν} (h : d.KeysNodup) (l : List α) : (after key next d l).KeysNodup := by
  induction l generalizing d with
  | nil => exact h
  | cons a l ih => exact ih (h.set (key a) _)

/-- A part of the inputs that are just those of one key is run as if alone. -/
theorem filter_run {d : Dict κ ν} {l : List α} {p : α → Prop} [DecidablePred p] {k : κ} (h : ∀ a ∈ l, p a ↔ key a = k) :
    (run key next d l).filter (fun x => p x.1) = run key next d (l.filter p) ∧
      (run key next d l).filter (fun x => p x.1) = runCell next (d.get k) (l.filter p) := by
  have hfilter : l.filter p = l.filter fun a => key a = k := List.filter_congr fun a ha => by simp [h a ha]
  have hall : (l.filter p).filter (fun a => key a = k) = l.filter p := by
    rw [hfilter, List.filter_filter]
    simp
  have hkeep : (run key next d (l.filter p)).filter (fun x => key x.1 = k) = run key next d (l.filter p) := by
    refine List.filter_eq_self.mpr fun x hx => ?_
    have hin : x.1 ∈ l.filter p := @run_inputs _ _ _ _ _ key next d (l.filter p) ▸ List.mem_map_of_mem hx
    obtain ⟨hmem, hp⟩ := List.mem_filter.mp hin
    exact decide_eq_true ((h x.1 hmem).mp (of_decide_eq_true hp))
  have hpart : (run key next d l).filter (fun x => p x.1) = (run key next d l).filter fun x => key x.1 = k := by
    refine List.filter_congr fun x hx => ?_
    have hin : x.1 ∈ l := @run_inputs _ _ _ _ _ key next d l ▸ List.mem_map_of_mem hx
    simp [h x.1 hin]
  have hcell : (run key next d l).filter (fun x => p x.1) = runCell next (d.get k) (l.filter p) := by
    rw [hpart, run_filter, hfilter]
  have halone : run key next d (l.filter p) = runCell next (d.get k) (l.filter p) := by
    rw [← hkeep, run_filter, hall]
  exact ⟨hcell.trans halone.symm, hcell⟩

end Mitaka.Cells
