/-
  Subject: A table of rows in the order of an integer key.

  `find` gives the row of a key, `modify` changes it in place. In an ordered table a key
  has one row, so that a row is the one its key finds (`Ordered.find_eq_some`) and a sum
  over the table changes by what the row changes (`Ordered.sum_modify`).
-/
import Mathlib

namespace Mitaka.Table

open List

variable {ρ : Type*} (key : ρ → ℕ)

/-- The keys increase. -/
def Ordered (l : List ρ) : Prop := l.Pairwise fun r s => key r < key s

def find (l : List ρ) (i : ℕ) : Option ρ := l.find? fun r => key r = i

def modify (l : List ρ) (i : ℕ) (f : ρ → ρ) : List ρ := l.map fun r => if key r = i then f r else r

variable {key} {l : List ρ} {i : ℕ} {f : ρ → ρ}

theorem Ordered.eq (h : Ordered key l) {r s : ρ} (hr : r ∈ l) (hs : s ∈ l) (heq : key r = key s) : r = s := by
  induction l with
  | nil => cases hr
  | cons t l ih =>
    obtain ⟨hlt, h⟩ := pairwise_cons.mp h
    rcases mem_cons.mp hr with rfl | hr' <;> rcases mem_cons.mp hs with rfl | hs'
    · rfl
    · exact absurd heq (hlt s hs').ne
    · exact absurd heq (hlt r hr').ne'
    · exact ih h hr' hs'

theorem find_some {r : ρ} (h : find key l i = some r) : r ∈ l ∧ key r = i :=
  ⟨mem_of_find?_eq_some h, by simpa using find?_some h⟩

theorem find_of_mem {r : ρ} (hr : r ∈ l) : ∃ s, find key l (key r) = some s :=
  Option.isSome_iff_exists.mp (find?_isSome.mpr ⟨r, hr, decide_eq_true rfl⟩)

/-- **A row is the one its key finds.** -/
theorem Ordered.find_eq_some (h : Ordered key l) {r : ρ} : find key l i = some r ↔ r ∈ l ∧ key r = i := by
  refine ⟨find_some, ?_⟩
  rintro ⟨hr, rfl⟩
  obtain ⟨s, hs⟩ : ∃ s, find key l (key r) = some s := find_of_mem hr
  rw [hs, h.eq (find_some hs).1 hr (find_some hs).2]

theorem Ordered.append (h : Ordered key l) {s : ρ} (hs : ∀ r ∈ l, key r < key s) : Ordered key (l ++ [s]) :=
  pairwise_append.mpr ⟨h, pairwise_singleton _ _, fun r hr t ht => by
    rw [mem_singleton.mp ht]
    exact hs r hr⟩

theorem find_append {s : ρ} (j : ℕ) :
    find key (l ++ [s]) j = (find key l j).or (if key s = j then some s else none) := by
  rw [find, find?_append, find?_singleton]
  by_cases hs : key s = j <;> simp [hs, find]

theorem key_ite (hf : ∀ r, key (f r) = key r) (r : ρ) : key (if key r = i then f r else r) = key r := by
  split
  · exact hf r
  · rfl

/-- The keys stay. -/
theorem map_key_modify (hf : ∀ r, key (f r) = key r) : (Table.modify key l i f).map key = l.map key := by
  rw [Table.modify, List.map_map]
  exact map_congr_left fun r _ => key_ite hf r

theorem Ordered.modify (h : Ordered key l) (hf : ∀ r, key (f r) = key r) : Ordered key (modify key l i f) := by
  refine pairwise_map.mpr (h.imp fun hlt => ?_)
  rw [key_ite hf, key_ite hf]
  exact hlt

theorem mem_modify {s : ρ} : s ∈ Table.modify key l i f ↔ ∃ r ∈ l, (if key r = i then f r else r) = s := List.mem_map

theorem find_modify (hf : ∀ r, key (f r) = key r) (j : ℕ) :
    find key (Table.modify key l i f) j = (find key l j).map fun r => if j = i then f r else r := by
  induction l with
  | nil => rfl
  | cons r l ih =>
    rw [find, Table.modify, map_cons, find?_cons, key_ite hf, find, find?_cons]
    by_cases hr : key r = j
    · rw [decide_eq_true hr]
      simp only [Option.map_some, hr]
    · rw [decide_eq_false hr]
      exact ih

/-- **A sum over the table changes by what the row changes.** -/
theorem Ordered.sum_modify (h : Ordered key l) {r : ρ} (hr : r ∈ l) (f : ρ → ρ) (g : ρ → ℤ) :
    ((Table.modify key l (key r) f).map g).sum = (l.map g).sum + (g (f r) - g r) := by
  induction l with
  | nil => cases hr
  | cons s l ih =>
    obtain ⟨hlt, h⟩ := pairwise_cons.mp h
    rw [Table.modify, map_cons, map_cons, sum_cons, map_cons, sum_cons]
    rcases mem_cons.mp hr with rfl | hr
    · have hrest : l.map (fun s => if key s = key r then f s else s) = l :=
        (map_congr_left fun s hs => if_neg (hlt s hs).ne').trans (List.map_id l)
      rw [if_pos rfl, hrest]
      omega
    · have := ih h hr
      rw [Table.modify] at this
      rw [if_neg (hlt r hr).ne, this]
      omega

end Mitaka.Table
