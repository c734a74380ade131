/-
  Subject: Counters kept in a dictionary, and histograms filled one item at a time.

  `bump` counts a key once more. A histogram of `n` items out of `total` has at `k` how
  many of them have the value `k`; the items to come stand at `0`.
-/
import Mitaka.Lib.Dict

namespace Mitaka

open List

/-! ## 1. Counters -/

section Counters

variable {κ : Type*} [DecidableEq κ]

/-- `d[k] += 1`, for a dictionary of zeros. -/
def bump (d : Dict κ ℕ) (k : κ) : Dict κ ℕ := d.set k ((d.get k).getD 0 + 1)

/-- **What a counter counts.** -/
theorem get_foldl_bump (l : List κ) (d : Dict κ ℕ) (k : κ) :
    ((l.foldl bump d).get k).getD 0 = (d.get k).getD 0 + l.count k := by
  induction l generalizing d with
  | nil => rfl
  | cons x l ih =>
    rw [foldl_cons, ih, bump, Dict.get_set]
    by_cases h : x = k
    · subst h
      rw [if_pos rfl, Option.getD_some, count_cons_self]
      omega
    · rw [if_neg h, count_cons_of_ne h]

/-- Counters with one entry for each key, and none that is zero. -/
structure Counts (d : Dict κ ℕ) : Prop where
  nodup : d.KeysNodup
  pos : ∀ k n, d.get k = some n → 0 < n

theorem Counts.nil : Counts ([] : Dict κ ℕ) := ⟨nodup_nil, fun _ _ h => nomatch h⟩

theorem Counts.bump {d : Dict κ ℕ} (h : Counts d) (k : κ) : Counts (bump d k) := by
  refine ⟨h.nodup.set _ _, fun k' n hn => ?_⟩
  rw [Mitaka.bump, Dict.get_set] at hn
  split at hn
  · rw [← Option.some.inj hn]
    omega
  · exact h.pos k' n hn

theorem Counts.foldl_bump {d : Dict κ ℕ} (h : Counts d) (l : List κ) : Counts (l.foldl Mitaka.bump d) := by
  induction l generalizing d with
  | nil => exact h
  | cons x l ih => exact ih (h.bump x)

end Counters

/-! ## 2. Histograms -/

section Histograms

variable (total width : ℕ) (value : ℕ → ℕ)

/-- How many of the first `n` items have each value. -/
def histogram (n : ℕ) : List ℤ :=
  (total - Nat.count (value · ≠ 0) n) :: (List.range width).map fun k => (Nat.count (value · = k + 1) n : ℤ)

/-- `row[0] -= 1` and `row[k] += 1`. -/
def record (row : List ℤ) (k : ℕ) : List ℤ := (row.modify 0 (· - 1)).modify k (· + 1)

theorem histogram_zero : histogram total width value 0 = (total : ℤ) :: replicate width 0 := by
  simp [histogram]

variable {value} {n : ℕ}

theorem histogram_succ_of_zero (h : value n = 0) : histogram total width value (n + 1) = histogram total width value n := by
  simp [histogram, Nat.count_succ, h]

/-- **One item more.** -/
theorem histogram_succ (h : value n ≠ 0) :
    histogram total width value (n + 1) = record (histogram total width value n) (value n) := by
  obtain ⟨k, hk⟩ := Nat.exists_eq_succ_of_ne_zero h
  rw [record, histogram, histogram, modify_zero_cons, hk, modify_succ_cons]
  refine congrArg₂ _ ?_ (ext_getElem? fun i => ?_)
  · rw [Nat.count_succ, if_pos h]
    push_cast
    ring
  · rw [getElem?_modify, getElem?_map, getElem?_map]
    cases hi : (List.range width)[i]? with
    | none => rfl
    | some j =>
      obtain rfl : i = j := by
        obtain ⟨hlt, hget⟩ := List.getElem?_eq_some_iff.mp hi
        rwa [getElem_range] at hget
      rw [Option.map_some, Option.map_some, Option.map_eq_map, Option.map_some, Nat.count_succ, hk]
      by_cases heq : k = i
      · rw [if_pos heq, if_pos (congrArg Nat.succ heq)]
        push_cast
        rfl
      · rw [if_neg heq, if_neg fun h => heq (Nat.succ.inj h)]
        rfl

/-- Items of the value `0` change nothing. -/
theorem histogram_of_zero {m : ℕ} (hle : m ≤ n) (h : ∀ i, m ≤ i → value i = 0) :
    histogram total width value n = histogram total width value m := by
  induction n, hle using Nat.le_induction with
  | base => rfl
  | succ n hle ih => rw [histogram_succ_of_zero _ _ (h n hle), ih]

/-- **A later item shows at the head.** -/
theorem histogram_ne {m : ℕ} (hlt : m < n) (h : value m ≠ 0) :
    histogram total width value n ≠ histogram total width value m := by
  intro heq
  have hhead : (total : ℤ) - Nat.count (value · ≠ 0) n = total - Nat.count (value · ≠ 0) m := (List.cons.inj heq).1
  have hmono : Nat.count (value · ≠ 0) (m + 1) ≤ Nat.count (value · ≠ 0) n := Nat.count_monotone _ hlt
  rw [Nat.count_succ, if_pos h] at hmono
  omega

/-- **All the items.** -/
theorem histogram_total : histogram n width value n =
    (List.range (width + 1)).map fun k => (Nat.count (value · = k) n : ℤ) := by
  rw [histogram, range_succ_eq_map, map_cons, map_map]
  refine congrArg₂ _ ?_ rfl
  have hsplit : Nat.count (value · = 0) n + Nat.count (value · ≠ 0) n = n := by
    induction n with
    | zero => rfl
    | succ n ih =>
      rw [Nat.count_succ, Nat.count_succ]
      by_cases h : value n = 0
      · rw [if_pos h, if_neg (not_not_intro h)]
        omega
      · rw [if_neg h, if_pos h]
        omega
  omega

end Histograms

end Mitaka
