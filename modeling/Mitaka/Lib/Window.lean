/-
  Subject: The items of a list from one index to another, both inclusive.

  The bounds are integers: a window may begin before the list and end behind it, and
  is empty when it ends before it begins. An item of a window is an item of the list
  (`getElem?_window`), and everything else follows from that: windows of a
  concatenation, of a window, and adjacent windows.
-/
import Mathlib

namespace Mitaka

variable {α : Type*}

/-- The items `first` to `last`. -/
def window (d : List α) (first last : Int) : List α := (d.take (last + 1).toNat).drop first.toNat

/-- **The items of a window.** -/
theorem getElem?_window (d : List α) (first last : Int) (i : Nat) :
    (window d first last)[i]? =
      if ((first.toNat + i : Nat) : Int) ≤ last then d[first.toNat + i]? else none := by
  rw [window, List.getElem?_drop, List.getElem?_take]
  refine if_congr ?_ rfl rfl
  omega

theorem length_window (d : List α) (first last : Int) :
    (window d first last).length = min (last + 1).toNat d.length - first.toNat := by
  rw [window, List.length_drop, List.length_take]

theorem window_eq_nil {d : List α} {first last : Int} (h : (d.length : Int) ≤ first ∨ last < first ∨ last < 0) :
    window d first last = [] := by
  refine List.eq_nil_of_length_eq_zero ?_
  rw [length_window]
  omega

/-- The whole list. -/
theorem window_all (d : List α) : window d 0 (d.length - 1) = d := by
  rw [window, Int.sub_add_cancel]
  simp

/-- **A window of a concatenation.** -/
theorem window_append (d e : List α) (first last : Int) :
    window (d ++ e) first last = window d first last ++ window e (first - d.length) (last - d.length) := by
  refine List.ext_getElem? fun i => ?_
  rw [List.getElem?_append, length_window, getElem?_window, getElem?_window, getElem?_window,
    List.getElem?_append]
  by_cases hlast : ((first.toNat + i : Nat) : Int) ≤ last
  · rw [if_pos hlast]
    by_cases hd : first.toNat + i < d.length
    · rw [if_pos hd, if_pos (by omega), if_pos hlast]
    · rw [if_neg hd, if_neg (by omega), if_pos (by omega)]
      congr 1
      omega
  · rw [if_neg hlast, if_neg hlast, if_neg (by omega), if_neg (by omega)]

/-- **A window of a window.** -/
theorem window_window (d : List α) {first : Int} (hfirst : 0 ≤ first) (last f l : Int) :
    window (window d first last) f l = window d (first + max 0 f) (min last (first + l)) := by
  refine List.ext_getElem? fun i => ?_
  rw [getElem?_window, getElem?_window, getElem?_window]
  have hindex : first.toNat + (f.toNat + i) = (first + max 0 f).toNat + i := by omega
  rw [hindex, ← ite_and]
  exact if_congr (by omega) rfl rfl

end Mitaka
