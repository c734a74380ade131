/-
  Subject: The first place where a word stands in a text.

  A text that is known only up to some point tells where the word stands as soon as it
  reaches behind it (`First.find_append`).
-/
import Mathlib.Data.List.Infix
import Mathlib.Data.List.Basic
import Mathlib.Tactic.Common

namespace Mitaka

open List

universe u

variable {α : Type u}

/-- The word stands at `p`, and at no place before. -/
structure First (word text : List α) (p : ℕ) : Prop where
  here : word <+: text.drop p
  before : ∀ q < p, ¬ word <+: text.drop q

variable {word text : List α}

theorem First.zero (h : word <+: text) : First word text 0 :=
  ⟨h, fun _ hq => absurd hq (Nat.not_lt_zero _)⟩

theorem First.cons {c : α} {p : ℕ} (hc : ¬ word <+: c :: text) (h : First word text p) :
    First word (c :: text) (p + 1) := by
  refine ⟨h.here, fun q hq => ?_⟩
  cases q with
  | zero => exact hc
  | succ q => exact h.before q (by omega)

/-- Behind some of what stands before the word. -/
theorem First.drop {n p : ℕ} (h : First word text p) (hn : n ≤ p) :
    First word (text.drop n) (p - n) := by
  refine ⟨?_, fun q hq => ?_⟩
  · rw [drop_drop, Nat.add_sub_cancel' hn]
    exact h.here
  · rw [drop_drop]
    exact h.before _ (by omega)

section Find

variable [DecidableEq α]

/-- `text.find(word)`. -/
def find (word : List α) : List α → Option ℕ
  | [] => if word = [] then some 0 else none
  | c :: text => if word <+: c :: text then some 0 else (find word text).map (· + 1)

theorem find_eq_none {word text : List α} (h : find word text = none) (q : ℕ) : ¬ word <+: text.drop q := by
  induction text generalizing q with
  | nil =>
    rw [find] at h
    split at h
    · cases h
    · next hne =>
      rw [drop_nil, prefix_nil]
      exact hne
  | cons c text ih =>
    rw [find] at h
    split at h
    · cases h
    · next hc =>
      cases q with
      | zero => exact hc
      | succ q => exact ih (Option.map_eq_none_iff.mp h) q

theorem first_of_find {word text : List α} {p : ℕ} (h : find word text = some p) : First word text p := by
  induction text generalizing p with
  | nil =>
    rw [find] at h
    split at h
    · next hword =>
      obtain rfl := Option.some.inj h
      exact .zero (hword ▸ nil_prefix)
    · cases h
  | cons c text ih =>
    rw [find] at h
    split at h
    · next hc =>
      obtain rfl := Option.some.inj h
      exact .zero hc
    · next hc =>
      obtain ⟨q, hq, rfl⟩ := Option.map_eq_some_iff.mp h
      exact .cons hc (ih hq)

/-- **A part of the text**: the word is found when all of it has come. -/
theorem First.find_append {word text more : List α} {p : ℕ} (hne : word ≠ []) (h : First word (text ++ more) p) :
    find word text = if p + word.length ≤ text.length then some p else none := by
  have hlength := length_pos_iff.mpr hne
  have hup : ∀ q, word <+: text.drop q → p ≤ q ∧ q + word.length ≤ text.length := by
    intro q hq
    have hle := hq.length_le
    rw [length_drop] at hle
    refine ⟨?_, by omega⟩
    by_contra hlt
    refine h.before q (by omega) ?_
    rw [drop_append_of_le_length (by omega)]
    exact hq.trans (prefix_append _ _)
  cases hfind : find word text with
  | none =>
    rw [if_neg]
    intro hle
    refine find_eq_none hfind p ?_
    have hhere := h.here
    rw [drop_append_of_le_length (by omega)] at hhere
    exact prefix_of_prefix_length_le hhere (prefix_append _ _) (by rw [length_drop]; omega)
  | some q =>
    have hq := first_of_find hfind
    obtain ⟨hpq, hlen⟩ := hup q hq.here
    have hle : p + word.length ≤ text.length := by omega
    rw [if_pos hle]
    have hhere := h.here
    rw [drop_append_of_le_length (by omega)] at hhere
    have hp : word <+: text.drop p :=
      prefix_of_prefix_length_le hhere (prefix_append _ _) (by rw [length_drop]; omega)
    have hqp : q ≤ p := by
      by_contra hlt
      exact hq.before p (by omega) hp
    rw [le_antisymm hqp hpq]

end Find

end Mitaka
