/-
  Subject: Writing pieces of a list over another list.

  A piece of a list is a position and the part that begins there. Writing pieces of `whole`
  over `t` gives `whole` at the positions they cover and leaves the others
  (`getElem?_overlay`); when what they leave agrees with `whole`, the result begins with it
  (`take_overlay`).
-/
import Mathlib

namespace Mitaka.Overlay

open List

variable {α : Type*} (pad : α)

/-- `s` at position `off` of `t`, padded up to there. -/
def writeAt (t : List α) (off : ℕ) (s : List α) : List α :=
  t.take off ++ replicate (off - t.length) pad ++ s ++ t.drop (off + s.length)

/-- The pieces in order. -/
def overlay (t : List α) (ps : List (ℕ × List α)) : List α := ps.foldl (fun t p => writeAt pad t p.1 p.2) t

/-- A part of `whole` with its position. -/
structure Piece (whole : List α) (p : ℕ × List α) : Prop where
  le : p.1 + p.2.length ≤ whole.length
  eq : p.2 = (whole.drop p.1).take p.2.length

def Covered (ps : List (ℕ × List α)) (j : ℕ) : Prop := ∃ p ∈ ps, p.1 ≤ j ∧ j < p.1 + p.2.length

variable {pad} {t whole : List α} {off : ℕ} {s : List α}

theorem length_writeAt (h : off + s.length ≤ t.length) : (writeAt pad t off s).length = t.length := by
  rw [writeAt, length_append, length_append, length_append, length_take, length_replicate,
    length_drop]
  omega

/-- **Inside what is written, and outside.** -/
theorem getElem?_writeAt (h : off + s.length ≤ t.length) (j : ℕ) :
    (writeAt pad t off s)[j]? = if off ≤ j ∧ j < off + s.length then s[j - off]? else t[j]? := by
  have hpad : off - t.length = 0 := by omega
  have htake : (t.take off).length = off := length_take_of_le (by omega)
  rw [writeAt, hpad, replicate_zero, append_nil, append_assoc]
  by_cases hlow : off ≤ j
  · rw [getElem?_append_right (htake.symm ▸ hlow), htake]
    by_cases hhigh : j < off + s.length
    · rw [if_pos ⟨hlow, hhigh⟩, getElem?_append_left (by omega)]
    · rw [if_neg fun hc => hhigh hc.2, getElem?_append_right (by omega), getElem?_drop]
      congr 1
      omega
  · rw [if_neg fun hc => hlow hc.1, getElem?_append_left (by omega), getElem?_take_of_lt (by omega)]

theorem Piece.getElem? {p : ℕ × List α} (h : Piece whole p) {j : ℕ} (hlow : p.1 ≤ j) (hhigh : j < p.1 + p.2.length) :
    p.2[j - p.1]? = whole[j]? := by
  rw [h.eq, getElem?_take_of_lt (by omega), getElem?_drop]
  congr 1
  omega

variable {ps : List (ℕ × List α)}

theorem length_overlay (hps : ∀ p ∈ ps, Piece whole p) (hlen : whole.length ≤ t.length) :
    (overlay pad t ps).length = t.length := by
  induction ps generalizing t with
  | nil => rfl
  | cons p ps ih =>
    have hp := (hps p mem_cons_self).le.trans hlen
    have hwrite : (writeAt pad t p.1 p.2).length = t.length := length_writeAt hp
    exact (ih (fun q hq => hps q (mem_cons_of_mem _ hq)) (hlen.trans_eq hwrite.symm)).trans hwrite

/-- **Where the pieces are, and elsewhere.** -/
theorem getElem?_overlay (hps : ∀ p ∈ ps, Piece whole p) (hlen : whole.length ≤ t.length) (j : ℕ) :
    (Covered ps j → (overlay pad t ps)[j]? = whole[j]?) ∧ (¬ Covered ps j → (overlay pad t ps)[j]? = t[j]?) := by
  induction ps generalizing t with
  | nil => exact ⟨fun h => (not_mem_nil h.choose_spec.1).elim, fun _ => rfl⟩
  | cons p ps ih =>
    have hpiece := hps p mem_cons_self
    have hp := hpiece.le.trans hlen
    obtain ⟨hin, hout⟩ := ih (t := writeAt pad t p.1 p.2) (fun q hq => hps q (mem_cons_of_mem _ hq))
      (hlen.trans_eq (length_writeAt hp).symm)
    by_cases hrest : Covered ps j
    · refine ⟨fun _ => hin hrest, fun hno => absurd ?_ hno⟩
      obtain ⟨q, hq, hj⟩ := hrest
      exact ⟨q, mem_cons_of_mem _ hq, hj⟩
    · have hstep : (overlay pad t (p :: ps))[j]? = (writeAt pad t p.1 p.2)[j]? := hout hrest
      rw [hstep, getElem?_writeAt hp]
      by_cases hj : p.1 ≤ j ∧ j < p.1 + p.2.length
      · rw [if_pos hj]
        exact ⟨fun _ => hpiece.getElem? hj.1 hj.2, fun hno => absurd ⟨p, mem_cons_self, hj⟩ hno⟩
      · rw [if_neg hj]
        refine ⟨fun ⟨q, hq, hjq⟩ => ?_, fun _ => rfl⟩
        rcases mem_cons.mp hq with rfl | hq
        · exact absurd hjq hj
        · exact absurd ⟨q, hq, hjq⟩ hrest

/-- **The overlay begins with `whole`** when what the pieces leave agrees with it. -/
theorem take_overlay (hps : ∀ p ∈ ps, Piece whole p) (hlen : whole.length ≤ t.length)
    (hrest : ∀ j < whole.length, ¬ Covered ps j → t[j]? = whole[j]?) : (overlay pad t ps).take whole.length = whole := by
  refine ext_getElem? fun j => ?_
  obtain ⟨hin, hout⟩ := @getElem?_overlay _ pad _ _ _ hps hlen j
  by_cases hj : j < whole.length
  · rw [getElem?_take_of_lt hj]
    by_cases hcov : Covered ps j
    · exact hin hcov
    · exact (hout hcov).trans (hrest j hj hcov)
  · rw [getElem?_eq_none (by rw [length_take]; omega), getElem?_eq_none (by omega)]

end Mitaka.Overlay
