/-
  Subject: What the files of one object directory stand for, in the abstract:
           four newest timestamps, the object state they select, and when a
           part of the files says all that the whole says.

  The summary of a union is the join of the summaries, so replication is a join.
  `Covers k a` is the condition on what a clean-up may keep of `a`: nothing
  newer than the watermark (the newest data file or tombstone) is lost.
  **`view_join_of_covers`**: whatever arrives later from elsewhere, the kept part
  selects the same state.
-/
import Mathlib

namespace Mitaka.Swift

variable {α : Type*} [LinearOrder α]

/-- Newest data file, tombstone, metadata file and content type; `⊥` for none. -/
@[ext] structure Summary (α : Type*) where
  dataTs : α
  tombTs : α
  metaTs : α
  ctypeTs : α
  deriving DecidableEq

/-- The state of an object; `⊥` for none. -/
@[ext] structure ObjectState (α : Type*) where
  dataTs : α
  tombTs : α
  metaTs : α
  ctypeTs : α
  deriving DecidableEq

namespace Summary

/-- Two directories brought together. -/
def join (a b : Summary α) : Summary α :=
  ⟨a.dataTs ⊔ b.dataTs, a.tombTs ⊔ b.tombTs, a.metaTs ⊔ b.metaTs, a.ctypeTs ⊔ b.ctypeTs⟩

/-- The newest file that hides older ones. -/
def watermark (a : Summary α) : α := a.dataTs ⊔ a.tombTs

/-- The object is there when its newest data file is newer than every
    tombstone; older metadata does not count, the content type may come from the
    data file itself. -/
def view [OrderBot α] (a : Summary α) : ObjectState α :=
  if a.tombTs < a.dataTs then
    ⟨a.dataTs, ⊥, if a.dataTs < a.metaTs then a.metaTs else ⊥, a.dataTs ⊔ a.ctypeTs⟩
  else ⟨⊥, a.tombTs, ⊥, ⊥⟩

/-- The part `k` says all that `a` says. -/
structure Covers (k a : Summary α) : Prop where
  data_le : k.dataTs ≤ a.dataTs
  ts_le : k.tombTs ≤ a.tombTs
  meta_le : k.metaTs ≤ a.metaTs
  ctype_le : k.ctypeTs ≤ a.ctypeTs
  data_eq : a.tombTs < a.dataTs → k.dataTs = a.dataTs
  ts_eq : a.dataTs ≤ a.tombTs → k.tombTs = a.tombTs
  meta_eq : a.watermark < a.metaTs → k.metaTs = a.metaTs
  ctype_eq : a.watermark < a.ctypeTs → k.ctypeTs = a.ctypeTs

variable {k a : Summary α}

/-- A value that counts past the newest data file is the same in both. -/
theorem join_eq_of_newer {x x' y w d : α} (hle : x' ≤ x) (heq : w < x → x' = x) (hd : w ≤ d) :
    d < x ⊔ y → x' ⊔ y = x ⊔ y := by
  intro h
  rcases lt_sup_iff.mp h with hx | hy
  · rw [heq (hd.trans_lt hx)]
  · by_cases hw : w < x
    · rw [heq hw]
    · have hxy : x ≤ y := ((not_lt.mp hw).trans hd).trans hy.le
      rw [sup_eq_right.mpr hxy, sup_eq_right.mpr (hle.trans hxy)]

/-- The winner among data files and tombstones is the same. -/
theorem Covers.winner (h : Covers k a) (b : Summary α) :
    ((a.join b).tombTs < (a.join b).dataTs → (k.join b).tombTs < (k.join b).dataTs ∧
      (k.join b).dataTs = (a.join b).dataTs ∧ a.watermark ≤ (a.join b).dataTs) ∧
    (¬ (a.join b).tombTs < (a.join b).dataTs → ¬ (k.join b).tombTs < (k.join b).dataTs ∧
      (k.join b).tombTs = (a.join b).tombTs) := by
  simp only [join, watermark]
  by_cases hlive : a.tombTs < a.dataTs
  · rw [h.data_eq hlive]
    refine ⟨fun hw => ⟨(sup_le_sup_right h.ts_le _).trans_lt hw, rfl,
      sup_le le_sup_left (hlive.le.trans le_sup_left)⟩, fun hw => ?_⟩
    -- the tombstone of `b` is newer than every data file, so it is newer than `a.tombTs`
    have hb : a.dataTs ⊔ b.dataTs ≤ b.tombTs := by
      rcases le_sup_iff.mp (not_lt.mp hw) with h1 | h1
      · exact absurd (le_sup_left.trans h1) (not_le.mpr hlive)
      · exact h1
    have hab : a.tombTs ≤ b.tombTs := hlive.le.trans (le_sup_left.trans hb)
    rw [sup_eq_right.mpr hab, sup_eq_right.mpr (h.ts_le.trans hab)]
    exact ⟨not_lt.mpr hb, rfl⟩
  · have hdead := not_lt.mp hlive
    rw [h.ts_eq hdead]
    refine ⟨fun hw => ?_, fun hw => ⟨fun hk => hw (hk.trans_le (sup_le_sup_right h.data_le _)), rfl⟩⟩
    have hb : a.tombTs ⊔ b.tombTs < b.dataTs := by
      rcases lt_sup_iff.mp hw with h1 | h1
      · exact absurd h1 (not_lt.mpr (hdead.trans le_sup_left))
      · exact h1
    have hab : a.dataTs ≤ b.dataTs := hdead.trans (le_sup_left.trans hb.le)
    rw [sup_eq_right.mpr hab, sup_eq_right.mpr (h.data_le.trans hab)]
    exact ⟨hb, rfl, sup_le hab (le_sup_left.trans hb.le)⟩

/-- **A covering part selects the same state, whatever is joined to it.** -/
theorem view_join_of_covers [OrderBot α] (h : Covers k a) (b : Summary α) :
    (k.join b).view = (a.join b).view := by
  obtain ⟨hlive, hdead⟩ := h.winner b
  unfold view
  by_cases hw : (a.join b).tombTs < (a.join b).dataTs
  · obtain ⟨hk, hdata, hwm⟩ := hlive hw
    rw [if_pos hw, if_pos hk, hdata]
    have hmeta := join_eq_of_newer (y := b.metaTs) h.meta_le h.meta_eq hwm
    have hctype := join_eq_of_newer (y := b.ctypeTs) h.ctype_le h.ctype_eq hwm
    have hm : (if (a.join b).dataTs < (k.join b).metaTs then (k.join b).metaTs else ⊥) =
        if (a.join b).dataTs < (a.join b).metaTs then (a.join b).metaTs else ⊥ := by
      by_cases hn : (a.join b).dataTs < (a.join b).metaTs
      · have e : (k.join b).metaTs = (a.join b).metaTs := hmeta hn
        rw [e]
      · have hle : (k.join b).metaTs ≤ (a.join b).metaTs := sup_le_sup_right h.meta_le _
        rw [if_neg hn, if_neg fun h' => hn (h'.trans_le hle)]
    have hc : (a.join b).dataTs ⊔ (k.join b).ctypeTs = (a.join b).dataTs ⊔ (a.join b).ctypeTs := by
      by_cases hn : (a.join b).dataTs < (a.join b).ctypeTs
      · have e : (k.join b).ctypeTs = (a.join b).ctypeTs := hctype hn
        rw [e]
      · have hle : (k.join b).ctypeTs ≤ (a.join b).ctypeTs := sup_le_sup_right h.ctype_le _
        rw [sup_eq_left.mpr (not_lt.mp hn), sup_eq_left.mpr (hle.trans (not_lt.mp hn))]
    rw [hm, hc]
  · obtain ⟨hk, hts⟩ := hdead hw
    rw [if_neg hw, if_neg hk, hts]

end Summary

end Mitaka.Swift
