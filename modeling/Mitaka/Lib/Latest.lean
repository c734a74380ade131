/-
  Subject: Last-writer-wins records with three timestamps, merged one by one.

  An entry is a triple of timestamps with what goes with the first. `Latest C s a`
  says that the record (s, a) is what the entries `C` amount to: `s` is the least
  upper bound of their timestamps, component by component, and `a` goes with an
  entry of the newest first component.

  The rules say how `Latest` grows with the entries; by `Latest.unique` the entries
  alone decide the record, when entries of one first timestamp agree. So merging in
  any order, grouping and repetition gives one result.
-/
import Mathlib

namespace Mitaka

variable {τ β γ α : Type*} [LinearOrder τ] [LinearOrder β] [LinearOrder γ]

/-- The record (s, a) is the outcome of the entries `C`. -/
structure Latest (C : Set ((τ × β × γ) × α)) (s : τ × β × γ) (a : α) : Prop where
  upper : ∀ c ∈ C, c.1 ≤ s
  first : ∃ c ∈ C, c.1.1 = s.1 ∧ c.2 = a
  second : ∃ c ∈ C, c.1.2.1 = s.2.1
  third : ∃ c ∈ C, c.1.2.2 = s.2.2

/-- Entries of one first timestamp agree on what goes with it. -/
def Agree (C : Set ((τ × β × γ) × α)) : Prop := ∀ c ∈ C, ∀ d ∈ C, c.1.1 = d.1.1 → c.2 = d.2

namespace Latest

variable {C D : Set ((τ × β × γ) × α)} {s t : τ × β × γ} {a b : α}

theorem singleton (s : τ × β × γ) (a : α) : Latest {(s, a)} s a where
  upper c hc := by rw [Set.mem_singleton_iff.mp hc]
  first := ⟨(s, a), rfl, rfl, rfl⟩
  second := ⟨(s, a), rfl, rfl⟩
  third := ⟨(s, a), rfl, rfl⟩

/-- **Joining two outcomes**: on a tie the first one keeps its attributes. -/
theorem union (h : Latest C s a) (h' : Latest D t b) :
    Latest (C ∪ D) (s ⊔ t) (if t.1 ≤ s.1 then a else b) := by
  obtain ⟨c1, hc1, e1, ea⟩ := h.first
  obtain ⟨c2, hc2, e2⟩ := h.second
  obtain ⟨c3, hc3, e3⟩ := h.third
  obtain ⟨d1, hd1, f1, fb⟩ := h'.first
  obtain ⟨d2, hd2, f2⟩ := h'.second
  obtain ⟨d3, hd3, f3⟩ := h'.third
  refine ⟨fun c hc => ?_, ?_, ?_, ?_⟩
  · rcases hc with hc | hc
    · exact (h.upper c hc).trans le_sup_left
    · exact (h'.upper c hc).trans le_sup_right
  · by_cases hle : t.1 ≤ s.1
    · exact ⟨c1, Or.inl hc1, e1.trans (sup_eq_left.mpr hle).symm, by rw [if_pos hle, ea]⟩
    · exact ⟨d1, Or.inr hd1, f1.trans (sup_eq_right.mpr (not_le.mp hle).le).symm,
        by rw [if_neg hle, fb]⟩
  · rcases le_total t.2.1 s.2.1 with hle | hle
    · exact ⟨c2, Or.inl hc2, e2.trans (sup_eq_left.mpr hle).symm⟩
    · exact ⟨d2, Or.inr hd2, f2.trans (sup_eq_right.mpr hle).symm⟩
  · rcases le_total t.2.2 s.2.2 with hle | hle
    · exact ⟨c3, Or.inl hc3, e3.trans (sup_eq_left.mpr hle).symm⟩
    · exact ⟨d3, Or.inr hd3, f3.trans (sup_eq_right.mpr hle).symm⟩

/-- Entries below the outcome change nothing. -/
theorem absorb (h : Latest C s a) (hD : ∀ c ∈ D, c.1 ≤ s) : Latest (C ∪ D) s a := by
  obtain ⟨c1, hc1, e1⟩ := h.first
  obtain ⟨c2, hc2, e2⟩ := h.second
  obtain ⟨c3, hc3, e3⟩ := h.third
  exact ⟨fun c hc => hc.elim (h.upper c) (hD c), ⟨c1, Or.inl hc1, e1⟩, ⟨c2, Or.inl hc2, e2⟩,
    ⟨c3, Or.inl hc3, e3⟩⟩

/-- **An outcome may stand for its entries.** -/
theorem flatten (h : Latest ({(t, b)} ∪ D) s a) (ht : Latest C t b) : Latest (C ∪ D) s a := by
  have hts : t ≤ s := h.upper (t, b) (Or.inl rfl)
  refine ⟨fun c hc => hc.elim (fun hc => (ht.upper c hc).trans hts) (fun hc => h.upper c (Or.inr hc)),
    ?_, ?_, ?_⟩
  · obtain ⟨c, hc | hc, e, ea⟩ := h.first
    · obtain rfl := Set.mem_singleton_iff.mp hc
      obtain ⟨d, hd, f, fb⟩ := ht.first
      exact ⟨d, Or.inl hd, f.trans e, fb.trans ea⟩
    · exact ⟨c, Or.inr hc, e, ea⟩
  · obtain ⟨c, hc | hc, e⟩ := h.second
    · obtain rfl := Set.mem_singleton_iff.mp hc
      obtain ⟨d, hd, f⟩ := ht.second
      exact ⟨d, Or.inl hd, f.trans e⟩
    · exact ⟨c, Or.inr hc, e⟩
  · obtain ⟨c, hc | hc, e⟩ := h.third
    · obtain rfl := Set.mem_singleton_iff.mp hc
      obtain ⟨d, hd, f⟩ := ht.third
      exact ⟨d, Or.inl hd, f.trans e⟩
    · exact ⟨c, Or.inr hc, e⟩

/-- The timestamps are the least upper bound of the entries'. -/
theorem le_of_upper (h : Latest C s a) (ht : ∀ c ∈ C, c.1 ≤ t) : s ≤ t := by
  obtain ⟨c1, hc1, e1, -⟩ := h.first
  obtain ⟨c2, hc2, e2⟩ := h.second
  obtain ⟨c3, hc3, e3⟩ := h.third
  exact ⟨e1 ▸ (ht c1 hc1).1, e2 ▸ (ht c2 hc2).2.1, e3 ▸ (ht c3 hc3).2.2⟩

/-- **The entries decide the outcome.** -/
theorem unique (hC : Agree C) (h : Latest C s a) (h' : Latest C t b) : s = t ∧ a = b := by
  have hst : s = t := le_antisymm (h.le_of_upper h'.upper) (h'.le_of_upper h.upper)
  obtain ⟨c, hc, e, ea⟩ := h.first
  obtain ⟨d, hd, f, fb⟩ := h'.first
  refine ⟨hst, ?_⟩
  rw [← ea, ← fb]
  exact hC c hc d hd (by rw [e, f, hst])

end Latest

end Mitaka
