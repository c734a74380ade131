/-
  Subject: Stable sorting by a key, newest first, and cutting a sorted list at
           a threshold.

  `sortDesc` is `sorted(l, key=key, reverse=True)`: entries of one key keep
  their order. On a descending list the first entry has the greatest key, and
  the entries before the first one below a threshold are all that reach it.
-/
import Mathlib

namespace Mitaka.Sorting

variable {β κ : Type*} [LinearOrder κ] (key : β → κ)

/-- Keys never increase along the list. -/
def Desc (l : List β) : Prop := l.Pairwise fun a b => key b ≤ key a

/-- Stable descending sort. -/
def sortDesc (l : List β) : List β := l.insertionSort fun a b => key b ≤ key a

instance total : Std.Total fun a b : β => key b ≤ key a := ⟨fun a b => le_total (key b) (key a)⟩

instance isTrans : IsTrans β fun a b => key b ≤ key a := ⟨fun _ _ _ h h' => h'.trans h⟩

theorem desc_sortDesc (l : List β) : Desc key (sortDesc key l) := List.pairwise_insertionSort _ l

theorem sortDesc_perm (l : List β) : (sortDesc key l).Perm l := List.perm_insertionSort _ l

variable {l : List β}

@[simp] theorem mem_sortDesc {x : β} : x ∈ sortDesc key l ↔ x ∈ l :=
  (sortDesc_perm key l).mem_iff

variable {key}

theorem Desc.tail {x : β} (h : Desc key (x :: l)) : Desc key l := (List.pairwise_cons.mp h).2

/-- The head has the greatest key. -/
theorem Desc.le_head {x : β} (h : Desc key (x :: l)) : ∀ y ∈ x :: l, key y ≤ key x := by
  intro y hy
  rcases List.mem_cons.mp hy with rfl | hy
  · exact le_rfl
  · exact (List.pairwise_cons.mp h).1 y hy

theorem Desc.sublist {l l' : List β} (h : Desc key l) (hs : l'.Sublist l) : Desc key l' :=
  List.Pairwise.sublist hs h

/-- Cutting a descending list at a threshold keeps exactly what reaches it. -/
theorem Desc.mem_takeWhile (h : Desc key l) {p : β → Bool}
    (hp : ∀ a b, key b ≤ key a → p b = true → p a = true) {x : β} :
    x ∈ l.takeWhile p ↔ x ∈ l ∧ p x = true := by
  induction l with
  | nil => simp
  | cons y l ih =>
    by_cases hy : p y = true
    · rw [List.takeWhile_cons_of_pos hy, List.mem_cons, List.mem_cons, ih h.tail]
      refine ⟨fun hx => ?_, fun hx => ?_⟩
      · rcases hx with rfl | hx
        · exact ⟨Or.inl rfl, hy⟩
        · exact ⟨Or.inr hx.1, hx.2⟩
      · rcases hx.1 with rfl | hl
        · exact Or.inl rfl
        · exact Or.inr ⟨hl, hx.2⟩
    · -- the head misses the threshold, so every entry behind it does
      rw [List.takeWhile_cons_of_neg hy]
      refine ⟨fun hx => absurd hx List.not_mem_nil, fun hx => absurd ?_ hy⟩
      exact hp y x (h.le_head x hx.1) hx.2

end Mitaka.Sorting
