/-
  Subject: Aligned blocks of numbers.

  A block of level `k` is a class of `a / 2 ^ k`. Two blocks with a common number are
  nested (`Block.Has.nested`). In a list that is compact (no two halves of one block are
  both listed) a block whose numbers are all covered lies inside one of the listed blocks
  (`Compact.exists_covers`).
  `decompose S` lists the greatest blocks of a set inside a given one; the list is exact,
  disjoint and compact (`decompose_spec`).
  A list has a set once when each number of the set lies in one block (`Once`), and tiles an
  interval when it has it once (`Tiles`).
-/
import Mathlib

namespace Mitaka

/-- The numbers `a` with `a / 2 ^ level = index`. -/
structure Block where
  level : ℕ
  index : ℕ
  deriving DecidableEq, Repr

/-- **Masking all but the low bits** leaves the multiple below. -/
theorem and_high_bits {x w k mask : ℕ} (hx : x < 2 ^ w) (hmask : ∀ i < w, mask.testBit i = decide (k ≤ i)) :
    x &&& mask = x / 2 ^ k * 2 ^ k := by
  refine Nat.eq_of_testBit_eq fun i => ?_
  rw [Nat.testBit_and, Nat.testBit_mul_two_pow, Nat.testBit_div_two_pow]
  by_cases hw : i < w
  · rw [hmask i hw]
    by_cases hk : k ≤ i
    · rw [Nat.sub_add_cancel hk, Bool.and_comm]
    · rw [decide_eq_false hk, Bool.false_and, Bool.and_false]
  · have hzero : x.testBit i = false :=
      Nat.testBit_lt_two_pow (hx.trans_le (Nat.pow_le_pow_right Nat.two_pos (not_lt.mp hw)))
    rw [hzero, Bool.false_and]
    by_cases hk : k ≤ i
    · rw [Nat.sub_add_cancel hk, hzero, Bool.and_false]
    · rw [decide_eq_false hk, Bool.false_and]

namespace Block

def Has (b : Block) (a : ℕ) : Prop := a / 2 ^ b.level = b.index

instance (b : Block) (a : ℕ) : Decidable (b.Has a) := inferInstanceAs (Decidable (_ = _))

/-! ## 1. Nested blocks -/

theorem has_first (b : Block) : b.Has (b.index * 2 ^ b.level) :=
  Nat.mul_div_cancel _ (Nat.two_pow_pos _)

variable {b c : Block} {a : ℕ}

/-- **Blocks with a common number are nested.** -/
theorem Has.nested (hb : b.Has a) (hc : c.Has a) (hle : b.level ≤ c.level) {x : ℕ} (hx : b.Has x) :
    c.Has x := by
  obtain ⟨d, hd⟩ := Nat.exists_eq_add_of_le hle
  rw [Has, hd, Nat.pow_add, ← Nat.div_div_eq_div_mul] at hc ⊢
  rw [Has] at hb hx
  rw [hx, ← hb, hc]

theorem Has.eq (hb : b.Has a) (hc : c.Has a) (h : b.level = c.level) : b = c := by
  obtain ⟨k, i⟩ := b
  obtain ⟨m, j⟩ := c
  obtain rfl : k = m := h
  exact congrArg (mk k) (hb.symm.trans hc)

/-- A block is its two halves. -/
theorem has_succ {k i a : ℕ} : (mk (k + 1) i).Has a ↔ (mk k (2 * i)).Has a ∨ (mk k (2 * i + 1)).Has a := by
  rw [Has, Has, Has, Nat.pow_succ, ← Nat.div_div_eq_div_mul]
  dsimp only
  omega

/-- `b` lies inside `c`. -/
def Sub (b c : Block) : Prop := b.level ≤ c.level ∧ c.Has (b.index * 2 ^ b.level)

instance (b c : Block) : Decidable (b.Sub c) := inferInstanceAs (Decidable (_ ∧ _))

theorem Sub.has (h : b.Sub c) (ha : b.Has a) : c.Has a := b.has_first.nested h.2 h.1 ha

/-- Blocks with a common number: one lies inside the other. -/
theorem Has.sub_or_sub (hb : b.Has a) (hc : c.Has a) : b.Sub c ∨ c.Sub b :=
  (Nat.le_total b.level c.level).imp (fun h => ⟨h, hb.nested hc h b.has_first⟩) fun h => ⟨h, hc.nested hb h c.has_first⟩

theorem Sub.of_zero {i : ℕ} {c : Block} (h : c.Sub ⟨0, i⟩) : (mk 0 i).Sub c := by
  have heq : c = ⟨0, i⟩ := c.has_first.eq h.2 (Nat.le_zero.mp h.1)
  rw [heq] at h ⊢
  exact h

/-- No two halves of one block are both listed. -/
def Compact (l : List Block) : Prop := ∀ k i, mk k (2 * i) ∈ l → mk k (2 * i + 1) ∉ l

/-- **A covered block lies inside one of the listed blocks.** -/
theorem Compact.exists_covers {l : List Block} (h : Compact l) (b : Block) (hb : ∀ a, b.Has a → ∃ c ∈ l, c.Has a) :
    ∃ c ∈ l, b.level ≤ c.level ∧ ∀ a, b.Has a → c.Has a := by
  obtain ⟨k, i⟩ := b
  induction k generalizing i with
  | zero =>
    obtain ⟨c, hc, hhas⟩ := hb _ (has_first ⟨0, i⟩)
    exact ⟨c, hc, Nat.zero_le _, fun a ha => (has_first ⟨0, i⟩).nested hhas (Nat.zero_le _) ha⟩
  | succ k ih =>
    obtain ⟨c, hc, hle, hhas⟩ := ih (2 * i) fun a ha => hb a (has_succ.mpr (.inl ha))
    obtain ⟨d, hd, hle', hhas'⟩ := ih (2 * i + 1) fun a ha => hb a (has_succ.mpr (.inr ha))
    have hl := hhas _ (has_first ⟨k, 2 * i⟩)
    have hr := hhas' _ (has_first ⟨k, 2 * i + 1⟩)
    rcases Nat.lt_or_eq_of_le hle with hlt | heq
    · exact ⟨c, hc, hlt, fun a ha => (has_succ.mpr (.inl (has_first ⟨k, 2 * i⟩))).nested hl hlt ha⟩
    rcases Nat.lt_or_eq_of_le hle' with hlt | heq'
    · exact ⟨d, hd, hlt, fun a ha => (has_succ.mpr (.inr (has_first ⟨k, 2 * i + 1⟩))).nested hr hlt ha⟩
    -- both halves would be listed
    · rw [← (has_first ⟨k, 2 * i⟩).eq hl heq] at hc
      rw [← (has_first ⟨k, 2 * i + 1⟩).eq hr heq'] at hd
      exact absurd hd (h k i hc)

/-! ## 2. The greatest blocks of a set -/

/-- Two halves become the block. -/
def merge (k i : ℕ) (l r : List Block) : List Block :=
  if l = [⟨k, 2 * i⟩] ∧ r = [⟨k, 2 * i + 1⟩] then [⟨k + 1, i⟩] else l ++ r

/-- The greatest blocks inside `⟨k, i⟩` of a set, given by tests for the blocks that lie in it and outside it. -/
def decompose (inside outside : Block → Bool) : ℕ → ℕ → List Block
  | 0, i => if inside ⟨0, i⟩ then [⟨0, i⟩] else []
  | k + 1, i =>
    if inside ⟨k + 1, i⟩ then [⟨k + 1, i⟩]
    else if outside ⟨k + 1, i⟩ then []
    else merge k i (decompose inside outside k (2 * i)) (decompose inside outside k (2 * i + 1))

/-- What the list promises for the numbers of `b` in `S`. -/
structure Decomposes (S : ℕ → Prop) (b : Block) (l : List Block) : Prop where
  exact : ∀ a, (∃ c ∈ l, c.Has a) ↔ b.Has a ∧ S a
  level : ∀ c ∈ l, c.level ≤ b.level
  disjoint : l.Pairwise fun c d => ∀ a, c.Has a → ¬ d.Has a
  compact : Compact l

variable {S : ℕ → Prop}

variable {b : Block}

theorem Decomposes.single (h : ∀ a, b.Has a → S a) : Decomposes S b [b] where
  exact a := by
    rw [List.exists_mem_cons_iff]
    exact ⟨fun ha => ha.elim (fun ha => ⟨ha, h a ha⟩) nofun, fun ha => .inl ha.1⟩
  level c hc := by rw [List.mem_singleton.mp hc]
  disjoint := List.pairwise_singleton _ _
  compact k i hl hr := by
    have := (List.mem_singleton.mp hl).trans (List.mem_singleton.mp hr).symm
    rw [mk.injEq] at this
    omega

theorem Decomposes.nil (h : ∀ a, b.Has a → ¬ S a) : Decomposes S b [] where
  exact a := ⟨nofun, fun ha => absurd ha.2 (h a ha.1)⟩
  level := nofun
  disjoint := List.Pairwise.nil
  compact _ _ := nofun

theorem Decomposes.sub {l : List Block} (h : Decomposes S b l) {c : Block} (hc : c ∈ l)
    (ha : c.Has a) : b.Has a := ((h.exact a).mp ⟨c, hc, ha⟩).1

/-- A list with the whole block has no other. -/
theorem Decomposes.eq_single {l : List Block} (h : Decomposes S b l) (hb : b ∈ l) : l = [b] := by
  obtain ⟨l₁, l₂, rfl⟩ := List.append_of_mem hb
  obtain ⟨-, hd₂, hd₁⟩ := List.pairwise_append.mp h.disjoint
  have h₁ : l₁ = [] := List.eq_nil_iff_forall_not_mem.mpr fun c hc =>
    hd₁ c hc b List.mem_cons_self _ c.has_first (h.sub (List.mem_append_left _ hc) c.has_first)
  have h₂ : l₂ = [] := List.eq_nil_iff_forall_not_mem.mpr fun c hc =>
    (List.pairwise_cons.mp hd₂).1 c hc _
      (h.sub (List.mem_append_right _ (List.mem_cons_of_mem _ hc)) c.has_first) c.has_first
  rw [h₁, h₂, List.nil_append]

/-- Halves of one block, one in each half of another: it is the same block. -/
theorem halves {k i m j : ℕ} (hl : (mk k (2 * i)).Has (2 * j * 2 ^ m)) (hr : (mk k (2 * i + 1)).Has ((2 * j + 1) * 2 ^ m))
    (hle : m ≤ k) : m = k ∧ j = i := by
  rw [Has] at hl hr
  dsimp only at hl hr
  rcases Nat.lt_or_eq_of_le hle with hlt | rfl
  · -- a smaller block lies in one half
    obtain ⟨d, rfl⟩ := Nat.exists_eq_add_of_lt hlt
    rw [Nat.add_assoc, Nat.pow_add, ← Nat.div_div_eq_div_mul, Nat.mul_div_cancel _ (Nat.two_pow_pos m), Nat.pow_succ',
      ← Nat.div_div_eq_div_mul] at hl hr
    rw [show 2 * j / 2 = j by omega] at hl
    rw [show (2 * j + 1) / 2 = j by omega] at hr
    omega
  · rw [Nat.mul_div_cancel _ (Nat.two_pow_pos _)] at hl
    exact ⟨rfl, by omega⟩

theorem Decomposes.merge {k i : ℕ} {l r : List Block} (hl : Decomposes S ⟨k, 2 * i⟩ l)
    (hr : Decomposes S ⟨k, 2 * i + 1⟩ r) : Decomposes S ⟨k + 1, i⟩ (merge k i l r) := by
  rw [Block.merge]
  split
  next h =>
    obtain ⟨rfl, rfl⟩ := h
    refine .single fun a ha => ?_
    rcases has_succ.mp ha with ha | ha
    · exact ((hl.exact a).mp ⟨_, List.mem_singleton_self _, ha⟩).2
    · exact ((hr.exact a).mp ⟨_, List.mem_singleton_self _, ha⟩).2
  next h =>
    constructor
    · intro a
      rw [has_succ, or_and_right, ← hl.exact, ← hr.exact]
      constructor
      · rintro ⟨c, hc, ha⟩
        exact (List.mem_append.mp hc).imp (fun hc => ⟨c, hc, ha⟩) fun hc => ⟨c, hc, ha⟩
      · rintro (⟨c, hc, ha⟩ | ⟨c, hc, ha⟩)
        · exact ⟨c, List.mem_append_left _ hc, ha⟩
        · exact ⟨c, List.mem_append_right _ hc, ha⟩
    · intro c hc
      rcases List.mem_append.mp hc with hc | hc
      · exact Nat.le_succ_of_le (hl.level c hc)
      · exact Nat.le_succ_of_le (hr.level c hc)
    · refine List.pairwise_append.mpr ⟨hl.disjoint, hr.disjoint, fun c hc d hd a hca hda => ?_⟩
      have heq := (hl.sub hc hca).eq (hr.sub hd hda) rfl
      rw [mk.injEq] at heq
      omega
    · intro m j hmem hmem'
      rcases List.mem_append.mp hmem with hmem | hmem <;> rcases List.mem_append.mp hmem' with hmem' | hmem'
      · exact hl.compact m j hmem hmem'
      · obtain ⟨rfl, rfl⟩ := halves (hl.sub hmem (has_first _)) (hr.sub hmem' (has_first _)) (hl.level _ hmem)
        exact h ⟨hl.eq_single hmem, hr.eq_single hmem'⟩
      · -- the left half of a block does not come after its right half
        have h₁ := hr.sub hmem (has_first _)
        have h₂ := hl.sub hmem' (has_first _)
        have hle : 2 * j * 2 ^ m / 2 ^ k ≤ (2 * j + 1) * 2 ^ m / 2 ^ k :=
          Nat.div_le_div_right (Nat.mul_le_mul_right _ (Nat.le_succ _))
        rw [Has] at h₁ h₂
        dsimp only at h₁ h₂
        omega
      · exact hr.compact m j hmem hmem'

/-- **The list decomposes the set** when the tests are sound and one of them holds of a single number. -/
theorem decompose_spec {inside outside : Block → Bool} (hin : ∀ b, inside b → ∀ a, b.Has a → S a)
    (hout : ∀ b, outside b → ∀ a, b.Has a → ¬ S a) (hzero : ∀ i, inside ⟨0, i⟩ ∨ outside ⟨0, i⟩) (k i : ℕ) :
    Decomposes S ⟨k, i⟩ (decompose inside outside k i) := by
  induction k generalizing i with
  | zero =>
    rw [decompose]
    split
    next h => exact .single (hin _ h)
    next h => exact .nil (hout _ ((hzero i).resolve_left h))
  | succ k ih =>
    rw [decompose]
    split
    next h => exact .single (hin _ h)
    next => split
            next h => exact .nil (hout _ h)
            next => exact (ih (2 * i)).merge (ih (2 * i + 1))

/-! ## 3. Lists with each number of a set in one block -/

/-- Each number of the set lies in one of the blocks, once, and no other number does. -/
def Once (l : List Block) (S : Set ℕ) : Prop :=
  ∀ a, (a ∈ S → l.countP (fun b => b.Has a) = 1) ∧ (a ∉ S → l.countP (fun b => b.Has a) = 0)

/-- The block as a set. -/
def toSet (b : Block) : Set ℕ := {a | b.Has a}

theorem toSet_eq (b : Block) : b.toSet = Set.Ico (b.index * 2 ^ b.level) ((b.index + 1) * 2 ^ b.level) := by
  ext a
  show a / 2 ^ b.level = b.index ↔ _
  rw [Nat.div_eq_iff (Nat.two_pow_pos _), Set.mem_Ico, Nat.add_one_mul, Nat.lt_iff_le_pred (by positivity)]

/-- A block is its two halves. -/
theorem toSet_halves (k i : ℕ) : (mk (k + 1) i).toSet = (mk k (2 * i)).toSet ∪ (mk k (2 * i + 1)).toSet :=
  Set.ext fun _ => has_succ

section Once

variable {l r : List Block} {S T : Set ℕ}

theorem once_nil : Once [] ∅ := fun a => ⟨fun h => absurd h (Set.notMem_empty a), fun _ => rfl⟩

variable {b : Block}

theorem Once.cons (h : Once l S) (hb : Disjoint b.toSet S) : Once (b :: l) (b.toSet ∪ S) := by
  intro a
  rw [List.countP_cons]
  by_cases ha : b.Has a
  · have hnot : a ∉ S := Set.disjoint_left.mp hb ha
    rw [(h a).2 hnot, if_pos (decide_eq_true ha)]
    exact ⟨fun _ => rfl, fun hout => absurd (Or.inl ha) hout⟩
  · rw [if_neg (by rw [decide_eq_true_eq]; exact ha), Nat.add_zero]
    exact ⟨fun hin => (h a).1 (hin.resolve_left ha), fun hout => (h a).2 fun hin => hout (Or.inr hin)⟩

theorem once_singleton (b : Block) : Once [b] b.toSet := by
  have hcons := once_nil.cons (Set.disjoint_empty b.toSet)
  rwa [Set.union_empty] at hcons

theorem Once.perm (h : Once l S) (hp : l.Perm r) : Once r S := by
  intro a
  rw [← hp.countP_eq]
  exact h a

theorem Once.append (hl : Once l S) (hr : Once r T) (hST : Disjoint S T) : Once (l ++ r) (S ∪ T) := by
  intro a
  rw [List.countP_append]
  constructor
  · rintro (hS | hT)
    · rw [(hl a).1 hS, (hr a).2 (Set.disjoint_left.mp hST hS)]
    · rw [(hl a).2 (Set.disjoint_right.mp hST hT), (hr a).1 hT]
  · intro hout
    rw [(hl a).2 fun hS => hout (Or.inl hS), (hr a).2 fun hT => hout (Or.inr hT)]

theorem Once.exists_has (h : Once l S) {a : ℕ} : (∃ b ∈ l, b.Has a) ↔ a ∈ S := by
  have hpos : (∃ b ∈ l, b.Has a) ↔ 0 < l.countP (fun b => b.Has a) := by
    simp only [List.countP_pos_iff, decide_eq_true_eq]
  rw [hpos]
  by_cases ha : a ∈ S
  · rw [(h a).1 ha]
    exact iff_of_true Nat.one_pos ha
  · rw [(h a).2 ha]
    exact iff_of_false (Nat.lt_irrefl 0) ha

/-- **Without one of the blocks**, its numbers are not covered. -/
theorem Once.of_cons (h : Once (b :: l) S) : Once l (S \ b.toSet) := by
  intro a
  obtain ⟨hin, hout⟩ := h a
  rw [List.countP_cons] at hin hout
  by_cases ha : b.Has a
  · have hS : a ∈ S := h.exists_has.mp ⟨b, List.mem_cons_self, ha⟩
    rw [if_pos (decide_eq_true ha)] at hin
    exact ⟨fun hd => absurd ha hd.2, fun _ => Nat.succ.inj (hin hS)⟩
  · rw [if_neg (by rw [decide_eq_true_eq]; exact ha), Nat.add_zero] at hin hout
    exact ⟨fun hd => hin hd.1, fun hd => hout fun hS => hd ⟨hS, ha⟩⟩

theorem Once.erase (h : Once l S) (hb : b ∈ l) : Once (l.erase b) (S \ b.toSet) :=
  (h.perm (List.perm_cons_erase hb)).of_cons

theorem Once.subset (h : Once l S) (hb : b ∈ l) : b.toSet ⊆ S := fun _ ha => h.exists_has.mp ⟨b, hb, ha⟩

/-- No two blocks of the list have a common number. -/
theorem Once.pairwise (h : Once l S) : l.Pairwise fun b c => Disjoint b.toSet c.toSet := by
  induction l generalizing S with
  | nil => exact List.Pairwise.nil
  | cons b l ih =>
    refine List.Pairwise.cons (fun c hc => ?_) (ih h.of_cons)
    exact Set.disjoint_left.mpr fun a hab hac => (h.of_cons.subset hc hac).2 hab

end Once

/-- Each number from `lo` up to `hi` lies in one of the blocks. -/
abbrev Tiles (l : List Block) (lo hi : ℕ) : Prop := Once l (Set.Ico lo hi)

theorem tiles_single (b : Block) : Tiles [b] (b.index * 2 ^ b.level) ((b.index + 1) * 2 ^ b.level) := by
  have hsingle := once_singleton b
  rwa [b.toSet_eq] at hsingle

theorem Tiles.append {l r : List Block} {lo mid hi : ℕ} (hl : Tiles l lo mid) (hr : Tiles r mid hi) (hlo : lo ≤ mid)
    (hhi : mid ≤ hi) : Tiles (l ++ r) lo hi := by
  have happend := Once.append hl hr (Set.Ico_disjoint_Ico_same)
  rwa [Set.Ico_union_Ico_eq_Ico hlo hhi] at happend

end Block

end Mitaka
