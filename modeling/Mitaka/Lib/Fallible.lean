/-
  Subject: When a computation that may fail succeeds.

  One rule for each way of putting computations together; with `simp only` they turn the
  success of a program into the success of its parts.
-/
import Mathlib

namespace Mitaka.Fallible

open List

universe u v

variable {ε : Type v} {α β σ : Type u} {x : Except ε α} {f : α → Except ε β} {a : α} {b : β} {e : ε} {p : Prop} [Decidable p]

/-- **The parts of a computation that succeeds.** -/
theorem bind_eq_ok : x >>= f = .ok b ↔ ∃ a, x = .ok a ∧ f a = .ok b := by
  cases x with
  | error e => exact ⟨nofun, nofun⟩
  | ok a =>
    refine ⟨fun h => ⟨a, rfl, h⟩, ?_⟩
    rintro ⟨_, ha, h⟩
    cases ha
    exact h

theorem error_ite_eq_ok : (if p then .error e else x) = .ok a ↔ ¬ p ∧ x = .ok a := by
  by_cases hp : p
  · rw [if_pos hp]
    exact ⟨nofun, fun h => absurd hp h.1⟩
  · rw [if_neg hp]
    exact ⟨fun h => ⟨hp, h⟩, fun h => h.2⟩

theorem ite_error_eq_ok : (if p then x else .error e) = .ok a ↔ p ∧ x = .ok a := by
  by_cases hp : p
  · rw [if_pos hp]
    exact ⟨fun h => ⟨hp, h⟩, fun h => h.2⟩
  · rw [if_neg hp]
    exact ⟨nofun, fun h => absurd h.1 hp⟩

variable {g : σ → α → Except ε σ} {l : List α}

/-- **A fold that keeps a property** and gives each element another one, which the later ones keep. -/
theorem foldlM_keeps {I : σ → Prop} {Q : α → σ → Prop}
    (hstep : ∀ s, I s → ∀ a ∈ l, ∃ s', g s a = .ok s' ∧ I s' ∧ Q a s' ∧ ∀ b, Q b s → Q b s') {s : σ} (hs : I s) :
    ∃ s', l.foldlM g s = .ok s' ∧ I s' ∧ (∀ a ∈ l, Q a s') ∧ ∀ b, Q b s → Q b s' := by
  induction l generalizing s with
  | nil => exact ⟨s, rfl, hs, nofun, fun _ => id⟩
  | cons a l ih =>
    obtain ⟨s', hg, hs', ha, hkeep⟩ := hstep s hs a mem_cons_self
    obtain ⟨s'', hl, hs'', hall, hkeep'⟩ := ih (fun s hs b hb => hstep s hs b (mem_cons_of_mem _ hb)) hs'
    refine ⟨s'', ?_, hs'', fun b hb => ?_, fun b hb => hkeep' b (hkeep b hb)⟩
    · rw [foldlM_cons, hg]
      exact hl
    · rcases mem_cons.mp hb with rfl | hb
      · exact hkeep' _ ha
      · exact hall b hb

/-- **A fold that succeeds** keeps what its steps keep. -/
theorem foldlM_invariant {I : σ → Prop}
    (hstep : ∀ a ∈ l, ∀ s s', I s → g s a = .ok s' → I s') {s s' : σ} (hs : I s) (h : l.foldlM g s = .ok s') : I s' := by
  induction l generalizing s with
  | nil => exact (Except.ok.inj h) ▸ hs
  | cons a l ih =>
    rw [foldlM_cons] at h
    obtain ⟨s₁, ha, hl⟩ := bind_eq_ok.mp h
    exact ih (fun b hb => hstep b (mem_cons_of_mem _ hb)) (hstep a mem_cons_self s s₁ hs ha) hl

/-- **A fold whose steps commute** ends in the same state in every order, where it succeeds in one. -/
theorem foldlM_perm
    (hcomm : ∀ s a b s₁ s₂, g s a = .ok s₁ → g s₁ b = .ok s₂ → ∃ s₁', g s b = .ok s₁' ∧ g s₁' a = .ok s₂)
    {l l' : List α} (hl : l.Perm l') {s s' : σ} (h : l.foldlM g s = .ok s') : l'.foldlM g s = .ok s' := by
  induction hl generalizing s with
  | nil => exact h
  | cons a _ ih =>
    rw [foldlM_cons] at h ⊢
    obtain ⟨s₁, ha, h⟩ := bind_eq_ok.mp h
    exact bind_eq_ok.mpr ⟨s₁, ha, ih h⟩
  | swap a b l =>
    rw [foldlM_cons] at h ⊢
    obtain ⟨s₁, hb, h⟩ := bind_eq_ok.mp h
    rw [foldlM_cons] at h
    obtain ⟨s₂, ha, h⟩ := bind_eq_ok.mp h
    obtain ⟨s₁', ha', hb'⟩ := hcomm s b a s₁ s₂ hb ha
    refine bind_eq_ok.mpr ⟨s₁', ha', ?_⟩
    rw [foldlM_cons]
    exact bind_eq_ok.mpr ⟨s₂, hb', h⟩
  | trans _ _ ih ih' => exact ih' (ih h)

/-- The elements of a list that succeeded, each with its result. -/
theorem forall₂_of_mapM {f : α → Except ε β} {l' : List β} (h : l.mapM f = .ok l') :
    Forall₂ (fun a b => f a = .ok b) l l' := by
  induction l generalizing l' with
  | nil => exact (Except.ok.inj h) ▸ .nil
  | cons a l ih =>
    rw [mapM_cons] at h
    obtain ⟨b, hb, h⟩ := bind_eq_ok.mp h
    obtain ⟨bs, hbs, h⟩ := bind_eq_ok.mp h
    exact (Except.ok.inj h) ▸ .cons hb (ih hbs)

theorem exists_of_forall₂_left {R : α → β → Prop} {l' : List β} (h : Forall₂ R l l') (ha : a ∈ l) :
    ∃ b, R a b := by
  induction h with
  | nil => cases ha
  | cons hab _ ih =>
    rcases mem_cons.mp ha with rfl | ha
    · exact ⟨_, hab⟩
    · exact ih ha

/-- A list whose elements all succeed. -/
theorem mapM_pure {m : Type u → Type v} [Monad m] [LawfulMonad m] {f : α → m β} {g : α → β}
    (h : ∀ a ∈ l, f a = pure (g a)) : l.mapM f = pure (l.map g) := by
  induction l with
  | nil => rfl
  | cons a l ih =>
    rw [mapM_cons, h a mem_cons_self, ih fun b hb => h b (mem_cons_of_mem _ hb), pure_bind, pure_bind]
    rfl

variable {f : α → Option β}

/-- A list with an element that fails. -/
theorem mapM_eq_none {a : α} (ha : a ∈ l) (h : f a = none) : l.mapM f = none := by
  induction l with
  | nil => exact absurd ha not_mem_nil
  | cons b l ih =>
    rw [mapM_cons]
    rcases mem_cons.mp ha with rfl | ha
    · rw [h]
      rfl
    · rw [ih ha]
      cases f b <;> rfl

/-- What a list comes to, element by element. -/
theorem mem_mapM {l' : List β} (h : l.mapM f = some l') {y : β} :
    y ∈ l' ↔ ∃ x ∈ l, f x = some y := by
  induction l generalizing l' with
  | nil =>
    obtain rfl := Option.some.inj h
    exact iff_of_false not_mem_nil fun ⟨_, hx, _⟩ => not_mem_nil hx
  | cons x l ih =>
    rw [mapM_cons] at h
    obtain ⟨z, hz, h⟩ := Option.bind_eq_some_iff.mp h
    obtain ⟨m, hm, h⟩ := Option.bind_eq_some_iff.mp h
    obtain rfl := Option.some.inj h
    rw [mem_cons, ih hm, exists_mem_cons_iff, hz, Option.some_inj, eq_comm]

theorem mapM_isSome : (l.mapM f).isSome = true ↔ ∀ x ∈ l, (f x).isSome = true := by
  induction l with
  | nil => exact iff_of_true rfl nofun
  | cons x l ih =>
    rw [mapM_cons, forall_mem_cons, ← ih]
    cases f x with
    | none => exact iff_of_false nofun fun h => nomatch h.1
    | some y => cases l.mapM f <;> simp

end Mitaka.Fallible
