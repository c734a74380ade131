/-
  Subject: Runs of a system given by a step function.

  `step s a` is the state after action `a`, or `none` when the action is not enabled.
  `Reach step P s t`: a run from `s` to `t` whose actions all meet the condition `P`
  in the state they start from. An invariant that every such action keeps holds at
  the end of the run (`Reach.invariant`). A concrete run is given by its actions
  (`Reach.of_replay`).
-/
import Mathlib

namespace Mitaka

variable {σ α : Type*} {step : σ → α → Option σ} {P Q : σ → α → Prop} {s t u : σ}

/-- The states that runs with actions meeting `P` reach from `s`. -/
inductive Reach (step : σ → α → Option σ) (P : σ → α → Prop) (s : σ) : σ → Prop
  | refl : Reach step P s s
  | tail {t u : σ} {a : α} : Reach step P s t → P t a → step t a = some u → Reach step P s u

namespace Reach

/-- **What every action keeps holds at the end.** -/
theorem invariant {I : σ → Prop} (h : Reach step P s t) (h0 : I s)
    (hstep : ∀ t a u, I t → P t a → step t a = some u → I u) : I t := by
  induction h with
  | refl => exact h0
  | tail _ hp hs ih => exact hstep _ _ _ ih hp hs

theorem mono (h : Reach step P s t) (hPQ : ∀ t a, P t a → Q t a) : Reach step Q s t :=
  h.invariant refl fun _ _ _ ht hp hs => ht.tail (hPQ _ _ hp) hs

theorem trans (h : Reach step P s t) (h' : Reach step P t u) : Reach step P s u :=
  h'.invariant h fun _ _ _ ht hp hs => ht.tail hp hs

end Reach

/-- The actions in order, each only where it meets `P`. -/
def replay (step : σ → α → Option σ) (P : σ → α → Prop) [∀ s a, Decidable (P s a)] (s : σ)
    (as : List α) : Option σ :=
  as.foldlM (fun s a => if P s a then step s a else none) s

theorem Reach.of_replay [∀ s a, Decidable (P s a)] {as : List α} (h : replay step P s as = some t) :
    Reach step P s t := by
  induction as generalizing s with
  | nil => exact Option.some.inj h ▸ Reach.refl
  | cons a as ih =>
    rw [replay, List.foldlM_cons] at h
    obtain ⟨u, hu, h⟩ := Option.bind_eq_some_iff.mp h
    by_cases hp : P s a
    · rw [if_pos hp] at hu
      exact (Reach.refl.tail hp hu).trans (ih h)
    · rw [if_neg hp] at hu
      cases hu

end Mitaka
