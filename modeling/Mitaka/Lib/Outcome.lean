/-
  Subject: What holds when a computation that may raise has ended, either way.

  `Finishes P Q x` says that the result of `x` has `P`, or the exception it raised has `Q`.
  The rules follow the ways of putting computations together.
-/
import Mathlib

namespace Mitaka

universe u v

variable {ε : Type v} {α β σ : Type u}

/-- The result has `P`, or the exception has `Q`. -/
def Finishes (P : α → Prop) (Q : ε → Prop) : Except ε α → Prop
  | .ok a => P a
  | .error e => Q e

namespace Finishes

variable {P : α → Prop} {Q : ε → Prop} {x : Except ε α}

theorem mono {P' : α → Prop} {Q' : ε → Prop} (h : Finishes P Q x) (hP : ∀ a, P a → P' a) (hQ : ∀ e, Q e → Q' e) :
    Finishes P' Q' x := by
  cases x with
  | ok a => exact hP a h
  | error e => exact hQ e h

theorem map {R : β → Prop} {f : α → β} (h : Finishes P Q x) (hf : ∀ a, P a → R (f a)) : Finishes R Q (x.map f) := by
  cases x with
  | ok a => exact hf a h
  | error e => exact h

/-- **One after the other.** -/
theorem bind {R : β → Prop} {f : α → Except ε β} (h : Finishes P Q x) (hf : ∀ a, P a → Finishes R Q (f a)) :
    Finishes R Q (x >>= f) := by
  cases x with
  | ok a => exact hf a h
  | error e => exact h

/-- **A loop** ends with what each of its steps keeps. -/
theorem foldlM {I : σ → Prop} {g : σ → α → Except ε σ} {l : List α}
    (hstep : ∀ a ∈ l, ∀ s, I s → Finishes I Q (g s a)) {s : σ} (hs : I s) : Finishes I Q (l.foldlM g s) := by
  induction l generalizing s with
  | nil => exact hs
  | cons a l ih =>
    rw [List.foldlM_cons]
    exact (hstep a List.mem_cons_self s hs).bind fun s' hs' =>
      ih (fun b hb => hstep b (List.mem_cons_of_mem _ hb)) hs'

end Finishes

end Mitaka
