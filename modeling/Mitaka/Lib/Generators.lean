/-
  Subject: Generators that are resumed, thrown into and closed, and what their driver sees.

  A generator is a body with the driver's protocol around it: a body that has not been started
  or has ended is not resumed, and closing is the injection of a `GeneratorExit` whose outcome
  is judged. Two bodies that agree on every resumption, and on what closing makes of a
  `GeneratorExit`, show the same to every driver (`Body.Agree.run`).
-/
import Mathlib

namespace Mitaka.Generators

universe u

variable {V E S Γ : Type u}

/-- The exceptions; a `StopIteration` that leaves a generator is its return. -/
inductive Exc (E : Type u) : Type u
  | generatorExit
  | runtimeError
  | other (e : E)
deriving DecidableEq

/-- How a suspended generator is resumed. -/
inductive Resume (E : Type u) : Type u
  | next
  | throw (e : Exc E)
deriving DecidableEq

/-- What a generator does when it is resumed. -/
inductive Response (V E : Type u) : Type u
  | yields (v : V)
  | returns
  | raises (e : Exc E)
deriving DecidableEq

/-- The exception that `close()` raises, by the response to a `GeneratorExit`. -/
def Response.closing : Response V E → Option (Exc E)
  | .yields _ => some .runtimeError
  | .returns => none
  | .raises .generatorExit => none
  | .raises e => some e

/-- How control leaves a body; a body that yields is suspended at a point of it. -/
inductive Leave (S V E : Type u) : Type u
  | yields (v : V) (point : S)
  | returns
  | raises (e : Exc E)
deriving DecidableEq

/-- The body of a generator, over an environment. A run of it may not end. -/
structure Body (S V E Γ : Type u) where
  start : Γ → Option (Leave S V E × Γ)
  resume : S → Resume E → Γ → Option (Leave S V E × Γ)

/-- Where a generator is. -/
inductive Status (S : Type u) : Type u
  | fresh
  | suspended (point : S)
  | finished
deriving DecidableEq

/-- What a driver does. -/
inductive Action (E : Type u) : Type u
  | next
  | throw (e : Exc E)
  | close
deriving DecidableEq

/-- What a driver sees. -/
inductive Shown (V E : Type u) : Type u
  | yields (v : V)
  | stops
  | raises (e : Exc E)
  | closes
deriving DecidableEq

/-- What is seen of a resumption. -/
def Leave.shown : Leave S V E → Shown V E × Status S
  | .yields v point => (.yields v, .suspended point)
  | .returns => (.stops, .finished)
  | .raises e => (.raises e, .finished)

/-- What is seen of a closing. A body that yields stays where it is. -/
def Leave.closed : Leave S V E → Shown V E × Status S
  | .yields _ point => (.raises .runtimeError, .suspended point)
  | .returns => (.closes, .finished)
  | .raises .generatorExit => (.closes, .finished)
  | .raises e => (.raises e, .finished)

/-- One action of the driver. -/
def Body.act (body : Body S V E Γ) : Status S → Action E → Γ → Option ((Shown V E × Status S) × Γ)
  | .fresh, .next, γ => (body.start γ).map fun x => (x.1.shown, x.2)
  | .fresh, .throw e, γ => some ((.raises e, .finished), γ)
  | .fresh, .close, γ => some ((.closes, .finished), γ)
  | .suspended point, .next, γ => (body.resume point .next γ).map fun x => (x.1.shown, x.2)
  | .suspended point, .throw e, γ => (body.resume point (.throw e) γ).map fun x => (x.1.shown, x.2)
  | .suspended point, .close, γ => (body.resume point (.throw .generatorExit) γ).map fun x => (x.1.closed, x.2)
  | .finished, .next, γ => some ((.stops, .finished), γ)
  | .finished, .throw e, γ => some ((.raises e, .finished), γ)
  | .finished, .close, γ => some ((.closes, .finished), γ)

/-- A run of the driver: what it sees, and what is left. -/
def Body.run (body : Body S V E Γ) : List (Action E) → Status S → Γ → Option (List (Shown V E) × Status S × Γ)
  | [], status, γ => some ([], status, γ)
  | action :: actions, status, γ =>
    match body.act status action γ with
    | none => none
    | some ((shown, status), γ) => (body.run actions status γ).map fun x => (shown :: x.1, x.2)

/-- Bodies that differ at most in how they end on a `GeneratorExit`. -/
structure Body.Agree (body body' : Body S V E Γ) : Prop where
  start : ∀ γ, body.start γ = body'.start γ
  next : ∀ point γ, body.resume point .next γ = body'.resume point .next γ
  throw : ∀ point e γ, e ≠ .generatorExit → body.resume point (.throw e) γ = body'.resume point (.throw e) γ
  exit : ∀ point γ, (body.resume point (.throw .generatorExit) γ).map (fun x => (x.1.closed, x.2)) =
    (body'.resume point (.throw .generatorExit) γ).map fun x => (x.1.closed, x.2)

/-- **One action** of the driver sees the same of bodies that agree. -/
theorem Body.Agree.act {body body' : Body S V E Γ} (h : body.Agree body') (status : Status S) {action : Action E}
    (haction : action ≠ .throw .generatorExit) (γ : Γ) : body.act status action γ = body'.act status action γ := by
  cases status with
  | fresh =>
    cases action with
    | next => rw [Body.act, Body.act, h.start]
    | throw e => rfl
    | close => rfl
  | suspended point =>
    cases action with
    | next => rw [Body.act, Body.act, h.next]
    | throw e => rw [Body.act, Body.act, h.throw point e γ fun he => haction (he ▸ rfl)]
    | close => exact h.exit point γ
  | finished => cases action <;> rfl

/-- **Every driver** sees the same of bodies that agree. -/
theorem Body.Agree.run {body body' : Body S V E Γ} (h : body.Agree body') {actions : List (Action E)}
    (hactions : .throw .generatorExit ∉ actions) (status : Status S) (γ : Γ) :
    body.run actions status γ = body'.run actions status γ := by
  induction actions generalizing status γ with
  | nil => rfl
  | cons action actions ih =>
    rw [List.mem_cons, not_or] at hactions
    rw [Body.run, Body.run, h.act status (fun he => hactions.1 he.symm)]
    cases body'.act status action γ with
    | none => rfl
    | some x =>
      dsimp only
      rw [ih hactions.2]

end Mitaka.Generators
