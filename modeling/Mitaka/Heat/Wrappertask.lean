/-
  Subject: heat/engine/scheduler.py, `wrappertask`.

  A task yields nothing or a subtask, which the wrapper runs in its place. The tasks are
  arbitrary: what a task does when it is resumed depends on a world that all of them share,
  and every resumption is recorded. `wrapper` is the code; `delegation` is the task with
  `yield from` in place of its yields. They differ in one place: when a `GeneratorExit`
  reaches the task, the wrapper closes it, where the delegation goes on with what it answers.
-/
import Mitaka.Lib.Generators

namespace Mitaka.Heat

open Generators

/-! ## 1. Tasks -/

universe u

variable {ι V E W : Type u}

/-- A parent and its subtasks, in a world that they change. -/
structure Tasks (ι V E W : Type u) where
  parent : W → Resume E → Response (Option ι) E × W
  subtask : ι → W → Resume E → Response V E × W

/-- A resumption of the parent or of a subtask. -/
inductive Call (ι E : Type u) : Type u
  | parent (r : Resume E)
  | subtask (i : ι) (r : Resume E)
deriving DecidableEq

/-- The world, and the resumptions so far. -/
structure Env (ι E W : Type u) where
  world : W
  calls : List (Call ι E)
deriving DecidableEq

namespace Tasks

variable (tasks : Tasks ι V E W)

def resumeParent (env : Env ι E W) (r : Resume E) : Response (Option ι) E × Env ι E W :=
  ((tasks.parent env.world r).1, ⟨(tasks.parent env.world r).2, env.calls ++ [.parent r]⟩)

def resumeSubtask (i : ι) (env : Env ι E W) (r : Resume E) : Response V E × Env ι E W :=
  ((tasks.subtask i env.world r).1, ⟨(tasks.subtask i env.world r).2, env.calls ++ [.subtask i r]⟩)

/-- `subtask.close()`: the exception that it raises. -/
def closeSubtask (i : ι) (env : Env ι E W) : Option (Exc E) × Env ι E W :=
  ((tasks.resumeSubtask i env (.throw .generatorExit)).1.closing, (tasks.resumeSubtask i env (.throw .generatorExit)).2)

/-- `parent.close()` -/
def closeParent (env : Env ι E W) : Option (Exc E) × Env ι E W :=
  ((tasks.resumeParent env (.throw .generatorExit)).1.closing, (tasks.resumeParent env (.throw .generatorExit)).2)

end Tasks

/-! ## 2. The wrapper -/

/-- Where the wrapper is suspended: at `yield step`, or at the bare `yield`. -/
inductive Point (ι : Type u) : Type u
  | step (subtask : ι)
  | bare
deriving DecidableEq

/-- What a run of the wrapper comes to. -/
abbrev WrapperOutcome (ι V E W : Type u) := Option (Leave (Point ι) (Option V) E × Env ι E W)

section Wrapper

variable (tasks : Tasks ι V E W) (loop : Env ι E W → Option ι → WrapperOutcome ι V E W)

/-- `subtask = next(parent)` or `subtask = parent.throw(...)`, with what follows it: the parent
    has ended, or the loop goes on with the subtask. -/
def afterParent : Response (Option ι) E × Env ι E W → WrapperOutcome ι V E W
  | (.yields subtask, env) => loop env subtask
  | (.returns, env) => some (.returns, env)
  | (.raises e, env) => some (.raises e, env)

/-- The `except` clauses of the outer `try`. -/
def exceptClause (env : Env ι E W) : Exc E → WrapperOutcome ι V E W
  | .generatorExit =>
    match tasks.closeParent env with
    | (some e, env) => some (.raises e, env)
    | (none, env) => some (.raises .generatorExit, env)
  | e => afterParent loop (tasks.resumeParent env (.throw e))

/-- The `else` clause of the outer `try`. -/
def elseClause (env : Env ι E W) : WrapperOutcome ι V E W := afterParent loop (tasks.resumeParent env .next)

/-- What follows a resumption of the subtask: it has made a step, has ended, or has raised. -/
def afterSubtask (subtask : ι) : Response V E × Env ι E W → WrapperOutcome ι V E W
  | (.yields step, env) => some (.yields (some step) (.step subtask), env)
  | (.returns, env) => elseClause tasks loop env
  | (.raises e, env) => exceptClause tasks loop env e

end Wrapper

/-- The `while True` loop; it may go round for ever with subtasks that end at once. -/
def wrapperLoop (tasks : Tasks ι V E W) : ℕ → Env ι E W → Option ι → WrapperOutcome ι V E W
  | 0, _, _ => none
  | _ + 1, env, none => some (.yields none .bare, env)
  | fuel + 1, env, some subtask =>
    afterSubtask tasks (wrapperLoop tasks fuel) subtask (tasks.resumeSubtask subtask env .next)

/-- The wrapper, resumed where it is suspended. -/
def wrapperResume (tasks : Tasks ι V E W) (fuel : ℕ) : Point ι → Resume E → Env ι E W → WrapperOutcome ι V E W
  | .step subtask, .throw .generatorExit, env =>
    -- what closing raises takes the place of the `GeneratorExit`
    exceptClause tasks (wrapperLoop tasks fuel) (tasks.closeSubtask subtask env).2
      ((tasks.closeSubtask subtask env).1.getD .generatorExit)
  | .step subtask, .throw e, env =>
    afterSubtask tasks (wrapperLoop tasks fuel) subtask (tasks.resumeSubtask subtask env (.throw e))
  | .step subtask, .next, env => afterSubtask tasks (wrapperLoop tasks fuel) subtask (tasks.resumeSubtask subtask env .next)
  | .bare, .throw e, env => exceptClause tasks (wrapperLoop tasks fuel) env e
  | .bare, .next, env => elseClause tasks (wrapperLoop tasks fuel) env

/-- `wrappertask`. -/
def wrapper (tasks : Tasks ι V E W) (fuel : ℕ) : Body (Point ι) (Option V) E (Env ι E W) where
  start env := afterParent (wrapperLoop tasks fuel) (tasks.resumeParent env .next)
  resume := wrapperResume tasks fuel

/-! ## 3. Delegation -/

/-- What follows a resumption of the subtask inside `yield from`: a step goes to the driver, and the
    end, or what is raised, to the task that delegates. -/
def afterFrom (body : Env ι E W → Resume E → WrapperOutcome ι V E W) (subtask : ι) : Response V E × Env ι E W → WrapperOutcome ι V E W
  | (.yields step, env) => some (.yields (some step) (.step subtask), env)
  | (.returns, env) => body env .next
  | (.raises e, env) => body env (.throw e)

/-- The task that delegates has yielded nothing, or is at `yield from subtask`. -/
def delegationLoop (tasks : Tasks ι V E W) : ℕ → Env ι E W → Option ι → WrapperOutcome ι V E W
  | 0, _, _ => none
  | _ + 1, env, none => some (.yields none .bare, env)
  | fuel + 1, env, some subtask =>
    afterFrom (fun env r => afterParent (delegationLoop tasks fuel) (tasks.resumeParent env r)) subtask
      (tasks.resumeSubtask subtask env .next)

/-- The task that delegates, resumed in its own body. -/
def delegationBody (tasks : Tasks ι V E W) (fuel : ℕ) (env : Env ι E W) (r : Resume E) : WrapperOutcome ι V E W :=
  afterParent (delegationLoop tasks fuel) (tasks.resumeParent env r)

/-- The delegation, resumed where it is suspended: `yield from` closes the subtask on a
    `GeneratorExit`, and passes on everything else. -/
def delegationResume (tasks : Tasks ι V E W) (fuel : ℕ) : Point ι → Resume E → Env ι E W → WrapperOutcome ι V E W
  | .step subtask, .throw .generatorExit, env =>
    delegationBody tasks fuel (tasks.closeSubtask subtask env).2
      (.throw ((tasks.closeSubtask subtask env).1.getD .generatorExit))
  | .step subtask, r, env => afterFrom (delegationBody tasks fuel) subtask (tasks.resumeSubtask subtask env r)
  | .bare, r, env => delegationBody tasks fuel env r

/-- The task with `yield from` in place of its yields. -/
def delegation (tasks : Tasks ι V E W) (fuel : ℕ) : Body (Point ι) (Option V) E (Env ι E W) where
  start env := delegationBody tasks fuel env .next
  resume := delegationResume tasks fuel

/-! ## 4. The wrapper delegates -/

section Agreement

variable {tasks : Tasks ι V E W} {loop : Env ι E W → Option ι → WrapperOutcome ι V E W} {env : Env ι E W}

/-- The parent does not answer a `GeneratorExit` with a yield. -/
def Tasks.ParentExits (tasks : Tasks ι V E W) : Prop :=
  ∀ w subtask, (tasks.parent w (.throw .generatorExit)).1 ≠ .yields subtask

/-- A subtask raises a `GeneratorExit` only when it is closed. -/
def Tasks.SubtasksStay (tasks : Tasks ι V E W) : Prop :=
  ∀ i w r, r ≠ .throw .generatorExit → (tasks.subtask i w r).1 ≠ .raises .generatorExit

/-- **An exception** goes to the parent. -/
theorem exceptClause_eq {e : Exc E} (he : e ≠ .generatorExit) :
    exceptClause tasks loop env e = afterParent loop (tasks.resumeParent env (.throw e)) := by
  cases e with
  | generatorExit => exact absurd rfl he
  | runtimeError => rfl
  | other e => rfl

/-- **A `GeneratorExit`** ends the parent, and is judged the same as its answer. -/
theorem exceptClause_generatorExit (hparent : tasks.ParentExits) :
    (exceptClause tasks loop env .generatorExit).map (fun x => (x.1.closed, x.2)) =
      (afterParent loop (tasks.resumeParent env (.throw .generatorExit))).map fun x => (x.1.closed, x.2) := by
  have hanswer : ∀ subtask, (tasks.resumeParent env (.throw .generatorExit)).1 ≠ .yields subtask := hparent env.world
  unfold exceptClause Tasks.closeParent
  generalize tasks.resumeParent env (.throw .generatorExit) = x at hanswer
  obtain ⟨response, env'⟩ := x
  cases response with
  | yields subtask => exact absurd rfl (hanswer subtask)
  | returns => rfl
  | raises e => cases e <;> rfl

/-- **A resumption of the subtask** is followed by the same. -/
theorem afterSubtask_eq (hsubtasks : tasks.SubtasksStay) {r : Resume E} (hr : r ≠ .throw .generatorExit) (subtask : ι) :
    afterSubtask tasks loop subtask (tasks.resumeSubtask subtask env r) =
      afterFrom (fun env r => afterParent loop (tasks.resumeParent env r)) subtask (tasks.resumeSubtask subtask env r) := by
  have hstay : (tasks.resumeSubtask subtask env r).1 ≠ .raises .generatorExit := hsubtasks subtask env.world r hr
  generalize tasks.resumeSubtask subtask env r = x at hstay
  obtain ⟨response, env'⟩ := x
  cases response with
  | yields step => rfl
  | returns => rfl
  | raises e => exact exceptClause_eq fun he => hstay (he ▸ rfl)

/-- **The loop** is the delegation's. -/
theorem wrapperLoop_eq (hsubtasks : tasks.SubtasksStay) (fuel : ℕ) : wrapperLoop tasks fuel = delegationLoop tasks fuel := by
  induction fuel with
  | zero => rfl
  | succ fuel ih =>
    funext env subtask
    cases subtask with
    | none => rfl
    | some subtask =>
      rw [wrapperLoop, delegationLoop, ih]
      exact afterSubtask_eq hsubtasks (r := .next) nofun subtask

/-- **The wrapper and the delegation** agree on every resumption. -/
theorem wrapper_agree (hparent : tasks.ParentExits) (hsubtasks : tasks.SubtasksStay) (fuel : ℕ) :
    (wrapper tasks fuel).Agree (delegation tasks fuel) := by
  have hloop := wrapperLoop_eq hsubtasks fuel
  have hexit : ∀ env e, (exceptClause tasks (wrapperLoop tasks fuel) env e).map (fun x => (x.1.closed, x.2)) =
      (delegationBody tasks fuel env (.throw e)).map fun x => (x.1.closed, x.2) := by
    intro env e
    rw [delegationBody, ← hloop]
    cases e with
    | generatorExit => exact exceptClause_generatorExit hparent
    | runtimeError => rfl
    | other e => rfl
  refine ⟨fun env => ?_, fun point env => ?_, fun point e env he => ?_, fun point env => ?_⟩
  · exact congrArg (fun loop => afterParent loop (tasks.resumeParent env .next)) hloop
  · cases point with
    | step subtask => exact (afterSubtask_eq hsubtasks (r := .next) nofun subtask).trans (by rw [hloop]; rfl)
    | bare => exact congrArg (fun loop => afterParent loop (tasks.resumeParent env .next)) hloop
  · cases point with
    | step subtask =>
      have hr : Resume.throw e ≠ .throw .generatorExit := fun h => he (Resume.throw.inj h)
      have hwrapper : (wrapper tasks fuel).resume (.step subtask) (.throw e) env =
          afterSubtask tasks (wrapperLoop tasks fuel) subtask (tasks.resumeSubtask subtask env (.throw e)) := by
        cases e with
        | generatorExit => exact absurd rfl he
        | runtimeError => rfl
        | other e => rfl
      have hdelegation : (delegation tasks fuel).resume (.step subtask) (.throw e) env =
          afterFrom (delegationBody tasks fuel) subtask (tasks.resumeSubtask subtask env (.throw e)) := by
        cases e with
        | generatorExit => exact absurd rfl he
        | runtimeError => rfl
        | other e => rfl
      rw [hwrapper, hdelegation, afterSubtask_eq hsubtasks hr, hloop]
      rfl
    | bare => exact (exceptClause_eq he).trans (by rw [hloop]; rfl)
  · cases point with
    | step subtask =>
      -- what closing the subtask raises goes to the parent as any exception does
      exact hexit _ _
    | bare => exact hexit env .generatorExit

/-- **The wrapper delegates**: every driver sees of it what it sees of the delegation, and the parent
    and the subtasks are resumed with the same in the same order. -/
theorem wrapper_delegates (hparent : tasks.ParentExits) (hsubtasks : tasks.SubtasksStay) {actions : List (Action E)}
    (hactions : .throw .generatorExit ∉ actions) (fuel : ℕ) (w : W) :
    (wrapper tasks fuel).run actions .fresh ⟨w, []⟩ = (delegation tasks fuel).run actions .fresh ⟨w, []⟩ :=
  (wrapper_agree hparent hsubtasks fuel).run hactions .fresh ⟨w, []⟩

end Agreement

/-! ## 5. Two parents -/

/-- A parent that runs a subtask and returns when it is closed; the subtask makes two steps and
    swallows what is thrown into it. -/
def steps : Tasks Unit Unit Unit ℕ where
  parent w r :=
    match r with
    | .next => if w = 0 then (.yields (some ()), 1) else (.returns, w)
    | .throw .generatorExit => (.returns, w)
    | .throw e => (.raises e, w)
  subtask _ w r :=
    match r with
    | .throw .generatorExit => (.raises .generatorExit, w)
    | _ => if w < 3 then (.yields (), w + 1) else (.returns, w)

theorem wrapper_delegates_steps :
    (wrapper steps 3).run [.next, .throw (.other ()), .close, .next] .fresh ⟨0, []⟩ =
      (delegation steps 3).run [.next, .throw (.other ()), .close, .next] .fresh ⟨0, []⟩ :=
  wrapper_delegates (show steps.ParentExits from fun _ _ => nofun)
    (fun i w r hr => by
      rcases r with _ | e
      · simp only [steps]
        split <;> nofun
      · cases e with
        | generatorExit => exact absurd rfl hr
        | _ =>
          simp only [steps]
          split <;> nofun)
    (by decide) 3 0

/-- A parent that answers a `GeneratorExit` with a subtask that cleans up at once. -/
def cleanup : Tasks Unit Unit Unit ℕ where
  parent w r :=
    match r with
    | .next => if w = 0 then (.yields none, 1) else (.returns, w)
    | .throw .generatorExit => (.yields (some ()), 2)
    | .throw e => (.raises e, w)
  subtask _ w _ := (.returns, w)

/-- A parent that returns on a `GeneratorExit`, with a subtask that raises one by itself. -/
def leaving : Tasks Unit Unit Unit ℕ where
  parent w r :=
    match r with
    | .next => if w = 0 then (.yields (some ()), 1) else (.returns, w)
    | .throw _ => (.returns, w)
  subtask _ w _ := (.raises .generatorExit, w)

/-- **Where they differ.** A cleanup that the parent yields is run by the delegation, and by the wrapper
    it is not; and a `GeneratorExit` that comes from the driver, or from a subtask, leaves the wrapper
    although the parent has swallowed it. -/
theorem wrapper_generatorExit :
    (wrapper cleanup 3).run [.next, .close] .fresh ⟨0, []⟩ =
        some ([.yields none, .raises .runtimeError], .finished, ⟨2, [.parent .next, .parent (.throw .generatorExit)]⟩) ∧
      (delegation cleanup 3).run [.next, .close] .fresh ⟨0, []⟩ =
        some ([.yields none, .closes], .finished,
          ⟨2, [.parent .next, .parent (.throw .generatorExit), .subtask () .next, .parent .next]⟩) ∧
      ((wrapper steps 3).run [.next, .throw .generatorExit] .fresh ⟨0, []⟩).map Prod.fst =
        some [.yields (some ()), .raises .generatorExit] ∧
      ((delegation steps 3).run [.next, .throw .generatorExit] .fresh ⟨0, []⟩).map Prod.fst = some [.yields (some ()), .stops] ∧
      ((wrapper leaving 3).run [.next] .fresh ⟨0, []⟩).map Prod.fst = some [.raises .generatorExit] ∧
      ((delegation leaving 3).run [.next] .fresh ⟨0, []⟩).map Prod.fst = some [.stops] :=
  ⟨rfl, rfl, rfl, rfl, rfl, rfl⟩

end Mitaka.Heat
