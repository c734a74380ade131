/-
  Subject: ironic/conductor/task_manager.py: tasks on one node, with `reserve_node` and
           `release_node` of the database and the state machine of ironic/common/fsm.py.

  Every action but the first belongs to one task and reads and writes the row of the node
  and this task only (`TaskAction.run`), each with at most one transaction of the database.
  `run_spec` says once what such an action does to the reservation; exclusiveness and the
  absence of leaks follow from it (`locks_exclusive`).
-/
import Mitaka.Lib.Run

namespace Mitaka.Ironic

/-! ## 1. The state machine -/

/-- The machine of `states.machine`: the transitions of the automaton, and of each state whether it is stable and its
default target. -/
structure Machine (State Event : Type) where
  /-- nothing where the event is not allowed -/
  next : State → Event → Option State
  /-- nothing where the state does not exist -/
  isStable : State → Option Bool
  target : State → Option State

/-- What an instance of the machine holds. -/
structure Fsm (State : Type) where
  current : State
  targetState : Option State
  deriving DecidableEq

section Machine

variable {State Event : Type} [DecidableEq State] (machine : Machine State Event)

/-- `_validate_target_state` accepts. -/
def validTarget (target : Option State) : Bool :=
  match target with
  | none => true
  | some t => machine.isStable t = some true

/-- `FSM.initialize`; nothing where it raises. -/
def fsmInitialize (startState : State) (targetState : Option State) : Option (Fsm State) :=
  if (machine.isStable startState).isNone ∨ validTarget machine targetState = false then none
  else some ⟨startState, targetState.or (machine.target startState)⟩

/-- `_post_process_event`, in the state `current`. -/
def postProcessEvent (targetState : Option State) (current : State) : Option State :=
  let cleared := if targetState = some current then none else targetState
  (machine.target current).or cleared

/-- `FSM.process_event`: the machine it leaves, and whether it returns. A target that is not valid is found after the
transition. -/
def Fsm.processEvent (fsm : Fsm State) (event : Event) (targetState : Option State) : Fsm State × Bool :=
  match machine.next fsm.current event with
  | none => (fsm, false)
  | some current =>
    let moved : Fsm State := ⟨current, postProcessEvent machine fsm.targetState current⟩
    match targetState with
    | none => (moved, true)
    | some target => if validTarget machine (some target) then (⟨current, some target⟩, true) else (moved, false)

end Machine

/-! ## 2. The row and the tasks -/

/-- The row of the node. `none` as provision state is `NOSTATE`. -/
structure Row (State Host : Type) where
  reservation : Option Host
  provisionState : Option State
  targetProvisionState : Option State
  deriving DecidableEq

/-- `objects.Node`, as far as tasks change it. -/
structure Node (State : Type) where
  provisionState : Option State
  targetProvisionState : Option State
  deriving DecidableEq

inductive Phase
  /-- in the constructor -/
  | creating
  /-- in the with block -/
  | inside
  /-- after it, with a worker whose completion calls `_thread_release_resources` -/
  | worker
  | ended
  deriving DecidableEq

structure Task (State Host : Type) where
  host : Host
  shared : Bool
  phase : Phase
  node : Option (Node State)
  fsm : Option (Fsm State)
  /-- `_spawn_method` is set -/
  spawnMethod : Bool
  /-- the states the error hook sets back -/
  onError : Option (Node State)
  deriving DecidableEq

section Database

variable {State Host : Type} [DecidableEq Host]

/-- What `reserve_node` and `release_node` raise. -/
inductive LockError
  | nodeLocked
  | nodeNotLocked
  | nodeNotFound
  deriving DecidableEq

/-- `reserve_node`. -/
def reserveNode (tag : Host) : Option (Row State Host) → Except LockError (Row State Host)
  | none => .error .nodeNotFound
  | some row =>
    match row.reservation with
    | none => .ok { row with reservation := some tag }
    | some _ => .error .nodeLocked

/-- `release_node`. -/
def releaseNode (tag : Host) : Option (Row State Host) → Except LockError (Row State Host)
  | none => .error .nodeNotFound
  | some row =>
    if row.reservation = some tag then .ok { row with reservation := none }
    else
      match row.reservation with
      | none => .error .nodeNotLocked
      | some _ => .error .nodeLocked

def Row.node (row : Row State Host) : Node State := ⟨row.provisionState, row.targetProvisionState⟩

/-- `Node.save` of the two states: a field that was not changed is not written. -/
def saveNode [DecidableEq State] (old new : Node State) (row : Option (Row State Host)) : Option (Row State Host) :=
  row.map fun row =>
    { row with
      provisionState := if new.provisionState = old.provisionState then row.provisionState else new.provisionState
      targetProvisionState :=
        if new.targetProvisionState = old.targetProvisionState then row.targetProvisionState
        else new.targetProvisionState }

end Database

/-! ## 3. The actions of a task -/

/-- How leaving the with block goes on when a worker is to be spawned. -/
inductive Spawn
  /-- the worker runs, and its completion calls back -/
  | ok
  /-- the spawn method raises; `noWorker` where it raises `NoFreeConductorWorker` -/
  | failed (noWorker : Bool)
  /-- `add_done_callback` raises, and the worker is cancelled -/
  | callbackFailed
  deriving DecidableEq

inductive TaskAction (State Event : Type)
  /-- one attempt of `_lock` in the constructor; `retry` where a locked node is tried again -/
  | lock (retry : Bool)
  /-- `Node.get` in the constructor of a shared task -/
  | read
  /-- the constructor sets NOSTATE to AVAILABLE -/
  | noState
  /-- `fsm.initialize` at the end of the constructor -/
  | initFsm
  /-- another step of the constructor raises: ports, port groups, driver -/
  | fail
  /-- one attempt of `upgrade_lock` -/
  | upgrade
  | processEvent (event : Event) (callback errHandler : Bool) (targetState : Option State)
  | spawnAfter
  /-- `destroy_node`, of a task with the exclusive lock -/
  | deleteNode
  /-- `__exit__`, with an exception or not -/
  | exit (exception : Bool) (spawn : Spawn)
  /-- the worker completes -/
  | workerDone
  deriving DecidableEq

section Actions

variable {State Event Host : Type} [DecidableEq State] [DecidableEq Host] (machine : Machine State Event)
  (available : State)

/-- The row and the task, after an action. -/
abbrev Local (State Host : Type) := Option (Row State Host) × Task State Host

def Task.start (host : Host) (shared : Bool) : Task State Host := ⟨host, shared, .creating, none, none, false, none⟩

/-- `release_resources`: a node that was deleted is let go, any other error of `release` leaves the task as it is. -/
def releaseResources (row : Option (Row State Host)) (t : Task State Host) : Local State Host :=
  let reset : Task State Host := { t with node := none, fsm := none }
  if t.shared = false ∧ t.node.isSome then
    match releaseNode t.host row with
    | .ok released => (some released, reset)
    | .error .nodeNotFound => (row, reset)
    | .error _ => (row, t)
  else (row, reset)

/-- The end of a task. -/
def endTask (row : Option (Row State Host)) (t : Task State Host) : Local State Host :=
  ((releaseResources row t).1, { (releaseResources row t).2 with phase := .ended })

/-- `TaskManager.process_event` of a task with a node and a machine. -/
def taskProcessEvent (row : Option (Row State Host)) (t : Task State Host) (node : Node State) (fsm : Fsm State)
    (event : Event) (callback errHandler : Bool) (targetState : Option State) : Local State Host :=
  let (fsm, returned) := fsm.processEvent machine event targetState
  if returned = false then (row, { t with fsm := some fsm })
  else
    let saved : Node State :=
      ⟨some fsm.current,
        if callback = false ∧ machine.isStable fsm.current = some true then none else fsm.targetState⟩
    (saveNode node saved row,
      { t with
        fsm := some fsm
        node := some saved
        spawnMethod := t.spawnMethod || callback
        onError := if errHandler ∧ callback then some node else t.onError })

/-- The error hook `provisioning_error_handler`. -/
def errorHook (row : Option (Row State Host)) (t : Task State Host) (noWorker : Bool) : Option (Row State Host) :=
  match t.onError, t.node with
  | some old, some node => if noWorker then saveNode node old row else row
  | _, _ => row

/-- **An action of a task**: what it makes of the row and the task; nothing where it is not enabled. -/
def TaskAction.run (row : Option (Row State Host)) (t : Task State Host) : TaskAction State Event → Option
    (Local State Host)
  | .lock retry =>
    if t.phase = .creating ∧ t.shared = false ∧ t.node = none then
      match reserveNode t.host row with
      | .ok reserved => some (some reserved, { t with node := some reserved.node })
      | .error .nodeLocked => some (if retry then (row, t) else endTask row t)
      | .error _ => some (endTask row t)
    else none
  | .read =>
    if t.phase = .creating ∧ t.shared = true ∧ t.node = none then
      match row with
      | some r => some (row, { t with node := some r.node })
      | none => some (endTask row t)
    else none
  | .noState =>
    match t.phase, t.node with
    | .creating, some node =>
      if node.provisionState = none then
        let saved : Node State := { node with provisionState := some available }
        -- a node that was deleted raises NodeNotFound
        some (if row.isNone then endTask row { t with node := some saved }
          else (saveNode node saved row, { t with node := some saved }))
      else none
    | _, _ => none
  | .initFsm =>
    match t.phase, t.node with
    | .creating, some node =>
      match node.provisionState with
      | none => none
      | some start =>
        match fsmInitialize machine start node.targetProvisionState with
        | some fsm => some (row, { t with fsm := some fsm, phase := .inside })
        | none => some (endTask row t)
    | _, _ => none
  | .fail => if t.phase = .creating ∧ t.node.isSome then some (endTask row t) else none
  | .upgrade =>
    if (t.phase = .inside ∨ t.phase = .worker) ∧ t.shared = true then
      match reserveNode t.host row with
      | .ok reserved => some (some reserved, { t with node := some reserved.node, shared := false })
      | .error _ => some (row, t)
    else none
  | .processEvent event callback errHandler targetState =>
    if (t.phase = .inside ∨ t.phase = .worker) ∧ t.shared = false then
      match t.node, t.fsm with
      | some node, some fsm => some (taskProcessEvent machine row t node fsm event callback errHandler targetState)
      | _, _ => none
    else none
  | .spawnAfter => if t.phase = .inside then some (row, { t with spawnMethod := true }) else none
  | .deleteNode =>
    if (t.phase = .inside ∨ t.phase = .worker) ∧ t.shared = false ∧ t.node.isSome then some (none, t) else none
  | .exit exception spawn =>
    if t.phase = .inside then
      if exception = false ∧ t.spawnMethod then
        match spawn with
        | .ok => some (row, { t with phase := .worker })
        | .failed noWorker => some (endTask (errorHook row t noWorker) t)
        | .callbackFailed => some (endTask row t)
      else some (endTask row t)
    else none
  | .workerDone => if t.phase = .worker then some (endTask row t) else none

/-! ## 4. The system -/

structure Sys (State Host : Type) where
  row : Option (Row State Host)
  tasks : List (Task State Host)
  deriving DecidableEq

inductive Action (State Event Host : Type)
  | create (host : Host) (shared : Bool)
  | task (i : ℕ) (action : TaskAction State Event)
  deriving DecidableEq

/-- One step: a task is created on some conductor, or an action of a task. -/
def step (s : Sys State Host) : Action State Event Host → Option (Sys State Host)
  | .create host shared => some { s with tasks := s.tasks ++ [Task.start host shared] }
  | .task i action =>
    match s.tasks[i]? with
    | none => none
    | some t => (action.run machine available s.row t).map fun u => { row := u.1, tasks := s.tasks.set i u.2 }

/-- A node nobody has reserved, and no task. -/
def startSys (row : Row State Host) : Sys State Host := ⟨some { row with reservation := none }, []⟩

end Actions

end Mitaka.Ironic
