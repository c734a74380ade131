/-
  Subject: heat/engine/scheduler.py, `TaskRunner` and `DependencyTaskGroup`.

  A task is a function, or a generator that yields a number of times; either ends by a
  return or by an exception. The generator of a group is driven to its end, nothing is
  thrown into it.

  The log of a group, latest event first, is what its tasks have done; the source keeps
  no such record. The n-th call of a runner's method finds the time `clock n` on the
  clock. `order` is the iteration order of the dict of the runners.
-/
import Mitaka.Heat.Dependencies

namespace Mitaka.Heat

/-! ## 1. Tasks -/

/-- A task, with the exception it ends with if it does not return. -/
inductive Task (ε : Type)
  | function (raises : Option ε)
  | coroutine (yields : Nat) (raises : Option ε)

/-- The exception at the end of a task. -/
def Task.raises {ε : Type} : Task ε → Option ε
  | function raises => raises
  | coroutine _ raises => raises

/-- The yields of a task. -/
def Task.yields {ε : Type} : Task ε → Nat
  | function _ => 0
  | coroutine yields _ => yields

/-- A generator object: the rest of its body, or nothing after its end. -/
inductive Generator (ε : Type)
  | suspended (yields : Nat) (raises : Option ε)
  | closed

/-- What a step of a task comes to. `closed`: its generator has ended before. -/
inductive Outcome (ε : Type)
  | yielded
  | returned
  | raised (e : ε)
  | closed

/-- `next(generator)`; `returned` and `closed` are a `StopIteration`. -/
def Generator.next {ε : Type} : Generator ε → Outcome ε × Generator ε
  | suspended (n + 1) raises => (.yielded, .suspended n raises)
  | suspended 0 none => (.returned, .closed)
  | suspended 0 (some e) => (.raised e, .closed)
  | closed => (.closed, .closed)

/-! ## 2. Task runners -/

/-- `TaskRunner`. `runner`: `None`, `False` (the inner `none`) or a generator. -/
structure TaskRunner (ε : Type) where
  task : Task ε
  runner : Option (Option (Generator ε))
  done : Bool
  timeout : Option ℚ

namespace TaskRunner

variable {ε : Type}

/-- `__init__`. -/
def init (task : Task ε) : TaskRunner ε := ⟨task, none, false, none⟩

/-- `started`. -/
def started (r : TaskRunner ε) : Bool := r.runner.isSome

/-- `self._timeout is not None and self._timeout.expired()` -/
def expired (now : ℚ) (r : TaskRunner ε) : Bool := r.timeout.any fun endtime => now > endtime

/-- `step`. Every caller has seen to it that the task is started. -/
def step (now : ℚ) (r : TaskRunner ε) : Outcome ε × TaskRunner ε :=
  if r.done then (.closed, r)
  else
    match r.runner with
    | some (some generator) =>
      if r.expired now then (.closed, { r with done := true, runner := some (some .closed) })
      else
        match generator.next with
        | (.yielded, generator) => (.yielded, { r with runner := some (some generator) })
        | (.raised e, generator) => (.raised e, { r with runner := some (some generator) })
        | (outcome, generator) => (outcome, { r with runner := some (some generator), done := true })
    | _ => (.closed, r)

/-- `start`, without a timeout. `_ready` has seen to it that the task is neither started nor done. -/
def start (now : ℚ) (r : TaskRunner ε) : Outcome ε × TaskRunner ε :=
  match r.task with
  | .function none => (.returned, { r with runner := some none, done := true })
  | .function (some e) => (.raised e, r)
  | .coroutine yields raises => step now { r with runner := some (some (.suspended yields raises)) }

/-- `cancel`. -/
def cancel (gracePeriod : Option ℚ) (now : ℚ) (r : TaskRunner ε) : TaskRunner ε :=
  if r.done then r
  else
    match r.runner, gracePeriod with
    | some runner, some gracePeriod =>
      let timeout := now + gracePeriod
      if r.timeout.all fun endtime => timeout < endtime then { r with runner := some runner, timeout := some timeout }
      else r
    | runner, _ => { r with done := true, runner := runner.map (Option.map fun _ => .closed) }

end TaskRunner

/-! ## 3. The task group -/

/-- What a task has done. -/
inductive Event (κ ε : Type)
  | started (k : κ)
  | returned (k : κ)
  | raised (k : κ) (e : ε)

/-- The event of an outcome. -/
def Outcome.events {κ ε : Type} (k : κ) : Outcome ε → List (Event κ ε)
  | returned => [.returned k]
  | raised e => [.raised k e]
  | _ => []

/-- What does not change in a `DependencyTaskGroup`. -/
structure GroupConfig (κ : Type) where
  keys : List κ
  order : List κ
  errorWaitTime : Option ℚ
  aggregateExceptions : Bool
  clock : Nat → ℚ

/-- `DependencyTaskGroup`: its graph, its runners, the exceptions raised, the calls of runners and the log. -/
structure Group (κ ε : Type) where
  graph : Graph κ
  runners : κ → TaskRunner ε
  raised : List ε
  calls : Nat
  log : List (Event κ ε)

/-- How a group ends. -/
inductive GroupResult (ε : Type)
  | returned
  | exceptionGroup (exceptions : List ε)
  | raised (e : ε)

namespace Group

variable {κ ε : Type} [DecidableEq κ]

/-- `__init__`. -/
def init (graph : Graph κ) (task : κ → Task ε) : Group κ ε :=
  ⟨graph, fun k => .init (task k), [], 0, []⟩

/-- A runner after one of its methods, with its key deleted from the graph if it is done and has not raised. -/
def settle (k : κ) (result : Outcome ε × TaskRunner ε) (g : Group κ ε) : Group κ ε × Option (κ × ε) :=
  let g := { g with
    runners := Function.update g.runners k result.2
    calls := g.calls + 1
    log := result.1.events k ++ g.log }
  match result.1 with
  | .raised e => (g, some (k, e))
  | _ => (if result.2.done then { g with graph := g.graph.delItem k } else g, none)

/-- `not self._graph.get(k, True)`, and the runner is neither done nor started. -/
def isReady (g : Group κ ε) (k : κ) : Bool :=
  (g.graph.get k).any (fun node => node.require.isEmpty) && !(g.runners k).done && !(g.runners k).started

/-- `r.start()` and what the loop does after it. -/
def start (c : GroupConfig κ) (g : Group κ ε) (k : κ) : Group κ ε × Option (κ × ε) :=
  settle k ((g.runners k).start (c.clock g.calls)) { g with log := .started k :: g.log }

/-- `k in self._graph and r.started()` -/
def isRunning (g : Group κ ε) (k : κ) : Bool := (g.graph.get k).isSome && (g.runners k).started

/-- `r.step()` and what the loop does after it. -/
def step (c : GroupConfig κ) (g : Group κ ε) (k : κ) : Group κ ε × Option (κ × ε) :=
  settle k ((g.runners k).step (c.clock g.calls)) g

/-- A loop over the keys that meet a condition when their turn comes; an exception ends it. -/
def loop (test : Group κ ε → κ → Bool) (body : Group κ ε → κ → Group κ ε × Option (κ × ε)) :
    List κ → Group κ ε → Group κ ε × Option (κ × ε)
  | [], g => (g, none)
  | k :: keys, g =>
    if test g k then
      match body g k with
      | (g, none) => loop test body keys g
      | (g, some x) => (g, some x)
    else loop test body keys g

/-- `for k, r in self._ready()` -/
def startReady (c : GroupConfig κ) (g : Group κ ε) : Group κ ε × Option (κ × ε) :=
  loop isReady (start c) c.keys g

/-- `for k, r in self._running()` -/
def stepRunning (c : GroupConfig κ) (g : Group κ ε) : Group κ ε × Option (κ × ε) :=
  loop isRunning (step c) c.order g

/-- `r.cancel(grace_period)` -/
def cancel (c : GroupConfig κ) (gracePeriod : Option ℚ) (g : Group κ ε) (k : κ) : Group κ ε :=
  { g with
    runners := Function.update g.runners k ((g.runners k).cancel gracePeriod (c.clock g.calls))
    calls := g.calls + 1 }

/-- `cancel_all`. -/
def cancelAll (c : GroupConfig κ) (gracePeriod : Option ℚ) (g : Group κ ε) : Group κ ε :=
  c.order.foldl (cancel c gracePeriod) g

/-- `_cancel_recursively`, to a depth. -/
def cancelRecursively (c : GroupConfig κ) : Nat → Group κ ε → κ → Option (Group κ ε)
  | 0, _, _ => none
  | depth + 1, g, key =>
    let g := cancel c none g key
    let g := { g with graph := g.graph.touch key }
    ((g.graph.node key).satisfy.foldlM (cancelRecursively c depth) g).map fun g =>
      { g with graph := g.graph.delItem key }

/-- `except Exception`. -/
def handle (c : GroupConfig κ) (g : Group κ ε) (k : κ) (e : ε) : Option (Group κ ε) :=
  (if c.aggregateExceptions then cancelRecursively c (c.keys.length + 1) g k
    else some (cancelAll c c.errorWaitTime g)).map fun g => { g with raised := g.raised ++ [e] }

/-- One turn of the loop of `__call__`. -/
def turn (c : GroupConfig κ) (g : Group κ ε) : Option (Group κ ε) :=
  match startReady c g with
  | (g, some (k, e)) => handle c g k e
  | (g, none) =>
    match stepRunning c g with
    | (g, some (k, e)) => handle c g k e
    | (g, none) => some g

/-- What `__call__` does after its loop. -/
def result (c : GroupConfig κ) (g : Group κ ε) : GroupResult ε :=
  match g.raised with
  | [] => .returned
  | e :: raised => if c.aggregateExceptions then .exceptionGroup (e :: raised) else .raised e

/-- `__call__`, for a number of turns. -/
def run (c : GroupConfig κ) : Nat → Group κ ε → Option (Group κ ε × GroupResult ε)
  | 0, _ => none
  | n + 1, g =>
    if c.keys.all fun k => (g.runners k).done then some (g, result c g)
    else (turn c g).bind (run c n)

end Group

/-- A `DependencyTaskGroup` over dependencies, driven for a number of turns. -/
def runTaskGroup {κ ε : Type} [DecidableEq κ] (dependencies : Graph κ) (task : κ → Task ε) (reverse : Bool)
    (order : List κ) (errorWaitTime : Option ℚ) (aggregateExceptions : Bool) (clock : Nat → ℚ) (turns : Nat) :
    Option (Group κ ε × GroupResult ε) :=
  dependencies.toposort.bind fun keys =>
    Group.run ⟨keys, order, errorWaitTime, aggregateExceptions, clock⟩ turns
      (.init (if reverse then dependencies.reverseCopy else dependencies) task)

end Mitaka.Heat
