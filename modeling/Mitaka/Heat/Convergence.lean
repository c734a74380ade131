/-
  Subject: heat/engine/stack.py, `_converge_create_or_update`, heat/engine/worker.py and
           heat/engine/sync_point.py: one traversal of a stack.

  The nodes of the graph are the updates and the clean-ups of resources. A check is asked
  for by a message; when it is done, the worker writes its key to the sync point of every
  node that requires it, by reading the row and writing it if nobody wrote in between, and
  asks for the check of a node whose sync point has all its predecessors.

  `needed_by`, the attributes in the input data and failing checks are left out.
-/
import Mitaka.Heat.Dependencies
import Mitaka.Lib.Run

namespace Mitaka.Heat

/-! ## 1. The graph -/

/-- A resource id, and whether the resource is updated or cleaned up. -/
abbrev GraphKey := ℕ × Bool

instance lawfulBEqGraphKey : LawfulBEq GraphKey := inferInstance

/-- A row of the table of resources. -/
structure ResourceRow where
  id : ℕ
  name : String
  currentTemplateId : ℕ
  requires : List ℕ
  replaces : Option ℕ
  replacedBy : Option ℕ
  /-- the action is `INIT` -/
  isInit : Bool
  deriving DecidableEq

/-- A stack that converges: its template, the dependencies of the resources in it by name, and the rows there are. -/
structure Convergence where
  templateId : ℕ
  prevRawTemplateId : Option ℕ
  dependencies : List (String × Option String)
  existing : List ResourceRow
  /-- the ids from here on are free -/
  nextId : ℕ

namespace Convergence

variable (st : Convergence)

/-- The loop of `_get_best_existing_rsrc_db`. -/
def bestExistingLoop (rsrcName : String) : List ResourceRow → Option ResourceRow → Option ResourceRow
  | [], candidate => candidate
  | extRsrc :: rest, candidate =>
    if extRsrc.name ≠ rsrcName then bestExistingLoop rsrcName rest candidate
    else if extRsrc.currentTemplateId = st.templateId then some extRsrc
    else if some extRsrc.currentTemplateId = st.prevRawTemplateId then bestExistingLoop rsrcName rest (some extRsrc)
    else bestExistingLoop rsrcName rest (candidate <|> some extRsrc)

/-- `_get_best_existing_rsrc_db`. -/
def getBestExistingRsrcDb (rsrcName : String) : Option ResourceRow := bestExistingLoop st rsrcName st.existing none

/-- The names in the template. -/
def names : List String := (st.dependencies.flatMap fun e => e.1 :: e.2.toList).dedup

/-- The id of a resource of the template, which is a new one where no row exists. -/
def currentId (name : String) : ℕ :=
  match st.getBestExistingRsrcDb name with
  | some row => row.id
  | none => st.nextId + st.names.idxOf name

/-- The rows that `_update_or_store_resources` stores. -/
def newRows : List ResourceRow :=
  (st.names.filter fun name => (st.getBestExistingRsrcDb name).isNone).map fun name =>
    { id := st.currentId name, name := name, currentTemplateId := st.templateId, requires := [], replaces := none
      replacedBy := none, isInit := true }

/-- `make_graph_key`. -/
def makeGraphKey (name : String) : GraphKey := (st.currentId name, true)

/-- The edges of the template. -/
def templateEdges : List (GraphKey × Option GraphKey) :=
  st.dependencies.map fun e => (st.makeGraphKey e.1, e.2.map st.makeGraphKey)

/-- The edges of one row in `_compute_convg_dependencies`. -/
def rowEdges (rsrc : ResourceRow) : List (GraphKey × Option GraphKey) :=
  let ids := st.existing.map ResourceRow.id
  [((rsrc.id, false), none)] ++
    (rsrc.requires.filter (· ∈ ids)).map (fun requirement => ((requirement, false), some (rsrc.id, false))) ++
    (rsrc.replaces.toList.filter (· ∈ ids)).map (fun replaces => ((replaces, false), some (rsrc.id, false))) ++
    if (rsrc.id, true) ∈ st.templateEdges.flatMap (fun e => e.1 :: e.2.toList) then
      [((rsrc.id, false), some (rsrc.id, true))]
    else []

/-- `_compute_convg_dependencies`. -/
def convgEdges : List (GraphKey × Option GraphKey) := st.templateEdges ++ st.existing.flatMap st.rowEdges

/-- `convergence_dependencies.graph()`. -/
def graph : Graph GraphKey := ofEdges st.convgEdges

/-- `leaves`. -/
def leaves : List GraphKey := (st.graph.filter fun e => e.2.require.isEmpty).map Prod.fst

/-- `roots`. -/
def roots : List GraphKey := (st.graph.reverseCopy.filter fun e => e.2.require.isEmpty).map Prod.fst

end Convergence

/-! ## 2. The state -/

/-- The data of one predecessor: the id of a resource, or nothing. -/
abbrev InputData := Dict GraphKey (Option ℕ)

/-- A row of the table of sync points. -/
structure SyncPointRow where
  atomicKey : ℕ
  inputData : InputData

/-- What has happened, latest first. -/
inductive TraversalEvent
  /-- the check for a node is done -/
  | checked (key : GraphKey) (inputData : InputData)
  | markComplete

/-- The tables and what has happened; the key of the sync point of the stack is `none`. -/
structure ConvergenceDb where
  rows : Dict ℕ ResourceRow
  nextId : ℕ
  syncPoints : Dict (Option GraphKey) SyncPointRow
  log : List TraversalEvent

/-- The arguments of `sync`. -/
structure SyncCall where
  entity : Option GraphKey
  predecessors : List GraphKey
  senderKey : GraphKey
  senderData : Option ℕ

/-- Where `sync` is: about to read, about to write what it read, or about to compare. -/
inductive SyncPhase
  | get
  | update (atomicKey : ℕ) (inputData : InputData)
  | compare (inputData : InputData)

/-- A message to `check_resource`, or a worker with the calls of `sync` it has to make. -/
inductive Agent
  | message (resourceId : ℕ) (isUpdate : Bool) (data : InputData)
  | worker (calls : List SyncCall) (phase : SyncPhase)

structure ConvergenceState where
  db : ConvergenceDb
  agents : List Agent

/-! ## 3. The checks -/

namespace Convergence

variable (st : Convergence)

/-- `make_replacement`: the row of the replacement and the rows afterwards. -/
def makeReplacement (db : ConvergenceDb) (rsrc : ResourceRow) : ConvergenceDb :=
  let replacement : ResourceRow :=
    { rsrc with
      id := db.nextId, replaces := some rsrc.id, replacedBy := none, isInit := true, currentTemplateId := st.templateId }
  { db with
    rows := (db.rows.set db.nextId replacement).set rsrc.id { rsrc with replacedBy := some db.nextId }
    nextId := db.nextId + 1 }

/-- `create_convergence` and `update_convergence` that succeed. -/
def checkResourceUpdate (rsrc : ResourceRow) (resourceData : InputData) : ResourceRow :=
  { rsrc with
    currentTemplateId := st.templateId, requires := (resourceData.filterMap Prod.snd).dedup, isInit := false }

/-- `_update_replacement_data`. -/
def updateReplacementData (rsrc : ResourceRow) (rows : Dict ℕ ResourceRow) : Dict ℕ ResourceRow :=
  match rsrc.replacedBy.bind fun replacedBy => (rows.get replacedBy).map fun dbRes => (replacedBy, dbRes) with
  | some (replacedBy, dbRes) =>
    if dbRes.currentTemplateId = st.templateId then rows.set replacedBy { dbRes with replaces := none } else rows
  | none => rows

/-- `delete_convergence` that succeeds. -/
def checkResourceCleanup (rsrc : ResourceRow) (rows : Dict ℕ ResourceRow) : Dict ℕ ResourceRow :=
  if rsrc.currentTemplateId ≠ st.templateId then st.updateReplacementData rsrc (rows.erase rsrc.id) else rows

/-- `graph_key` of `_initiate_propagate_resource`: a replacement impersonates what it replaces. -/
def graphKey (rsrc : ResourceRow) (isUpdate : Bool) : GraphKey :=
  match (st.graph.get (rsrc.id, isUpdate)).isSome, rsrc.replaces with
  | false, some replaces => (replaces, isUpdate)
  | _, _ => (rsrc.id, isUpdate)

/-- `_get_input_data`; as an element of the key, `True` is the id 1. -/
def getInputData (rsrc : ResourceRow) (key req : GraphKey) : Option ℕ :=
  if req.2 then some rsrc.id
  else if req.1 = key.1 ∨ req.1 = key.2.toNat then none
  else some (rsrc.replacedBy.getD rsrc.id)

/-- The calls of `sync` after a check: for the nodes that require this one, and for the stack if it is a root. -/
def initiatePropagateResource (rsrc : ResourceRow) (isUpdate : Bool) : List SyncCall :=
  let key := st.graphKey rsrc isUpdate
  match st.graph.get key with
  | none => []
  | some node =>
    (node.satisfy.map fun req =>
      { entity := some req, predecessors := (st.graph.node req).require, senderKey := key
        senderData := getInputData rsrc key req }) ++
    if (rsrc.id, isUpdate) ∈ st.roots then
      [{ entity := none, predecessors := st.roots, senderKey := (rsrc.id, isUpdate), senderData := none }]
    else []

/-- `check_resource`, up to the calls of `sync`; `asksReplace` says which updates raise `UpdateReplace`. -/
def checkResource (asksReplace : ℕ → Bool) (db : ConvergenceDb) (resourceId : ℕ) (isUpdate : Bool) (data : InputData) :
    ConvergenceDb × List Agent :=
  match db.rows.get resourceId with
  | none => (db, [])
  | some rsrc =>
    match isUpdate with
    | true =>
      if rsrc.replacedBy.isSome ∧ rsrc.currentTemplateId ≠ st.templateId then (db, [])
      else if !rsrc.isInit && asksReplace rsrc.id then
        (st.makeReplacement db rsrc, [.message db.nextId true data])
      else
        let updated := st.checkResourceUpdate rsrc data
        ({ db with rows := db.rows.set rsrc.id updated, log := .checked (st.graphKey updated true) data :: db.log },
          [.worker (st.initiatePropagateResource updated true) .get])
    | false =>
      ({ db with
          rows := st.checkResourceCleanup rsrc db.rows
          log := .checked (st.graphKey rsrc false) data :: db.log },
        [.worker (st.initiatePropagateResource rsrc false) .get])

/-- One step of a worker. -/
def syncStep (db : ConvergenceDb) : List SyncCall → SyncPhase → ConvergenceDb × List Agent
  | [], _ => (db, [])
  | call :: calls, .get =>
    match db.syncPoints.get call.entity with
    -- `SyncPointNotFound` in the current traversal
    | none => (db, [])
    | some row => (db, [.worker (call :: calls) (.update row.atomicKey row.inputData)])
  | call :: calls, .update atomicKey inputData =>
    match db.syncPoints.get call.entity with
    | none => (db, [.worker (call :: calls) .get])
    | some row =>
      if row.atomicKey = atomicKey then
        let inputData := inputData.set call.senderKey call.senderData
        ({ db with syncPoints := db.syncPoints.set call.entity ⟨atomicKey + 1, inputData⟩ },
          [.worker (call :: calls) (.compare inputData)])
      else (db, [.worker (call :: calls) .get])
  | call :: calls, .compare inputData =>
    if call.predecessors.any fun key => (inputData.get key).isNone then (db, [.worker calls .get])
    else
      match call.entity with
      | some (resourceId, isUpdate) => (db, [.worker calls .get, .message resourceId isUpdate inputData])
      | none => ({ db with log := .markComplete :: db.log }, [.worker calls .get])

/-- What one agent does. -/
def act (asksReplace : ℕ → Bool) (db : ConvergenceDb) : Agent → ConvergenceDb × List Agent
  | .message resourceId isUpdate data => st.checkResource asksReplace db resourceId isUpdate data
  | .worker calls phase => syncStep db calls phase

/-- One step: the agent at a position acts. -/
def step (asksReplace : ℕ → Bool) (s : ConvergenceState) (i : ℕ) : Option ConvergenceState :=
  (s.agents[i]?).map fun agent =>
    let r := st.act asksReplace s.db agent
    ⟨r.1, s.agents.take i ++ r.2 ++ s.agents.drop (i + 1)⟩

/-- `_converge_create_or_update`. -/
def start : ConvergenceState :=
  let rows := (st.existing ++ st.newRows).map fun row => (row.id, row)
  let keys := none :: (st.graph.map Prod.fst).map some
  { db :=
      { rows := rows
        nextId := st.nextId + st.names.length
        syncPoints := keys.map fun key => (key, ⟨0, []⟩)
        log := if st.leaves = [] then [.markComplete] else [] }
    agents := st.leaves.map fun key => .message key.1 key.2 [] }

end Convergence

end Mitaka.Heat
