/-
  Subject: The pool manager's statuses of a zone and central's update of zone and records.

  For each nameserver, zone and action the pool manager caches the last status and serial
  number; a missing one it asks of the nameserver. `updateStatus` takes a nameserver's
  report, looks for the serial that enough nameservers have reached and casts it to
  central, which turns the zone and its records of up to that serial `ACTIVE`. A serial
  number `None` is 0 here: the code tells the two apart nowhere.
  * `Item.updateStatus_active`: an item turns `ACTIVE` by a success of its serial only.
  * `Manager.updateStatus`: a report, its polls and the casts that follow.
-/
import Mathlib

namespace Mitaka.Designate

/-! ## 1. Zones and records -/

/-- What is to be done with a zone or a record, and what a cached status is about. -/
inductive Act
  | none | create | update | delete
  deriving DecidableEq

inductive ItemStatus
  | active | pending | error | deleted
  deriving DecidableEq

inductive PollStatus
  | success | error | noZone
  deriving DecidableEq

/-- The fields that zones and records share. -/
structure Item where
  serial : ℕ
  action : Act
  status : ItemStatus
  deriving DecidableEq

namespace Item

/-- `_update_zone_or_record_status`, and whether the zone or record is deleted. -/
def updateStatus (item : Item) (status : PollStatus) (serial : ℕ) : Item × Bool :=
  match status with
  | .success =>
    if (item.action = .create ∨ item.action = .update) ∧ (item.status = .pending ∨ item.status = .error) ∧
        item.serial ≤ serial then
      ({ item with action := .none, status := .active }, false)
    else if item.action = .delete ∧ (item.status = .pending ∨ item.status = .error) ∧ item.serial ≤ serial then
      ({ item with action := .none, status := .deleted }, true)
    else (item, false)
  | .error =>
    if item.status = .pending ∧ (item.serial ≤ serial ∨ serial = 0) then ({ item with status := .error }, false)
    else (item, false)
  | .noZone =>
    if item.action = .create ∨ item.action = .update then
      ({ item with action := .create, status := .error }, false)
    else if item.action = .delete then ({ item with action := .none, status := .deleted }, true)
    else (item, false)

/-- The records that `_update_record_status` selects. -/
def Selected (item : Item) (status : PollStatus) (serial : ℕ) : Prop :=
  match status with
  | .success => (item.status = .pending ∨ item.status = .error) ∧ item.serial ≤ serial
  | .error => item.status = .pending ∧ (serial = 0 ∨ item.serial ≤ serial)
  | .noZone => True

instance (item : Item) (status : PollStatus) (serial : ℕ) : Decidable (item.Selected status serial) := by
  unfold Selected
  cases status <;> infer_instance

/-- Only a success of its serial or a later one turns an item `ACTIVE`. -/
theorem updateStatus_active {item : Item} {status : PollStatus} {serial : ℕ} (h : item.status ≠ .active)
    (h' : (item.updateStatus status serial).1.status = .active) : status = .success ∧ item.serial ≤ serial := by
  unfold updateStatus at h'
  cases status with
  | success =>
    simp only at h'
    split_ifs at h' with h1 h2
    · exact ⟨rfl, h1.2.2⟩
    · exact absurd h' h
  | error =>
    simp only at h'
    split_ifs at h'
    exact absurd h' h
  | noZone =>
    simp only at h'
    split_ifs at h'
    exact absurd h' h

/-- A success deletes an item of its serial or an earlier one. -/
theorem updateStatus_deleted {item : Item} {serial : ℕ} (h : (item.updateStatus .success serial).2 = true) :
    item.serial ≤ serial := by
  unfold updateStatus at h
  simp only at h
  split_ifs at h with h1 h2
  exact h2.2.2

end Item

structure Record where
  zoneId : ℕ
  item : Item
  deriving DecidableEq

/-- `_update_record_status` for one record: `none` where it is deleted. -/
def Record.updateStatus (r : Record) (zoneId : ℕ) (status : PollStatus) (serial : ℕ) : Option Record :=
  if r.zoneId = zoneId ∧ r.item.Selected status serial then
    let updated := r.item.updateStatus status serial
    if updated.2 then none else some { r with item := updated.1 }
  else some r

/-- `_update_zone_status`: the zone may then be deleted. -/
def updateZoneStatus (zone : Item) (status : PollStatus) (serial : ℕ) : Option Item :=
  let updated := zone.updateStatus status serial
  if updated.2 then none
  else if updated.1.status ≠ .deleted then some updated.1 else some zone

/-! ## 2. The pool -/

structure Pool where
  nameservers : List ℕ
  distinct : nameservers.Nodup
  targets : ℕ
  /-- In percent. -/
  threshold : ℕ

namespace Pool

def maximumThreshold : ℕ := 100

/-- `_exceed_or_meet_threshold`: the division fails on a pool without targets. -/
def exceedOrMeetThreshold (pool : Pool) (count threshold : ℕ) : Option Bool :=
  let threshold := if threshold = 0 then pool.threshold else threshold
  if pool.targets = 0 then none else some (decide (threshold * pool.targets ≤ 100 * count))

end Pool

/-! ## 3. The cache -/

structure PoolManagerStatus where
  status : Option PollStatus
  serialNumber : ℕ
  deriving DecidableEq

/-- A nameserver's answer about a zone. -/
structure Report where
  nameserver : ℕ
  zoneId : ℕ
  serial : ℕ
  deriving DecidableEq

/-- A call of central's `update_status`. -/
structure Cast where
  zoneId : ℕ
  status : PollStatus
  serial : ℕ
  deriving DecidableEq

/-- By nameserver, zone and action. -/
abbrev Cache := ℕ → ℕ → Act → Option PoolManagerStatus

structure Manager where
  cache : Cache
  /-- All answers so far, of reports and of polls. -/
  reported : List Report
  /-- All calls so far. -/
  casts : List Cast

/-- What `get_serial_number` returns for a nameserver, `none` for a messaging exception. -/
abbrev Answers := ℕ → Option (PollStatus × ℕ)

/-- The zone as the caller of `update_status` has it. -/
structure Zone where
  id : ℕ
  item : Item
  deriving DecidableEq

/-- The action that the zone's statuses are cached under. -/
def Zone.action (zone : Zone) : Act := if zone.item.action = .none then .update else zone.item.action

namespace Manager

variable (m : Manager)

/-- `_build_status_object`. -/
def buildStatusObject : PoolManagerStatus := ⟨none, 0⟩

def store (nameserver zoneId : ℕ) (action : Act) (status : Option PoolManagerStatus) : Manager :=
  { m with cache := fun n z a =>
      if n = nameserver ∧ z = zoneId ∧ a = action then status else m.cache n z a }

theorem store_cache (n z : ℕ) (a : Act) (status : Option PoolManagerStatus) (n' z' : ℕ) (a' : Act) :
    (m.store n z a status).cache n' z' a' = if n' = n ∧ z' = z ∧ a' = a then status else m.cache n' z' a' := rfl

def report (nameserver zoneId serial : ℕ) : Manager :=
  { m with reported := ⟨nameserver, zoneId, serial⟩ :: m.reported }

def cast (call : Cast) : Manager := { m with casts := m.casts ++ [call] }

/-- What `_retrieve_from_mdns` makes of an answer, and the action that it stores it under. -/
def ofAnswer (action : Act) : PollStatus × ℕ → PoolManagerStatus × Act
  | (.noZone, serial) =>
    match action with
    | .create => (⟨some .error, serial⟩, action)
    | .delete => (⟨some .success, serial⟩, action)
    | .update => (⟨some .error, serial⟩, .create)
    | .none => (⟨none, serial⟩, action)
  | (status, serial) => (⟨some status, serial⟩, action)

/-- `_retrieve_from_mdns`, once answered. -/
def retrieveFromMdns (nameserver zoneId : ℕ) (action : Act) (answer : PollStatus × ℕ) : Manager :=
  (m.report nameserver zoneId answer.2).store nameserver zoneId (ofAnswer action answer).2
    (some (ofAnswer action answer).1)

/-- `_retrieve_statuses` of the nameservers. -/
def retrieveStatuses (zoneId : ℕ) (action : Act) (answers : Answers) :
    List ℕ → Manager → List PoolManagerStatus × Manager
  | [], m => ([], m)
  | n :: rest, m =>
    match m.cache n zoneId action with
    | some status =>
      let r := retrieveStatuses zoneId action answers rest m
      (status :: r.1, r.2)
    | none =>
      match answers n with
      | none => retrieveStatuses zoneId action answers rest m
      | some answer =>
        let r := retrieveStatuses zoneId action answers rest (m.retrieveFromMdns n zoneId action answer)
        ((ofAnswer action answer).1 :: r.1, r.2)

/-- How many of the statuses are at the serial or above. -/
def serialCount (statuses : List PoolManagerStatus) (serial : ℕ) : ℕ :=
  (statuses.filter fun status => serial ≤ status.serialNumber).length

/-- The first of the serials that meets the threshold, or 0. -/
def consensusOf (pool : Pool) (statuses : List PoolManagerStatus) : List ℕ → Option ℕ
  | [] => some 0
  | serial :: rest =>
    match pool.exceedOrMeetThreshold (serialCount statuses serial) pool.threshold with
    | none => none
    | some true => some serial
    | some false => consensusOf pool statuses rest

/-- `_get_consensus_serial`. -/
def getConsensusSerial (pool : Pool) (zone : Zone) (answers : Answers) : Option ℕ × Manager :=
  let r := retrieveStatuses zone.id zone.action answers pool.nameservers m
  (consensusOf pool r.1 ((r.1.map (·.serialNumber)).insertionSort (· ≥ ·)), r.2)

/-- `_is_consensus`. -/
def isConsensus (pool : Pool) (zone : Zone) (status : PollStatus) (threshold : ℕ) (answers : Answers) :
    Option Bool × Manager :=
  let r := retrieveStatuses zone.id zone.action answers pool.nameservers m
  (pool.exceedOrMeetThreshold (r.1.filter fun s => s.status = some status).length threshold, r.2)

/-- `_get_error_serial`, which may retrieve the statuses twice. -/
def getErrorSerial (pool : Pool) (zone : Zone) (consensusSerial : ℕ) (answers : ℕ → Answers) :
    Option ℕ × Manager :=
  let r := m.isConsensus pool zone .error pool.threshold (answers 0)
  match r.1 with
  | none => (none, r.2)
  | some false => (some 0, r.2)
  | some true =>
    let r' := retrieveStatuses zone.id zone.action (answers 1) pool.nameservers r.2
    let serials := (r'.1.map (·.serialNumber)).insertionSort (· ≤ ·)
    (some ((serials.find? (consensusSerial < ·)).getD 0), r'.2)

/-- `_clear_cache` of the zone and the action. -/
def clearCache (pool : Pool) (zoneId : ℕ) (action : Act) : Manager :=
  pool.nameservers.foldl (fun m n => m.store n zoneId action none) m

/-! ## 4. `update_status` -/

/-- The report is cached unless the cached serial is higher. -/
def cacheReport (zone : Zone) (nameserver : ℕ) (status : PollStatus) (actualSerial : ℕ) : ℕ × Manager :=
  let m := m.report nameserver zone.id actualSerial
  let (current, m) := match m.cache nameserver zone.id zone.action with
    | some current => (current, m)
    | none => (buildStatusObject, m.store nameserver zone.id zone.action (some buildStatusObject))
  (current.serialNumber,
    if actualSerial ≠ 0 ∧ current.serialNumber ≤ actualSerial then
      m.store nameserver zone.id zone.action (some ⟨some status, actualSerial⟩)
    else m)

/-- The success of the consensus serial is cast to central. -/
def castSuccess (zone : Zone) (cacheSerial consensusSerial : ℕ) : Manager :=
  if consensusSerial ≠ 0 ∧ cacheSerial ≤ consensusSerial ∧ zone.item.status ≠ .active then
    m.cast ⟨zone.id, .success, consensusSerial⟩
  else m

/-- The error serial is cast to central; `none` where the threshold cannot be evaluated. -/
def castError (pool : Pool) (zone : Zone) (status : PollStatus) (consensusSerial : ℕ) (answers : ℕ → Answers) :
    Option Unit × Manager :=
  if status = .error then
    let r := m.getErrorSerial pool zone consensusSerial answers
    match r.1 with
    | none => (none, r.2)
    | some errorSerial =>
      (some (), if errorSerial > consensusSerial ∨ errorSerial = 0 then r.2.cast ⟨zone.id, .error, errorSerial⟩
        else r.2)
  else (some (), m)

def castNoZone (zone : Zone) (status : PollStatus) : Manager :=
  if status = .noZone then m.cast ⟨zone.id, .noZone, 0⟩ else m

/-- With everyone at the zone's serial the cached statuses have done their work. -/
def clearDone (pool : Pool) (zone : Zone) (consensusSerial : ℕ) (answers : Answers) : Manager :=
  if consensusSerial = zone.item.serial then
    let r := m.isConsensus pool zone .success Pool.maximumThreshold answers
    if r.1 = some true then r.2.clearCache pool zone.id zone.action else r.2
  else m

/-- `update_status`: the statuses are retrieved up to four times, each time with answers of their own. -/
def updateStatus (pool : Pool) (zone : Zone) (nameserver : ℕ) (status : PollStatus) (actualSerial : ℕ)
    (answers : ℕ → Answers) : Manager :=
  let cached := m.cacheReport zone nameserver status actualSerial
  let consensus := cached.2.getConsensusSerial pool zone (answers 0)
  match consensus.1 with
  | none => consensus.2
  | some consensusSerial =>
    let error := (consensus.2.castSuccess zone cached.1 consensusSerial).castError pool zone status consensusSerial
      fun i => answers (i + 1)
    match error.1 with
    | none => error.2
    | some () => (error.2.castNoZone zone status).clearDone pool zone consensusSerial (answers 3)

/-- The statuses that `create_zone` (`update_zone`, `delete_zone`) stores before it has the nameservers
polled: `create_zone` starts them afresh. -/
def prepare (pool : Pool) (zoneId : ℕ) (action : Act) : Manager :=
  pool.nameservers.foldl (fun m n =>
    if action = .create ∨ m.cache n zoneId action = none then
      m.store n zoneId action (some buildStatusObject)
    else m) m

end Manager

end Mitaka.Designate
