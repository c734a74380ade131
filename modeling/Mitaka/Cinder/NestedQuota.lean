/-
  Subject: The quotas of one project (cinder/db/sqlalchemy/api.py).

  The tables of quota usages, of quotas and of reservations, and the transactions on
  them. An ordinary reservation holds back part of a usage until it is committed. An
  allocated one, made for a child project, is added to the quota's `allocated` at once and
  has to be taken off again. A deleted reservation is never read, so it is left out.
-/
import Mitaka.Lib.Dict
import Mitaka.Lib.Table

namespace Mitaka.Cinder.NestedQuota

/-! ## 1. Tables -/

/-- A row of `quota_usages`. -/
structure QuotaUsage where
  id : ℕ
  resource : String
  inUse : ℤ
  reserved : ℤ
  untilRefresh : Option ℤ
  deriving DecidableEq, Repr

def QuotaUsage.total (u : QuotaUsage) : ℤ := u.inUse + u.reserved

/-- A row of `quotas`. -/
structure Quota where
  id : ℕ
  resource : String
  hardLimit : ℤ
  allocated : ℤ
  deriving DecidableEq, Repr

/-- A row of `reservations` that is not deleted; keys begin at one, so that a null `allocated_id` is the false one. -/
structure Reservation where
  uuid : ℕ
  usageId : Option ℕ
  allocatedId : Option ℕ
  resource : String
  delta : ℤ
  expire : ℤ
  deriving DecidableEq, Repr

/-- The tables in the order of their keys, with the next key. -/
structure Db where
  usages : List QuotaUsage
  quotas : List Quota
  reservations : List Reservation
  nextId : ℕ
  deriving DecidableEq, Repr

namespace Db

variable (db : Db)

def modifyUsage (id : ℕ) (f : QuotaUsage → QuotaUsage) : Db :=
  { db with usages := Table.modify QuotaUsage.id db.usages id f }

def modifyQuota (id : ℕ) (f : Quota → Quota) : Db := { db with quotas := Table.modify Quota.id db.quotas id f }

def addUsage (u : QuotaUsage) : Db := { db with usages := db.usages ++ [u], nextId := db.nextId + 1 }

def addQuota (q : Quota) : Db := { db with quotas := db.quotas ++ [q], nextId := db.nextId + 1 }

def addReservation (r : Reservation) : Db :=
  { db with reservations := db.reservations ++ [r], nextId := db.nextId + 1 }

def deleteReservation (uuid : ℕ) : Db := { db with reservations := db.reservations.filter fun r => r.uuid ≠ uuid }

/-- `_get_quota_usages`: the rows by resource. -/
def getQuotaUsages : Dict String ℕ := db.usages.foldl (fun d row => d.set row.resource row.id) []

def quotaAllocatedGetAllByProject : Dict String ℤ := db.quotas.foldl (fun d row => d.set row.resource row.allocated) []

/-- `_quota_get` -/
def quotaGet (resource : String) : Option Quota := db.quotas.find? fun q => q.resource = resource

end Db

/-- `x or None` -/
def orNone (x : Option ℤ) : Option ℤ := if x = some 0 then none else x

/-! ## 2. Reserving -/

/-- The arguments of `quota_reserve`, and what it finds. -/
structure ReserveRequest where
  quotas : Dict String ℤ
  deltas : Dict String ℤ
  expire : ℤ
  untilRefresh : Option ℤ
  isAllocatedReserve : Bool
  /-- The order in which `work.pop()` gives the resources. -/
  order : List String
  /-- What the sync routine of the resource returns. -/
  sync : String → Dict String ℤ
  /-- The row of the resource is older than `max_age`. -/
  aged : String → Bool
  deltas_nodup : deltas.KeysNodup
  order_perm : order.Perm (deltas.map Prod.fst)

/-- The transaction's tables and its `usages`. -/
structure Session where
  db : Db
  usages : Dict String ℕ
  deriving DecidableEq, Repr

namespace Session

variable (s : Session)

/-- `usages[resource]` -/
def usage (resource : String) : Option QuotaUsage := (s.usages.get resource).bind (Table.find QuotaUsage.id s.db.usages)

def update (resource : String) (f : QuotaUsage → QuotaUsage) : Session :=
  match s.usages.get resource with
  | some id => { s with db := s.db.modifyUsage id f }
  | none => s

/-- `_quota_usage_create` -/
def quotaUsageCreate (resource : String) (untilRefresh : Option ℤ) : Session :=
  ⟨s.db.addUsage ⟨s.db.nextId, resource, 0, 0, orNone untilRefresh⟩, s.usages.set resource s.db.nextId⟩

end Session

variable (req : ReserveRequest)

/-- Whether the usage is to be refreshed, with the session as the test leaves it. -/
def needsRefresh (s : Session) (resource : String) : Bool × Session :=
  match s.usage resource with
  | none => (true, s.quotaUsageCreate resource req.untilRefresh)
  | some u =>
    if u.inUse < 0 then (true, s)
    else match u.untilRefresh with
      | some n => (decide (n - 1 ≤ 0), s.update resource fun u => { u with untilRefresh := some (n - 1) })
      | none => (req.aged resource, s)

/-- One entry of a sync routine's result. -/
def refreshResource (s : Session) (entry : String × ℤ) : Session :=
  (match s.usages.get entry.1 with
    | some _ => s
    | none => s.quotaUsageCreate entry.1 req.untilRefresh).update entry.1
      fun u => { u with inUse := entry.2, untilRefresh := orNone req.untilRefresh }

/-- The loop over `work`; `done` are the resources discarded from it. -/
def refreshUsages : List String → List String → Session → Session
  | [], _, s => s
  | resource :: work, done, s =>
    if resource ∈ done then refreshUsages work done s
    else
      let (refresh, s) := needsRefresh req s resource
      if refresh then
        let updates := req.sync resource
        refreshUsages work (updates.map Prod.fst ++ done) (updates.foldl (refreshResource req) s)
      else refreshUsages work done s

/-- A limit; every resource of the deltas has one. -/
def limit (resource : String) : ℤ := (req.quotas.get resource).getD 0

structure OverQuota where
  overs : List String
  quotas : Dict String ℤ
  /-- `in_use`, `reserved` and `allocated`. -/
  usages : Dict String (ℤ × ℤ × ℤ)
  deriving DecidableEq, Repr

/-- The quota that an allocated reservation is charged to; a default one gets a row. -/
def allocatedQuota (db : Db) (resource : String) : Quota × Db :=
  match db.quotaGet resource with
  | some quota => (quota, db)
  | none =>
    let quota : Quota := ⟨db.nextId, resource, limit req resource, 0⟩
    (quota, db.addQuota quota)

/-- One reservation. -/
def reserveResource (usages : Dict String ℕ) (db : Db) (entry : String × ℤ) : Db :=
  if req.isAllocatedReserve then
    let (quota, db) := allocatedQuota req db entry.1
    -- updated immediately, and subtracted on rollback
    let db := db.modifyQuota quota.id fun q => { q with allocated := quota.allocated + entry.2 }
    db.addReservation ⟨db.nextId, none, some quota.id, entry.1, entry.2, req.expire⟩
  else match usages.get entry.1 with
    | none => db
    | some id =>
      let db := db.addReservation ⟨db.nextId, some id, none, entry.1, entry.2, req.expire⟩
      if 0 < entry.2 then db.modifyUsage id fun u => { u with reserved := u.reserved + entry.2 } else db

/-- The refreshed usages are kept when the quota is exceeded. -/
def quotaReserve (db : Db) : Db × Except OverQuota (List ℕ) :=
  let allocated := fun res => (db.quotaAllocatedGetAllByProject.get res).getD 0
  let s := refreshUsages req req.order [] ⟨db, db.getQuotaUsages⟩
  let total := fun res => ((s.usage res).map QuotaUsage.total).getD 0
  let overs := (req.deltas.filter fun (res, delta) =>
    0 ≤ limit req res ∧ 0 ≤ delta ∧ limit req res < delta + total res + allocated res).map Prod.fst
  if overs = [] then
    let db' := req.deltas.foldl (reserveResource req s.usages) s.db
    (db', .ok ((db'.reservations.drop s.db.reservations.length).map Reservation.uuid))
  else
    let usages := s.usages.map fun e => (e.1,
      ((s.usage e.1).map QuotaUsage.inUse).getD 0, ((s.usage e.1).map QuotaUsage.reserved).getD 0, allocated e.1)
    (s.db, .error ⟨overs.insertionSort (· ≤ ·), req.quotas, usages⟩)

/-! ## 3. Ending reservations -/

namespace Reservation

variable (r : Reservation)

/-- `if reservation.delta >= 0: usage.reserved -= reservation.delta` -/
def release (u : QuotaUsage) : QuotaUsage := if 0 ≤ r.delta then { u with reserved := u.reserved - r.delta } else u

/-- `reservation.quota.allocated -= reservation.delta` -/
def deallocate (q : Quota) : Quota := { q with allocated := q.allocated - r.delta }

end Reservation

namespace Db

variable (db : Db)

/-- `usages[reservation.usage_id]`, or `reservation.usage`: an error where there is no row. -/
def updateUsage (r : Reservation) (f : QuotaUsage → QuotaUsage) : Option Db := do
  let id ← r.usageId
  let _ ← Table.find QuotaUsage.id db.usages id
  some (db.modifyUsage id f)

/-- `reservation.quota` -/
def updateQuota (r : Reservation) (f : Quota → Quota) : Option Db := do
  let id ← r.allocatedId
  let _ ← Table.find Quota.id db.quotas id
  some (db.modifyQuota id f)

/-- The body of the loop of `reservation_commit`. -/
def commitReservation (r : Reservation) : Option Db := do
  let db' ← if r.allocatedId.isNone then
      db.updateUsage r fun u => { r.release u with inUse := u.inUse + r.delta }
    else some db
  some (db'.deleteReservation r.uuid)

/-- The body of the loop of `reservation_rollback`. -/
def rollbackReservation (r : Reservation) : Option Db := do
  let db' ← if r.allocatedId.isSome then db.updateQuota r r.deallocate else db.updateUsage r r.release
  some (db'.deleteReservation r.uuid)

/-- The body of the loop of `reservation_expire`. -/
def expireReservation (r : Reservation) : Option Db := do
  let db' ← if 0 ≤ r.delta then
      if r.allocatedId.isSome then db.updateQuota r r.deallocate else db.updateUsage r r.release
    else some db
  some (db'.deleteReservation r.uuid)

/-- `_quota_reservations` -/
def quotaReservations (uuids : List ℕ) : List Reservation := db.reservations.filter fun r => r.uuid ∈ uuids

def reservationCommit (uuids : List ℕ) : Option Db := (db.quotaReservations uuids).foldlM commitReservation db

def reservationRollback (uuids : List ℕ) : Option Db := (db.quotaReservations uuids).foldlM rollbackReservation db

def reservationExpire (currentTime : ℤ) : Option Db :=
  (db.reservations.filter fun r => r.expire < currentTime).foldlM expireReservation db

end Db

end Mitaka.Cinder.NestedQuota
