/-
  Subject: Quota usages and reservations (nova/db/sqlalchemy/api.py).

  The tables of quota usages and of reservations, and the transactions on them:
  `quotaReserve` refreshes the user's usages, checks the limits and creates the
  reservations; `reservationCommit`, `reservationRollback` and `reservationExpire` end
  reservations; `quotaDestroyAllByProjectAndUser` and `quotaDestroyAllByProject` delete.
  An exception rolls the transaction back.
-/
import Mitaka.Lib.Dict
import Mitaka.Lib.Table

namespace Mitaka.Nova.Quota

/-! ## 1. Tables -/

/-- A row of `quota_usages`; `userId = none` for a usage of the whole project. -/
structure QuotaUsage where
  id : ℕ
  projectId : String
  userId : Option String
  resource : String
  inUse : ℤ
  reserved : ℤ
  untilRefresh : Option ℤ
  updatedAt : ℤ
  deleted : Bool
  deriving DecidableEq, Repr

def QuotaUsage.total (u : QuotaUsage) : ℤ := u.inUse + u.reserved

/-- A row of `reservations`. -/
structure Reservation where
  uuid : ℕ
  usageId : ℕ
  projectId : String
  userId : String
  resource : String
  delta : ℤ
  expire : ℤ
  deleted : Bool
  deriving DecidableEq, Repr

/-- The tables in the order of their keys, with the next keys. -/
structure Db where
  usages : List QuotaUsage
  reservations : List Reservation
  nextId : ℕ
  nextUuid : ℕ
  deriving DecidableEq, Repr

namespace Db

def empty : Db := ⟨[], [], 0, 0⟩

def usage (db : Db) (id : ℕ) : Option QuotaUsage := Table.find QuotaUsage.id db.usages id

def modifyUsage (db : Db) (id : ℕ) (f : QuotaUsage → QuotaUsage) : Db :=
  { db with usages := Table.modify QuotaUsage.id db.usages id f }

def addUsage (db : Db) (u : QuotaUsage) : Db := { db with usages := db.usages ++ [u], nextId := db.nextId + 1 }

end Db

def PER_PROJECT_QUOTAS : List String := ["fixed_ips", "floating_ips", "networks"]

/-- `x or None` -/
def orNone (x : Option ℤ) : Option ℤ := if x = some 0 then none else x

/-! ## 2. The usages of a project -/

/-- The sums of a project's usages of one resource. -/
structure Totals where
  inUse : ℤ
  reserved : ℤ
  total : ℤ
  deriving DecidableEq, Repr

def QuotaUsage.totals (u : QuotaUsage) : Totals := ⟨u.inUse, u.reserved, u.total⟩

def Totals.add (t : Totals) (row : QuotaUsage) : Totals :=
  ⟨t.inUse + row.inUse, t.reserved + row.reserved, t.total + (row.inUse + row.reserved)⟩

/-- The sums for each resource, and the user's own rows. -/
def Db.getProjectUserQuotaUsages (db : Db) (projectId userId : String) : Dict String Totals × Dict String ℕ :=
  (db.usages.filter fun row => !row.deleted && row.projectId = projectId).foldl
    (fun (result : Dict String Totals × Dict String ℕ) row =>
      (result.1.set row.resource (((result.1.get row.resource).getD ⟨0, 0, 0⟩).add row),
        if row.userId = none ∨ row.userId = some userId then result.2.set row.resource row.id else result.2))
    ([], [])

/-! ## 3. Reserving -/

/-- The arguments of `quota_reserve`, and what it finds. -/
structure ReserveRequest where
  projectQuotas : Dict String ℤ
  userQuotas : Dict String ℤ
  deltas : Dict String ℤ
  expire : ℤ
  untilRefresh : Option ℤ
  maxAge : ℤ
  projectId : String
  userId : String
  /-- The order in which `work.pop()` gives the resources. -/
  order : List String
  /-- What the sync routine of the resource returns. -/
  sync : String → Dict String ℤ
  /-- The time when the resource is looked at, in seconds. -/
  utcnow : String → ℤ
  deltas_nodup : deltas.KeysNodup
  order_perm : order.Perm (deltas.map Prod.fst)
  sync_nodup : ∀ resource, (sync resource).KeysNodup

/-- The transaction's tables and its `user_usages`. -/
structure Session where
  db : Db
  userUsages : Dict String ℕ
  deriving DecidableEq, Repr

namespace Session

/-- `user_usages[resource]` -/
def usage (s : Session) (resource : String) : Option QuotaUsage :=
  (s.userUsages.get resource).bind s.db.usage

def update (s : Session) (resource : String) (f : QuotaUsage → QuotaUsage) : Session :=
  match s.userUsages.get resource with
  | some id => { s with db := s.db.modifyUsage id f }
  | none => s

end Session

variable (req : ReserveRequest)

/-- The new row of a missing usage. -/
def newUsage (resource : String) (id : ℕ) (now : ℤ) : QuotaUsage :=
  { id, projectId := req.projectId,
    userId := if resource ∈ PER_PROJECT_QUOTAS then none else some req.userId,
    resource, inUse := 0, reserved := 0, untilRefresh := orNone req.untilRefresh, updatedAt := now, deleted := false }

def createQuotaUsageIfMissing (resource : String) (now : ℤ) (s : Session) : Bool × Session :=
  match s.userUsages.get resource with
  | some _ => (false, s)
  | none =>
    (true, ⟨s.db.addUsage (newUsage req resource s.db.nextId now), s.userUsages.set resource s.db.nextId⟩)

/-- With the row as the test leaves it. -/
def isQuotaRefreshNeeded (maxAge now : ℤ) (u : QuotaUsage) : Bool × QuotaUsage :=
  if u.inUse < 0 then (true, u)
  else match u.untilRefresh with
    | some n => (decide (n - 1 ≤ 0), { u with untilRefresh := some (n - 1) })
    -- `timedelta.seconds` leaves out the days
    | none => (decide (maxAge ≠ 0 ∧ maxAge ≤ (now - u.updatedAt) % 86400), u)

def refreshQuotaUsages (untilRefresh : Option ℤ) (inUse : ℤ) (u : QuotaUsage) : QuotaUsage :=
  { u with inUse := inUse, untilRefresh := orNone untilRefresh }

/-- One entry of a sync routine's result. -/
def refreshResource (now : ℤ) (s : Session) (entry : String × ℤ) : Session :=
  (createQuotaUsageIfMissing req entry.1 now s).2.update entry.1 (refreshQuotaUsages req.untilRefresh entry.2)

/-- The loop over `work`; `done` are the resources discarded from it. -/
def refreshUsages : List String → List String → Session → Session
  | [], _, s => s
  | resource :: work, done, s =>
    if resource ∈ done then refreshUsages work done s
    else
      let now := req.utcnow resource
      let (created, s) := createQuotaUsageIfMissing req resource now s
      let (refresh, s) :=
        if created then (true, s)
        else ((s.usage resource).any fun u => (isQuotaRefreshNeeded req.maxAge now u).1,
          s.update resource fun u => (isQuotaRefreshNeeded req.maxAge now u).2)
      if refresh then
        let updates := req.sync resource
        refreshUsages work (updates.map Prod.fst ++ done) (updates.foldl (refreshResource req now) s)
      else refreshUsages work done s

/-- A limit; every resource of the deltas has one. -/
def limit (quotas : Dict String ℤ) (resource : String) : ℤ := (quotas.get resource).getD 0

/-- `0 <= limit < delta + total` -/
def Over (limit delta total : ℤ) : Prop := 0 ≤ limit ∧ limit < delta + total

instance (limit delta total : ℤ) : Decidable (Over limit delta total) := inferInstanceAs (Decidable (_ ∧ _))

def calculateOverquota (projectUsages userUsages : String → ℤ) : List String :=
  (req.deltas.filter fun (res, delta) => 0 ≤ delta ∧
    (Over (limit req.projectQuotas res) delta (projectUsages res) ∨
      Over (limit req.userQuotas res) delta (userUsages res))).map Prod.fst

structure OverQuota where
  overs : List String
  quotas : Dict String ℤ
  usages : Dict String (ℤ × ℤ)
  deriving DecidableEq, Repr

/-- The sums, with those of `user_usages` for resources that the project had no row of. -/
def copyUsages (s : Session) (projectUsages : Dict String Totals) : Dict String Totals :=
  s.userUsages.foldl (fun d e =>
    match d.get e.1 with
    | some _ => d
    | none => d.set e.1 (((s.db.usage e.2).map QuotaUsage.totals).getD ⟨0, 0, 0⟩)) projectUsages

/-- One reservation. -/
def reserveResource (userUsages : Dict String ℕ) (db : Db) (entry : String × ℤ) : Db :=
  match userUsages.get entry.1 with
  | none => db
  | some id =>
    let db := { db with
      reservations := db.reservations ++
        [⟨db.nextUuid, id, req.projectId, req.userId, entry.1, entry.2, req.expire, false⟩]
      nextUuid := db.nextUuid + 1 }
    if 0 < entry.2 then db.modifyUsage id fun u => { u with reserved := u.reserved + entry.2 } else db

def quotaReserve (db : Db) : Except OverQuota Db :=
  let (projectUsages, userUsages) := db.getProjectUserQuotaUsages req.projectId req.userId
  let s := refreshUsages req req.order [] ⟨db, userUsages⟩
  let userTotals := fun res => ((s.usage res).map QuotaUsage.totals).getD ⟨0, 0, 0⟩
  let projectUsages := copyUsages s projectUsages
  let projectTotals := fun res => (projectUsages.get res).getD ⟨0, 0, 0⟩
  let overs := calculateOverquota req (fun res => (projectTotals res).total) fun res => (userTotals res).total
  if overs = [] then .ok (req.deltas.foldl (reserveResource req s.userUsages) s.db)
  else
    let usages := if req.projectQuotas = req.userQuotas then projectUsages.map fun e => (e.1, e.2.inUse, e.2.reserved)
      else s.userUsages.map fun e => (e.1, (userTotals e.1).inUse, (userTotals e.1).reserved)
    .error ⟨overs.insertionSort (· ≤ ·), req.userQuotas, usages⟩

/-! ## 4. Ending reservations -/

def Reservation.live (r : Reservation) : Bool := !r.deleted

/-- `soft_delete` of the reservations that a query finds. -/
def Db.softDeleteReservations (db : Db) (found : Reservation → Bool) : Db :=
  { db with reservations := db.reservations.map fun r => if r.live && found r then { r with deleted := true } else r }

def Db.softDeleteUsages (db : Db) (found : QuotaUsage → Bool) : Db :=
  { db with usages := db.usages.map fun u => if !u.deleted && found u then { u with deleted := true } else u }

/-- The loop of `reservation_commit` and `reservation_rollback`; a `KeyError` is `none`. -/
def Db.finishReservations (db : Db) (uuids : List ℕ) (projectId userId : String)
    (f : Reservation → QuotaUsage → QuotaUsage) : Option Db := do
  let userUsages := (db.getProjectUserQuotaUsages projectId userId).2
  let db ← (db.reservations.filter fun r => r.live && decide (r.uuid ∈ uuids)).foldlM
    (fun (d : Db) (r : Reservation) => (userUsages.get r.resource).map fun id => d.modifyUsage id (f r)) db
  some (db.softDeleteReservations fun r => decide (r.uuid ∈ uuids))

/-- `if reservation.delta >= 0: usage.reserved -= reservation.delta` -/
def Reservation.release (r : Reservation) (u : QuotaUsage) : QuotaUsage :=
  if 0 ≤ r.delta then { u with reserved := u.reserved - r.delta } else u

def Reservation.apply (r : Reservation) (u : QuotaUsage) : QuotaUsage :=
  { r.release u with inUse := u.inUse + r.delta }

def Db.reservationCommit (db : Db) (uuids : List ℕ) (projectId userId : String) : Option Db :=
  db.finishReservations uuids projectId userId Reservation.apply

def Db.reservationRollback (db : Db) (uuids : List ℕ) (projectId userId : String) : Option Db :=
  db.finishReservations uuids projectId userId Reservation.release

/-- `reservation.usage.reserved -= reservation.delta`; the access fails when there is no live row. -/
def Db.releaseUsage (db : Db) (r : Reservation) : Option Db :=
  if 0 ≤ r.delta then
    match db.usage r.usageId with
    | some u => if u.deleted then none else some (db.modifyUsage r.usageId r.release)
    | none => none
  else some db

def Db.reservationExpire (db : Db) (currentTime : ℤ) : Option Db := do
  let db' ← (db.reservations.filter fun r => r.live && decide (r.expire < currentTime) && (db.usage r.usageId).isSome).foldlM
    Db.releaseUsage db
  some (db'.softDeleteReservations fun r => decide (r.expire < currentTime))

def Db.quotaDestroyAllByProjectAndUser (db : Db) (projectId userId : String) : Db :=
  (db.softDeleteUsages fun u => u.projectId = projectId ∧ u.userId = some userId).softDeleteReservations
    fun r => r.projectId = projectId ∧ r.userId = userId

def Db.quotaDestroyAllByProject (db : Db) (projectId : String) : Db :=
  (db.softDeleteUsages fun u => u.projectId = projectId).softDeleteReservations fun r => r.projectId = projectId

end Mitaka.Nova.Quota
