/-
  Subject: Quota reservations (neutron/db/quota/driver.py, neutron/db/quota/api.py).

  A reservation holds back amounts of resources until it expires. `makeReservation` sets
  a tenant's rows and reservations against its limits. The reserved amounts are summed by
  resource and expiration, and the sums put into a dict by resource alone.
  * `getReservations_of_uniform`: the dict holds the whole amount when all reservations
    of the resource have one expiration;
  * `makeReservation_isOk`: when a reservation is made.
-/
import Mitaka.Lib.Dict
import Mitaka.Lib.Fallible
import Mitaka.Neutron.QuotaUsage

namespace Mitaka.Neutron.Quota

open List

variable {Resource Tenant Worker : Type} [LinearOrder Resource] [DecidableEq Tenant] [DecidableEq Worker]

/-! ## 1. Reservations -/

structure Reservation (Resource Tenant : Type) where
  id : ℕ
  tenantId : Tenant
  expiration : ℕ
  resourceDeltas : Dict Resource ℤ
  deriving DecidableEq, Repr

/-- A group of `get_reservations_for_resources`: resource and expiration, and the total reserved. -/
abbrev Group (Resource : Type) := (Resource × ℕ) × ℤ

def Reservation.Selected (r : Reservation Resource Tenant) (now : ℕ) (tenantId : Tenant) (expired : Bool) : Prop :=
  r.tenantId = tenantId ∧ if expired then r.expiration < now else now ≤ r.expiration

instance (r : Reservation Resource Tenant) (now : ℕ) (tenantId : Tenant) (expired : Bool) :
    Decidable (r.Selected now tenantId expired) := inferInstanceAs (Decidable (_ ∧ ite _ _ _))

/-- The rows joined and filtered. -/
def joinedDeltas (reservations : List (Reservation Resource Tenant)) (now : ℕ) (tenantId : Tenant)
    (resources : List Resource) (expired : Bool) : List (Group Resource) :=
  (reservations.filter fun r => r.Selected now tenantId expired).flatMap fun r =>
    (r.resourceDeltas.filter fun delta => delta.1 ∈ resources).map fun delta => ((delta.1, r.expiration), delta.2)

/-- `GROUP BY resource, expiration` with the sums of the amounts. -/
def groupBy (rows : List (Group Resource)) : List (Group Resource) :=
  (rows.map Prod.fst).dedup.map fun key => (key, ((rows.filter fun row => row.1 = key).map Prod.snd).sum)

-- in which order the database returns the groups
variable (order : List (Group Resource) → List (Group Resource))

def getReservationsForResources (reservations : List (Reservation Resource Tenant)) (now : ℕ) (tenantId : Tenant)
    (resources : List Resource) (expired : Bool) : Dict Resource ℤ :=
  (order (groupBy (joinedDeltas reservations now tenantId resources expired))).foldl (fun d group => d.set group.1.1 group.2) []

/-! ## 2. The database -/

structure BaseResource where
  /-- The configured number. -/
  value : ℤ
  /-- A TrackedResource, or else a CountableResource. -/
  tracked : Bool
  deriving DecidableEq, Repr

def BaseResource.default (res : BaseResource) : ℤ := max res.value (-1)

structure Db (Resource Tenant Worker : Type) where
  now : ℕ
  rows : Resource → Tenant → ℕ
  quotas : Tenant → Dict Resource ℤ
  usages : Resource → Usages Tenant
  reservations : List (Reservation Resource Tenant)
  /-- What each worker remembers. -/
  resources : Worker → Resource → TrackedResource Tenant

inductive Error (Resource : Type)
  | invalidQuotaValue (unders : List Resource)
  | quotaResourceUnknown (unknown : List Resource)
  | overQuota (overs : List Resource)
  deriving DecidableEq, Repr

-- the resources of the registry
variable (registry : Dict Resource BaseResource) (db : Db Resource Tenant Worker)

def getTenantQuotas (quotas : Dict Resource ℤ) : Dict Resource ℤ :=
  quotas.foldl (fun d item => d.set item.1 item.2) (registry.map fun res => (res.1, res.2.default))

/-- `current_limits[resource]` -/
def currentLimit (tenantId : Tenant) (resource : Resource) : ℤ :=
  ((getTenantQuotas registry (db.quotas tenantId)).get resource).getD 0

def isTracked (resource : Resource) : Bool := ((registry.get resource).map BaseResource.tracked).getD false

/-- `resources[resource].count(context, plugin, tenant_id, resync_usage=False)` -/
def countResource (worker : Worker) (tenantId : Tenant) (resource : Resource) : ℤ :=
  if isTracked registry resource then
    ((db.resources worker resource).count (db.usages resource) tenantId (db.rows resource tenantId)
      (((getReservationsForResources order db.reservations db.now tenantId [resource] false).get resource).getD 0) false).1
  else db.rows resource tenantId

def removeExpiredReservations (tenantId : Tenant) : Db Resource Tenant Worker :=
  { db with reservations := db.reservations.filter fun r => ¬ r.Selected db.now tenantId true }

def createReservation (tenantId : Tenant) (deltas : Dict Resource ℤ) (reservationId : ℕ) : Db Resource Tenant Worker :=
  { db with reservations := db.reservations ++ [⟨reservationId, tenantId, db.now + 120, deltas⟩] }

/-- `DbQuotaDriver.make_reservation` -/
def driverMakeReservation (worker : Worker) (tenantId : Tenant) (deltas : Dict Resource ℤ) (reservationId : ℕ) :
    Except (Error Resource) (Db Resource Tenant Worker) :=
  let requestedResources := (deltas.map Prod.fst).filter fun resource => 0 ≤ currentLimit registry db tenantId resource
  let expiredDeltas := getReservationsForResources order db.reservations db.now tenantId requestedResources true
  let totalUsage := fun resource =>
    countResource order registry db worker tenantId resource - (expiredDeltas.get resource).getD 0
  let resourcesOverLimit := requestedResources.filter fun resource =>
    currentLimit registry db tenantId resource - totalUsage resource < (deltas.get resource).getD 0
  let db' := if requestedResources.any fun resource => (expiredDeltas.get resource).getD 0 ≠ 0 then
    removeExpiredReservations db tenantId else db
  if resourcesOverLimit = [] then .ok (createReservation db' tenantId deltas reservationId)
  else .error (.overQuota (resourcesOverLimit.mergeSort (· ≤ ·)))

/-- `QuotaEngine.make_reservation` -/
def makeReservation (worker : Worker) (tenantId : Tenant) (deltas : Dict Resource ℤ) (reservationId : ℕ) :
    Except (Error Resource) (Db Resource Tenant Worker) :=
  let unders := (deltas.filter fun delta => delta.2 < 0).map Prod.fst
  let unknownResources := (deltas.map Prod.fst).filter fun resource => resource ∉ registry.map Prod.fst
  if unders ≠ [] then .error (.invalidQuotaValue (unders.mergeSort (· ≤ ·)))
  else if unknownResources ≠ [] then .error (.quotaResourceUnknown (unknownResources.mergeSort (· ≤ ·)))
  else driverMakeReservation order registry db worker tenantId deltas reservationId

/-- No resource: every row of the tenant. -/
def setResourcesQuotaUsageDirty (resources : List Resource) (tenantId : Tenant) : Db Resource Tenant Worker :=
  { db with usages := fun resource =>
      if resources = [] ∨ resource ∈ resources then setQuotaUsageDirty (db.usages resource) tenantId else db.usages resource }

def removeReservation (reservationId : ℕ) (setDirty : Bool) : Db Resource Tenant Worker :=
  match db.reservations.find? fun r => r.id = reservationId with
  | none => db
  | some reservation =>
    let db' := { db with reservations := db.reservations.filter fun r => r.id ≠ reservationId }
    if setDirty then setResourcesQuotaUsageDirty db' (reservation.resourceDeltas.map Prod.fst) reservation.tenantId else db'

def commitReservation (reservationId : ℕ) : Db Resource Tenant Worker := removeReservation db reservationId false

def cancelReservation (reservationId : ℕ) : Db Resource Tenant Worker := removeReservation db reservationId true

/-- The tracked resources of the registry, with those tenants whose rows have changed. -/
def setResourcesDirty (worker : Worker) : Db Resource Tenant Worker :=
  { db with
    resources := Function.update db.resources worker fun resource =>
      if isTracked registry resource then ((db.resources worker resource).markDirty (db.usages resource)).1
      else db.resources worker resource
    usages := fun resource =>
      if isTracked registry resource then ((db.resources worker resource).markDirty (db.usages resource)).2
      else db.usages resource }

/-- Flushed and committed: the number of the tenant's rows is `n`. -/
def setRows (worker : Worker) (resource : Resource) (tenantId : Tenant) (n : ℕ) : Db Resource Tenant Worker :=
  { db with
    rows := Function.update db.rows resource (Function.update (db.rows resource) tenantId n)
    resources := if isTracked registry resource then
        Function.update db.resources worker (Function.update (db.resources worker) resource
          ((db.resources worker resource).dbEventHandler tenantId))
      else db.resources }

def resyncResource (worker : Worker) (resource : Resource) (tenantId : Tenant) : Db Resource Tenant Worker :=
  if isTracked registry resource then
    let res := (db.resources worker resource).resync (db.usages resource) tenantId (db.rows resource tenantId)
    { db with
      resources := Function.update db.resources worker (Function.update (db.resources worker) resource res.1)
      usages := Function.update db.usages resource res.2 }
  else db

/-! ## 3. Reserved amounts -/

/-- What the reservation holds back of the resource. -/
def Reservation.amount (r : Reservation Resource Tenant) (resource : Resource) : ℤ :=
  ((r.resourceDeltas.filter fun delta => delta.1 = resource).map Prod.snd).sum

/-- What the selected reservations hold back of the resource. -/
def selectedAmount (reservations : List (Reservation Resource Tenant)) (now : ℕ) (tenantId : Tenant) (expired : Bool)
    (resource : Resource) : ℤ :=
  ((reservations.filter fun r => r.Selected now tenantId expired).map fun r => r.amount resource).sum

variable {order} {reservations : List (Reservation Resource Tenant)} {now : ℕ} {tenantId : Tenant}
  {resources : List Resource} {expired : Bool} {resource : Resource}

theorem mem_joinedDeltas {row : Group Resource} :
    row ∈ joinedDeltas reservations now tenantId resources expired ↔
      ∃ r ∈ reservations, r.Selected now tenantId expired ∧ row.1.1 ∈ resources ∧ row.1.2 = r.expiration ∧
        (row.1.1, row.2) ∈ r.resourceDeltas := by
  rw [joinedDeltas, mem_flatMap]
  constructor
  · rintro ⟨r, hr, hrow⟩
    obtain ⟨hmem, hsel⟩ := mem_filter.mp hr
    obtain ⟨delta, hdelta, rfl⟩ := List.mem_map.mp hrow
    obtain ⟨hd, hin⟩ := mem_filter.mp hdelta
    exact ⟨r, hmem, of_decide_eq_true hsel, of_decide_eq_true hin, rfl, hd⟩
  · rintro ⟨r, hmem, hsel, hin, hexp, hd⟩
    refine ⟨r, mem_filter.mpr ⟨hmem, decide_eq_true hsel⟩, List.mem_map.mpr ⟨(row.1.1, row.2), ?_, ?_⟩⟩
    · exact mem_filter.mpr ⟨hd, decide_eq_true hin⟩
    · rw [← hexp]

theorem sum_joinedDeltas (h : resource ∈ resources) :
    (((joinedDeltas reservations now tenantId resources expired).filter fun row => row.1.1 = resource).map Prod.snd).sum =
      selectedAmount reservations now tenantId expired resource := by
  rw [joinedDeltas, selectedAmount]
  induction reservations.filter fun r => decide (r.Selected now tenantId expired) with
  | nil => rfl
  | cons r l ih =>
    rw [flatMap_cons, filter_append, map_append, sum_append, ih, map_cons, sum_cons]
    congr 1
    rw [List.filter_map, List.map_map, List.filter_filter, Reservation.amount]
    congr 2
    refine filter_congr fun delta _ => ?_
    by_cases hd : delta.1 = resource
    · simp [hd, h]
    · simp [hd]

theorem mem_groupBy {rows : List (Group Resource)} {group : Group Resource} : group ∈ groupBy rows ↔
    (∃ row ∈ rows, row.1 = group.1) ∧ group.2 = ((rows.filter fun row => row.1 = group.1).map Prod.snd).sum := by
  rw [groupBy, List.mem_map]
  constructor
  · rintro ⟨key, hkey, rfl⟩
    exact ⟨List.mem_map.mp (mem_dedup.mp hkey), rfl⟩
  · rintro ⟨hrow, hsum⟩
    exact ⟨group.1, mem_dedup.mpr (List.mem_map.mpr hrow), by rw [← hsum]⟩

omit [LinearOrder Resource] in
/-- Later groups overwrite earlier ones. Where all of a resource are the same, it is in the dict. -/
theorem get_foldl_set [DecidableEq Resource] {v : ℤ} (groups : List (Group Resource)) (d : Dict Resource ℤ)
    (h : ∀ group ∈ groups, group.1.1 = resource → group.2 = v) :
    (groups.foldl (fun d group => d.set group.1.1 group.2) d).get resource =
      if ∃ group ∈ groups, group.1.1 = resource then some v else d.get resource := by
  induction groups generalizing d with
  | nil => exact (if_neg nofun).symm
  | cons g groups ih =>
    rw [foldl_cons, ih _ fun group hg => h group (mem_cons_of_mem _ hg), Dict.get_set]
    by_cases hrest : ∃ group ∈ groups, group.1.1 = resource
    · obtain ⟨group, hg, heq⟩ := hrest
      rw [if_pos ⟨group, hg, heq⟩, if_pos ⟨group, mem_cons_of_mem _ hg, heq⟩]
    · rw [if_neg hrest]
      by_cases hhead : g.1.1 = resource
      · rw [if_pos hhead, if_pos ⟨g, mem_cons_self, hhead⟩, h g mem_cons_self hhead]
      · rw [if_neg hhead, if_neg]
        rintro ⟨group, hg, heq⟩
        rcases mem_cons.mp hg with rfl | hg
        · exact hhead heq
        · exact hrest ⟨group, hg, heq⟩

/-- All selected reservations of the resource have one expiration. -/
def OneExpiration (reservations : List (Reservation Resource Tenant)) (now : ℕ) (tenantId : Tenant) (expired : Bool)
    (resource : Resource) : Prop :=
  ∃ expiration, ∀ r ∈ reservations, r.Selected now tenantId expired → resource ∈ r.resourceDeltas.map Prod.fst →
    r.expiration = expiration

/-- **The dict holds the whole amount** of a resource whose reservations have one expiration. -/
theorem getReservations_of_uniform (horder : ∀ l, (order l).Perm l) (hin : resource ∈ resources)
    (h : OneExpiration reservations now tenantId expired resource) :
    ((getReservationsForResources order reservations now tenantId resources expired).get resource).getD 0 =
      selectedAmount reservations now tenantId expired resource := by
  obtain ⟨e, he⟩ := h
  have hkey : ∀ row ∈ joinedDeltas reservations now tenantId resources expired, row.1.1 = resource →
      row.1 = (resource, e) := by
    intro row hrow hr
    obtain ⟨r, hmem, hsel, -, hexp, hd⟩ := mem_joinedDeltas.mp hrow
    have hrexp := he r hmem hsel (List.mem_map.mpr ⟨_, hd, hr⟩)
    exact Prod.ext hr (hexp.trans hrexp)
  have hgroup : ∀ group ∈ order (groupBy (joinedDeltas reservations now tenantId resources expired)),
      group.1.1 = resource → group.2 = selectedAmount reservations now tenantId expired resource := by
    intro group hg hr
    obtain ⟨⟨row, hrow, heq⟩, hsum⟩ := mem_groupBy.mp ((horder _).mem_iff.mp hg)
    have hgkey : group.1 = (resource, e) := by
      rw [← heq] at hr ⊢
      exact hkey row hrow hr
    rw [hsum, ← sum_joinedDeltas hin]
    congr 2
    refine filter_congr fun row' hrow' => ?_
    rw [hgkey]
    exact decide_eq_decide.mpr ⟨fun hk => congrArg Prod.fst hk, hkey row' hrow'⟩
  rw [getReservationsForResources, get_foldl_set _ _ hgroup]
  split
  next => rfl
  next hnone =>
    have hempty : (joinedDeltas reservations now tenantId resources expired).filter (fun row => row.1.1 = resource) = [] := by
      refine filter_eq_nil_iff.mpr fun row hrow hr => hnone ?_
      exact ⟨(row.1, ((_ : List (Group Resource)).filter fun row' => row'.1 = row.1).map Prod.snd |>.sum),
        (horder _).mem_iff.mpr (mem_groupBy.mpr ⟨⟨row, hrow, rfl⟩, rfl⟩), of_decide_eq_true hr⟩
    rw [← sum_joinedDeltas hin, hempty]
    rfl

/-! ## 4. When a reservation is made -/

variable {registry : Dict Resource BaseResource} {db : Db Resource Tenant Worker} {worker : Worker}
  {deltas : Dict Resource ℤ} {reservationId : ℕ}

omit [DecidableEq Worker] in
theorem driverMakeReservation_isOk :
    (∃ db', driverMakeReservation order registry db worker tenantId deltas reservationId = .ok db') ↔
      ∀ resource delta, deltas.get resource = some delta → 0 ≤ currentLimit registry db tenantId resource →
        countResource order registry db worker tenantId resource -
          ((getReservationsForResources order db.reservations db.now tenantId ((deltas.map Prod.fst).filter fun resource =>
            0 ≤ currentLimit registry db tenantId resource) true).get resource).getD 0 + delta ≤
          currentLimit registry db tenantId resource := by
  rw [driverMakeReservation]
  have hexists : ∀ {p : Prop} [Decidable p] {x : Db Resource Tenant Worker} {e : Error Resource},
      (∃ db', (if p then .ok x else .error e : Except (Error Resource) (Db Resource Tenant Worker)) = .ok db') ↔ p := by
    intro p _ x e
    exact ⟨fun ⟨_, h⟩ => (Fallible.ite_error_eq_ok.mp h).1, fun h => ⟨x, if_pos h⟩⟩
  rw [hexists, filter_eq_nil_iff]
  constructor
  · intro h resource delta hget hlimit
    have hkey : resource ∈ deltas.map Prod.fst := Dict.mem_keys_iff.mpr (Option.isSome_of_eq_some hget)
    have hroom := h resource (mem_filter.mpr ⟨hkey, decide_eq_true hlimit⟩)
    rw [decide_eq_true_iff, hget, Option.getD_some] at hroom
    linarith
  · intro h resource hmem
    obtain ⟨hkey, hlimit⟩ := mem_filter.mp hmem
    obtain ⟨delta, hget⟩ := Option.isSome_iff_exists.mp (Dict.mem_keys_iff.mp hkey)
    have hroom := h resource delta hget (of_decide_eq_true hlimit)
    rw [decide_eq_true_iff, hget, Option.getD_some]
    linarith

omit [DecidableEq Worker] in
/-- **A reservation is made** for known resources and no negative amounts that leave the driver no resource over its limit. -/
theorem makeReservation_isOk :
    (∃ db', makeReservation order registry db worker tenantId deltas reservationId = .ok db') ↔
      ((∀ delta ∈ deltas, 0 ≤ delta.2) ∧ ∀ delta ∈ deltas, delta.1 ∈ registry.map Prod.fst) ∧
        ∃ db', driverMakeReservation order registry db worker tenantId deltas reservationId = .ok db' := by
  have hunders : (deltas.filter fun delta => delta.2 < 0).map Prod.fst = [] ↔ ∀ delta ∈ deltas, 0 ≤ delta.2 := by
    rw [map_eq_nil_iff, filter_eq_nil_iff]
    exact forall₂_congr fun _ _ => by rw [decide_eq_true_iff, not_lt]
  have hunknown : ((deltas.map Prod.fst).filter fun resource => resource ∉ registry.map Prod.fst) = [] ↔
      ∀ delta ∈ deltas, delta.1 ∈ registry.map Prod.fst := by
    rw [filter_eq_nil_iff, List.forall_mem_map]
    exact forall₂_congr fun _ _ => by rw [decide_eq_true_iff, not_not]
  rw [makeReservation]
  simp only [Fallible.error_ite_eq_ok, ne_eq, not_not, hunders, hunknown]
  exact ⟨fun ⟨db', h1, h2, h⟩ => ⟨⟨h1, h2⟩, db', h⟩, fun ⟨⟨h1, h2⟩, db', h⟩ => ⟨db', h1, h2, h⟩⟩

end Mitaka.Neutron.Quota
