/-
  Subject: Runs of reservations, creations and deletions, one operation at a time.

  * `Db.Inv`: between operations no worker remembers a change, and a clean counter is
    the number of rows.
  * `makeReservation_exact`: a reservation is made iff it fits, where the tenant's
    reservations of each limited resource are `Uniform`: none has expired, and the
    unexpired ones have one expiration.
  * `reservations_miscounted`: with two expirations, or an expired reservation, a
    reservation is made that does not fit.
-/
import Mitaka.Lib.Run
import Mitaka.Neutron.QuotaReservations

namespace Mitaka.Neutron.Quota

variable {Resource Tenant Worker : Type} [LinearOrder Resource] [DecidableEq Tenant] [DecidableEq Worker]

/-! ## 1. Operations -/

inductive Operation (Resource Tenant Worker : Type)
  | makeReservation (worker : Worker) (tenantId : Tenant) (deltas : Dict Resource ℤ) (reservationId : ℕ)
  | commitReservation (reservationId : ℕ)
  | cancelReservation (reservationId : ℕ)
  | create (worker : Worker) (resource : Resource) (tenantId : Tenant)
  | delete (worker : Worker) (resource : Resource) (tenantId : Tenant)
  | resyncResource (worker : Worker) (resource : Resource) (tenantId : Tenant)
  | setQuotas (tenantId : Tenant) (quotas : Dict Resource ℤ)
  | pass (seconds : ℕ)

namespace Db

def initial (rows : Resource → Tenant → ℕ) (quotas : Tenant → Dict Resource ℤ) : Db Resource Tenant Worker :=
  ⟨0, rows, quotas, fun _ _ => none, [], fun _ _ => .initial⟩

variable (order : List (Group Resource) → List (Group Resource)) (registry : Dict Resource BaseResource)

def step (db : Db Resource Tenant Worker) : Operation Resource Tenant Worker → Option (Db Resource Tenant Worker)
  | .makeReservation worker tenantId deltas reservationId =>
    match Quota.makeReservation order registry db worker tenantId deltas reservationId with
    | .ok db' => some db'
    -- rolled back, with the expired reservations removed on the way
    | .error _ => some db
  | .commitReservation reservationId => some (Quota.commitReservation db reservationId)
  | .cancelReservation reservationId => some (Quota.cancelReservation db reservationId)
  | .create worker resource tenantId =>
    some (setResourcesDirty registry (setRows registry db worker resource tenantId (db.rows resource tenantId + 1)) worker)
  | .delete worker resource tenantId =>
    if db.rows resource tenantId = 0 then none
    else some (setResourcesDirty registry (setRows registry db worker resource tenantId (db.rows resource tenantId - 1)) worker)
  | .resyncResource worker resource tenantId => some (Quota.resyncResource registry db worker resource tenantId)
  | .setQuotas tenantId quotas => some { db with quotas := Function.update db.quotas tenantId quotas }
  | .pass seconds => some { db with now := db.now + seconds }

/-! ## 2. The invariant -/

structure Inv (db : Db Resource Tenant Worker) : Prop where
  clean : ∀ worker resource, (db.resources worker resource).dirtyTenants = []
  exact : ∀ resource tenantId usage, isTracked registry resource = true → db.usages resource tenantId = some usage →
    usage.dirty = false → usage.inUse = db.rows resource tenantId

variable {registry} {db : Db Resource Tenant Worker}

omit [DecidableEq Worker] [DecidableEq Tenant] in
theorem initial_inv (rows : Resource → Tenant → ℕ) (quotas : Tenant → Dict Resource ℤ) :
    Inv registry (initial rows quotas : Db Resource Tenant Worker) := ⟨fun _ _ => rfl, nofun⟩

variable {tenantId : Tenant}

omit [DecidableEq Worker] in
theorem Inv.makeReservation {order : List (Group Resource) → List (Group Resource)} (h : Inv registry db) {worker : Worker}
    {deltas : Dict Resource ℤ} {reservationId : ℕ} {db' : Db Resource Tenant Worker}
    (hok : Quota.makeReservation order registry db worker tenantId deltas reservationId = .ok db') : Inv registry db' := by
  rw [Quota.makeReservation, Fallible.error_ite_eq_ok, Fallible.error_ite_eq_ok, driverMakeReservation,
    Fallible.ite_error_eq_ok] at hok
  obtain ⟨-, -, -, hok⟩ := hok
  cases hok
  rw [createReservation]
  split
  · exact ⟨h.clean, h.exact⟩
  · exact ⟨h.clean, h.exact⟩

omit [DecidableEq Worker] in
theorem Inv.removeReservation (h : Inv registry db) (reservationId : ℕ) (setDirty : Bool) :
    Inv registry (Quota.removeReservation db reservationId setDirty) := by
  rw [Quota.removeReservation]
  split
  next => exact h
  next reservation _ =>
    cases setDirty with
    | false => exact ⟨h.clean, h.exact⟩
    | true =>
      refine ⟨h.clean, fun resource tenantId usage htracked hu hclean => h.exact resource tenantId usage htracked ?_ hclean⟩
      have hu : (if _ then setQuotaUsageDirty (db.usages resource) reservation.tenantId else db.usages resource) tenantId =
          some usage := hu
      split at hu
      next =>
        rw [setQuotaUsageDirty, Function.update_apply] at hu
        split at hu
        · obtain ⟨usage', -, rfl⟩ := Option.map_eq_some_iff.mp hu
          cases hclean
        · exact hu
      next => exact hu

/-- The mark of the change reaches the counter. -/
theorem Inv.setRows (h : Inv registry db) (worker : Worker) (resource : Resource) (tenantId : Tenant) (n : ℕ) :
    Inv registry (setResourcesDirty registry (Quota.setRows registry db worker resource tenantId n) worker) := by
  set flushed := Quota.setRows registry db worker resource tenantId n
  have hmem : ∀ r t, isTracked registry r = true → r = resource → t = tenantId →
      t ∈ (flushed.resources worker r).dirtyTenants := by
    intro r t htracked hr ht
    subst hr ht
    have hres : flushed.resources = Function.update db.resources worker (Function.update (db.resources worker) r
        ((db.resources worker r).dbEventHandler t)) := if_pos htracked
    rw [hres, Function.update_self, Function.update_self]
    exact TrackedResource.mem_dbEventHandler.mpr (.inl rfl)
  have hother : ∀ w r, w ≠ worker ∨ isTracked registry r = false → flushed.resources w r = db.resources w r := by
    intro w r hor
    change (if isTracked registry resource then _ else db.resources) w r = _
    split
    next htracked =>
      by_cases hw : w = worker
      · have hr : r ≠ resource := fun heq => by
          rw [← heq, hor.resolve_left (not_not.mpr hw)] at htracked
          cases htracked
        rw [hw, Function.update_self, Function.update_of_ne hr]
      · rw [Function.update_of_ne hw]
    next => rfl
  refine ⟨fun w r => ?_, fun r t usage htracked hu hclean => ?_⟩
  · change (Function.update flushed.resources worker (fun r =>
      if isTracked registry r then ((flushed.resources worker r).markDirty (flushed.usages r)).1
      else flushed.resources worker r) w r).dirtyTenants = []
    by_cases hw : w = worker
    · subst hw
      rw [Function.update_self]
      split
      next => exact TrackedResource.markDirty_dirtyTenants
      next hnot => rw [hother w r (.inr (eq_false_of_ne_true hnot)), h.clean]
    · rw [Function.update_of_ne hw, hother w r (.inl hw), h.clean]
  · have hu : (if isTracked registry r = true then ((flushed.resources worker r).markDirty (flushed.usages r)).2
        else flushed.usages r) t = some usage := hu
    rw [if_pos htracked, TrackedResource.markDirty_usages] at hu
    split at hu
    next =>
      obtain ⟨usage', -, rfl⟩ := Option.map_eq_some_iff.mp hu
      cases hclean
    next hnot =>
      rw [h.exact r t usage htracked hu hclean]
      have hrows : flushed.rows r t = db.rows r t := by
        change Function.update db.rows resource (Function.update (db.rows resource) tenantId n) r t = _
        by_cases hr : r = resource
        · have ht : t ≠ tenantId := fun ht => hnot (hmem r t htracked hr ht)
          subst hr
          rw [Function.update_self, Function.update_of_ne ht]
        · rw [Function.update_of_ne hr]
      exact congrArg Nat.cast hrows.symm

theorem Inv.resyncResource (h : Inv registry db) (worker : Worker) (resource : Resource) (tenantId : Tenant) :
    Inv registry (Quota.resyncResource registry db worker resource tenantId) := by
  rw [Quota.resyncResource, TrackedResource.resync]
  split
  next htracked =>
    split
    next =>
      dsimp only
      rw [Function.update_eq_self, Function.update_eq_self, Function.update_eq_self]
      exact h
    next =>
      refine ⟨fun w r => ?_, fun r t usage hr hu hclean => ?_⟩
      · change (Function.update db.resources worker (Function.update (db.resources worker) resource
          ((db.resources worker resource).resyncTo (db.usages resource) tenantId (db.rows resource tenantId)).1) w
            r).dirtyTenants = []
        by_cases hw : w = worker
        · subst hw
          rw [Function.update_self]
          by_cases hr : r = resource
          · subst hr
            rw [Function.update_self, TrackedResource.resyncTo, h.clean]
            rfl
          · rw [Function.update_of_ne hr, h.clean]
        · rw [Function.update_of_ne hw, h.clean]
      · have hu : Function.update db.usages resource ((db.resources worker resource).resyncTo (db.usages resource) tenantId
            (db.rows resource tenantId)).2 r t = some usage := hu
        by_cases hres : r = resource
        · subst hres
          rw [Function.update_self, TrackedResource.resyncTo_usages] at hu
          split at hu
          next ht =>
            cases hu
            rw [ht]
          next => exact h.exact r t usage hr hu hclean
        · rw [Function.update_of_ne hres] at hu
          exact h.exact r t usage hr hu hclean
  next => exact h

variable {order : List (Group Resource) → List (Group Resource)}

/-- **Every operation keeps the invariant.** -/
theorem Inv.step (h : Inv registry db) {op : Operation Resource Tenant Worker} {db' : Db Resource Tenant Worker}
    (hstep : Db.step order registry db op = some db') : Inv registry db' := by
  cases op with
  | makeReservation worker tenantId deltas reservationId =>
    rw [Db.step] at hstep
    split at hstep
    next db'' hok =>
      cases hstep
      exact h.makeReservation hok
    next =>
      cases hstep
      exact h
  | commitReservation reservationId =>
    cases hstep
    exact h.removeReservation reservationId false
  | cancelReservation reservationId =>
    cases hstep
    exact h.removeReservation reservationId true
  | create worker resource tenantId =>
    cases hstep
    exact h.setRows worker resource tenantId _
  | delete worker resource tenantId =>
    rw [Db.step] at hstep
    split at hstep
    next => cases hstep
    next =>
      cases hstep
      exact h.setRows worker resource tenantId _
  | resyncResource worker resource tenantId =>
    cases hstep
    exact h.resyncResource worker resource tenantId
  | setQuotas tenantId quotas =>
    cases hstep
    exact ⟨h.clean, h.exact⟩
  | pass seconds =>
    cases hstep
    exact ⟨h.clean, h.exact⟩

/-! ## 3. Reservations that fit -/

/-- The unexpired reservations of the resource have one expiration, and none has expired. Nothing is reserved
    of a resource that is counted. -/
def Uniform (registry : Dict Resource BaseResource) (db : Db Resource Tenant Worker) (tenantId : Tenant)
    (resource : Resource) : Prop :=
  (∀ r ∈ db.reservations, r.tenantId = tenantId → resource ∈ r.resourceDeltas.map Prod.fst →
    isTracked registry resource = true ∧ db.now ≤ r.expiration) ∧
  OneExpiration db.reservations db.now tenantId false resource

/-- The tenant's rows, its unexpired reservations and the request are within the limit. -/
def Fits (registry : Dict Resource BaseResource) (db : Db Resource Tenant Worker) (tenantId : Tenant)
    (deltas : Dict Resource ℤ) : Prop :=
  ∀ resource delta, deltas.get resource = some delta → 0 ≤ currentLimit registry db tenantId resource →
    db.rows resource tenantId + selectedAmount db.reservations db.now tenantId false resource + delta ≤
      currentLimit registry db tenantId resource

omit [DecidableEq Worker] in
/-- Nothing is selected where no reservation of the resource qualifies. -/
theorem selectedAmount_eq_zero {reservations : List (Reservation Resource Tenant)} {now : ℕ}
    {expired : Bool} {resource : Resource}
    (h : ∀ r ∈ reservations, r.Selected now tenantId expired → resource ∉ r.resourceDeltas.map Prod.fst) :
    selectedAmount reservations now tenantId expired resource = 0 := by
  refine List.sum_eq_zero fun x hx => ?_
  obtain ⟨r, hr, rfl⟩ := List.mem_map.mp hx
  obtain ⟨hmem, hsel⟩ := List.mem_filter.mp hr
  have hnone : r.resourceDeltas.filter (fun delta => delta.1 = resource) = [] := by
    refine List.filter_eq_nil_iff.mpr fun delta hd heq => ?_
    exact h r hmem (of_decide_eq_true hsel) (List.mem_map.mpr ⟨delta, hd, of_decide_eq_true heq⟩)
  rw [Reservation.amount, hnone]
  rfl

omit [DecidableEq Worker] in
theorem countResource_eq (horder : ∀ l, (order l).Perm l) (h : Inv registry db) {resource : Resource}
    (huniform : Uniform registry db tenantId resource) (worker : Worker) :
    countResource order registry db worker tenantId resource =
      db.rows resource tenantId + selectedAmount db.reservations db.now tenantId false resource := by
  rw [countResource]
  split
  next htracked =>
    rw [getReservations_of_uniform horder List.mem_cons_self huniform.2]
    exact TrackedResource.count_eq (fun usage hu hclean _ => h.exact resource tenantId usage htracked hu hclean) _ _
  next hnot =>
    have hzero : selectedAmount db.reservations db.now tenantId false resource = 0 :=
      selectedAmount_eq_zero fun r hr hsel hmem => hnot (huniform.1 r hr hsel.1 hmem).1
    rw [hzero, add_zero]

/-- **A reservation is made iff it fits**, where the limited resources are uniform. -/
theorem makeReservation_exact (horder : ∀ l, (order l).Perm l) {rows : Resource → Tenant → ℕ}
    {quotas : Tenant → Dict Resource ℤ}
    (h : Reach (Db.step order registry) (fun _ _ => True) (initial rows quotas : Db Resource Tenant Worker) db)
    {tenantId : Tenant} {deltas : Dict Resource ℤ}
    (huniform : ∀ resource ∈ deltas.map Prod.fst, 0 ≤ currentLimit registry db tenantId resource →
      Uniform registry db tenantId resource) (worker : Worker) (reservationId : ℕ) :
    (∃ db', Quota.makeReservation order registry db worker tenantId deltas reservationId = .ok db') ↔
      ((∀ delta ∈ deltas, 0 ≤ delta.2) ∧ ∀ delta ∈ deltas, delta.1 ∈ registry.map Prod.fst) ∧
        Fits registry db tenantId deltas := by
  have hinv : Inv registry db := h.invariant (initial_inv rows quotas) fun _ _ _ hI _ hs => Inv.step hI hs
  rw [makeReservation_isOk, driverMakeReservation_isOk]
  refine and_congr_right' (forall₄_congr fun resource delta hget hlimit => ?_)
  have hkey : resource ∈ deltas.map Prod.fst := Dict.mem_keys_iff.mpr (Option.isSome_of_eq_some hget)
  have hu := huniform resource hkey hlimit
  have hexpired : ∀ r ∈ db.reservations, r.Selected db.now tenantId true → resource ∉ r.resourceDeltas.map Prod.fst :=
    fun r hr hsel hmem => absurd hsel.2 (not_lt.mpr (hu.1 r hr hsel.1 hmem).2)
  have hone : OneExpiration db.reservations db.now tenantId true resource :=
    ⟨0, fun r hr hsel hmem => absurd hmem (hexpired r hr hsel)⟩
  rw [countResource_eq horder hinv hu, getReservations_of_uniform horder
    (List.mem_filter.mpr ⟨hkey, decide_eq_true hlimit⟩) hone, selectedAmount_eq_zero hexpired, sub_zero]

/-! ## 4. Two expirations, and expired reservations -/

/-- One tracked resource with a limit of two. -/
def oneResource : Dict ℕ BaseResource := [(0, ⟨2, true⟩)]

def start : Db ℕ Unit Unit := initial (fun _ _ => 0) fun _ => []

/-- Two reservations, ten seconds apart. -/
def twoExpirations : Db ℕ Unit Unit :=
  (replay (Db.step id oneResource) (fun _ _ => True) start
    [.makeReservation () () [(0, 1)] 1, .pass 10, .makeReservation () () [(0, 1)] 2]).get (by decide +kernel)

/-- A reservation that has expired, and two rows. -/
def oneExpired : Db ℕ Unit Unit :=
  (replay (Db.step id oneResource) (fun _ _ => True) start
    [.makeReservation () () [(0, 1)] 1, .pass 200, .create () 0 (), .create () 0 ()]).get (by decide +kernel)

/-- A run leads there, and a third one is made that does not fit. -/
def Miscounted (db : Db ℕ Unit Unit) : Prop :=
  Reach (Db.step id oneResource) (fun _ _ => True) start db ∧
    (∃ db', Quota.makeReservation id oneResource db () () [(0, 1)] 3 = .ok db') ∧
    ¬ Fits oneResource db () [(0, 1)]

/-- **A third one is made of two**: of several expirations one sum is kept, and an expired amount is given as credit. -/
theorem reservations_miscounted : Miscounted twoExpirations ∧ Miscounted oneExpired := by
  have hmade : ∀ db : Db ℕ Unit Unit,
      (Quota.makeReservation id oneResource db () () [(0, 1)] 3).toOption.isSome = true →
        ∃ db', Quota.makeReservation id oneResource db () () [(0, 1)] 3 = .ok db' := by
    intro db h
    cases hr : Quota.makeReservation id oneResource db () () [(0, 1)] 3 with
    | ok db' => exact ⟨db', rfl⟩
    | error e =>
      rw [hr] at h
      cases h
  constructor
  · refine ⟨Reach.of_replay (Option.some_get _).symm, hmade _ (by decide +kernel), fun hfits => ?_⟩
    exact absurd (hfits 0 1 rfl (by decide +kernel)) (by decide +kernel)
  · refine ⟨Reach.of_replay (Option.some_get _).symm, hmade _ (by decide +kernel), fun hfits => ?_⟩
    exact absurd (hfits 0 1 rfl (by decide +kernel)) (by decide +kernel)

/-- One reservation and one row: no third. -/
def oneExpiration : Db ℕ Unit Unit :=
  (replay (Db.step id oneResource) (fun _ _ => True) start
    [.makeReservation () () [(0, 1)] 1, .create () 0 ()]).get (by decide +kernel)

theorem makeReservation_exact_oneExpiration :
    (∃ db', Quota.makeReservation id oneResource oneExpiration () () [(0, 1)] 3 = .ok db') ↔
      ((∀ delta ∈ ([(0, 1)] : Dict ℕ ℤ), 0 ≤ delta.2) ∧ ∀ delta ∈ ([(0, 1)] : Dict ℕ ℤ), delta.1 ∈ oneResource.map Prod.fst) ∧
        Fits oneResource oneExpiration () [(0, 1)] := by
  have hreservations : oneExpiration.reservations = [⟨1, (), 120, [(0, 1)]⟩] := by decide +kernel
  have hnow : oneExpiration.now = 0 := by decide +kernel
  have hreach : Reach (Db.step id oneResource) (fun _ _ => True) start oneExpiration :=
    Reach.of_replay (Option.some_get _).symm
  refine makeReservation_exact (fun _ => .refl _) hreach (fun resource hr _ => ⟨fun r hmem _ _ => ?_, 120, ?_⟩) () 3
  · rw [hreservations] at hmem
    obtain rfl := List.mem_singleton.mp hmem
    obtain rfl := List.mem_singleton.mp hr
    exact ⟨rfl, hnow ▸ Nat.zero_le 120⟩
  · intro r hmem _ _
    rw [hreservations] at hmem
    exact congrArg Reservation.expiration (List.mem_singleton.mp hmem)

end Db

end Mitaka.Neutron.Quota
