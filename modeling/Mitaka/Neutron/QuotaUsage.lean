/-
  Subject: Usage of a tracked resource (neutron/quota/resource.py, neutron/db/quota/api.py).

  A row of `quotausages` caches the number of a tenant's rows. A worker remembers the
  tenants whose rows have changed until `markDirty` sets the flag of their cached number.
  `count` trusts the cache unless the tenant is dirty, in memory or in the database.
  * `markDirty_usages`: what the loop of `markDirty` does to each row;
  * `count_eq`: what `count` returns and leaves.
-/
import Mathlib

namespace Mitaka.Neutron.Quota

variable {Tenant : Type} [DecidableEq Tenant]

/-! ## 1. The table -/

/-- A row of `quotausages`, of one resource and tenant. -/
structure QuotaUsage where
  inUse : ℤ
  dirty : Bool
  deriving DecidableEq, Repr

/-- The rows of one resource. -/
abbrev Usages (Tenant : Type) := Tenant → Option QuotaUsage

/-- An explicit update resets the dirty bit. -/
def setQuotaUsage (usages : Usages Tenant) (tenantId : Tenant) (inUse : ℤ) : Usages Tenant :=
  Function.update usages tenantId (some ⟨inUse, false⟩)

/-- An UPDATE: nothing where there is no row. -/
def setQuotaUsageDirty (usages : Usages Tenant) (tenantId : Tenant) : Usages Tenant :=
  Function.update usages tenantId ((usages tenantId).map fun usage => { usage with dirty := true })

/-! ## 2. Tracked resources -/

/-- What a worker remembers of the resource. -/
structure TrackedResource (Tenant : Type) where
  dirtyTenants : List Tenant
  outOfSyncTenants : List Tenant
  deriving DecidableEq, Repr

namespace TrackedResource

def initial : TrackedResource Tenant := ⟨[], []⟩

/-- `_db_event_handler`, after an insert or a delete. -/
def dbEventHandler (res : TrackedResource Tenant) (tenantId : Tenant) : TrackedResource Tenant :=
  { res with dirtyTenants := res.dirtyTenants.insert tenantId }

def markDirty (res : TrackedResource Tenant) (usages : Usages Tenant) : TrackedResource Tenant × Usages Tenant :=
  let dirtyTenantsSnap := res.dirtyTenants
  (⟨res.dirtyTenants.filter fun tenantId => tenantId ∉ dirtyTenantsSnap, res.outOfSyncTenants ∪ dirtyTenantsSnap⟩,
    dirtyTenantsSnap.foldl setQuotaUsageDirty usages)

/-- `_resync` -/
def resyncTo (res : TrackedResource Tenant) (usages : Usages Tenant) (tenantId : Tenant) (inUse : ℤ) :
    TrackedResource Tenant × Usages Tenant :=
  (⟨res.dirtyTenants.filter (· ≠ tenantId), res.outOfSyncTenants.filter (· ≠ tenantId)⟩,
    setQuotaUsage usages tenantId inUse)

/-- `rows` is the number of the tenant's rows that the session sees. -/
def resync (res : TrackedResource Tenant) (usages : Usages Tenant) (tenantId : Tenant) (rows : ℤ) :
    TrackedResource Tenant × Usages Tenant :=
  if tenantId ∉ res.outOfSyncTenants then (res, usages) else res.resyncTo usages tenantId rows

/-- The cached number is not to be used. -/
def Untrusted (res : TrackedResource Tenant) (usages : Usages Tenant) (tenantId : Tenant) : Prop :=
  tenantId ∈ res.dirtyTenants ∨ ∀ usage, usages tenantId = some usage → usage.dirty = true

instance (res : TrackedResource Tenant) (usages : Usages Tenant) (tenantId : Tenant) :
    Decidable (res.Untrusted usages tenantId) :=
  match h : usages tenantId with
  | none => .isTrue (.inr fun _ hu => nomatch h.symm.trans hu)
  | some usage => decidable_of_iff (tenantId ∈ res.dirtyTenants ∨ usage.dirty = true) <| by
      refine or_congr_right ⟨fun hd u hu => ?_, fun hd => hd usage h⟩
      rw [h] at hu
      exact Option.some.inj hu ▸ hd

/-- `reserved` is the amount found by `get_reservations_for_resources`. -/
def count (res : TrackedResource Tenant) (usages : Usages Tenant) (tenantId : Tenant) (rows reserved : ℤ)
    (resyncUsage : Bool) : ℤ × TrackedResource Tenant × Usages Tenant :=
  if res.Untrusted usages tenantId then
    (rows + reserved, if resyncUsage then res.resyncTo usages tenantId rows else (res, usages))
  else (((usages tenantId).map QuotaUsage.inUse).getD 0 + reserved, res, usages)

variable {res : TrackedResource Tenant} {usages : Usages Tenant} {tenantId tenantId' : Tenant}

theorem mem_dbEventHandler :
    tenantId ∈ (res.dbEventHandler tenantId').dirtyTenants ↔ tenantId = tenantId' ∨ tenantId ∈ res.dirtyTenants :=
  List.mem_insert_iff

/-- The loop sets the flag of every tenant in the list. -/
theorem foldl_setQuotaUsageDirty (l : List Tenant) (usages : Usages Tenant) (tenantId : Tenant) :
    l.foldl setQuotaUsageDirty usages tenantId =
      if tenantId ∈ l then (usages tenantId).map fun usage => { usage with dirty := true } else usages tenantId := by
  induction l generalizing usages with
  | nil => rfl
  | cons t l ih =>
    rw [List.foldl_cons, ih]
    by_cases heq : tenantId = t
    · subst heq
      have hset : setQuotaUsageDirty usages tenantId tenantId =
          (usages tenantId).map fun usage => { usage with dirty := true } := Function.update_self _ _ _
      rw [hset, if_pos List.mem_cons_self]
      cases usages tenantId <;> split <;> rfl
    · have hset : setQuotaUsageDirty usages t tenantId = usages tenantId := Function.update_of_ne heq _ _
      rw [hset]
      exact if_congr (List.mem_cons.trans (or_iff_right heq)).symm rfl rfl

theorem markDirty_dirtyTenants : (res.markDirty usages).1.dirtyTenants = [] :=
  List.filter_eq_nil_iff.mpr fun _ ht hn => of_decide_eq_true hn ht

theorem markDirty_usages : (res.markDirty usages).2 tenantId =
    if tenantId ∈ res.dirtyTenants then (usages tenantId).map fun usage => { usage with dirty := true }
    else usages tenantId := foldl_setQuotaUsageDirty _ _ _

theorem mem_resyncTo {inUse : ℤ} :
    tenantId ∈ (res.resyncTo usages tenantId' inUse).1.dirtyTenants ↔ tenantId ≠ tenantId' ∧ tenantId ∈ res.dirtyTenants := by
  rw [resyncTo, List.mem_filter, decide_eq_true_iff, and_comm]

theorem resyncTo_usages {inUse : ℤ} : (res.resyncTo usages tenantId' inUse).2 tenantId =
    if tenantId = tenantId' then some ⟨inUse, false⟩ else usages tenantId := Function.update_apply _ _ _ _

/-- **A cached number that is right makes the count right.** -/
theorem count_eq {rows : ℤ} (h : ∀ usage, usages tenantId = some usage → usage.dirty = false →
    tenantId ∉ res.dirtyTenants → usage.inUse = rows) (reserved : ℤ) (resyncUsage : Bool) :
    (res.count usages tenantId rows reserved resyncUsage).1 = rows + reserved := by
  rw [count]
  split
  next => rfl
  next htrusted =>
    rw [Untrusted, not_or, not_forall] at htrusted
    obtain ⟨hmem, usage, hnot⟩ := htrusted
    rw [Classical.not_imp, Bool.not_eq_true] at hnot
    rw [hnot.1, ← h usage hnot.1 hnot.2 hmem]
    rfl

end TrackedResource

end Mitaka.Neutron.Quota
