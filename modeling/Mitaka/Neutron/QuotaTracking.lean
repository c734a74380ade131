/-
  Subject: Interleaved requests that change, count and recount a tracked resource.

  A request flushes changes of rows, which marks the tenants in its worker's memory,
  commits them and ends with `set_resources_dirty`. A recount sees the committed rows and
  the request's own; where it is stored, it clears both marks. `Careful` asks of it that
  the other requests with uncommitted changes of the tenant run in other workers, which
  still remember the tenant.
  * `State.Inv`: the invariant; a trusted number is short of nothing but the changes of
    the request that stored it, and the others' are marked.
  * `count_exact`: in careful runs the next count is exact once no request is running.
  * `resync_loses_change`: a recount in the worker of an uncommitted change loses it.
-/
import Mitaka.Lib.Run
import Mitaka.Neutron.QuotaUsage

namespace Mitaka.Neutron.Quota

variable {Tenant Worker : Type} [DecidableEq Tenant] [DecidableEq Worker]

/-! ## 1. Requests -/

structure Request (Tenant Worker : Type) where
  worker : Worker
  /-- Flushed and not committed: a tenant and by how much the number of its rows changes. -/
  flushed : List (Tenant × ℤ)

/-- The uncommitted change of the number of the tenant's rows. -/
def Request.uncommitted (r : Request Tenant Worker) (tenantId : Tenant) : ℤ :=
  ((r.flushed.filter fun change => change.1 = tenantId).map Prod.snd).sum

structure State (Tenant Worker : Type) where
  /-- The numbers of committed rows. -/
  rows : Tenant → ℤ
  usages : Usages Tenant
  resources : Worker → TrackedResource Tenant
  requests : ℕ → Option (Request Tenant Worker)

inductive Action (Tenant Worker : Type)
  | start (i : ℕ) (worker : Worker)
  | flush (i : ℕ) (tenantId : Tenant) (delta : ℤ)
  | commit (i : ℕ)
  | count (i : ℕ) (tenantId : Tenant) (resyncUsage : Bool)
  | resync (i : ℕ) (tenantId : Tenant)
  | finish (i : ℕ)

namespace State

/-- The counters are trusted at service startup: here there is none. -/
def initial (rows : Tenant → ℤ) : State Tenant Worker := ⟨rows, fun _ => none, fun _ => .initial, fun _ => none⟩

variable (s : State Tenant Worker)

def setRequest (i : ℕ) (r : Option (Request Tenant Worker)) : State Tenant Worker :=
  { s with requests := Function.update s.requests i r }

def setResource (worker : Worker) (res : TrackedResource Tenant × Usages Tenant) : State Tenant Worker :=
  { s with resources := Function.update s.resources worker res.1, usages := res.2 }

/-- The rows that the request sees. -/
def visible (r : Request Tenant Worker) (tenantId : Tenant) : ℤ := s.rows tenantId + r.uncommitted tenantId

def step : Action Tenant Worker → Option (State Tenant Worker)
  | .start i worker =>
    match s.requests i with
    | none => some (s.setRequest i (some ⟨worker, []⟩))
    | some _ => none
  | .flush i tenantId delta => do
    let r ← s.requests i
    some ((s.setRequest i (some { r with flushed := (tenantId, delta) :: r.flushed })).setResource r.worker
      ((s.resources r.worker).dbEventHandler tenantId, s.usages))
  | .commit i => do
    let r ← s.requests i
    some { s.setRequest i (some ⟨r.worker, []⟩) with rows := s.visible r }
  | .count i tenantId resyncUsage => do
    let r ← s.requests i
    -- what is returned, reservations included, is not kept
    some (s.setResource r.worker
      ((s.resources r.worker).count s.usages tenantId (s.visible r tenantId) 0 resyncUsage).2)
  | .resync i tenantId => do
    let r ← s.requests i
    some (s.setResource r.worker ((s.resources r.worker).resync s.usages tenantId (s.visible r tenantId)))
  | .finish i => do
    let r ← s.requests i
    -- set_resources_dirty, after the last commit
    if r.flushed = [] then
      some ((s.setRequest i none).setResource r.worker ((s.resources r.worker).markDirty s.usages))
    else none

/-! ## 2. Careful recounts -/

variable {s}

/-- The change of the number of the tenant's rows that the request has not committed. -/
def change (s : State Tenant Worker) (i : ℕ) (tenantId : Tenant) : ℤ :=
  ((s.requests i).map fun r => r.uncommitted tenantId).getD 0

/-- The request's worker remembers the tenant. -/
def Marked (s : State Tenant Worker) (i : ℕ) (tenantId : Tenant) : Prop :=
  ∃ r, s.requests i = some r ∧ tenantId ∈ (s.resources r.worker).dirtyTenants

/-- The other requests with uncommitted changes of the tenant run in other workers, which remember it. -/
def Alone (s : State Tenant Worker) (i : ℕ) (tenantId : Tenant) : Prop :=
  ∀ j, j ≠ i → s.change j tenantId ≠ 0 → s.Marked j tenantId ∧
    ∀ r r', s.requests i = some r → s.requests j = some r' → r'.worker ≠ r.worker

/-- The recount of the tenant's rows is stored. -/
def Stores (s : State Tenant Worker) : Action Tenant Worker → ℕ → Tenant → Prop
  | .count i tenantId resyncUsage, j, tenantId' => j = i ∧ tenantId' = tenantId ∧ resyncUsage = true ∧
      ∃ r, s.requests i = some r ∧ (s.resources r.worker).Untrusted s.usages tenantId
  | .resync i tenantId, j, tenantId' => j = i ∧ tenantId' = tenantId ∧
      ∃ r, s.requests i = some r ∧ tenantId ∈ (s.resources r.worker).outOfSyncTenants
  | _, _, _ => False

def Careful (s : State Tenant Worker) (a : Action Tenant Worker) : Prop :=
  ∀ i tenantId, s.Stores a i tenantId → s.Alone i tenantId

/-! ## 3. The invariant -/

/-- The number is short of the changes of one request at most, and all others are marked. -/
def Close (s : State Tenant Worker) (inUse : ℤ) (tenantId : Tenant) : Prop :=
  ∃ i, inUse = s.rows tenantId + s.change i tenantId ∧ ∀ j, j ≠ i → s.change j tenantId ≠ 0 → s.Marked j tenantId

structure Inv (s : State Tenant Worker) : Prop where
  running : ∀ worker tenantId, tenantId ∈ (s.resources worker).dirtyTenants →
    ∃ i r, s.requests i = some r ∧ r.worker = worker
  trusted : ∀ tenantId usage, s.usages tenantId = some usage → usage.dirty = false →
    s.Close usage.inUse tenantId ∨ ∃ worker, tenantId ∈ (s.resources worker).dirtyTenants

omit [DecidableEq Worker] in
theorem initial_inv (rows : Tenant → ℤ) : Inv (initial rows : State Tenant Worker) := ⟨nofun, nofun⟩

variable {r : Request Tenant Worker}

omit [DecidableEq Worker] in
theorem change_eq {i : ℕ} (h : s.requests i = some r) (tenantId : Tenant) :
    s.change i tenantId = r.uncommitted tenantId := by rw [change, h]; rfl

omit [DecidableEq Worker] in
theorem change_of_none {i : ℕ} (h : s.requests i = none) (tenantId : Tenant) : s.change i tenantId = 0 := by
  rw [change, h]; rfl

omit [DecidableEq Worker] [DecidableEq Tenant] in
theorem setRequest_self (i : ℕ) (r : Option (Request Tenant Worker)) : (s.setRequest i r).requests i = r :=
  Function.update_self _ _ _

omit [DecidableEq Worker] [DecidableEq Tenant] in
theorem setRequest_of_ne {i j : ℕ} (h : j ≠ i) (r : Option (Request Tenant Worker)) :
    (s.setRequest i r).requests j = s.requests j := Function.update_of_ne h _ _

omit [DecidableEq Tenant] in
theorem setResource_self (worker : Worker) (res : TrackedResource Tenant × Usages Tenant) :
    (s.setResource worker res).resources worker = res.1 := Function.update_self _ _ _

omit [DecidableEq Tenant] in
theorem setResource_of_ne {worker worker' : Worker} (h : worker' ≠ worker)
    (res : TrackedResource Tenant × Usages Tenant) :
    (s.setResource worker res).resources worker' = s.resources worker' := Function.update_of_ne h _ _

variable {s' : State Tenant Worker} {i : ℕ} {tenantId : Tenant}

omit [DecidableEq Worker] in
/-- What a step does not touch stays close. -/
theorem Close.congr {inUse : ℤ} (h : s.Close inUse tenantId) (hrows : s'.rows tenantId = s.rows tenantId)
    (hchange : ∀ j, s'.change j tenantId = s.change j tenantId)
    (hmarked : ∀ j, s.Marked j tenantId → s'.Marked j tenantId) : s'.Close inUse tenantId := by
  obtain ⟨c, heq, hothers⟩ := h
  refine ⟨c, by rw [hrows, hchange, heq], fun j hj hne => hmarked j (hothers j hj ?_)⟩
  rwa [hchange] at hne

omit [DecidableEq Worker] in
theorem Inv.start (h : Inv s) (hi : s.requests i = none) (worker : Worker) :
    Inv (s.setRequest i (some ⟨worker, []⟩)) := by
  have hother : ∀ j r, s.requests j = some r → (s.setRequest i (some ⟨worker, []⟩)).requests j = some r := by
    intro j r hj
    have hne : j ≠ i := fun heq => by
      rw [heq, hi] at hj
      cases hj
    rw [setRequest_of_ne hne, hj]
  have hchange : ∀ j t, (s.setRequest i (some ⟨worker, []⟩)).change j t = s.change j t := by
    intro j t
    by_cases hj : j = i
    · subst hj
      rw [change_eq (setRequest_self j _), change_of_none hi]
      rfl
    · rw [change, setRequest_of_ne hj, change]
  refine ⟨fun w t ht => ?_, fun t usage hu hclean => ?_⟩
  · obtain ⟨j, r, hj, hw⟩ := h.running w t ht
    exact ⟨j, r, hother j r hj, hw⟩
  · refine (h.trusted t usage hu hclean).imp_left fun hclose => ?_
    refine hclose.congr rfl (fun j => hchange j t) fun j hmarked => ?_
    obtain ⟨r, hj, hmem⟩ := hmarked
    exact ⟨r, hother j r hj, hmem⟩

theorem Inv.flush (h : Inv s) (hi : s.requests i = some r) (tenantId : Tenant) (delta : ℤ) :
    Inv ((s.setRequest i (some { r with flushed := (tenantId, delta) :: r.flushed })).setResource r.worker
      ((s.resources r.worker).dbEventHandler tenantId, s.usages)) := by
  set s' := (s.setRequest i (some { r with flushed := (tenantId, delta) :: r.flushed })).setResource r.worker
      ((s.resources r.worker).dbEventHandler tenantId, s.usages)
  have hrequests : ∀ j u, s.requests j = some u → ∃ u', s'.requests j = some u' ∧ u'.worker = u.worker := by
    intro j u hj
    by_cases hne : j = i
    · subst hne
      rw [hi] at hj
      cases hj
      exact ⟨_, setRequest_self j _, rfl⟩
    · exact ⟨u, (setRequest_of_ne hne _).trans hj, rfl⟩
  have hdirty : ∀ w t, t ∈ (s'.resources w).dirtyTenants ↔
      (w = r.worker ∧ t = tenantId) ∨ t ∈ (s.resources w).dirtyTenants := by
    intro w t
    by_cases hw : w = r.worker
    · subst hw
      rw [setResource_self, TrackedResource.mem_dbEventHandler]
      exact or_congr_left (and_iff_right rfl).symm
    · rw [setResource_of_ne hw]
      exact (or_iff_right fun hn => hw hn.1).symm
  refine ⟨fun w t ht => ?_, fun t usage hu hclean => ?_⟩
  · rcases (hdirty w t).mp ht with ⟨rfl, -⟩ | ht
    · exact ⟨i, _, setRequest_self i _, rfl⟩
    · obtain ⟨j, u, hj, hw⟩ := h.running w t ht
      obtain ⟨u', hj', hw'⟩ := hrequests j u hj
      exact ⟨j, u', hj', hw'.trans hw⟩
  · by_cases ht : t = tenantId
    · exact .inr ⟨r.worker, (hdirty r.worker t).mpr (.inl ⟨rfl, ht⟩)⟩
    · refine (h.trusted t usage hu hclean).imp (fun hclose => ?_) fun ⟨w, hw⟩ => ⟨w, (hdirty w t).mpr (.inr hw)⟩
      refine hclose.congr rfl (fun j => ?_) fun j ⟨u, hj, hmem⟩ => ?_
      · by_cases hne : j = i
        · subst hne
          have hnew : s'.requests j = some { r with flushed := (tenantId, delta) :: r.flushed } := setRequest_self j _
          rw [change_eq hnew, change_eq hi, Request.uncommitted, List.filter_cons_of_neg fun heq =>
            ht (of_decide_eq_true heq).symm]
          rfl
        · have hsame : s'.requests j = s.requests j := setRequest_of_ne hne _
          rw [change, hsame, change]
      · obtain ⟨u', hj', hw'⟩ := hrequests j u hj
        exact ⟨u', hj', (hdirty _ t).mpr (.inr (hw' ▸ hmem))⟩

omit [DecidableEq Worker] in
theorem Inv.commit (h : Inv s) (hi : s.requests i = some r) :
    Inv { s.setRequest i (some ⟨r.worker, []⟩) with rows := s.visible r } := by
  set s' : State Tenant Worker := { s.setRequest i (some ⟨r.worker, []⟩) with rows := s.visible r }
  have hself : s'.requests i = some ⟨r.worker, []⟩ := setRequest_self i _
  have hother : ∀ j, j ≠ i → s'.requests j = s.requests j := fun j hj => setRequest_of_ne hj _
  have hmarked : ∀ j t, s.Marked j t → s'.Marked j t := by
    intro j t ⟨u, hj, hmem⟩
    by_cases hne : j = i
    · subst hne
      rw [hi] at hj
      cases hj
      exact ⟨_, hself, hmem⟩
    · exact ⟨u, (hother j hne).trans hj, hmem⟩
  refine ⟨fun w t ht => ?_, fun t usage hu hclean => ?_⟩
  · obtain ⟨j, u, hj, hw⟩ := h.running w t ht
    by_cases hne : j = i
    · subst hne
      rw [hi] at hj
      cases hj
      exact ⟨j, _, hself, hw⟩
    · exact ⟨j, u, (hother j hne).trans hj, hw⟩
  · rcases h.trusted t usage hu hclean with ⟨c, heq, hothers⟩ | hdirty
    · have hchange : ∀ j, s'.change j t ≠ 0 → s'.change j t = s.change j t ∧ j ≠ i := by
        intro j hj
        by_cases hne : j = i
        · subst hne
          rw [change_eq hself] at hj
          exact absurd rfl hj
        · exact ⟨by rw [change, hother j hne, change], hne⟩
      by_cases hc : c = i
      · -- the change that was short is committed
        subst hc
        refine .inl ⟨c, ?_, fun j hj hne => hmarked j t (hothers j hj ((hchange j hne).1 ▸ hne))⟩
        rw [change_eq hself, heq, change_eq hi]
        exact (add_zero _).symm
      · by_cases hzero : s.change i t = 0
        · refine .inl ⟨c, ?_, fun j hj hne => hmarked j t (hothers j hj ((hchange j hne).1 ▸ hne))⟩
          have hrows : s'.rows t = s.rows t := by
            change s.rows t + r.uncommitted t = _
            rw [← change_eq hi, hzero, add_zero]
          have hkept : s'.change c t = s.change c t := by rw [change, hother c hc, change]
          rw [hrows, heq, hkept]
        · -- it is not counted, but marked
          obtain ⟨u, -, hmem⟩ := hothers i (Ne.symm hc) hzero
          exact .inr ⟨u.worker, hmem⟩
    · exact .inr hdirty

/-- **A recount that is stored alone is close.** -/
theorem Inv.store (h : Inv s) (hi : s.requests i = some r) (halone : s.Alone i tenantId) :
    Inv (s.setResource r.worker ((s.resources r.worker).resyncTo s.usages tenantId (s.visible r tenantId))) := by
  set s' := s.setResource r.worker ((s.resources r.worker).resyncTo s.usages tenantId (s.visible r tenantId))
  have hdirty : ∀ w t, t ∈ (s'.resources w).dirtyTenants ↔
      ¬ (w = r.worker ∧ t = tenantId) ∧ t ∈ (s.resources w).dirtyTenants := by
    intro w t
    by_cases hw : w = r.worker
    · subst hw
      rw [setResource_self, TrackedResource.mem_resyncTo]
      exact and_congr_left' ⟨fun hne hn => hne hn.2, fun hn ht => hn ⟨rfl, ht⟩⟩
    · rw [setResource_of_ne hw]
      exact (and_iff_right fun hn => hw hn.1).symm
  have hchange : ∀ j t, s'.change j t = s.change j t := fun _ _ => rfl
  refine ⟨fun w t ht => h.running w t ((hdirty w t).mp ht).2, fun t usage hu hclean => ?_⟩
  have hu : (if t = tenantId then some ⟨s.visible r tenantId, false⟩ else s.usages t) = some usage :=
    (@TrackedResource.resyncTo_usages _ _ (s.resources r.worker) _ _ _ _).symm.trans hu
  by_cases ht : t = tenantId
  · rw [if_pos ht] at hu
    cases hu
    subst ht
    refine .inl ⟨i, ?_, fun j hj hne => ?_⟩
    · rw [hchange, change_eq hi]
      rfl
    · obtain ⟨⟨u, hj', hmem⟩, hworker⟩ := halone j hj hne
      exact ⟨u, hj', (hdirty _ t).mpr ⟨fun hn => hworker r u hi hj' hn.1, hmem⟩⟩
  · rw [if_neg ht] at hu
    refine (h.trusted t usage hu hclean).imp (fun hclose => ?_) fun ⟨w, hw⟩ => ⟨w, (hdirty w t).mpr ⟨fun hn => ht hn.2, hw⟩⟩
    exact hclose.congr rfl (fun j => hchange j t) fun j ⟨u, hj, hmem⟩ =>
      ⟨u, hj, (hdirty _ t).mpr ⟨fun hn => ht hn.2, hmem⟩⟩

theorem Inv.finish (h : Inv s) (hi : s.requests i = some r) (hflushed : r.flushed = []) :
    Inv ((s.setRequest i none).setResource r.worker ((s.resources r.worker).markDirty s.usages)) := by
  set s' := (s.setRequest i none).setResource r.worker ((s.resources r.worker).markDirty s.usages)
  have hdirty : ∀ w t, t ∈ (s'.resources w).dirtyTenants ↔ w ≠ r.worker ∧ t ∈ (s.resources w).dirtyTenants := by
    intro w t
    by_cases hw : w = r.worker
    · subst hw
      rw [setResource_self, TrackedResource.markDirty_dirtyTenants]
      exact iff_of_false List.not_mem_nil fun hn => hn.1 rfl
    · rw [setResource_of_ne hw]
      exact (and_iff_right hw).symm
  have hother : ∀ j, j ≠ i → s'.requests j = s.requests j := fun j hj => setRequest_of_ne hj _
  have hself : s'.requests i = none := setRequest_self i _
  refine ⟨fun w t ht => ?_, fun t usage hu hclean => ?_⟩
  · obtain ⟨hw, ht⟩ := (hdirty w t).mp ht
    obtain ⟨j, u, hj, rfl⟩ := h.running w t ht
    refine ⟨j, u, (hother j fun heq => hw ?_).trans hj, rfl⟩
    subst heq
    rw [hi] at hj
    cases hj
    rfl
  · have hu : (if t ∈ (s.resources r.worker).dirtyTenants then (s.usages t).map fun usage => { usage with dirty := true }
        else s.usages t) = some usage := (@TrackedResource.markDirty_usages _ _ (s.resources r.worker) _ _).symm.trans hu
    split at hu
    next =>
      obtain ⟨usage', -, rfl⟩ := Option.map_eq_some_iff.mp hu
      cases hclean
    next hnot =>
      refine (h.trusted t usage hu hclean).imp (fun hclose => ?_) fun ⟨w, hw⟩ =>
        ⟨w, (hdirty w t).mpr ⟨fun heq => hnot (heq ▸ hw), hw⟩⟩
      refine hclose.congr rfl (fun j => ?_) fun j ⟨u, hj, hmem⟩ => ?_
      · by_cases hne : j = i
        · subst hne
          rw [change_of_none hself, change_eq hi, Request.uncommitted, hflushed]
          rfl
        · rw [change, hother j hne, change]
      · have hworker : u.worker ≠ r.worker := fun heq => hnot (heq ▸ hmem)
        refine ⟨u, (hother j fun heq => hworker ?_).trans hj, (hdirty _ t).mpr ⟨hworker, hmem⟩⟩
        subst heq
        rw [hi] at hj
        cases hj
        rfl

omit [DecidableEq Tenant] in
/-- What leaves the resource and the table alone. -/
theorem setResource_eq_self (worker : Worker) : s.setResource worker (s.resources worker, s.usages) = s := by
  rw [setResource]
  dsimp only
  rw [Function.update_eq_self]

/-- **Every careful step keeps the invariant.** -/
theorem Inv.step (h : Inv s) {a : Action Tenant Worker} (hcareful : s.Careful a) (hstep : s.step a = some s') : Inv s' := by
  cases a with
  | start i worker =>
    rw [State.step] at hstep
    split at hstep
    next hi =>
      cases hstep
      exact h.start hi worker
    next => cases hstep
  | flush i tenantId delta =>
    obtain ⟨r, hi, hstep⟩ := Option.bind_eq_some_iff.mp hstep
    cases hstep
    exact h.flush hi tenantId delta
  | commit i =>
    obtain ⟨r, hi, hstep⟩ := Option.bind_eq_some_iff.mp hstep
    cases hstep
    exact h.commit hi
  | count i tenantId resyncUsage =>
    obtain ⟨r, hi, hstep⟩ := Option.bind_eq_some_iff.mp hstep
    cases hstep
    rw [TrackedResource.count]
    split
    next huntrusted =>
      cases resyncUsage with
      | true => exact h.store hi (hcareful i tenantId ⟨rfl, rfl, rfl, r, hi, huntrusted⟩)
      | false =>
        rw [if_neg Bool.false_ne_true, setResource_eq_self]
        exact h
    next =>
      rw [setResource_eq_self]
      exact h
  | resync i tenantId =>
    obtain ⟨r, hi, hstep⟩ := Option.bind_eq_some_iff.mp hstep
    cases hstep
    rw [TrackedResource.resync]
    split
    next =>
      rw [setResource_eq_self]
      exact h
    next hmem => exact h.store hi (hcareful i tenantId ⟨rfl, rfl, r, hi, not_not.mp hmem⟩)
  | finish i =>
    obtain ⟨r, hi, hstep⟩ := Option.bind_eq_some_iff.mp hstep
    split at hstep
    next hflushed =>
      cases hstep
      exact h.finish hi hflushed
    next => cases hstep

/-! ## 4. Counting at rest -/

/-- **At rest the next count is exact**, after a careful run. -/
theorem count_exact {rows : Tenant → ℤ} (h : Reach State.step Careful (initial rows) s) (hrest : ∀ i, s.requests i = none)
    (worker : Worker) (tenantId : Tenant) (reserved : ℤ) (resyncUsage : Bool) :
    ((s.resources worker).count s.usages tenantId (s.rows tenantId) reserved resyncUsage).1 =
      s.rows tenantId + reserved := by
  have hinv : Inv s := h.invariant (initial_inv rows) fun _ _ _ hI hc hs => Inv.step hI hc hs
  refine TrackedResource.count_eq (fun usage hu hclean _ => ?_) reserved resyncUsage
  rcases hinv.trusted tenantId usage hu hclean with ⟨i, heq, -⟩ | ⟨w, hmem⟩
  · rw [heq, change_of_none (hrest i), add_zero]
  · obtain ⟨i, r, hi, -⟩ := hinv.running w tenantId hmem
    rw [hrest i] at hi
    cases hi

/-! ## 5. A lost change -/

/-- One worker. A creation and its end leave the tenant out of sync. The next creation is flushed, another
    request resyncs, and then the creation is committed. -/
def lostRun : List (Action Unit Unit) :=
  [.start 0 (), .flush 0 () 1, .commit 0, .finish 0, .start 1 (), .start 2 (), .flush 1 () 1, .resync 2 (), .commit 1,
    .finish 1, .finish 2]

/-- **A recount in the worker of an uncommitted change loses it.** -/
theorem resync_loses_change : ∃ s : State Unit Unit,
    Reach State.step (fun _ _ => True) (initial fun _ => 0) s ∧ (∀ i, s.requests i = none) ∧
      s.rows () = 2 ∧ ((s.resources ()).count s.usages () (s.rows ()) 0 true).1 = 1 := by
  refine ⟨(replay State.step (fun _ _ => True) (initial fun _ => 0) lostRun).get (by decide +kernel),
    Reach.of_replay (Option.some_get _).symm, fun i => ?_, by decide +kernel, by decide +kernel⟩
  match i with
  | 0 | 1 | 2 => rfl
  | n + 3 => rfl

/-- A creation that is committed and about to be counted. -/
def committed : State Unit Unit :=
  ([.start 0 (), .flush 0 () 1, .commit 0].foldlM State.step (initial fun _ => 0)).get (by decide +kernel)

/-- It is counted, which stores the number, and ends. -/
def counted : State Unit Unit := ([.count 0 () true, .finish 0].foldlM State.step committed).get (by decide +kernel)

theorem committed_alone : committed.Alone 0 () := by
  intro j hj hne
  have hnone : committed.requests j = none := by
    change Function.update (Function.update (Function.update (fun _ => none) 0 _) 0 _) 0 _ j = none
    rw [Function.update_of_ne hj, Function.update_of_ne hj, Function.update_of_ne hj]
  exact absurd (change_of_none hnone ()) hne

theorem reach_counted : Reach State.step Careful (initial fun _ => 0) counted := by
  have hcommitted : Reach State.step Careful (initial fun _ => 0) committed :=
    ((Reach.refl.tail (a := .start 0 ()) (fun _ _ h => h.elim) rfl).tail (a := .flush 0 () 1) (fun _ _ h => h.elim) rfl).tail
      (a := .commit 0) (fun _ _ h => h.elim) rfl
  have hcareful : committed.Careful (.count 0 () true) := by
    intro i tenantId h
    obtain ⟨rfl, rfl, -⟩ := h
    exact committed_alone
  exact (hcommitted.tail hcareful rfl).tail (a := .finish 0) (fun _ _ h => h.elim) rfl

theorem count_exact_counted :
    ((counted.resources ()).count counted.usages () (counted.rows ()) 3 true).1 = counted.rows () + 3 := by
  refine count_exact reach_counted (fun i => ?_) () () 3 true
  match i with
  | 0 => rfl
  | n + 1 => rfl

end State

end Mitaka.Neutron.Quota
