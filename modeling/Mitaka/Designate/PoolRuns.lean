/-
  Subject: Zone changes, reports, cleared statuses and late calls of central, interleaved.

  A call that `update_status` casts to central reaches it at any later moment, or again.
  `State.Orderly` asks of a report that the answers to its polls are `Rising`, and of
  `create_zone` that the zone has no serial cached under CREATE.
  * `State.settled_by`: what central turns ACTIVE, or deletes by a success, has a serial
    of up to that of a success cast before.
  * `update_status_consensus`: in orderly runs of a fair pool enough nameservers have
    reported it, and a cached serial only rises until it is cleared.
  * `one_target_no_consensus`: the default threshold on a pool with more nameservers
    than targets, and a nameserver that loses the zone.
-/
import Mitaka.Lib.Run
import Mitaka.Designate.PoolConsensus

namespace Mitaka.Designate

open Option

/-! ## 1. The system -/

structure State where
  manager : Manager
  zones : ℕ → Option Item
  records : ℕ → Option Record

inductive Action
  | createZone (id serial : ℕ)
  /-- The changed records, with what is to be done with each. -/
  | updateZone (id serial : ℕ) (changes : List (ℕ × Act))
  | deleteZone (id : ℕ)
  /-- `create_zone`, `update_zone` or `delete_zone` of the pool manager. -/
  | prepare (id : ℕ) (action : Act)
  | updateStatus (zone : Zone) (nameserver : ℕ) (status : PollStatus) (actualSerial : ℕ) (answers : ℕ → Answers)
  | clear (nameserver zoneId : ℕ) (action : Act)
  /-- The call of this number reaches central. -/
  | deliver (call : ℕ)

/-- A zone or a record. -/
inductive Ref
  | zone (id : ℕ)
  | record (id : ℕ)

namespace State

/-- Nothing is cached, reported or cast. -/
def initial (zones : ℕ → Option Item) (records : ℕ → Option Record) : State :=
  ⟨⟨fun _ _ _ => none, [], []⟩, zones, records⟩

variable (s : State)

def setZone (id : ℕ) (zone : Option Item) : State := { s with zones := Function.update s.zones id zone }

theorem setZone_zones (id : ℕ) (zone : Option Item) (id' : ℕ) :
    (s.setZone id zone).zones id' = if id' = id then zone else s.zones id' := Function.update_apply _ _ _ _

/-- The changed records are pending with the zone's new serial. -/
def changeRecords (id serial : ℕ) (changes : List (ℕ × Act)) : State :=
  { s with records := fun record =>
      match changes.lookup record with
      | some action => some ⟨id, serial, action, .pending⟩
      | none => s.records record }

/-- Central's `update_status`, which fails without the zone. -/
def updateStatus (call : Cast) : Option State := do
  let zone ← s.zones call.zoneId
  some { s with
    records := fun record => (s.records record).bind fun r => r.updateStatus call.zoneId call.status call.serial
    zones := Function.update s.zones call.zoneId (updateZoneStatus zone call.status call.serial) }

def step (pool : Pool) (s : State) : Action → Option State
  | .createZone id serial =>
    match s.zones id with
    | none => some (s.setZone id (some ⟨serial, .create, .pending⟩))
    | some _ => none
  | .updateZone id serial changes => do
    let zone ← s.zones id
    if zone.serial < serial ∧ changes.all fun c => (s.records c.1).all fun r => r.zoneId = id then
      some ((s.setZone id (some ⟨serial, .update, .pending⟩)).changeRecords id serial changes)
    else none
  | .deleteZone id => do
    let zone ← s.zones id
    some (s.setZone id (some { zone with action := .delete, status := .pending }))
  | .prepare id action => some { s with manager := s.manager.prepare pool id action }
  | .updateStatus zone nameserver status actualSerial answers =>
    some { s with manager := s.manager.updateStatus pool zone nameserver status actualSerial answers }
  | .clear nameserver zoneId action => some { s with manager := s.manager.store nameserver zoneId action none }
  | .deliver call => do
    let call ← s.manager.casts[call]?
    s.updateStatus call

/-- The zone's id and the fields of the zone or record. -/
def item : Ref → Option (ℕ × Item)
  | .zone id => (s.zones id).map fun zone => (id, zone)
  | .record id => (s.records id).map fun r => (r.zoneId, r.item)

/-- The action delivers a success. -/
def Succeeds : Action → Prop
  | .deliver call => ∃ c, s.manager.casts[call]? = some c ∧ c.status = .success
  | _ => False

/-- **The zone or record turns ACTIVE, or a success deletes it.** -/
def Settles (a : Action) (s' : State) (ref : Ref) (zoneId : ℕ) (item : Item) : Prop :=
  s.item ref = some (zoneId, item) ∧
    ((∃ item', s'.item ref = some (zoneId, item') ∧ item.status ≠ .active ∧ item'.status = .active) ∨
      (s'.item ref = none ∧ s.Succeeds a))

/-- The action overwrites no cached serial with a lower one. -/
def Orderly (pool : Pool) : Action → Prop
  | .updateStatus zone _ _ _ answers => Rising pool s.manager.cache zone answers
  | .prepare id action => action = .create → ∀ n ∈ pool.nameservers, ∀ status,
      s.manager.cache n id .create = some status → status.serialNumber = 0
  | _ => True

/-! ## 2. What settles a zone or record -/

variable {s} {s' : State} {pool : Pool}

variable {a : Action}

/-- A change of central's own leaves a zone or record as it is or pending. -/
theorem step_item (h : s.step pool a = some s') (ha : ∀ call, a ≠ .deliver call) {ref : Ref}
    {zoneId : ℕ} {item item' : Item} (hi : s.item ref = some (zoneId, item)) (hi' : s'.item ref = some (zoneId, item')) :
    item' = item ∨ item'.status = .pending := by
  have hsame : s'.item ref = s.item ref → item' = item := fun he => by
    cases (hi'.symm.trans he).trans hi
    rfl
  have hset : ∀ {id zone}, s'.item ref = (s.setZone id (some zone)).item ref → zone.status = .pending →
      item' = item ∨ item'.status = .pending := by
    intro id zone he hz
    rw [hi'] at he
    cases ref with
    | zone id' =>
      rw [State.item, setZone_zones] at he
      split_ifs at he
      · cases he
        exact Or.inr hz
      · exact Or.inl (hsame (hi'.trans he))
    | record id' => exact Or.inl (hsame (hi'.trans he))
  cases a with
  | createZone id serial =>
    simp only [step] at h
    split at h
    · cases h
      exact hset rfl rfl
    · cases h
  | updateZone id serial changes =>
    obtain ⟨zone, hz, h⟩ := bind_eq_some_iff.mp h
    split_ifs at h
    cases h
    cases ref with
    | zone id' => exact hset rfl rfl
    | record id' =>
      obtain ⟨r, hr, he⟩ := map_eq_some_iff.mp hi'
      simp only [changeRecords] at hr
      split at hr
      · cases hr
        cases he
        exact Or.inr rfl
      · obtain ⟨r', hr', he'⟩ := map_eq_some_iff.mp hi
        cases hr.symm.trans hr'
        cases he.symm.trans he'
        exact Or.inl rfl
  | deleteZone id =>
    obtain ⟨zone, hz, h⟩ := bind_eq_some_iff.mp h
    cases h
    exact hset rfl rfl
  | prepare id action =>
    cases h
    exact Or.inl (hsame rfl)
  | updateStatus zone n status serial answers =>
    cases h
    exact Or.inl (hsame rfl)
  | clear n z action =>
    cases h
    exact Or.inl (hsame rfl)
  | deliver call => exact absurd rfl (ha call)

/-- What central's `update_status` turns ACTIVE or deletes. -/
theorem updateStatus_item {call : Cast} (h : s.updateStatus call = some s') {ref : Ref} {zoneId : ℕ} {item : Item}
    (hi : s.item ref = some (zoneId, item)) :
    (∀ item', s'.item ref = some (zoneId, item') → item.status ≠ .active → item'.status = .active →
      zoneId = call.zoneId ∧ call.status = .success ∧ item.serial ≤ call.serial) ∧
    (s'.item ref = none → call.status = .success → zoneId = call.zoneId ∧ item.serial ≤ call.serial) := by
  obtain ⟨zone, hz, h⟩ := bind_eq_some_iff.mp h
  cases h
  cases ref with
  | zone id =>
    obtain ⟨zone', hz', he⟩ := map_eq_some_iff.mp hi
    cases he
    simp only [State.item]
    by_cases hid : zoneId = call.zoneId
    · subst hid
      cases hz.symm.trans hz'
      rw [Function.update_self]
      unfold updateZoneStatus
      simp only
      split_ifs with hdel hwrite
      · refine ⟨nofun, fun _ hs => ⟨trivial, ?_⟩⟩
        rw [hs] at hdel
        exact Item.updateStatus_deleted hdel
      · refine ⟨fun item' hi' hne hact => ⟨trivial, ?_⟩, nofun⟩
        cases hi'
        exact Item.updateStatus_active hne hact
      · refine ⟨fun item' hi' hne hact => absurd ?_ hne, nofun⟩
        cases hi'
        exact hact
    · rw [Function.update_of_ne hid, hz']
      refine ⟨fun item' hi' hne hact => absurd ?_ hne, nofun⟩
      cases hi'
      exact hact
  | record id =>
    obtain ⟨r, hr, he⟩ := map_eq_some_iff.mp hi
    cases he
    simp only [State.item, hr, bind_some]
    unfold Record.updateStatus
    simp only
    split_ifs with hsel hdel
    · refine ⟨nofun, fun _ hs => ⟨hsel.1, ?_⟩⟩
      rw [hs] at hdel
      exact Item.updateStatus_deleted hdel
    · refine ⟨fun item' hi' hne hact => ⟨hsel.1, ?_⟩, nofun⟩
      cases hi'
      exact Item.updateStatus_active hne hact
    · refine ⟨fun item' hi' hne hact => absurd ?_ hne, nofun⟩
      cases hi'
      exact hact

/-- **A success cast for a serial that is no earlier settles it.** -/
theorem settled_by (h : s.step pool a = some s') {ref : Ref} {zoneId : ℕ} {item : Item}
    (hset : s.Settles a s' ref zoneId item) :
    ∃ call ∈ s.manager.casts, call.status = .success ∧ call.zoneId = zoneId ∧ item.serial ≤ call.serial := by
  obtain ⟨hi, hset⟩ := hset
  by_cases ha : ∃ call, a = .deliver call
  · obtain ⟨call, rfl⟩ := ha
    obtain ⟨c, hc, h⟩ := bind_eq_some_iff.mp h
    have hitem := updateStatus_item h hi
    rcases hset with ⟨item', hi', hne, hact⟩ | ⟨hnone, c', hc', hs⟩
    · obtain ⟨hz, hs, hle⟩ := hitem.1 item' hi' hne hact
      exact ⟨c, List.mem_of_getElem? hc, hs, hz.symm, hle⟩
    · cases hc.symm.trans hc'
      obtain ⟨hz, hle⟩ := hitem.2 hnone hs
      exact ⟨c, List.mem_of_getElem? hc, hs, hz.symm, hle⟩
  · have hno : ∀ call, a ≠ .deliver call := fun call he => ha ⟨call, he⟩
    rcases hset with ⟨item', hi', hne, hact⟩ | ⟨-, hs⟩
    · rcases step_item h hno hi hi' with he | hp
      · exact absurd (he ▸ hact) hne
      · cases hp.symm.trans hact
    · cases a <;> first | exact hs.elim | exact absurd rfl (hno _)

/-! ## 3. Runs -/

theorem initial_log (zones : ℕ → Option Item) (records : ℕ → Option Record) :
    (initial zones records).manager.Log pool := ⟨nofun, nofun⟩

/-- **Every action keeps the log of a fair pool.** -/
theorem step_log (hp : pool.Fair) (hi : s.manager.Log pool) (h : s.step pool a = some s') :
    s'.manager.Log pool := by
  cases a with
  | createZone id serial =>
    simp only [step] at h
    split at h
    · cases h
      exact hi
    · cases h
  | updateZone id serial changes =>
    obtain ⟨zone, hz, h⟩ := bind_eq_some_iff.mp h
    split_ifs at h
    cases h
    exact hi
  | deleteZone id =>
    obtain ⟨zone, hz, h⟩ := bind_eq_some_iff.mp h
    cases h
    exact hi
  | prepare id action =>
    cases h
    exact hi.prepare id action
  | updateStatus zone n status serial answers =>
    cases h
    exact hi.updateStatus hp zone n status serial answers
  | clear n z action =>
    cases h
    exact hi.store nofun
  | deliver call =>
    obtain ⟨c, hc, h⟩ := bind_eq_some_iff.mp h
    obtain ⟨zone, hz, h⟩ := bind_eq_some_iff.mp h
    cases h
    exact hi

/-- **An orderly action lowers no cached serial.** -/
theorem step_noLower (ha : s.Orderly pool a) (h : s.step pool a = some s') :
    NoLower s.manager.cache s'.manager.cache := by
  have hsame : NoLower s.manager.cache s.manager.cache := (Rises.refl _).noLower
  cases a with
  | createZone id serial =>
    simp only [step] at h
    split at h
    · cases h
      exact hsame
    · cases h
  | updateZone id serial changes =>
    obtain ⟨zone, hz, h⟩ := bind_eq_some_iff.mp h
    split_ifs at h
    cases h
    exact hsame
  | deleteZone id =>
    obtain ⟨zone, hz, h⟩ := bind_eq_some_iff.mp h
    cases h
    exact hsame
  | prepare id action =>
    cases h
    exact Manager.prepare_noLower ha
  | updateStatus zone n status serial answers =>
    cases h
    exact Manager.updateStatus_noLower ha n status serial
  | clear n z action =>
    cases h
    intro n' z' a' status status' hc hc'
    rw [Manager.store_cache] at hc'
    split_ifs at hc'
    exact hsame n' z' a' status status' hc hc'
  | deliver call =>
    obtain ⟨c, hc, h⟩ := bind_eq_some_iff.mp h
    obtain ⟨zone, hz, h⟩ := bind_eq_some_iff.mp h
    cases h
    exact hsame

/-- The action is orderly and leaves the nameserver's status of the zone and action in the cache. -/
def Holds (pool : Pool) (n z : ℕ) (action : Act) (s : State) (a : Action) : Prop :=
  s.Orderly pool a ∧ ∀ s', s.step pool a = some s' → (s'.manager.cache n z action).isSome

theorem holds_rises {n z : ℕ} {action : Act} {t : State} (h : Reach (step pool) (Holds pool n z action) s t)
    {status : PoolManagerStatus} (hs : s.manager.cache n z action = some status) :
    ∃ status', t.manager.cache n z action = some status' ∧ status.serialNumber ≤ status'.serialNumber := by
  refine h.invariant (I := fun t => ∃ status', t.manager.cache n z action = some status' ∧
    status.serialNumber ≤ status'.serialNumber) ⟨status, hs, le_rfl⟩ fun t a u ht hp hstep => ?_
  obtain ⟨status', ht, hle⟩ := ht
  obtain ⟨status'', hu⟩ := isSome_iff_exists.mp (hp.2 u hstep)
  exact ⟨status'', hu, hle.trans (step_noLower hp.1 hstep n z action status' status'' ht hu)⟩

/-- **Changes turn ACTIVE on consensus only**: in the runs of a fair pool, whenever central turns a zone or
record ACTIVE, or deletes it by a success, enough nameservers have reported its serial; and while the actions are
orderly a cached serial never decreases between clearings. -/
theorem update_status_consensus (hp : pool.Fair) {zones : ℕ → Option Item} {records : ℕ → Option Record}
    (h : Reach (step pool) (fun _ _ => True) (initial zones records) s) :
    (∀ a s' ref zoneId item, s.step pool a = some s' → s.Settles a s' ref zoneId item →
      pool.Consensus s.manager.reported zoneId item.serial) ∧
    ∀ n z action t, Reach (step pool) (Holds pool n z action) s t →
      ∀ status, s.manager.cache n z action = some status →
        ∃ status', t.manager.cache n z action = some status' ∧ status.serialNumber ≤ status'.serialNumber := by
  refine ⟨fun a s' ref zoneId item hstep hset => ?_, fun n z action t ht status hs => holds_rises ht hs⟩
  have hlog := h.invariant (initial_log zones records) fun t a u ht _ hs => step_log hp ht hs
  obtain ⟨call, hmem, hs, rfl, hle⟩ := settled_by hstep hset
  exact (hlog.success call hmem hs).mono (List.Subset.refl _) hle

/-- Nobody answers a poll. -/
def silent : ℕ → Answers := fun _ _ => none

/-- A new zone, as its first reports have it. -/
def newZone : Zone := ⟨1, ⟨5, .create, .pending⟩⟩

def threeServers : Pool := ⟨[1, 2, 3], by decide, 3, 60⟩

/-- Two of the three nameservers have reported the new zone. -/
def reportedByTwo : State := (replay (step threeServers) (fun _ _ => True) (initial (fun _ => none) fun _ => none)
  [.createZone 1 5, .updateStatus newZone 1 .success 5 silent, .updateStatus newZone 2 .success 5 silent]).get
  (by decide +kernel)

def settledByTwo : State := (reportedByTwo.step threeServers (.deliver 0)).get (by decide +kernel)

theorem update_status_consensus_two : threeServers.Consensus reportedByTwo.manager.reported 1 5 ∧
    ∃ status', reportedByTwo.manager.cache 2 1 .create = some status' ∧ 5 ≤ status'.serialNumber := by
  have hreach : Reach (step threeServers) (fun _ _ => True) (initial (fun _ => none) fun _ => none) reportedByTwo :=
    Reach.of_replay (some_get _).symm
  have hfair : threeServers.Fair := Pool.fair_of_le (by decide)
  obtain ⟨hconsensus, hrises⟩ := update_status_consensus hfair hreach
  refine ⟨hconsensus (.deliver 0) settledByTwo (.zone 1) 1 ⟨5, .create, .pending⟩ (some_get _).symm
    ⟨by decide +kernel, Or.inl ?_⟩, ?_⟩
  · exact ⟨⟨5, .none, .active⟩, by decide +kernel, by decide, by decide⟩
  · exact hrises 2 1 .create reportedByTwo Reach.refl ⟨some .success, 5⟩ (by decide +kernel)

/-- The default threshold, two nameservers behind one target. -/
def oneTarget : Pool := ⟨[1, 2], by decide, 1, 100⟩

/-- One of the two has reported the new zone. -/
def reportedByOne : State := (replay (step oneTarget) (fun _ _ => True) (initial (fun _ => none) fun _ => none)
  [.createZone 1 5, .updateStatus newZone 1 .success 5 silent]).get (by decide +kernel)

def settledByOne : State := (reportedByOne.step oneTarget (.deliver 0)).get (by decide +kernel)

def twoTargets : Pool := ⟨[1, 2], by decide, 2, 100⟩

/-- The first nameserver has lost the zone when an update of it is reported. -/
def lostZone : ℕ → Answers := fun _ n => if n = 1 then some (.noZone, 0) else none

/-- The first nameserver has the new zone, and the zone is changed. -/
def changedZone : State := (replay (step twoTargets) (fun _ _ => True) (initial (fun _ => none) fun _ => none)
  [.createZone 1 5, .updateStatus newZone 1 .success 5 silent, .updateZone 1 6 []]).get (by decide +kernel)

/-- **One report of two turns a zone ACTIVE, and a lost zone lowers a cached serial.** -/
theorem one_target_no_consensus :
    (¬ ∀ (pool : Pool) (s s' : State) (a : Action) (ref : Ref) (zoneId : ℕ) (item : Item),
      Reach (step pool) (fun _ _ => True) (initial (fun _ => none) fun _ => none) s → s.step pool a = some s' →
      s.Settles a s' ref zoneId item → pool.Consensus s.manager.reported zoneId item.serial) ∧
    ¬ ∀ (pool : Pool) (s s' : State) (a : Action),
      Reach (step pool) (fun _ _ => True) (initial (fun _ => none) fun _ => none) s → s.step pool a = some s' →
      NoLower s.manager.cache s'.manager.cache := by
  refine ⟨fun h => ?_, fun h => ?_⟩
  · have hset : reportedByOne.Settles (.deliver 0) settledByOne (.zone 1) 1 ⟨5, .create, .pending⟩ :=
      ⟨by decide +kernel, Or.inl ⟨⟨5, .none, .active⟩, by decide +kernel, by decide, by decide⟩⟩
    have hconsensus := h oneTarget reportedByOne settledByOne (.deliver 0) (.zone 1) 1 ⟨5, .create, .pending⟩
      (Reach.of_replay (some_get _).symm) (some_get _).symm hset
    exact absurd hconsensus (by decide +kernel)
  · have hlow := h twoTargets changedZone _ (.updateStatus ⟨1, ⟨6, .update, .pending⟩⟩ 2 .success 6 lostZone)
      (Reach.of_replay (some_get _).symm) rfl 1 1 .create ⟨some .success, 5⟩ ⟨some .error, 0⟩
      (by decide +kernel) (by decide +kernel)
    exact absurd hlow (by decide)

end State

end Mitaka.Designate
