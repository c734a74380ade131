/-
  Subject: The conntrack zones of neutron/agent/linux/iptables_firewall.py:
           _populate_initial_zone_map, get_device_zone, _generate_device_zone,
           _find_open_zone, _free_zones_from_removed_ports.

  A device is known by the part of its port's id that stands in the name of the interface.
  `findOpenZone` gives a zone that no device has, and fails just where every zone is taken
  (`findOpenZone_some`, `findOpenZone_none`); what is freed on a failure has no port. So
  whatever the first map and the calls are, a new zone is one device's alone, a zone stays
  while its port does, and the zones run out only when the ports have all of them
  (**`zones_exclusive`**).
-/
import Mitaka.Lib.Dict

namespace Mitaka.Neutron.Conntrack

open List

/-! ## 1. The driver -/

abbrev Str := List Char

def LINUX_DEV_PREFIX_LEN : ℕ := 3
def LINUX_DEV_LEN : ℕ := 14
def MAX_CONNTRACK_ZONES : ℕ := 65535

/-- What is read of a port. -/
structure Port where
  device : Str
  portSecurityEnabled : Bool
deriving DecidableEq, Repr

structure Firewall where
  deviceZoneMap : Dict Str ℕ
  filteredPorts : Dict Str Port
  unfilteredPorts : Dict Str Port
deriving DecidableEq, Repr

/-- `_populate_initial_zone_map`, of the device and the zone that each rule of the table names. -/
def populateInitialZoneMap (rules : List (Str × ℕ)) : Dict Str ℕ :=
  rules.foldl (fun deviceZoneMap rule => deviceZoneMap.set (rule.1.drop LINUX_DEV_PREFIX_LEN) rule.2) []

/-- The driver as it starts. -/
def Firewall.start (rules : List (Str × ℕ)) : Firewall := ⟨populateInitialZoneMap rules, [], []⟩

def shortPortId (portId : Str) : Str := portId.take (LINUX_DEV_LEN - LINUX_DEV_PREFIX_LEN)

/-- `sorted(set(self._device_zone_map.values()))`. -/
def zonesInUse (deviceZoneMap : Dict Str ℕ) : List ℕ := (deviceZoneMap.map Prod.snd).dedup.insertionSort (· ≤ ·)

/-- The loop over the zones in use, from an index on. -/
def firstGap : ℕ → List ℕ → Option ℕ
  | _, [] => none
  | index, used :: rest => if (used : ℤ) - index ≠ 1 then some (index + 1) else firstGap (index + 1) rest

/-- `_find_open_zone`; `none` is `CTZoneExhaustedError`. -/
def findOpenZone (deviceZoneMap : Dict Str ℕ) : Option ℕ :=
  match (zonesInUse deviceZoneMap).getLast? with
  | none => some 1
  | some last => if last < MAX_CONNTRACK_ZONES then some (last + 1) else firstGap 0 (zonesInUse deviceZoneMap)

namespace Firewall

/-- `_set_ports`. -/
def setPorts (fw : Firewall) (port : Port) : Firewall :=
  if port.portSecurityEnabled then
    { fw with filteredPorts := fw.filteredPorts.set port.device port, unfilteredPorts := fw.unfilteredPorts.erase port.device }
  else
    { fw with unfilteredPorts := fw.unfilteredPorts.set port.device port, filteredPorts := fw.filteredPorts.erase port.device }

/-- `_unset_ports`. -/
def unsetPorts (fw : Firewall) (port : Port) : Firewall :=
  { fw with unfilteredPorts := fw.unfilteredPorts.erase port.device, filteredPorts := fw.filteredPorts.erase port.device }

/-- The ports that exist. -/
def ports (fw : Firewall) : List Port := fw.filteredPorts.map Prod.snd ++ fw.unfilteredPorts.map Prod.snd

/-- `_free_zones_from_removed_ports`. -/
def freeZonesFromRemovedPorts (fw : Firewall) : Firewall :=
  { fw with deviceZoneMap := fw.deviceZoneMap.filter fun e => e.1 ∈ fw.ports.map fun port => shortPortId port.device }

/-- `_generate_device_zone`. -/
def generateDeviceZone (fw : Firewall) (shortPortId : Str) : Firewall × Option ℕ :=
  match findOpenZone fw.deviceZoneMap with
  | some zone => ({ fw with deviceZoneMap := fw.deviceZoneMap.set shortPortId zone }, some zone)
  | none =>
    let fw := fw.freeZonesFromRemovedPorts
    match findOpenZone fw.deviceZoneMap with
    | some zone => ({ fw with deviceZoneMap := fw.deviceZoneMap.set shortPortId zone }, some zone)
    | none => (fw, none)

def getDeviceZone (fw : Firewall) (portId : Str) : Firewall × Option ℕ :=
  match fw.deviceZoneMap.get (shortPortId portId) with
  | some zone => (fw, some zone)
  | none => fw.generateDeviceZone (shortPortId portId)

end Firewall

inductive Call
  | setPorts (port : Port)
  | unsetPorts (port : Port)
  | getDeviceZone (portId : Str)

def Firewall.step (fw : Firewall) : Call → Firewall
  | .setPorts port => fw.setPorts port
  | .unsetPorts port => fw.unsetPorts port
  | .getDeviceZone portId => (fw.getDeviceZone portId).1

def Firewall.run (fw : Firewall) (calls : List Call) : Firewall := calls.foldl Firewall.step fw

/-- A port of the device exists. -/
def Firewall.Exists (fw : Firewall) (device : Str) : Prop := ∃ port ∈ fw.ports, shortPortId port.device = device

instance (fw : Firewall) (device : Str) : Decidable (fw.Exists device) := inferInstanceAs (Decidable (∃ port ∈ _, _))

def InRange (zone : ℕ) : Prop := 1 ≤ zone ∧ zone ≤ MAX_CONNTRACK_ZONES

instance (zone : ℕ) : Decidable (InRange zone) := inferInstanceAs (Decidable (_ ∧ _))

/-! ## 2. An open zone -/

/-- A gap is a number that is not in use, below one that is. -/
theorem firstGap_some {index zone : ℕ} {used : List ℕ} (hsorted : used.Pairwise (· < ·)) (habove : ∀ u ∈ used, index < u)
    (h : firstGap index used = some zone) : index < zone ∧ zone ∉ used ∧ ∃ u ∈ used, zone < u := by
  induction used generalizing index with
  | nil => cases h
  | cons u used ih =>
    obtain ⟨hless, hrest⟩ := pairwise_cons.mp hsorted
    have hu := habove u mem_cons_self
    rw [firstGap] at h
    by_cases hgap : (u : ℤ) - index ≠ 1
    · rw [if_pos hgap] at h
      obtain rfl := Option.some.inj h
      have hlt : index + 1 < u := by omega
      refine ⟨Nat.lt_succ_self _, fun hmem => ?_, u, mem_cons_self, hlt⟩
      rcases mem_cons.mp hmem with heq | hmem
      · omega
      · have := hless _ hmem
        omega
    · rw [if_neg hgap] at h
      have heq : u = index + 1 := by omega
      obtain ⟨hlt, hnot, v, hv, hzone⟩ := ih hrest (fun v hv => heq ▸ hless v hv) h
      refine ⟨by omega, fun hmem => ?_, v, mem_cons_of_mem _ hv, hzone⟩
      rcases mem_cons.mp hmem with heq' | hmem
      · omega
      · exact hnot hmem

/-- Where there is no gap every number up to one in use is. -/
theorem firstGap_none {index : ℕ} {used : List ℕ} (h : firstGap index used = none) :
    ∀ u ∈ used, ∀ zone, index < zone → zone ≤ u → zone ∈ used := by
  induction used generalizing index with
  | nil => exact fun u hu => absurd hu not_mem_nil
  | cons v used ih =>
    rw [firstGap] at h
    by_cases hgap : (v : ℤ) - index ≠ 1
    · rw [if_pos hgap] at h
      cases h
    · rw [if_neg hgap] at h
      have heq : v = index + 1 := by omega
      intro u hu zone hzone hle
      by_cases hfirst : zone = v
      · exact hfirst ▸ mem_cons_self
      · rcases mem_cons.mp hu with rfl | hu
        · omega
        · exact mem_cons_of_mem _ (ih h u hu zone (by omega) hle)

variable {zone : ℕ}

theorem mem_zonesInUse {m : Dict Str ℕ} : zone ∈ zonesInUse m ↔ zone ∈ m.map Prod.snd := by
  rw [zonesInUse, (perm_insertionSort _ _).mem_iff, mem_dedup]

theorem zonesInUse_sorted (m : Dict Str ℕ) : (zonesInUse m).Pairwise (· < ·) := by
  have hle : (zonesInUse m).Pairwise (· ≤ ·) := pairwise_insertionSort _ _
  have hnodup : (zonesInUse m).Nodup := (perm_insertionSort _ _).nodup_iff.mpr (nodup_dedup _)
  exact hle.imp₂ (fun _ _ hle hne => lt_of_le_of_ne hle hne) hnodup

theorem le_of_getLast {l : List ℕ} (hsorted : l.Pairwise (· < ·)) {last : ℕ} (hlast : l.getLast? = some last) :
    ∀ u ∈ l, u ≤ last := by
  obtain ⟨init, rfl⟩ := getLast?_eq_some_iff.mp hlast
  intro u hu
  rcases mem_append.mp hu with hu | hu
  · exact ((pairwise_append.mp hsorted).2.2 u hu last mem_cons_self).le
  · exact (mem_singleton.mp hu).le

variable {m : Dict Str ℕ}

/-- **A zone that is found** is in range and nobody's. -/
theorem findOpenZone_some (hrange : ∀ zone ∈ m.map Prod.snd, InRange zone) (h : findOpenZone m = some zone) :
    InRange zone ∧ zone ∉ m.map Prod.snd := by
  rw [findOpenZone] at h
  cases hlast : (zonesInUse m).getLast? with
  | none =>
    rw [hlast] at h
    obtain rfl := Option.some.inj h
    have hempty : zonesInUse m = [] := getLast?_eq_none_iff.mp hlast
    refine ⟨⟨le_refl 1, by decide⟩, fun hmem => ?_⟩
    have hin := mem_zonesInUse.mpr hmem
    rw [hempty] at hin
    cases hin
  | some last =>
    rw [hlast] at h
    dsimp only at h
    have hmax := le_of_getLast (zonesInUse_sorted m) hlast
    by_cases hroom : last < MAX_CONNTRACK_ZONES
    · rw [if_pos hroom] at h
      obtain rfl := Option.some.inj h
      refine ⟨⟨Nat.le_add_left 1 last, hroom⟩, fun hmem => ?_⟩
      have hle := hmax _ (mem_zonesInUse.mpr hmem)
      omega
    · rw [if_neg hroom] at h
      have habove : ∀ u ∈ zonesInUse m, 0 < u := fun u hu => (hrange u (mem_zonesInUse.mp hu)).1
      obtain ⟨hpos, hnot, u, hu, hlt⟩ := firstGap_some (zonesInUse_sorted m) habove h
      exact ⟨⟨hpos, hlt.le.trans (hrange u (mem_zonesInUse.mp hu)).2⟩, fun hmem => hnot (mem_zonesInUse.mpr hmem)⟩

/-- **Where none is found** every zone is taken. -/
theorem findOpenZone_none (h : findOpenZone m = none) : ∀ zone, InRange zone → zone ∈ m.map Prod.snd := by
  rw [findOpenZone] at h
  cases hlast : (zonesInUse m).getLast? with
  | none =>
    rw [hlast] at h
    cases h
  | some last =>
    rw [hlast] at h
    dsimp only at h
    by_cases hroom : last < MAX_CONNTRACK_ZONES
    · rw [if_pos hroom] at h
      cases h
    · rw [if_neg hroom] at h
      have hin : last ∈ zonesInUse m := mem_of_getLast? hlast
      exact fun zone hzone => mem_zonesInUse.mp (firstGap_none h last hin zone hzone.1 (hzone.2.trans (not_lt.mp hroom)))

/-! ## 3. The calls -/

/-- A map of devices to zones in range. -/
structure Sound (m : Dict Str ℕ) : Prop where
  nodup : m.KeysNodup
  range : ∀ zone ∈ m.map Prod.snd, InRange zone

theorem Sound.set (h : Sound m) (device : Str) (hzone : InRange zone) : Sound (m.set device zone) where
  nodup := h.nodup.set device zone
  range := by
    intro z hz
    obtain ⟨e, he, rfl⟩ := List.mem_map.mp hz
    rcases Dict.mem_set he with rfl | he
    · exact hzone
    · exact h.range _ (List.mem_map_of_mem he)

theorem populateInitialZoneMap_sound {rules : List (Str × ℕ)} (h : ∀ rule ∈ rules, InRange rule.2) :
    Sound (populateInitialZoneMap rules) := by
  have hloop : ∀ m : Dict Str ℕ, Sound m →
      Sound (rules.foldl (fun deviceZoneMap rule => deviceZoneMap.set (rule.1.drop LINUX_DEV_PREFIX_LEN) rule.2) m) := by
    induction rules with
    | nil => exact fun m hm => hm
    | cons rule rules ih =>
      obtain ⟨hrule, hrules⟩ := forall_mem_cons.mp h
      exact fun m hm => ih hrules _ (hm.set _ hrule)
  exact hloop [] ⟨nodup_nil, fun zone hzone => absurd hzone not_mem_nil⟩

theorem Sound.filter (h : Sound m) (p : Str × ℕ → Bool) : Sound (m.filter p) where
  nodup := h.nodup.sublist (filter_sublist.map Prod.fst)
  range := by
    intro zone hzone
    obtain ⟨e, he, rfl⟩ := List.mem_map.mp hzone
    exact h.range _ (List.mem_map_of_mem (mem_of_mem_filter he))

/-- A zone that nobody has is its device's alone. -/
theorem Sound.alone (h : Sound m) (hzone : zone ∉ m.map Prod.snd) {device other : Str} (hne : other ≠ device) :
    (m.set device zone).get other ≠ some zone := by
  rw [Dict.get_set, if_neg (Ne.symm hne)]
  intro hget
  exact hzone (List.mem_map.mpr ⟨(other, zone), h.nodup.mem_iff.mpr hget, rfl⟩)

variable {fw : Firewall}

/-- What is freed has no port. -/
theorem get_freeZones {device : Str} (h : fw.Exists device) :
    fw.freeZonesFromRemovedPorts.deviceZoneMap.get device = fw.deviceZoneMap.get device := by
  obtain ⟨port, hport, rfl⟩ := h
  exact Dict.get_filter_of_keep _ (fun d => d ∈ fw.ports.map fun port => shortPortId port.device)
    (List.mem_map.mpr ⟨port, hport, rfl⟩)

/-- What a call for a zone does: it keeps the ports and what devices with ports have, and gives a device without a zone
one of its own, or fails where the devices with ports have all of them. -/
structure Assigned (fw : Firewall) (portId : Str) (fw' : Firewall) (result : Option ℕ) : Prop where
  sound : Sound fw'.deviceZoneMap
  ports : fw'.ports = fw.ports
  stays : ∀ device zone, fw.Exists device → fw.deviceZoneMap.get device = some zone → fw'.deviceZoneMap.get device = some zone
  fresh : ∀ zone, fw.deviceZoneMap.get (shortPortId portId) = none → result = some zone →
    InRange zone ∧ fw'.deviceZoneMap.get (shortPortId portId) = some zone ∧
      ∀ other, other ≠ shortPortId portId → fw'.deviceZoneMap.get other ≠ some zone
  exhausted : result = none → ∀ zone, InRange zone →
    ∃ port ∈ fw.ports, fw.deviceZoneMap.get (shortPortId port.device) = some zone

theorem assigned_getDeviceZone (hsound : Sound fw.deviceZoneMap) (portId : Str) :
    Assigned fw portId (fw.getDeviceZone portId).1 (fw.getDeviceZone portId).2 := by
  unfold Firewall.getDeviceZone
  cases hget : fw.deviceZoneMap.get (shortPortId portId) with
  | some zone =>
    refine ⟨hsound, rfl, fun _ _ _ h => h, fun z hnone => ?_, fun h => nomatch h⟩
    rw [hget] at hnone
    cases hnone
  | none =>
    have hother : ∀ device zone, fw.deviceZoneMap.get device = some zone → shortPortId portId ≠ device := by
      intro device zone hd heq
      rw [← heq, hget] at hd
      cases hd
    dsimp only
    unfold Firewall.generateDeviceZone
    cases hopen : findOpenZone fw.deviceZoneMap with
    | some zone =>
      obtain ⟨hrange, hnobody⟩ := findOpenZone_some hsound.range hopen
      refine ⟨hsound.set _ hrange, rfl, fun device z _ hd => ?_, fun z _ hz => ?_, fun h => nomatch h⟩
      · exact (Dict.get_set _ _ _ _).trans ((if_neg (hother device z hd)).trans hd)
      · obtain rfl := Option.some.inj hz
        exact ⟨hrange, (Dict.get_set _ _ _ _).trans (if_pos rfl), fun other hne => hsound.alone hnobody hne⟩
    | none =>
      have hfreed : Sound fw.freeZonesFromRemovedPorts.deviceZoneMap := hsound.filter _
      dsimp only
      cases hagain : findOpenZone fw.freeZonesFromRemovedPorts.deviceZoneMap with
      | some zone =>
        obtain ⟨hrange, hnobody⟩ := findOpenZone_some hfreed.range hagain
        refine ⟨hfreed.set _ hrange, rfl, fun device z hexists hd => ?_, fun z _ hz => ?_, fun h => nomatch h⟩
        · have hkept := (get_freeZones hexists).trans hd
          exact (Dict.get_set _ _ _ _).trans ((if_neg (hother device z hd)).trans hkept)
        · obtain rfl := Option.some.inj hz
          exact ⟨hrange, (Dict.get_set _ _ _ _).trans (if_pos rfl), fun other hne => hfreed.alone hnobody hne⟩
      | none =>
        refine ⟨hfreed, rfl, fun device z hexists hd => (get_freeZones hexists).trans hd, fun z _ hz => ?_, ?_⟩
        · cases hz
        · intro _ zone hzone
          obtain ⟨⟨device, z⟩, he, rfl⟩ := List.mem_map.mp (findOpenZone_none hagain zone hzone)
          obtain ⟨hin, hkept⟩ := mem_filter.mp he
          obtain ⟨port, hport, rfl⟩ := List.mem_map.mp (of_decide_eq_true hkept)
          exact ⟨port, hport, hsound.nodup.mem_iff.mp hin⟩

theorem setPorts_deviceZoneMap (fw : Firewall) (port : Port) : (fw.setPorts port).deviceZoneMap = fw.deviceZoneMap := by
  unfold Firewall.setPorts
  split_ifs <;> rfl

/-! ## 4. Runs -/

theorem sound_step (h : Sound fw.deviceZoneMap) (call : Call) : Sound (fw.step call).deviceZoneMap := by
  cases call with
  | setPorts port => exact (setPorts_deviceZoneMap fw port).symm ▸ h
  | unsetPorts port => exact h
  | getDeviceZone portId => exact (assigned_getDeviceZone h portId).sound

theorem sound_run (h : Sound fw.deviceZoneMap) (calls : List Call) : Sound (fw.run calls).deviceZoneMap := by
  induction calls generalizing fw with
  | nil => exact h
  | cons call calls ih => exact ih (sound_step h call)

/-- A device with a port keeps its zone over one call. -/
theorem step_stays (hsound : Sound fw.deviceZoneMap) (call : Call) {device : Str} (hexists : fw.Exists device)
    (hget : fw.deviceZoneMap.get device = some zone) : (fw.step call).deviceZoneMap.get device = some zone := by
  cases call with
  | setPorts port => exact (setPorts_deviceZoneMap fw port).symm ▸ hget
  | unsetPorts port => exact hget
  | getDeviceZone portId => exact (assigned_getDeviceZone hsound portId).stays device zone hexists hget

/-- **A zone stays while the port does.** -/
theorem run_stays (hsound : Sound fw.deviceZoneMap) {calls : List Call} {device : Str}
    (hget : fw.deviceZoneMap.get device = some zone) (hexists : ∀ pre, pre <+: calls → (fw.run pre).Exists device) :
    (fw.run calls).deviceZoneMap.get device = some zone := by
  induction calls generalizing fw with
  | nil => exact hget
  | cons call calls ih =>
    have hstep := step_stays hsound call (hexists [] nil_prefix) hget
    refine ih (sound_step hsound call) hstep fun pre hpre => ?_
    exact hexists (call :: pre) ((prefix_cons_inj call).mpr hpre)

/-- **The zones are exclusive**, after any calls: a new one is in range and no other device's, one stays while the port
does, and they run out only when the ports that exist have all of them. -/
theorem zones_exclusive (rules : List (Str × ℕ)) (hrules : ∀ rule ∈ rules, InRange rule.2) (calls : List Call) :
    (∀ portId zone, ((Firewall.start rules).run calls).deviceZoneMap.get (shortPortId portId) = none →
      (((Firewall.start rules).run calls).getDeviceZone portId).2 = some zone →
        InRange zone ∧ (((Firewall.start rules).run calls).getDeviceZone portId).1.deviceZoneMap.get (shortPortId portId) = some zone ∧
          ∀ other, other ≠ shortPortId portId →
            (((Firewall.start rules).run calls).getDeviceZone portId).1.deviceZoneMap.get other ≠ some zone) ∧
    (∀ device zone further, ((Firewall.start rules).run calls).deviceZoneMap.get device = some zone →
      (∀ pre, pre <+: further → (((Firewall.start rules).run calls).run pre).Exists device) →
        (((Firewall.start rules).run calls).run further).deviceZoneMap.get device = some zone) ∧
    ∀ portId, (((Firewall.start rules).run calls).getDeviceZone portId).2 = none → ∀ zone, InRange zone →
      ∃ port ∈ ((Firewall.start rules).run calls).ports,
        ((Firewall.start rules).run calls).deviceZoneMap.get (shortPortId port.device) = some zone := by
  have hsound : Sound ((Firewall.start rules).run calls).deviceZoneMap :=
    sound_run (populateInitialZoneMap_sound hrules) calls
  refine ⟨fun portId zone hnone hresult => ?_, fun device zone further hget hexists => ?_, fun portId hresult => ?_⟩
  · exact (assigned_getDeviceZone hsound portId).fresh zone hnone hresult
  · exact run_stays hsound hget hexists
  · exact (assigned_getDeviceZone hsound portId).exhausted hresult

/-- Rules of two old devices, which share a zone. -/
def oldRules : List (Str × ℕ) := [(['t', 'a', 'p', 'a'], 2), (['q', 'v', 'b', 'b'], 2)]

theorem zones_exclusive_old :
    InRange 3 ∧ (((Firewall.start oldRules).run [.setPorts ⟨['c'], true⟩]).getDeviceZone ['c']).1.deviceZoneMap.get ['c'] = some 3 ∧
      ∀ other, other ≠ ['c'] →
        (((Firewall.start oldRules).run [.setPorts ⟨['c'], true⟩]).getDeviceZone ['c']).1.deviceZoneMap.get other ≠ some 3 :=
  (zones_exclusive oldRules (by decide) [.setPorts ⟨['c'], true⟩]).1 ['c'] 3 (by decide) (by decide)

end Mitaka.Neutron.Conntrack
