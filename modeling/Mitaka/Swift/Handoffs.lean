/-
  Subject: swift/common/ring/ring.py, `Ring.get_more_nodes`: the devices that stand in
           for those of a partition.

  Four scans of the ring yield devices in new regions, in new zones, on new servers and
  then all others. They start at a partition that depends on the hash of the partition's
  number, which is an argument. The ring is not reloaded in between.
-/
import Mitaka.Swift.RingCache

namespace Mitaka.Swift.Ring

open List

/-! ## 1. `get_more_nodes` -/

/-- A ring that has been loaded: every entry is a device, the first row is the longest. -/
structure LoadedRing extends RingData where
  nonempty : replica2part2devId ≠ []
  rows : ∀ row ∈ replica2part2devId, row.length ≤ (replica2part2devId.headD []).length
  assigned : ∀ row ∈ replica2part2devId, ∀ id ∈ row, ∃ dev, devs[id]? = some (some dev)
  ids : AtIds devs
  shift : 0 ≤ partShift

/-- A server, by its region, zone and address: `ip` in `same_ips`. -/
def Dev.server (d : Dev) : ℕ × ℕ × String := (d.region, d.zone, d.ip)

def Dev.regionZone (d : Dev) : ℕ × ℕ := (d.region, d.zone)

/-- What a scan has yielded, and its sets. -/
structure Handoffs where
  yielded : List Dev
  used : Finset ℕ
  sameRegions : Finset ℕ
  sameZones : Finset (ℕ × ℕ)
  sameIps : Finset (ℕ × ℕ × String)

/-- One of the four scans: which devices it yields, what it notes, and when it has seen all. -/
structure Scan where
  fresh : Handoffs → Dev → Bool
  note : Handoffs → Dev → Handoffs
  hitAll : Handoffs → Bool

/-- The replicas of one partition; it stops when a yield was the last that can be. -/
def Scan.visit (scan : Scan) : List Dev → Handoffs → Handoffs
  | [], s => s
  | dev :: devs, s =>
    if scan.fresh s dev then
      if scan.hitAll (scan.note s dev) then scan.note s dev else scan.visit devs (scan.note s dev)
    else scan.visit devs s

/-- The partitions in turn, as long as there is something left. -/
def Scan.run (scan : Scan) (partDevs : ℕ → List Dev) : List ℕ → Handoffs → Handoffs
  | [], s => s
  | part :: parts, s => if scan.hitAll s then s else scan.run partDevs parts (scan.visit (partDevs part) s)

/-- `range(start, stop, step)`. -/
def pyRange (start stop step : ℕ) : List ℕ := range' start ((stop - start + step - 1) / step) step

/-- `inc`. -/
def stride (parts : ℕ) : ℕ := if parts / 65536 = 0 then 1 else parts / 65536

/-- The partitions of a scan: from `start` on, and round. -/
def handoffParts (parts start : ℕ) : List ℕ :=
  pyRange start parts (stride parts) ++
    pyRange (stride parts - (parts - start) % stride parts) start (stride parts)

namespace LoadedRing

variable (r : LoadedRing)

/-- `parts`. -/
def parts : ℕ := (r.replica2part2devId.headD []).length

/-- The devices of a partition, replica by replica. -/
def partDevs (part : ℕ) : List Dev :=
  (r.replica2part2devId.filterMap (·[part]?)).filterMap fun id => r.devs[id]?.join

/-- The devices with a partition. -/
def assignedDevs : List Dev := r.devs.reduceOption.filter fun d => d.id ∈ r.replica2part2devId.flatten

/-- `_get_part_nodes`. -/
def partNodes (part : ℕ) : List Dev := (r.getPartNodes part).getD []

def regions : Scan where
  fresh s d := d.id ∉ s.used ∧ d.region ∉ s.sameRegions
  note s d := ⟨s.yielded ++ [d], insert d.id s.used, insert d.region s.sameRegions,
    insert d.regionZone s.sameZones, insert d.server s.sameIps⟩
  hitAll s := s.sameRegions.card = ((r.assignedDevs.map Dev.region).toFinset).card

def zones : Scan where
  fresh s d := d.id ∉ s.used ∧ d.regionZone ∉ s.sameZones
  note s d := ⟨s.yielded ++ [d], insert d.id s.used, s.sameRegions,
    insert d.regionZone s.sameZones, insert d.server s.sameIps⟩
  hitAll s := s.sameZones.card = ((r.assignedDevs.map Dev.regionZone).toFinset).card

def servers : Scan where
  fresh s d := d.id ∉ s.used ∧ d.server ∉ s.sameIps
  note s d := ⟨s.yielded ++ [d], insert d.id s.used, s.sameRegions, s.sameZones, insert d.server s.sameIps⟩
  hitAll s := s.sameIps.card = ((r.assignedDevs.map Dev.server).toFinset).card

def others : Scan where
  fresh s d := d.id ∉ s.used
  note s d := ⟨s.yielded ++ [d], insert d.id s.used, s.sameRegions, s.sameZones, s.sameIps⟩
  hitAll s := s.used.card = r.assignedDevs.length

/-- `start`. -/
def start (hash : ℕ → ℕ) (part : ℕ) : ℕ := hash part >>> r.partShift.toNat

/-- `get_more_nodes`; `hash` is what the MD5 of a number begins with. -/
def getMoreNodes (hash : ℕ → ℕ) (part : ℕ) : List Dev :=
  let primary := r.partNodes part
  let parts := handoffParts r.parts (r.start hash part)
  let s : Handoffs := ⟨[], (primary.map Dev.id).toFinset, (primary.map Dev.region).toFinset,
    (primary.map Dev.regionZone).toFinset, (primary.map Dev.server).toFinset⟩
  let s := r.regions.run r.partDevs parts s
  let s := r.zones.run r.partDevs parts s
  let s := r.servers.run r.partDevs parts s
  (r.others.run r.partDevs parts s).yielded

/-! ## 2. What the devices should be -/

/-- A value that some device with a partition has and no node of a list. -/
def Open {κ : Type} (key : Dev → κ) (nodes : List Dev) : Prop := ∃ d ∈ r.assignedDevs, key d ∉ nodes.map key

/-- The nodes and handoffs of a partition: every device with a partition, each once; and
    as long as there is a new region, a new zone or a new server, the next device has one. -/
structure Complete (nodes handoffs : List Dev) : Prop where
  nodup : ((nodes ++ handoffs).map Dev.id).Nodup
  mem_iff : ∀ d, d ∈ nodes ++ handoffs ↔ d ∈ r.assignedDevs
  region : ∀ before d after, handoffs = before ++ d :: after → r.Open Dev.region (nodes ++ before) →
    d.region ∉ (nodes ++ before).map Dev.region
  zone : ∀ before d after, handoffs = before ++ d :: after → r.Open Dev.regionZone (nodes ++ before) →
    d.regionZone ∉ (nodes ++ before).map Dev.regionZone
  server : ∀ before d after, handoffs = before ++ d :: after → r.Open Dev.server (nodes ++ before) →
    d.server ∉ (nodes ++ before).map Dev.server

end LoadedRing

/-! ## 3. A scan is a sweep -/

section Sweeps

variable {κ : Type} [DecidableEq κ] {key : Dev → κ} {scan : Scan} {nodes : List Dev} {synced : Handoffs → Prop}

/-- A scan by a key: with its sets in order it yields the devices with a new key, keeps the
    sets in order, and stops only when no candidate is left. -/
structure Scan.By (scan : Scan) (key : Dev → κ) (nodes candidates : List Dev) (synced : Handoffs → Prop) : Prop where
  fresh : ∀ s, ∀ d ∈ candidates, synced s → (scan.fresh s d = true ↔ key d ∉ (nodes ++ s.yielded).map key)
  note : ∀ s, ∀ d ∈ candidates, synced s → synced (scan.note s d) ∧ (scan.note s d).yielded = s.yielded ++ [d]
  hitAll : ∀ s, synced s → scan.hitAll s = true → ∀ d ∈ candidates, key d ∈ (nodes ++ s.yielded).map key

variable {candidates : List Dev}

theorem Scan.By.visit (h : scan.By key nodes candidates synced) {devs : List Dev} (hsub : ∀ d ∈ devs, d ∈ candidates)
    {s : Handoffs} (hs : synced s) : synced (scan.visit devs s) ∧
      nodes ++ (scan.visit devs s).yielded = sweep key devs (nodes ++ s.yielded) := by
  induction devs generalizing s with
  | nil => exact ⟨hs, rfl⟩
  | cons d devs ih =>
    have hrest : ∀ d ∈ devs, d ∈ candidates := fun d hd => hsub d (mem_cons_of_mem _ hd)
    have hd := hsub d mem_cons_self
    rw [Scan.visit, sweep]
    by_cases hfresh : scan.fresh s d = true
    · obtain ⟨hs', hyielded⟩ := h.note s d hd hs
      rw [if_pos hfresh, if_neg ((h.fresh s d hd hs).mp hfresh), append_assoc, ← hyielded]
      by_cases hall : scan.hitAll (scan.note s d) = true
      · rw [if_pos hall, sweep_of_seen fun d hd => h.hitAll _ hs' hall d (hrest d hd)]
        exact ⟨hs', rfl⟩
      · rw [if_neg hall]
        exact ih hrest hs'
    · rw [if_neg hfresh, if_pos (not_not.mp (mt (h.fresh s d hd hs).mpr hfresh))]
      exact ih hrest hs

/-- **A scan is a sweep**, its early end notwithstanding. -/
theorem Scan.By.run (h : scan.By key nodes candidates synced) {partDevs : ℕ → List Dev} {parts : List ℕ}
    (hsub : ∀ d ∈ parts.flatMap partDevs, d ∈ candidates) {s : Handoffs} (hs : synced s) :
    synced (scan.run partDevs parts s) ∧
      nodes ++ (scan.run partDevs parts s).yielded = sweep key (parts.flatMap partDevs) (nodes ++ s.yielded) := by
  induction parts generalizing s with
  | nil => exact ⟨hs, rfl⟩
  | cons part parts ih =>
    rw [Scan.run]
    by_cases hall : scan.hitAll s = true
    · rw [if_pos hall, sweep_of_seen fun d hd => h.hitAll s hs hall d (hsub d hd)]
      exact ⟨hs, rfl⟩
    · rw [flatMap_cons] at hsub ⊢
      obtain ⟨hs', hyielded⟩ := h.visit (fun d hd => hsub d (mem_append_left _ hd)) hs
      rw [if_neg hall, sweep_append, ← hyielded]
      exact ih (fun d hd => hsub d (mem_append_right _ hd)) hs'

end Sweeps

/-! ## 4. The four scans -/

theorem toFinset_map_concat {κ : Type} [DecidableEq κ] (key : Dev → κ) (l : List Dev) (d : Dev) :
    insert (key d) (l.map key).toFinset = ((l ++ [d]).map key).toFinset := by
  ext x
  simp [eq_comm]

section Scans

variable {r : LoadedRing} {nodes : List Dev}

theorem LoadedRing.mem_assignedDevs {d : Dev} : d ∈ r.assignedDevs ↔
    r.devs[d.id]? = some (some d) ∧ d.id ∈ r.replica2part2devId.flatten := by
  rw [assignedDevs, mem_filter, decide_eq_true_iff, reduceOption_mem_iff, mem_iff_getElem?]
  exact and_congr_left' ⟨fun ⟨i, hi⟩ => r.ids i d hi ▸ hi, fun h => ⟨d.id, h⟩⟩

/-- A device with a partition is known by its id. -/
theorem LoadedRing.eq_of_id {d d' : Dev} (h : d ∈ r.assignedDevs) (h' : d' ∈ r.assignedDevs) (hid : d.id = d'.id) :
    d = d' := by
  have hd := (mem_assignedDevs.mp h).1
  rw [hid, (mem_assignedDevs.mp h').1] at hd
  exact (Option.some.inj (Option.some.inj hd)).symm

theorem LoadedRing.nodup_assignedDevs (r : LoadedRing) : (r.assignedDevs.map Dev.id).Nodup := by
  have hpairwise : r.devs.reduceOption.Pairwise fun d d' => d.id ≠ d'.id := by
    rw [reduceOption, pairwise_filterMap, pairwise_iff_getElem]
    intro i j hi hj hlt d hd d' hd' heq
    have hid := r.ids i d ((getElem?_eq_getElem hi).trans (congrArg some hd))
    have hid' := r.ids j d' ((getElem?_eq_getElem hj).trans (congrArg some hd'))
    omega
  exact pairwise_map.mpr (hpairwise.filter _)

/-- The ids are noted, and all that was yielded has a partition. -/
structure InOrder (r : LoadedRing) (nodes : List Dev) (s : Handoffs) : Prop where
  primary : ∀ d ∈ nodes, d ∈ r.assignedDevs
  handoff : ∀ d ∈ s.yielded, d ∈ r.assignedDevs
  used : s.used = ((nodes ++ s.yielded).map Dev.id).toFinset

/-- The values of a key are noted. -/
def Keyed {κ : Type} [DecidableEq κ] (key : Dev → κ) (set : Handoffs → Finset κ) (nodes : List Dev) (s : Handoffs) :
    Prop := set s = ((nodes ++ s.yielded).map key).toFinset

theorem InOrder.mem {s : Handoffs} (h : InOrder r nodes s) : ∀ d ∈ nodes ++ s.yielded, d ∈ r.assignedDevs :=
  fun d hd => (mem_append.mp hd).elim (h.primary d) (h.handoff d)

theorem InOrder.note {s s' : Handoffs} (h : InOrder r nodes s) {d : Dev} (hd : d ∈ r.assignedDevs)
    (hyielded : s'.yielded = s.yielded ++ [d]) (hused : s'.used = insert d.id s.used) : InOrder r nodes s' where
  primary := h.primary
  handoff x hx := by
    rw [hyielded] at hx
    exact (mem_append.mp hx).elim (h.handoff x) fun hx => mem_singleton.mp hx ▸ hd
  used := by rw [hused, h.used, hyielded, ← append_assoc, toFinset_map_concat]

variable {κ : Type} [DecidableEq κ] {key : Dev → κ} {set : Handoffs → Finset κ}

theorem Keyed.note {s s' : Handoffs} (h : Keyed key set nodes s) {d : Dev}
    (hyielded : s'.yielded = s.yielded ++ [d]) (hset : set s' = insert (key d) (set s)) : Keyed key set nodes s' := by
  rw [Keyed, hset, h, hyielded, ← append_assoc, toFinset_map_concat]

/-- A device that is not used and has a new value: its value is new. -/
theorem InOrder.fresh_iff {s : Handoffs} (h : InOrder r nodes s) (hkey : Keyed key set nodes s) {d : Dev}
    (hd : d ∈ r.assignedDevs) : (d.id ∉ s.used ∧ key d ∉ set s) ↔ key d ∉ (nodes ++ s.yielded).map key := by
  rw [hkey, List.mem_toFinset, h.used, List.mem_toFinset]
  refine and_iff_right_of_imp fun hnew hused => hnew ?_
  obtain ⟨x, hx, hid⟩ := List.mem_map.mp hused
  rw [← LoadedRing.eq_of_id (h.mem x hx) hd hid]
  exact List.mem_map_of_mem hx

/-- **As many values as there are**: all of them. -/
theorem InOrder.seen {s : Handoffs} (h : InOrder r nodes s) (hkey : Keyed key set nodes s)
    (hcard : (set s).card = ((r.assignedDevs.map key).toFinset).card) {d : Dev} (hd : d ∈ r.assignedDevs) :
    key d ∈ (nodes ++ s.yielded).map key := by
  have hsub : set s ⊆ (r.assignedDevs.map key).toFinset := fun x hx => by
    rw [hkey, List.mem_toFinset] at hx
    obtain ⟨y, hy, rfl⟩ := List.mem_map.mp hx
    exact List.mem_toFinset.mpr (List.mem_map_of_mem (h.mem y hy))
  have heq := Finset.eq_of_subset_of_card_le hsub hcard.ge
  have hmem : key d ∈ set s := heq ▸ List.mem_toFinset.mpr (List.mem_map_of_mem hd)
  rwa [hkey, List.mem_toFinset] at hmem

theorem regions_by (r : LoadedRing) (nodes : List Dev) : r.regions.By Dev.region nodes r.assignedDevs fun s =>
    InOrder r nodes s ∧ Keyed Dev.region Handoffs.sameRegions nodes s ∧
      Keyed Dev.regionZone Handoffs.sameZones nodes s ∧ Keyed Dev.server Handoffs.sameIps nodes s where
  fresh _ _ hd hs := (decide_eq_true_iff).trans (hs.1.fresh_iff hs.2.1 hd)
  note _ _ hd hs := ⟨⟨hs.1.note hd rfl rfl, hs.2.1.note rfl rfl, hs.2.2.1.note rfl rfl, hs.2.2.2.note rfl rfl⟩, rfl⟩
  hitAll _ hs hall _ hd := hs.1.seen hs.2.1 (decide_eq_true_iff.mp hall) hd

theorem zones_by (r : LoadedRing) (nodes : List Dev) : r.zones.By Dev.regionZone nodes r.assignedDevs fun s =>
    InOrder r nodes s ∧ Keyed Dev.regionZone Handoffs.sameZones nodes s ∧
      Keyed Dev.server Handoffs.sameIps nodes s where
  fresh _ _ hd hs := (decide_eq_true_iff).trans (hs.1.fresh_iff hs.2.1 hd)
  note _ _ hd hs := ⟨⟨hs.1.note hd rfl rfl, hs.2.1.note rfl rfl, hs.2.2.note rfl rfl⟩, rfl⟩
  hitAll _ hs hall _ hd := hs.1.seen hs.2.1 (decide_eq_true_iff.mp hall) hd

theorem servers_by (r : LoadedRing) (nodes : List Dev) : r.servers.By Dev.server nodes r.assignedDevs fun s =>
    InOrder r nodes s ∧ Keyed Dev.server Handoffs.sameIps nodes s where
  fresh _ _ hd hs := (decide_eq_true_iff).trans (hs.1.fresh_iff hs.2 hd)
  note _ _ hd hs := ⟨⟨hs.1.note hd rfl rfl, hs.2.note rfl rfl⟩, rfl⟩
  hitAll _ hs hall _ hd := hs.1.seen hs.2 (decide_eq_true_iff.mp hall) hd

theorem others_by (r : LoadedRing) (nodes : List Dev) : r.others.By Dev.id nodes r.assignedDevs (InOrder r nodes) where
  fresh _ _ _ hs := (decide_eq_true_iff).trans (by rw [hs.used, List.mem_toFinset])
  note _ _ hd hs := ⟨hs.note hd rfl rfl, rfl⟩
  hitAll _ hs hall _ hd := by
    refine hs.seen hs.used ((decide_eq_true_iff.mp hall).trans ?_) hd
    rw [toFinset_card_of_nodup r.nodup_assignedDevs, length_map]

end Scans

/-! ## 5. The candidates -/

section Candidates

variable {r : LoadedRing}

theorem LoadedRing.mem_partDevs {d : Dev} {part : ℕ} : d ∈ r.partDevs part ↔
    r.devs[d.id]? = some (some d) ∧ d.id ∈ r.replica2part2devId.filterMap (·[part]?) := by
  rw [partDevs, mem_filterMap]
  constructor
  · rintro ⟨id, hid, hd⟩
    have hget : r.devs[id]? = some (some d) := Option.join_eq_some_iff.mp hd
    obtain rfl := r.ids id d hget
    exact ⟨hget, hid⟩
  · exact fun ⟨hget, hid⟩ => ⟨d.id, hid, by rw [hget]; rfl⟩

theorem LoadedRing.lt_parts {d : Dev} {part : ℕ} (h : d ∈ r.partDevs part) : part < r.parts := by
  obtain ⟨row, hrow, hget⟩ := mem_filterMap.mp (mem_partDevs.mp h).2
  exact (List.getElem?_eq_some_iff.mp hget).1.trans_le (r.rows row hrow)

theorem LoadedRing.mem_assignedDevs_iff {d : Dev} : d ∈ r.assignedDevs ↔ ∃ part, d ∈ r.partDevs part := by
  rw [mem_assignedDevs]
  constructor
  · rintro ⟨hget, hflat⟩
    obtain ⟨row, hrow, hid⟩ := mem_flatten.mp hflat
    obtain ⟨part, hpart⟩ := mem_iff_getElem?.mp hid
    exact ⟨part, mem_partDevs.mpr ⟨hget, mem_filterMap.mpr ⟨row, hrow, hpart⟩⟩⟩
  · rintro ⟨part, hd⟩
    obtain ⟨hget, hid⟩ := mem_partDevs.mp hd
    obtain ⟨row, hrow, hpart⟩ := mem_filterMap.mp hid
    exact ⟨hget, mem_flatten.mpr ⟨row, hrow, mem_of_getElem? hpart⟩⟩

theorem mapM_devs {devs : List (Option Dev)} (hids : AtIds devs) {ids : List ℕ}
    (h : ∀ id ∈ ids, ∃ dev, devs[id]? = some (some dev)) : ∃ l : List Dev,
      (ids.mapM fun id => devs[id]?.join) = some l ∧ l.map Dev.id = ids ∧ ∀ d ∈ l, devs[d.id]? = some (some d) := by
  induction ids with
  | nil => exact ⟨[], rfl, rfl, fun d hd => absurd hd not_mem_nil⟩
  | cons id ids ih =>
    obtain ⟨dev, hdev⟩ := h id mem_cons_self
    obtain ⟨l, hl, hmap, hall⟩ := ih fun x hx => h x (mem_cons_of_mem _ hx)
    have hid := hids id dev hdev
    refine ⟨dev :: l, ?_, by rw [map_cons, hmap, hid], fun d hd => ?_⟩
    · rw [mapM_cons, hl, hdev]
      rfl
    · rcases mem_cons.mp hd with rfl | hd
      · rwa [hid]
      · exact hall d hd

/-- The devices of a partition, each once. -/
theorem LoadedRing.partNodes_spec (r : LoadedRing) (part : ℕ) : ((r.partNodes part).map Dev.id).Nodup ∧
    ∀ d, d ∈ r.partNodes part ↔ d ∈ r.partDevs part := by
  set column := r.replica2part2devId.filterMap (·[part]?) with hcolumn
  obtain ⟨added, hsweep, hfresh, hall⟩ := sweep_spec (fun id : ℕ => id) column []
  rw [nil_append] at hsweep hall
  have hdevs : ∀ id ∈ added, ∃ dev, r.devs[id]? = some (some dev) := fun id hid => by
    obtain ⟨row, hrow, hget⟩ := mem_filterMap.mp (hfresh.mem id hid)
    exact r.assigned row hrow id (mem_of_getElem? hget)
  obtain ⟨l, hl, hmap, hl'⟩ := mapM_devs r.ids hdevs
  have hnodes : r.partNodes part = l := by
    rw [partNodes, RingData.getPartNodes, ← hcolumn, hsweep, hl, Option.getD_some]
  have hnodup := hfresh.nodup_map (fun _ _ _ _ h => h) nodup_nil
  rw [List.map_id', nil_append] at hnodup
  rw [hnodes, hmap]
  refine ⟨hnodup, fun d => ?_⟩
  rw [mem_partDevs, ← hcolumn]
  constructor
  · exact fun hd => ⟨hl' d hd, hfresh.mem _ (hmap ▸ List.mem_map_of_mem hd)⟩
  · rintro ⟨hget, hid⟩
    have hadded : d.id ∈ l.map Dev.id := by
      rw [hmap]
      simpa using hall d.id hid
    obtain ⟨d', hd', heq⟩ := List.mem_map.mp hadded
    have hsame := hl' d' hd'
    rw [heq, hget] at hsame
    rw [Option.some.inj (Option.some.inj hsame)]
    exact hd'

theorem mem_handoffParts {parts start part : ℕ} (hparts : parts ≤ 65536) :
    part ∈ handoffParts parts start ↔ start ≤ part ∧ part < parts ∨ 1 ≤ part ∧ part < start := by
  have hstride : stride parts = 1 := by
    unfold stride
    split
    · rfl
    · omega
  have hrange : ∀ a b : ℕ, part ∈ pyRange a b 1 ↔ a ≤ part ∧ part < b := fun a b => by
    rw [pyRange, mem_range'_1]
    omega
  rw [handoffParts, hstride, Nat.mod_one, mem_append, hrange, hrange]

/-- What the scans go through: the partitions but `0`, and `0` when they start there. -/
theorem LoadedRing.mem_candidates (r : LoadedRing) (hparts : r.parts ≤ 65536) (start : ℕ) {d : Dev} :
    d ∈ (handoffParts r.parts start).flatMap r.partDevs ↔
      ∃ part, (part ≠ 0 ∨ start = 0) ∧ d ∈ r.partDevs part := by
  rw [mem_flatMap]
  constructor
  · rintro ⟨part, hpart, hd⟩
    refine ⟨part, ?_, hd⟩
    have hmem := (mem_handoffParts hparts).mp hpart
    omega
  · rintro ⟨part, hstart, hd⟩
    have hlt := lt_parts hd
    refine ⟨part, (mem_handoffParts hparts).mpr ?_, hd⟩
    omega

end Candidates

/-! ## 6. All handoffs -/

section All

variable {r : LoadedRing}

/-- Each of the added devices has a new value of the key, as long as there is one. -/
def Greedy {κ : Type} (r : LoadedRing) (key : Dev → κ) (nodes added : List Dev) : Prop :=
  ∀ before d after, added = before ++ d :: after → r.Open key (nodes ++ before) → key d ∉ (nodes ++ before).map key

theorem Greedy.of_fresh {κ ι : Type} {key : Dev → κ} {coarse : Dev → ι} (hcoarse : ∀ x y, key x = key y → coarse x = coarse y)
    {l nodes added : List Dev} (h : Fresh coarse l nodes added) : Greedy r key nodes added :=
  fun before d after heq _ hmem => by
    obtain ⟨x, hx, hkey⟩ := List.mem_map.mp hmem
    exact h.new before d after heq (List.mem_map.mpr ⟨x, hx, hcoarse x d hkey⟩)

theorem Greedy.of_seen {κ : Type} {key : Dev → κ} {nodes : List Dev}
    (h : ∀ d ∈ r.assignedDevs, key d ∈ nodes.map key) (added : List Dev) : Greedy r key nodes added :=
  fun before _ _ _ ⟨d, hd, hopen⟩ => absurd (by rw [map_append]; exact mem_append_left _ (h d hd)) hopen

/-- **One after the other.** -/
theorem Greedy.append {κ : Type} {key : Dev → κ} {nodes added added' : List Dev} (h : Greedy r key nodes added)
    (h' : Greedy r key (nodes ++ added) added') : Greedy r key nodes (added ++ added') := by
  intro before d after heq hopen
  rcases append_eq_append_iff.mp heq with ⟨rest, rfl, hrest⟩ | ⟨rest, rfl, hrest⟩
  · rw [← append_assoc] at hopen ⊢
    exact h' rest d after hrest hopen
  · cases rest with
    | nil =>
      have hfirst := h' [] d after hrest.symm
      rw [append_nil, append_nil] at hfirst
      exact hfirst hopen
    | cons x rest =>
      obtain ⟨rfl, -⟩ := List.cons.inj hrest
      exact h before d rest rfl hopen

/-- **The four scans**, as sweeps over the same candidates. -/
theorem LoadedRing.getMoreNodes_sweep (r : LoadedRing) (hash : ℕ → ℕ) (part : ℕ) :
    let candidates := (handoffParts r.parts (r.start hash part)).flatMap r.partDevs
    r.partNodes part ++ r.getMoreNodes hash part =
      sweep Dev.id candidates (sweep Dev.server candidates (sweep Dev.regionZone candidates
        (sweep Dev.region candidates (r.partNodes part)))) := by
  intro candidates
  have hsub : ∀ d ∈ candidates, d ∈ r.assignedDevs := fun d hd => by
    obtain ⟨p, -, hp⟩ := mem_flatMap.mp hd
    exact mem_assignedDevs_iff.mpr ⟨p, hp⟩
  set nodes := r.partNodes part with hnodes
  have hprimary : ∀ d ∈ nodes, d ∈ r.assignedDevs := fun d hd =>
    mem_assignedDevs_iff.mpr ⟨part, ((r.partNodes_spec part).2 d).mp hd⟩
  set s : Handoffs := ⟨[], (nodes.map Dev.id).toFinset, (nodes.map Dev.region).toFinset,
    (nodes.map Dev.regionZone).toFinset, (nodes.map Dev.server).toFinset⟩ with hs
  have hstart : ∀ {κ : Type} (key : Dev → κ), (nodes ++ s.yielded).map key = nodes.map key := fun key => by
    rw [hs, append_nil]
  have hinOrder : InOrder r nodes s := ⟨hprimary, fun d hd => absurd hd not_mem_nil, by rw [hstart]⟩
  obtain ⟨h1, heq1⟩ := (regions_by r nodes).run hsub
    ⟨hinOrder, by rw [Keyed, hstart], by rw [Keyed, hstart], by rw [Keyed, hstart]⟩
  obtain ⟨h2, heq2⟩ := (zones_by r nodes).run hsub ⟨h1.1, h1.2.2⟩
  obtain ⟨h3, heq3⟩ := (servers_by r nodes).run hsub ⟨h2.1, h2.2.2⟩
  obtain ⟨-, heq4⟩ := (others_by r nodes).run hsub h3.1
  rw [getMoreNodes, ← hnodes, ← hs, heq4, heq3, heq2, heq1, hs, append_nil]

/-- When the candidates and the nodes are all the devices with a partition, the handoffs
    are complete. -/
theorem LoadedRing.complete_of_candidates {hash : ℕ → ℕ} {part : ℕ}
    (hall : ∀ d ∈ r.assignedDevs, d ∈ r.partNodes part ∨
      d ∈ (handoffParts r.parts (r.start hash part)).flatMap r.partDevs) :
    r.Complete (r.partNodes part) (r.getMoreNodes hash part) := by
  set candidates := (handoffParts r.parts (r.start hash part)).flatMap r.partDevs with hcandidates
  set nodes := r.partNodes part with hnodes
  have hprimary : ∀ d ∈ nodes, d ∈ r.assignedDevs := fun d hd =>
    mem_assignedDevs_iff.mpr ⟨part, ((r.partNodes_spec part).2 d).mp hd⟩
  have hsub : ∀ d ∈ candidates, d ∈ r.assignedDevs := fun d hd => by
    obtain ⟨p, -, hp⟩ := mem_flatMap.mp hd
    exact mem_assignedDevs_iff.mpr ⟨p, hp⟩
  -- what the four sweeps add
  have hsweep := r.getMoreNodes_sweep hash part
  dsimp only at hsweep
  rw [← hcandidates, ← hnodes] at hsweep
  obtain ⟨a1, h1, hfresh1, hseen1⟩ := sweep_spec Dev.region candidates nodes
  obtain ⟨a2, h2, hfresh2, hseen2⟩ := sweep_spec Dev.regionZone candidates (nodes ++ a1)
  obtain ⟨a3, h3, hfresh3, hseen3⟩ := sweep_spec Dev.server candidates (nodes ++ a1 ++ a2)
  obtain ⟨a4, h4, hfresh4, hseen4⟩ := sweep_spec Dev.id candidates (nodes ++ a1 ++ a2 ++ a3)
  rw [h1, h2, h3, h4] at hsweep
  have hhandoffs : r.getMoreNodes hash part = a1 ++ (a2 ++ (a3 ++ a4)) :=
    append_cancel_left (hsweep.trans (by simp only [append_assoc]))
  -- a sweep sees the keys of all devices
  have hcover : ∀ {κ : Type} {key : Dev → κ} {taken added : List Dev}, (∀ d ∈ nodes, d ∈ taken) →
      (∀ d ∈ candidates, key d ∈ (taken ++ added).map key) →
      ∀ d ∈ r.assignedDevs, key d ∈ (taken ++ added).map key := fun htaken hseen d hd =>
    (hall d hd).elim (fun h => List.mem_map_of_mem (mem_append_left _ (htaken d h))) (hseen d)
  have hcover1 := hcover (fun _ h => h) hseen1
  have hcover2 := hcover (fun _ h => mem_append_left _ h) hseen2
  have hcover3 := hcover (fun _ h => mem_append_left _ (mem_append_left _ h)) hseen3
  have hcover4 := hcover (fun _ h => mem_append_left _ (mem_append_left _ (mem_append_left _ h))) hseen4
  have happend : ∀ {taken added : List Dev}, (∀ d ∈ taken, d ∈ r.assignedDevs) → (∀ d ∈ added, d ∈ candidates) →
      ∀ d ∈ taken ++ added, d ∈ r.assignedDevs := fun htaken hadded d hd =>
    (mem_append.mp hd).elim (htaken d) fun hd => hsub d (hadded d hd)
  have hmem1 := happend hprimary hfresh1.mem
  have hmem2 := happend hmem1 hfresh2.mem
  have hmem3 := happend hmem2 hfresh3.mem
  have hmem4 := happend hmem3 hfresh4.mem
  have hfine : ∀ {κ : Type} (key : Dev → κ) {l : List Dev}, (∀ d ∈ l, d ∈ r.assignedDevs) →
      ∀ x ∈ l, ∀ y ∈ l, x.id = y.id → key x = key y := fun key _ hl x hx y hy hid =>
    congrArg key (eq_of_id (hl x hx) (hl y hy) hid)
  have hnodup := hfresh4.nodup_map (hfine Dev.id hmem4) (hfresh3.nodup_map (hfine Dev.server hmem3)
    (hfresh2.nodup_map (hfine Dev.regionZone hmem2) (hfresh1.nodup_map (hfine Dev.region hmem1)
      (r.partNodes_spec part).1)))
  have hzone : ∀ x y : Dev, x.regionZone = y.regionZone → x.region = y.region := fun _ _ h => (Prod.mk.inj h).1
  have hserver : ∀ x y : Dev, x.server = y.server → x.regionZone = y.regionZone := fun _ _ h =>
    Prod.ext (Prod.mk.inj h).1 (Prod.mk.inj (Prod.mk.inj h).2).1
  have hregion : Greedy r Dev.region nodes (a1 ++ (a2 ++ (a3 ++ a4))) :=
    (Greedy.of_fresh (fun _ _ h => h) hfresh1).append (.of_seen hcover1 _)
  have hzones : Greedy r Dev.regionZone nodes (a1 ++ (a2 ++ (a3 ++ a4))) :=
    (Greedy.of_fresh hzone hfresh1).append ((Greedy.of_fresh (fun _ _ h => h) hfresh2).append (.of_seen hcover2 _))
  have hservers : Greedy r Dev.server nodes (a1 ++ (a2 ++ (a3 ++ a4))) :=
    (Greedy.of_fresh (fun x y h => hzone x y (hserver x y h)) hfresh1).append
      ((Greedy.of_fresh hserver hfresh2).append
        ((Greedy.of_fresh (fun _ _ h => h) hfresh3).append (.of_seen hcover3 _)))
  rw [hhandoffs]
  refine ⟨?_, fun d => ?_, hregion, hzones, hservers⟩
  · simpa only [append_assoc] using hnodup
  · have hassoc : nodes ++ (a1 ++ (a2 ++ (a3 ++ a4))) = nodes ++ a1 ++ a2 ++ a3 ++ a4 := by
      simp only [append_assoc]
    rw [hassoc]
    refine ⟨hmem4 d, fun hd => ?_⟩
    obtain ⟨x, hx, hid⟩ := List.mem_map.mp (hcover4 d hd)
    exact eq_of_id (hmem4 x hx) hd hid ▸ hx

/-- **Handoffs are complete exactly when the scans do not miss partition 0**: they start
    there, or the devices of partition 0 are nodes of the partition or have another one. -/
theorem more_nodes_complete_iff (r : LoadedRing) (hash : ℕ → ℕ) (part : ℕ) (hparts : r.parts ≤ 65536) :
    r.Complete (r.partNodes part) (r.getMoreNodes hash part) ↔ r.start hash part = 0 ∨
      ∀ d ∈ r.partDevs 0, d ∈ r.partNodes part ∨ ∃ other, other ≠ 0 ∧ d ∈ r.partDevs other := by
  constructor
  · intro hcomplete
    by_contra hnot
    obtain ⟨hstart, hmissed⟩ := not_or.mp hnot
    push Not at hmissed
    obtain ⟨d, hd, hnode, hother⟩ := hmissed
    have hmem := (hcomplete.mem_iff d).mpr (LoadedRing.mem_assignedDevs_iff.mpr ⟨0, hd⟩)
    rw [r.getMoreNodes_sweep] at hmem
    have hno : d ∉ (handoffParts r.parts (r.start hash part)).flatMap r.partDevs := fun h => by
      obtain ⟨p, hp, hdp⟩ := (r.mem_candidates hparts _).mp h
      exact hother p (hp.resolve_right hstart) hdp
    have hdown : ∀ {κ : Type} [DecidableEq κ] {key : Dev → κ} {taken : List Dev},
        d ∈ sweep key ((handoffParts r.parts (r.start hash part)).flatMap r.partDevs) taken → d ∈ taken :=
      fun h => (mem_of_mem_sweep h).resolve_right hno
    exact hnode (hdown (hdown (hdown (hdown hmem))))
  · intro hcond
    refine LoadedRing.complete_of_candidates fun d hd => ?_
    obtain ⟨p, hp⟩ := LoadedRing.mem_assignedDevs_iff.mp hd
    rw [r.mem_candidates hparts]
    by_cases hzero : p ≠ 0 ∨ r.start hash part = 0
    · exact Or.inr ⟨p, hzero, hp⟩
    · obtain ⟨hp0, hstart⟩ := not_or.mp hzero
      obtain rfl := not_not.mp hp0
      exact (hcond.resolve_left hstart d hp).imp id fun ⟨other, hne, hother⟩ => ⟨other, Or.inl hne, hother⟩

end All

theorem twoParts_ids (i : ℕ) (d : Dev) (h : [some (⟨0, 0, 0, "a", 1⟩ : Dev), some ⟨1, 0, 1, "b", 1⟩][i]? = some (some d)) :
    d.id = i := by
  have hlt : i < 2 := (List.getElem?_eq_some_iff.mp h).1
  have hall : ∀ i < 2, ∀ e ∈ [some (⟨0, 0, 0, "a", 1⟩ : Dev), some ⟨1, 0, 1, "b", 1⟩][i]?, ∀ d ∈ e, d.id = i := by
    decide
  exact hall i hlt _ h d rfl

/-- Two partitions, each with its only replica on a device of its own. -/
def twoParts : LoadedRing where
  replica2part2devId := [[0, 1]]
  devs := [some ⟨0, 0, 0, "a", 1⟩, some ⟨1, 0, 1, "b", 1⟩]
  partShift := 31
  nonempty := by decide
  rows := by decide
  assigned row hrow id hid := by
    obtain rfl := mem_singleton.mp hrow
    have hall : ∀ id ∈ [0, 1], ([some (⟨0, 0, 0, "a", 1⟩ : Dev), some ⟨1, 0, 1, "b", 1⟩][id]?.join).isSome = true := by
      decide
    obtain ⟨dev, hdev⟩ := Option.isSome_iff_exists.mp (hall id hid)
    exact ⟨dev, Option.join_eq_some_iff.mp hdev⟩
  ids := twoParts_ids
  shift := by decide

theorem more_nodes_complete_iff_two :
    twoParts.Complete (twoParts.partNodes 1) (twoParts.getMoreNodes (fun _ => 0xc4ca4238) 1) ↔
      twoParts.start (fun _ => 0xc4ca4238) 1 = 0 ∨ ∀ d ∈ twoParts.partDevs 0, d ∈ twoParts.partNodes 1 ∨
        ∃ other, other ≠ 0 ∧ d ∈ twoParts.partDevs other :=
  more_nodes_complete_iff twoParts _ 1 (by decide)

/-- **Partition 0 is missed**: `c4ca4238` is what the MD5 of "1" begins with, and the
    device of partition 0 is no handoff of partition 1. -/
theorem first_partition_missed : twoParts.parts ≤ 65536 ∧
    twoParts.getMoreNodes (fun _ => 0xc4ca4238) 1 = [] ∧
    ¬ twoParts.Complete (twoParts.partNodes 1) (twoParts.getMoreNodes (fun _ => 0xc4ca4238) 1) := by
  have hnone : twoParts.getMoreNodes (fun _ => 0xc4ca4238) 1 = [] := by decide +kernel
  have hmissed : ⟨0, 0, 0, "a", 1⟩ ∈ twoParts.assignedDevs ∧ ⟨0, 0, 0, "a", 1⟩ ∉ twoParts.partNodes 1 := by
    decide +kernel
  refine ⟨by decide, hnone, fun hcomplete => hmissed.2 ?_⟩
  have hmem := (hcomplete.mem_iff ⟨0, 0, 0, "a", 1⟩).mpr hmissed.1
  rwa [hnone, append_nil] at hmem

end Mitaka.Swift.Ring
