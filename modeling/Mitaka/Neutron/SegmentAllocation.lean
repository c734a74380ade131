/-
  Subject: The allocation tables of the ML2 tunnel and VLAN type drivers.

  A table has a row for each segment of the pool and for each held one, by its primary
  key: the tunnel id, or the physical network and the VLAN id. A type driver turns a
  segment into the filters of a request, and keeps the table in line with the ID ranges
  of its server's configuration.
  * `TypeDriver`: a driver, with what its sync makes of a table.
  * `syncAllocations_get`, `syncVlanAllocations_get`: allocated rows stay, and of the
    others those of the configured ids.
  * `tunnelDriver`, `vlanDriver`.
-/
import Mitaka.Lib.Dict

namespace Mitaka.Neutron.Ml2

open Mitaka List

/-! ## 1. Tables and requests -/

/-- The rows of a table, by primary key: whether the segment is allocated. -/
abbrev Table (κ : Type) := Dict κ Bool

/-- What a type driver asks of `SegmentTypeDriver`. -/
inductive Request (κ : Type)
  /-- `allocate_partially_specified_segment` with filters. -/
  | partially (filters : κ → Bool)
  /-- `allocate_fully_specified_segment` with filters, and the row that it creates; `none` where
  the filters leave a primary key open. -/
  | fully (filters : κ → Bool) (row : Option κ)

namespace Table

variable {κ : Type} [DecidableEq κ]

omit [DecidableEq κ] in
/-- `UPDATE ... SET allocated = true WHERE NOT allocated` and the filters. -/
def allocate (t : Table κ) (filters : κ → Bool) : Table κ :=
  t.map fun r => if filters r.1 then (r.1, true) else r

omit [DecidableEq κ] in
/-- The unallocated rows that match. -/
def unallocated (t : Table κ) (filters : κ → Bool) : List κ :=
  (t.filter fun r => filters r.1 && !r.2).map Prod.fst

omit [DecidableEq κ] in
theorem keys_allocate (t : Table κ) (filters : κ → Bool) : (allocate t filters).map Prod.fst = t.map Prod.fst := by
  unfold allocate
  rw [List.map_map]
  refine map_congr_left fun r _ => ?_
  show (if filters r.1 then (r.1, true) else r).1 = r.1
  split_ifs <;> rfl

theorem get_allocate (t : Table κ) (filters : κ → Bool) (k : κ) :
    Dict.get (allocate t filters) k = if filters k then (t.get k).map fun _ => true else t.get k := by
  induction t with
  | nil => split_ifs <;> rfl
  | cons r t ih =>
    show Dict.get ((if filters r.1 then (r.1, true) else r) :: allocate t filters) k = _
    rw [Dict.get_cons, Dict.get_cons, ih]
    by_cases hk : r.1 = k
    · subst hk
      by_cases hf : filters r.1 = true <;> simp [hf]
    · have hkey : (if filters r.1 then (r.1, true) else r).1 ≠ k := by
        split_ifs
        · exact hk
        · exact hk
      rw [if_neg hkey, if_neg hk]

theorem mem_unallocated {t : Table κ} (h : t.KeysNodup) {filters : κ → Bool} {k : κ} :
    k ∈ unallocated t filters ↔ filters k = true ∧ t.get k = some false := by
  unfold unallocated
  rw [List.mem_map]
  constructor
  · intro hm
    obtain ⟨⟨k', b⟩, hr, rfl⟩ := hm
    obtain ⟨hr, hf⟩ := mem_filter.mp hr
    obtain ⟨hf, hb⟩ := Bool.and_eq_true_iff.mp hf
    rw [Bool.not_eq_true'] at hb
    exact ⟨hf, h.mem_iff.mp (hb ▸ hr)⟩
  · intro hm
    exact ⟨(k, false), mem_filter.mpr ⟨h.mem_iff.mpr hm.2, Bool.and_eq_true_iff.mpr ⟨hm.1, rfl⟩⟩, rfl⟩

end Table

/-- A type driver: the ids it takes from a configuration, what it makes of a segment, and how it brings a
table in line. -/
structure TypeDriver (κ Seg Conf : Type) [DecidableEq κ] where
  reserveProviderSegment : Seg → Request κ
  allocateTenantSegment : Request κ
  /-- The segment is inside the ranges: its row is kept when it is released. -/
  inside : Conf → κ → Bool
  sync : Conf → Table κ → Table κ
  nodup_sync : ∀ conf t, t.KeysNodup → (sync conf t).KeysNodup
  get_sync : ∀ conf t, t.KeysNodup → ∀ k,
    (sync conf t).get k = if t.get k = some true then some true else if inside conf k then some false else none

/-! ## 2. Ranges of ids -/

/-- `range(lo, hi + 1)`. -/
def idRange (range : ℤ × ℤ) : List ℤ := (List.range (range.2 + 1 - range.1).toNat).map fun i : ℕ => range.1 + i

/-- The set of the ids of the ranges. -/
def idSet (ranges : List (ℤ × ℤ)) : List ℤ := (ranges.flatMap idRange).dedup

def insideRanges (ranges : List (ℤ × ℤ)) (id : ℤ) : Bool := ranges.any fun r => r.1 ≤ id ∧ id ≤ r.2

theorem mem_idRange {range : ℤ × ℤ} {id : ℤ} : id ∈ idRange range ↔ range.1 ≤ id ∧ id ≤ range.2 := by
  unfold idRange
  rw [List.mem_map]
  constructor
  · intro h
    obtain ⟨i, hi, rfl⟩ := h
    have := mem_range.mp hi
    omega
  · intro h
    exact ⟨(id - range.1).toNat, mem_range.mpr (by omega), by omega⟩

theorem nodup_idSet (ranges : List (ℤ × ℤ)) : (idSet ranges).Nodup := nodup_dedup _

theorem mem_idSet {ranges : List (ℤ × ℤ)} {id : ℤ} : id ∈ idSet ranges ↔ insideRanges ranges id = true := by
  unfold idSet insideRanges
  rw [mem_dedup, mem_flatMap, List.any_eq_true]
  exact exists_congr fun r => and_congr_right fun _ => mem_idRange.trans decide_eq_true_iff.symm

/-! ## 3. Bringing a table in line -/

section Apply

variable {κ : Type} [DecidableEq κ] (t : Table κ) (remove missing : List κ)

/-- The rows to remove are deleted, the missing ones added to the pool. -/
def applySync : Table κ := (t.filter fun r => r.1 ∉ remove) ++ missing.map fun k => (k, false)

variable {t missing}

theorem nodup_applySync (h : t.KeysNodup) (hm : missing.Nodup) (hnew : ∀ k ∈ missing, k ∉ t.map Prod.fst) :
    (applySync t remove missing).KeysNodup := by
  unfold Dict.KeysNodup applySync
  rw [map_append, List.map_map]
  have hkeys : (missing.map (Prod.fst ∘ fun k => (k, false))) = missing := List.map_id _
  have hsub : Sublist ((t.filter fun r => r.1 ∉ remove).map Prod.fst) (t.map Prod.fst) :=
    List.Sublist.map _ filter_sublist
  rw [hkeys]
  exact nodup_append.mpr ⟨h.sublist hsub, hm, fun k hk k' hk' he => hnew k' hk' (he ▸ hsub.subset hk)⟩

/-- **What a sync leaves of a table**, when it removes the unallocated rows outside the ranges and adds the ids
inside that have no row. -/
theorem get_applySync {inside : κ → Bool} (h : t.KeysNodup) (hm : missing.Nodup)
    (hremove : ∀ k, k ∈ remove ↔ t.get k = some false ∧ inside k = false)
    (hmissing : ∀ k, k ∈ missing ↔ inside k = true ∧ t.get k = none) (k : κ) :
    (applySync t remove missing).get k =
      if t.get k = some true then some true else if inside k then some false else none := by
  have hnew : ∀ k ∈ missing, k ∉ t.map Prod.fst := fun k hk hmem => by
    rw [Dict.mem_keys_iff, ((hmissing k).mp hk).2] at hmem
    cases hmem
  have hnodup := nodup_applySync remove h hm hnew
  have hmem : ∀ b, (applySync t remove missing).get k = some b ↔
      (t.get k = some b ∧ k ∉ remove) ∨ (k ∈ missing ∧ b = false) := by
    intro b
    rw [← hnodup.mem_iff, applySync, mem_append, mem_filter, decide_eq_true_iff, h.mem_iff, List.mem_map]
    refine or_congr_right ⟨fun hx => ?_, fun hx => ⟨k, hx.1, Prod.ext rfl hx.2.symm⟩⟩
    obtain ⟨k', hk', he⟩ := hx
    cases he
    exact ⟨hk', rfl⟩
  cases hg : t.get k with
  | none =>
    have hnone : t.get k ≠ some true := by rw [hg]; exact nofun
    rw [if_neg (by exact nofun)]
    by_cases hin : inside k = true
    · rw [if_pos hin]
      exact (hmem false).mpr (Or.inr ⟨(hmissing k).mpr ⟨hin, hg⟩, rfl⟩)
    · rw [if_neg hin]
      refine Option.eq_none_iff_forall_ne_some.mpr fun b hb => ?_
      rcases (hmem b).mp hb with hb | hb
      · cases hg.symm.trans hb.1
      · exact hin ((hmissing k).mp hb.1).1
  | some b =>
    have hno : k ∉ missing := fun hk => by cases hg.symm.trans ((hmissing k).mp hk).2
    cases b with
    | true =>
      rw [if_pos rfl]
      refine (hmem true).mpr (Or.inl ⟨hg, fun hk => ?_⟩)
      cases hg.symm.trans ((hremove k).mp hk).1
    | false =>
      rw [if_neg (by exact nofun)]
      by_cases hin : inside k = true
      · rw [if_pos hin]
        refine (hmem false).mpr (Or.inl ⟨hg, fun hk => ?_⟩)
        exact absurd hin (by rw [((hremove k).mp hk).2]; exact nofun)
      · rw [if_neg hin]
        refine Option.eq_none_iff_forall_ne_some.mpr fun b hb => ?_
        rcases (hmem b).mp hb with hb | hb
        · exact hb.2 ((hremove k).mpr ⟨hg, Bool.not_eq_true _ ▸ hin⟩)
        · exact hno hb.1

end Apply

/-! ## 4. Tunnels -/

/-- A segment as a request gives it. -/
structure Segment where
  physicalNetwork : Option String
  segmentationId : Option ℤ
  deriving DecidableEq

/-- `sync_allocations`. -/
def syncAllocations (tunnelRanges : List (ℤ × ℤ)) (allocs : Table ℤ) : Table ℤ :=
  let tunnelIds := idSet tunnelRanges
  let unallocateds := (allocs.filter fun a => !a.2).map Prod.fst
  let toRemove := unallocateds.filter fun x => x ∉ tunnelIds
  let existings := allocs.map Prod.fst
  let missings := tunnelIds.filter fun x => x ∉ existings
  applySync allocs toRemove missings

theorem mem_missings {ranges : List (ℤ × ℤ)} {t : Table ℤ} {x : ℤ} :
    x ∈ (idSet ranges).filter (fun x => x ∉ t.map Prod.fst) ↔ insideRanges ranges x = true ∧ t.get x = none := by
  rw [mem_filter, decide_eq_true_iff, mem_idSet, Dict.mem_keys_iff, Option.isSome_iff_ne_none, not_not]

theorem nodup_syncAllocations (ranges : List (ℤ × ℤ)) (t : Table ℤ) (h : t.KeysNodup) :
    (syncAllocations ranges t).KeysNodup :=
  nodup_applySync _ h ((nodup_idSet ranges).filter _) fun x hx hmem => by
    rw [Dict.mem_keys_iff, (mem_missings.mp hx).2] at hmem
    cases hmem

/-- **After a sync of the tunnels the unallocated rows are the configured ids that are not allocated.** -/
theorem syncAllocations_get (ranges : List (ℤ × ℤ)) (t : Table ℤ) (h : t.KeysNodup) (x : ℤ) :
    (syncAllocations ranges t).get x =
      if t.get x = some true then some true else if insideRanges ranges x then some false else none := by
  refine get_applySync _ h ((nodup_idSet ranges).filter _) (fun x => ?_) (fun x => mem_missings) x
  have hunallocated : x ∈ (t.filter fun a => !a.2).map Prod.fst ↔ t.get x = some false := by
    have hmem : x ∈ Table.unallocated t (fun _ => true) ↔ true = true ∧ t.get x = some false :=
      Table.mem_unallocated h
    simpa [Table.unallocated] using hmem
  rw [mem_filter, hunallocated, decide_eq_true_iff, mem_idSet, Bool.not_eq_true]

/-- The tunnel type drivers: a segment with an id is asked for by that id alone. -/
def tunnelDriver : TypeDriver ℤ Segment (List (ℤ × ℤ)) where
  reserveProviderSegment segment :=
    match segment.segmentationId with
    | none => .partially fun _ => true
    | some id => .fully (fun x => x = id) (some id)
  allocateTenantSegment := .partially fun _ => true
  inside := insideRanges
  sync := syncAllocations
  nodup_sync := nodup_syncAllocations
  get_sync := syncAllocations_get

/-! ## 5. VLANs -/

/-- `network_vlan_ranges`: the ranges of each physical network. -/
structure VlanRanges where
  networks : Dict String (List (ℤ × ℤ))
  nodup : networks.KeysNodup

abbrev VlanTable := Table (String × ℤ)

/-- `ranges = self.network_vlan_ranges.get(physical_network, [])`, and whether the VLAN id is inside. -/
def VlanRanges.inside (conf : VlanRanges) (k : String × ℤ) : Bool := insideRanges ((conf.networks.get k.1).getD []) k.2

/-- What `_sync_vlan_allocations` has done so far. -/
structure VlanSync where
  /-- The rows of the physical networks that it has not come to. -/
  allocations : VlanTable
  deleted : List (String × ℤ)
  added : List (String × ℤ)

/-- One row of a physical network, with the ids of its ranges that no row has been found for. -/
def syncAlloc (st : List ℤ × List (String × ℤ)) (alloc : (String × ℤ) × Bool) : List ℤ × List (String × ℤ) :=
  if alloc.1.2 ∈ st.1 then (st.1.erase alloc.1.2, st.2)
  else if alloc.2 then st
  else (st.1, st.2 ++ [alloc.1])

/-- One configured physical network. -/
def syncNetwork (st : VlanSync) (network : String × List (ℤ × ℤ)) : VlanSync :=
  let r := (st.allocations.filter fun a => a.1.1 = network.1).foldl syncAlloc (idSet network.2, [])
  { allocations := st.allocations.filter fun a => a.1.1 ≠ network.1
    deleted := st.deleted ++ r.2
    added := st.added ++ (r.1.insertionSort (· ≤ ·)).map fun id => (network.1, id) }

/-- `_sync_vlan_allocations`: last come the rows of the unconfigured physical networks. -/
def syncVlanAllocations (conf : VlanRanges) (t : VlanTable) : VlanTable :=
  let st := conf.networks.foldl syncNetwork ⟨t, [], []⟩
  applySync t (st.deleted ++ (st.allocations.filter fun a => !a.2).map Prod.fst) st.added

/-- The rows of one physical network take their ids from the ranges; those outside are deleted if unallocated. -/
theorem foldl_syncAlloc {allocs : VlanTable} {ids : List ℤ} (acc : List (String × ℤ))
    (hd : (allocs.map fun a => a.1.2).Nodup) (hi : ids.Nodup) :
    (allocs.foldl syncAlloc (ids, acc)).1.Nodup ∧
    (∀ v, v ∈ (allocs.foldl syncAlloc (ids, acc)).1 ↔ v ∈ ids ∧ v ∉ allocs.map fun a => a.1.2) ∧
    ∀ k, k ∈ (allocs.foldl syncAlloc (ids, acc)).2 ↔ k ∈ acc ∨ ((k, false) ∈ allocs ∧ k.2 ∉ ids) := by
  induction allocs generalizing ids acc with
  | nil => exact ⟨hi, fun v => by simp, fun k => by simp⟩
  | cons a allocs ih =>
    obtain ⟨ha, hd⟩ := nodup_cons.mp hd
    rw [foldl_cons, syncAlloc]
    by_cases hmem : a.1.2 ∈ ids
    · rw [if_pos hmem]
      obtain ⟨h1, h2, h3⟩ := ih acc hd (hi.erase a.1.2)
      refine ⟨h1, fun v => ?_, fun k => ?_⟩
      · rw [h2 v, hi.mem_erase_iff, map_cons, mem_cons, not_or]
        tauto
      · rw [h3 k, hi.mem_erase_iff, mem_cons]
        refine or_congr_right ⟨fun hk => ⟨Or.inr hk.1, fun hin => hk.2 ⟨fun he => ?_, hin⟩⟩, fun hk => ?_⟩
        · exact ha (List.mem_map.mpr ⟨(k, false), hk.1, he⟩)
        · refine ⟨hk.1.resolve_left fun he => hk.2 ?_, fun hin => hk.2 hin.2⟩
          rwa [← he] at hmem
    · rw [if_neg hmem]
      have hids : ∀ v, v ∈ ids ∧ v ∉ (a :: allocs).map (fun a => a.1.2) ↔ v ∈ ids ∧ v ∉ allocs.map fun a => a.1.2 := by
        intro v
        rw [map_cons, mem_cons, not_or]
        exact and_congr_right fun hv => and_iff_right fun he => hmem (he ▸ hv)
      by_cases hb : a.2 = true
      · rw [if_pos hb]
        obtain ⟨h1, h2, h3⟩ := ih acc hd hi
        refine ⟨h1, fun v => (h2 v).trans (hids v).symm, fun k => ?_⟩
        rw [h3 k, mem_cons]
        refine or_congr_right (and_congr_left fun _ => (or_iff_right fun he => ?_).symm)
        rw [← he] at hb
        cases hb
      · rw [if_neg hb]
        obtain ⟨h1, h2, h3⟩ := ih (acc ++ [a.1]) hd hi
        refine ⟨h1, fun v => (h2 v).trans (hids v).symm, fun k => ?_⟩
        have ha' : a = (a.1, false) := Prod.ext rfl (Bool.not_eq_true _ ▸ hb)
        rw [h3 k, mem_append, mem_singleton, mem_cons]
        constructor
        · intro hk
          rcases hk with (hk | rfl) | hk
          · exact Or.inl hk
          · exact Or.inr ⟨Or.inl ha'.symm, hmem⟩
          · exact Or.inr ⟨Or.inr hk.1, hk.2⟩
        · intro hk
          rcases hk with hk | ⟨he | hk, hno⟩
          · exact Or.inl (Or.inl hk)
          · exact Or.inl (Or.inr (congrArg Prod.fst he))
          · exact Or.inr ⟨hk, hno⟩

/-- The networks delete the unallocated rows outside their ranges and add the ids that have no row. -/
theorem foldl_syncNetwork {networks : Dict String (List (ℤ × ℤ))} (hn : networks.KeysNodup) (st : VlanSync)
    (ht : st.allocations.KeysNodup) :
    (∀ a, a ∈ (networks.foldl syncNetwork st).allocations ↔ a ∈ st.allocations ∧ a.1.1 ∉ networks.map Prod.fst) ∧
    (∀ k, k ∈ (networks.foldl syncNetwork st).deleted ↔ k ∈ st.deleted ∨ ((k, false) ∈ st.allocations ∧
      ∃ n ∈ networks, n.1 = k.1 ∧ insideRanges n.2 k.2 = false)) ∧
    (∀ k, k ∈ (networks.foldl syncNetwork st).added ↔ k ∈ st.added ∨ (k ∉ st.allocations.map Prod.fst ∧
      ∃ n ∈ networks, n.1 = k.1 ∧ insideRanges n.2 k.2 = true)) ∧
    (st.added.Nodup → (∀ k ∈ st.added, k.1 ∉ networks.map Prod.fst) →
      (networks.foldl syncNetwork st).added.Nodup) := by
  induction networks generalizing st with
  | nil => exact ⟨fun a => by simp, fun k => by simp, fun k => by simp, fun h _ => h⟩
  | cons network networks ih =>
    obtain ⟨hnew, hn⟩ := nodup_cons.mp hn
    -- the rows of this network, and its ids
    have hrows : ((st.allocations.filter fun a => a.1.1 = network.1).map fun a => a.1.2).Nodup := by
      refine (nodup_map_iff_inj_on ((Nodup.of_map _ ht).filter _)).mpr fun a ha b hb he => ?_
      obtain ⟨ha, hna⟩ := mem_filter.mp ha
      obtain ⟨hb, hnb⟩ := mem_filter.mp hb
      have hkey : a.1 = b.1 := Prod.ext ((of_decide_eq_true hna).trans (of_decide_eq_true hnb).symm) he
      exact inj_on_of_nodup_map ht ha hb hkey
    obtain ⟨hids, hmem, hdel⟩ := foldl_syncAlloc [] hrows (nodup_idSet network.2)
    have hfilter : Dict.KeysNodup (syncNetwork st network).allocations :=
      ht.sublist (List.Sublist.map _ filter_sublist)
    obtain ⟨h1, h2, h3, h4⟩ := ih hn (syncNetwork st network) hfilter
    have hother : ∀ n ∈ networks, n.1 ≠ network.1 := fun n hmem he => hnew (he ▸ List.mem_map_of_mem hmem)
    have hadded : ∀ k, k ∈ (syncNetwork st network).added ↔ k ∈ st.added ∨
        (k.1 = network.1 ∧ insideRanges network.2 k.2 = true ∧ k ∉ st.allocations.map Prod.fst) := by
      intro k
      show k ∈ st.added ++ _ ↔ _
      rw [mem_append, List.mem_map]
      refine or_congr_right ⟨fun h => ?_, fun h => ⟨k.2, ?_, Prod.ext h.1.symm rfl⟩⟩
      · obtain ⟨v, hv, rfl⟩ := h
        obtain ⟨hv, hno⟩ := (hmem v).mp (((perm_insertionSort _ _).mem_iff).mp hv)
        refine ⟨rfl, mem_idSet.mp hv, fun hk => hno ?_⟩
        obtain ⟨a, ha, he⟩ := List.mem_map.mp hk
        exact List.mem_map.mpr ⟨a, mem_filter.mpr ⟨ha, decide_eq_true (by rw [he])⟩, by rw [he]⟩
      · refine ((perm_insertionSort _ _).mem_iff).mpr ((hmem k.2).mpr ⟨mem_idSet.mpr h.2.1, fun hk => h.2.2 ?_⟩)
        obtain ⟨a, ha, he⟩ := List.mem_map.mp hk
        obtain ⟨ha, hna⟩ := mem_filter.mp ha
        exact List.mem_map.mpr ⟨a, ha, Prod.ext ((of_decide_eq_true hna).trans h.1.symm) he⟩
    refine ⟨fun a => ?_, fun k => ?_, fun k => ?_, fun hnd hdisj => ?_⟩
    · rw [foldl_cons, h1 a, map_cons, mem_cons, not_or]
      show a ∈ st.allocations.filter _ ∧ _ ↔ _
      rw [mem_filter, decide_eq_true_iff, and_assoc]
    · rw [foldl_cons, h2 k]
      show (k ∈ st.deleted ++ _ ∨ (k, false) ∈ st.allocations.filter _ ∧ _) ↔ _
      rw [mem_append, hdel k, mem_filter, decide_eq_true_iff, mem_filter, decide_eq_true_iff,
        mem_idSet, Bool.not_eq_true]
      constructor
      · intro h
        rcases h with (h | h) | ⟨⟨h, hne⟩, n, hn, hk, hin⟩
        · exact Or.inl h
        · obtain ⟨⟨hk, he⟩, hin⟩ := h.resolve_left not_mem_nil
          exact Or.inr ⟨hk, network, mem_cons_self, he.symm, hin⟩
        · exact Or.inr ⟨h, n, mem_cons_of_mem _ hn, hk, hin⟩
      · intro h
        rcases h with h | ⟨h, n, hn, hk, hin⟩
        · exact Or.inl (Or.inl h)
        · rcases mem_cons.mp hn with rfl | hn
          · exact Or.inl (Or.inr (Or.inr ⟨⟨h, hk.symm⟩, hin⟩))
          · exact Or.inr ⟨⟨h, fun he => hother n hn (hk.trans he)⟩, n, hn, hk, hin⟩
    · rw [foldl_cons, h3 k, hadded k]
      have hkeys : k.1 ≠ network.1 → (k ∈ ((syncNetwork st network).allocations).map Prod.fst ↔
          k ∈ st.allocations.map Prod.fst) := by
        intro hne
        show k ∈ (st.allocations.filter _).map Prod.fst ↔ _
        simp only [List.mem_map, mem_filter, decide_eq_true_iff]
        refine exists_congr fun a => and_congr_left fun he => and_iff_left ?_
        rw [he]
        exact hne
      constructor
      · intro h
        rcases h with (h | ⟨he, hin, hno⟩) | ⟨hno, n, hn, hk, hin⟩
        · exact Or.inl h
        · exact Or.inr ⟨hno, network, mem_cons_self, he.symm, hin⟩
        · have hne : k.1 ≠ network.1 := fun he => hother n hn (hk.trans he)
          exact Or.inr ⟨fun hmem => hno ((hkeys hne).mpr hmem), n, mem_cons_of_mem _ hn, hk, hin⟩
      · intro h
        rcases h with h | ⟨hno, n, hn, hk, hin⟩
        · exact Or.inl (Or.inl h)
        · rcases mem_cons.mp hn with rfl | hn
          · exact Or.inl (Or.inr ⟨hk.symm, hin, hno⟩)
          · have hne : k.1 ≠ network.1 := fun he => hother n hn (hk.trans he)
            exact Or.inr ⟨fun hmem => hno ((hkeys hne).mp hmem), n, hn, hk, hin⟩
    · refine h4 ?_ fun k hk hmemk => ?_
      · show (st.added ++ _).Nodup
        refine nodup_append.mpr ⟨hnd, ?_, fun k hk k' hk' he => ?_⟩
        · refine List.Nodup.map (fun a b he => (Prod.mk.inj he).2) ?_
          exact (perm_insertionSort _ _).nodup_iff.mpr hids
        · obtain ⟨v, -, rfl⟩ := List.mem_map.mp hk'
          exact hdisj k hk (he ▸ mem_cons_self)
      · rcases (hadded k).mp hk with hk | ⟨he, -⟩
        · exact hdisj k hk (mem_cons_of_mem _ hmemk)
        · obtain ⟨n, hn, hnk⟩ := List.mem_map.mp hmemk
          exact hother n hn (hnk.trans he)

/-- A VLAN id is inside the ranges of its physical network. -/
theorem VlanRanges.inside_eq (conf : VlanRanges) (k : String × ℤ) (b : Bool) : conf.inside k = b ↔
    (∃ n ∈ conf.networks, n.1 = k.1 ∧ insideRanges n.2 k.2 = b) ∨ (b = false ∧ k.1 ∉ conf.networks.map Prod.fst) := by
  unfold VlanRanges.inside
  cases hg : conf.networks.get k.1 with
  | none =>
    have hno : k.1 ∉ conf.networks.map Prod.fst := by
      rw [Dict.mem_keys_iff, hg]
      exact nofun
    have hempty : insideRanges ((none : Option (List (ℤ × ℤ))).getD []) k.2 = false := rfl
    rw [hempty]
    constructor
    · rintro rfl
      exact Or.inr ⟨rfl, hno⟩
    · intro h
      rcases h with ⟨n, hn, hk, -⟩ | h
      · exact absurd (List.mem_map.mpr ⟨n, hn, hk⟩) hno
      · exact h.1.symm
  | some ranges =>
    have hmem := conf.nodup.mem_iff.mpr hg
    rw [Option.getD_some]
    constructor
    · intro h
      exact Or.inl ⟨_, hmem, rfl, h⟩
    · intro h
      rcases h with ⟨n, hn, hk, hin⟩ | h
      · have hn' : conf.networks.get n.1 = some n.2 := conf.nodup.mem_iff.mp hn
        rw [hk, hg] at hn'
        rwa [Option.some.inj hn']
      · exact absurd (List.mem_map_of_mem hmem) h.2

section Vlan

variable (conf : VlanRanges) (t : VlanTable) (h : t.KeysNodup)

include h

theorem mem_vlanAdded (k : String × ℤ) : k ∈ (conf.networks.foldl syncNetwork ⟨t, [], []⟩).added ↔
    conf.inside k = true ∧ t.get k = none := by
  obtain ⟨-, -, h3, -⟩ := foldl_syncNetwork conf.nodup ⟨t, [], []⟩ h
  rw [h3 k, conf.inside_eq, Dict.mem_keys_iff, Option.isSome_iff_ne_none, not_not]
  simp only [not_mem_nil, false_or, Bool.true_eq_false, false_and, or_false]
  exact and_comm

theorem nodup_vlanAdded : (conf.networks.foldl syncNetwork ⟨t, [], []⟩).added.Nodup :=
  (foldl_syncNetwork conf.nodup ⟨t, [], []⟩ h).2.2.2 nodup_nil nofun

theorem nodup_syncVlanAllocations : (syncVlanAllocations conf t).KeysNodup :=
  nodup_applySync _ h (nodup_vlanAdded conf t h) fun k hk hmem => by
    rw [Dict.mem_keys_iff, ((mem_vlanAdded conf t h k).mp hk).2] at hmem
    cases hmem

/-- **After a sync of the VLANs the unallocated rows are the configured ids that are not allocated.** -/
theorem syncVlanAllocations_get (k : String × ℤ) : (syncVlanAllocations conf t).get k =
    if t.get k = some true then some true else if conf.inside k then some false else none := by
  refine get_applySync _ h (nodup_vlanAdded conf t h) (fun k => ?_) (mem_vlanAdded conf t h) k
  obtain ⟨h1, h2, -, -⟩ := foldl_syncNetwork conf.nodup ⟨t, [], []⟩ h
  rw [mem_append, h2 k, conf.inside_eq, ← h.mem_iff, List.mem_map]
  constructor
  · intro hk
    rcases hk with hk | ⟨a, ha, rfl⟩
    · exact (hk.resolve_left not_mem_nil).imp_right Or.inl
    · obtain ⟨ha, hb⟩ := mem_filter.mp ha
      obtain ⟨ha, hno⟩ := (h1 a).mp ha
      rw [Bool.not_eq_true'] at hb
      exact ⟨hb ▸ ha, Or.inr ⟨rfl, hno⟩⟩
  · intro hk
    rcases hk with ⟨hk, hin | ⟨-, hno⟩⟩
    · exact Or.inl (Or.inr ⟨hk, hin⟩)
    · exact Or.inr ⟨(k, false), mem_filter.mpr ⟨(h1 (k, false)).mpr ⟨hk, hno⟩, rfl⟩, rfl⟩

end Vlan

/-- The `filter_by` of the filters that `reserve_provider_segment` makes of a segment: without a physical
network there are none. -/
def vlanFilters (segment : Segment) (k : String × ℤ) : Bool :=
  match segment.physicalNetwork with
  | none => true
  | some network =>
    k.1 = network && match segment.segmentationId with
      | none => true
      | some id => decide (k.2 = id)

/-- The VLAN type driver: a segment with a segmentation id is a full one. -/
def vlanDriver : TypeDriver (String × ℤ) Segment VlanRanges where
  reserveProviderSegment segment :=
    match segment.segmentationId with
    | none => .partially (vlanFilters segment)
    | some id => .fully (vlanFilters segment) (segment.physicalNetwork.map fun network => (network, id))
  allocateTenantSegment := .partially fun _ => true
  inside := VlanRanges.inside
  sync := syncVlanAllocations
  nodup_sync := nodup_syncVlanAllocations
  get_sync := syncVlanAllocations_get

/-- `validate_provider_segment` of the VLAN driver. -/
def validateProviderSegment (conf : VlanRanges) (segment : Segment) : Except String Unit :=
  let network := segment.physicalNetwork.getD ""
  let id := segment.segmentationId.getD 0
  if network ≠ "" then
    if network ∉ conf.networks.map Prod.fst then
      .error ("physical_network '" ++ network ++ "' unknown  for VLAN provider network")
    else if id ≠ 0 ∧ ¬ (1 ≤ id ∧ id ≤ 4094) then
      .error "segmentation_id out of range (1 through 4094)"
    else .ok ()
  else if id ≠ 0 then .error "segmentation_id requires physical_network for VLAN provider network"
  else .ok ()

end Mitaka.Neutron.Ml2
