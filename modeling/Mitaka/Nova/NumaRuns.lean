/-
  Subject: Runs of fitting, claiming and freeing instances on one host.

  A topology is fitted to the host as it is, claimed later, and freed while it lives.
  `HostInv`: the pinned CPUs of every cell are what the live instances take of it, and no
  two of them take the same. A claim keeps it unless its instance asks for pinning in
  some cells only, or has an `isolate` cell on a host cell without sibling sets, whose
  CPUs `pin_cpus_with_siblings` does not find (`isolate_shares_cpu`).
-/
import Mitaka.Nova.Numa
import Mitaka.Lib.Run

namespace Mitaka.Nova

/-! ## 1. Runs -/

/-- A request for an instance cell. -/
structure CellRequest where
  cpuset : CpuSet
  memory : ℤ
  pagesize : Option ℤ
  cpuPolicy : Option CpuPolicy
  cpuThreadPolicy : Option ThreadPolicy

/-- The instance cell of a request. -/
def CellRequest.cell (r : CellRequest) : InstanceCell :=
  .init r.cpuset r.memory r.pagesize r.cpuPolicy r.cpuThreadPolicy

/-- A host, the topologies fitted to it (each with the host at that time), the live instances
and the errors raised. -/
structure HostState where
  host : List NumaCell
  fitted : List (List NumaCell × InstanceTopology)
  live : List InstanceTopology
  raised : List PinningError

inductive HostAction
  | fit (order : SetOrder) (requests : List CellRequest) (limits : Option Limits) (pciFits : InstanceTopology → Bool)
  | claim (i : ℕ)
  | free (i : ℕ)

/-- A step; only what has been fitted is claimed, only what is live is freed. -/
def hostStep (s : HostState) : HostAction → Option HostState
  | .fit order requests limits pciFits =>
    match numaFitInstanceToHost order s.host (requests.map CellRequest.cell) limits pciFits with
    | none => some s
    | some t => some { s with fitted := s.fitted ++ [(s.host, t)] }
  | .claim i =>
    (s.fitted[i]?).map fun e =>
      match numaUsageFromInstances s.host [e.2] false with
      | .ok host => { s with host := host, fitted := s.fitted.eraseIdx i, live := e.2 :: s.live }
      | .error err => { s with fitted := s.fitted.eraseIdx i, raised := err :: s.raised }
  | .free i =>
    (s.live[i]?).map fun t =>
      match numaUsageFromInstances s.host [t] true with
      | .ok host => { s with host := host, live := s.live.eraseIdx i }
      | .error err => { s with raised := err :: s.raised }

/-- A host before its first instance. -/
def HostState.fresh (host : List NumaCell) : HostState := ⟨host, [], [], []⟩

/-! ## 2. What is promised -/

/-- A host topology: cells of their own, with sibling sets that are empty or partition their CPUs. -/
structure HostTopology (host : List NumaCell) : Prop where
  nodup : (host.map NumaCell.id).Nodup
  disjoint : host.Pairwise fun a b => Disjoint a.cpuset b.cpuset
  partitioned : ∀ h ∈ host, h.Partitioned

/-- The CPUs that an instance is pinned to. -/
def PinnedCpu (t : InstanceTopology) (x : ℕ) : Prop := cpuPinningRequested t = true ∧ ∃ c ∈ t, x ∈ c.pinnedCpus

/-- The siblings of the CPUs of the `isolate` cells of an instance. -/
def IsolatedCpu (host : List NumaCell) (t : InstanceTopology) (x : ℕ) : Prop :=
  cpuPinningRequested t = true ∧ ∃ c ∈ t, c.isolate = true ∧ ∃ h ∈ host, ∃ sib ∈ h.siblings,
    (∃ y ∈ c.pinnedCpus, y ∈ sib) ∧ x ∈ sib

/-- Dedicated CPUs are exclusive. -/
structure Exclusive (s : HostState) : Prop where
  shared : s.live.Pairwise fun a b => ∀ x, PinnedCpu a x → ¬ PinnedCpu b x
  isolated : s.live.Pairwise fun a b => ∀ x, (IsolatedCpu s.host a x → ¬ PinnedCpu b x) ∧
    (IsolatedCpu s.host b x → ¬ PinnedCpu a x)
  pinned : ∀ h ∈ s.host, ∀ x, x ∈ h.pinnedCpus ↔
    x ∈ h.cpuset ∧ ∃ t ∈ s.live, PinnedCpu t x ∨ IsolatedCpu s.host t x
  raised : s.raised = []

/-- The pinning is of a kind that the usage counts: requested by all cells or by none, and without `isolate`
cells on host cells that have no sibling sets. -/
structure Countable (host : List NumaCell) (t : InstanceTopology) : Prop where
  uniform : cpuPinningRequested t = true ∨ ∀ c ∈ t, c.cpuPinningRequested = false
  isolate : cpuPinningRequested t = true → ∀ c ∈ t, c.isolate = true → ∀ h ∈ host, c.id = h.id → h.siblings ≠ []

/-- The CPUs of a fitted topology are still free. -/
def StillFree (host : List NumaCell) (t : InstanceTopology) : Prop :=
  ∀ h ∈ host, footprint h t ⊆ h.freeCpus

/-- Claims are of topologies that were fitted to the host as it is, or that still fit. -/
def Sound (s : HostState) : HostAction → Prop
  | .claim i => ∀ e, s.fitted[i]? = some e → (e.1 = s.host ∨ StillFree s.host e.2) ∧ Countable s.host e.2
  | _ => True

/-! ## 3. The invariant -/

/-- A live instance, or one that is to be claimed. -/
structure Placed (host : List NumaCell) (t : InstanceTopology) : Prop where
  nodup : (t.map InstanceCell.id).Nodup
  cell : ∀ c ∈ t, ∃ h ∈ host, c.id = h.id ∧ (c.cpuPinningRequested = true → c.pinnedCpus ⊆ h.cpuset)

structure HostInv (s : HostState) : Prop where
  topology : HostTopology s.host
  fitted : ∀ e ∈ s.fitted, Placed s.host e.2 ∧ Fitted e.1 e.2
  live : ∀ t ∈ s.live, Placed s.host t ∧ Countable s.host t
  pinned : ∀ h ∈ s.host, ∀ x, x ∈ h.pinnedCpus ↔ ∃ t ∈ s.live, x ∈ footprint h t
  disjoint : s.live.Pairwise fun a b => ∀ h ∈ s.host, Disjoint (footprint h a) (footprint h b)
  raised : s.raised = []

variable {t : InstanceTopology}

theorem requested_of_mem (h : cpuPinningRequested t = true) {c : InstanceCell} (hc : c ∈ t) :
    c.cpuPinningRequested = true := List.all_eq_true.mp h c hc

theorem find_of_mem (hnodup : (t.map InstanceCell.id).Nodup) {c : InstanceCell} (hc : c ∈ t)
    {id : ℤ} (hid : c.id = id) : t.find? (fun c => c.id = id) = some c := by
  induction t with
  | nil => cases hc
  | cons d t ih =>
    obtain ⟨hd, hnodup⟩ := List.nodup_cons.mp hnodup
    by_cases hdid : d.id = id
    · rw [List.find?_cons_of_pos (by simpa using hdid)]
      rcases List.mem_cons.mp hc with rfl | hc
      · rfl
      · exact absurd (hdid ▸ hid ▸ List.mem_map_of_mem hc) hd
    · rw [List.find?_cons_of_neg (by simpa using hdid)]
      rcases List.mem_cons.mp hc with rfl | hc
      · exact absurd hid hdid
      · exact ih hnodup hc

variable {h : NumaCell}

/-- What is in the footprint of an instance. -/
theorem mem_footprint (hnodup : (t.map InstanceCell.id).Nodup) {x : ℕ} :
    x ∈ footprint h t ↔ cpuPinningRequested t = true ∧ ∃ c ∈ t, c.id = h.id ∧ x ∈ cellPins h c := by
  rw [footprint]
  cases hreq : cpuPinningRequested t with
  | false => simp
  | true =>
    rw [if_pos rfl]
    cases hfind : t.find? fun c => c.id = h.id with
    | none =>
      have hno := List.find?_eq_none.mp hfind
      simp only [Option.map_none, Option.getD_none, Finset.notMem_empty, true_and, false_iff, not_exists, not_and]
      exact fun c hc hid => absurd hid (by simpa using hno c hc)
    | some c =>
      have hc := List.mem_of_find?_eq_some hfind
      have hid : c.id = h.id := by simpa using List.find?_some hfind
      refine ⟨fun hx => ⟨rfl, c, hc, hid, hx⟩, fun h => ?_⟩
      obtain ⟨_, d, hd, hdid, hx⟩ := h
      rw [find_of_mem hnodup hd hdid] at hfind
      obtain rfl := Option.some.inj hfind
      exact hx

variable {host : List NumaCell}

/-- The host cell of an instance cell. -/
theorem HostTopology.eq_of_id (ht : HostTopology host) {a b : NumaCell} (ha : a ∈ host)
    (hb : b ∈ host) (hid : a.id = b.id) : a = b :=
  List.inj_on_of_nodup_map ht.nodup ha hb hid

theorem HostTopology.eq_of_mem (ht : HostTopology host) {a b : NumaCell} (ha : a ∈ host)
    (hb : b ∈ host) {x : ℕ} (hxa : x ∈ a.cpuset) (hxb : x ∈ b.cpuset) : a = b := by
  by_contra hne
  exact Finset.disjoint_left.mp (ht.disjoint.forall ha hb hne) hxa hxb

theorem withSiblings_subset (hp : h.Partitioned) (cpus : CpuSet) : h.withSiblings cpus ⊆ h.cpuset := by
  intro x hx
  obtain ⟨sib, hsib, -, hxs⟩ := mem_withSiblings.mp hx
  exact (hp.union (List.ne_nil_of_mem hsib) x).mpr ⟨sib, hsib, hxs⟩

/-- An instance takes CPUs of the cell. -/
theorem Placed.footprint_subset (ht : HostTopology host)
    (hp : Placed host t) (hh : h ∈ host) : footprint h t ⊆ h.cpuset := by
  intro x hx
  obtain ⟨hreq, c, hc, hid, hx⟩ := (mem_footprint hp.nodup).mp hx
  rw [cellPins] at hx
  split at hx
  · exact withSiblings_subset (ht.partitioned h hh) _ hx
  · obtain ⟨h', hh', hid', hsub⟩ := hp.cell c hc
    rw [ht.eq_of_id hh hh' (hid.symm.trans hid')]
    exact hsub (requested_of_mem hreq hc) hx

/-- **A topology fitted to the host takes free CPUs.** -/
theorem Fitted.stillFree (ht : HostTopology host) (hf : Fitted host t)
    (hc : Countable host t) : StillFree host t := by
  intro h hh x hx
  obtain ⟨hreq, c, hct, hid, hx⟩ := (mem_footprint hf.nodup).mp hx
  obtain ⟨h', hh', hfits⟩ := hf.cell c hct
  obtain rfl := ht.eq_of_id hh hh' (hid.symm.trans hfits.id)
  rw [cellPins] at hx
  split at hx
  case isTrue hiso =>
    exact hfits.siblings (requested_of_mem hreq hct) hiso (hc.isolate hreq c hct hiso h hh hid) hx
  case isFalse => exact hfits.pins (requested_of_mem hreq hct) hx

theorem Fitted.placed (hf : Fitted host t) : Placed host t := by
  refine ⟨hf.nodup, fun c hc => ?_⟩
  obtain ⟨h, hh, hfits⟩ := hf.cell c hc
  exact ⟨h, hh, hfits.id, fun hreq => (hfits.pins hreq).trans Finset.sdiff_subset⟩

/-! ## 4. Steps -/

section Same

variable {host host' : List NumaCell} {free : Bool} {t : InstanceTopology}

theorem exists_claimed (h : List.Forall₂ (Claimed free t) host host') :
    (∀ a ∈ host, ∃ b ∈ host', Claimed free t a b) ∧ ∀ b ∈ host', ∃ a ∈ host, Claimed free t a b := by
  induction h with
  | nil => exact ⟨nofun, nofun⟩
  | cons hab _ ih =>
    refine ⟨fun x hx => ?_, fun x hx => ?_⟩
    · rcases List.mem_cons.mp hx with rfl | hx
      · exact ⟨_, List.mem_cons_self, hab⟩
      · obtain ⟨b, hb, hxb⟩ := ih.1 x hx
        exact ⟨b, List.mem_cons_of_mem _ hb, hxb⟩
    · rcases List.mem_cons.mp hx with rfl | hx
      · exact ⟨_, List.mem_cons_self, hab⟩
      · obtain ⟨a, ha, hax⟩ := ih.2 x hx
        exact ⟨a, List.mem_cons_of_mem _ ha, hax⟩

theorem HostTopology.claimed (ht : HostTopology host) (h : List.Forall₂ (Claimed free t) host host') :
    HostTopology host' := by
  have hids : host'.map NumaCell.id = host.map NumaCell.id := by
    induction h with
    | nil => rfl
    | cons hab _ ih =>
      rw [List.map_cons, List.map_cons, hab.same.id, ih ⟨(List.nodup_cons.mp ht.nodup).2,
        (List.pairwise_cons.mp ht.disjoint).2, fun x hx => ht.partitioned x (List.mem_cons_of_mem _ hx)⟩]
  have hsets : host'.map NumaCell.cpuset = host.map NumaCell.cpuset := by
    clear hids ht
    induction h with
    | nil => rfl
    | cons hab _ ih => rw [List.map_cons, List.map_cons, hab.same.cpuset, ih]
  refine ⟨hids ▸ ht.nodup, ?_, fun b hb => ?_⟩
  · have hdis : (host.map NumaCell.cpuset).Pairwise Disjoint := List.pairwise_map.mpr ht.disjoint
    rw [← hsets] at hdis
    exact List.pairwise_map.mp hdis
  · obtain ⟨a, ha, hab⟩ := (exists_claimed h).2 b hb
    have hpart := ht.partitioned a ha
    exact ⟨hab.same.siblings ▸ hpart.disjoint, by rw [hab.same.siblings, hab.same.cpuset]; exact hpart.union⟩

theorem Placed.claimed {t' : InstanceTopology} (hp : Placed host t') (h : List.Forall₂ (Claimed free t) host host') :
    Placed host' t' := by
  refine ⟨hp.nodup, fun c hc => ?_⟩
  obtain ⟨a, ha, hid, hsub⟩ := hp.cell c hc
  obtain ⟨b, hb, hab⟩ := (exists_claimed h).1 a ha
  exact ⟨b, hb, hid.trans hab.same.id.symm, fun hreq => hab.same.cpuset ▸ hsub hreq⟩

theorem Countable.claimed {t' : InstanceTopology} (hc : Countable host t') (h : List.Forall₂ (Claimed free t) host host') :
    Countable host' t' := by
  refine ⟨hc.uniform, fun hreq c hct hiso b hb hid => ?_⟩
  obtain ⟨a, ha, hab⟩ := (exists_claimed h).2 b hb
  rw [hab.same.siblings]
  exact hc.isolate hreq c hct hiso a ha (hid.trans hab.same.id)

theorem disjoint_claimed {live : List InstanceTopology} (h : List.Forall₂ (Claimed free t) host host')
    (hd : live.Pairwise fun a b => ∀ h ∈ host, Disjoint (footprint h a) (footprint h b)) :
    live.Pairwise fun a b => ∀ h ∈ host', Disjoint (footprint h a) (footprint h b) := by
  refine hd.imp fun hab h' hh' => ?_
  obtain ⟨a, ha, hcl⟩ := (exists_claimed h).2 h' hh'
  rw [hcl.same.footprint, hcl.same.footprint]
  exact hab a ha

end Same

variable {s s' : HostState}

/-- **Fitting changes nothing of the host.** -/
theorem HostInv.fit (h : HostInv s) {order : SetOrder} {requests : List CellRequest}
    {limits : Option Limits} {pciFits : InstanceTopology → Bool}
    (hs : hostStep s (.fit order requests limits pciFits) = some s') : HostInv s' := by
  rw [hostStep] at hs
  cases hfit : numaFitInstanceToHost order s.host (requests.map CellRequest.cell) limits pciFits with
  | none =>
    rw [hfit] at hs
    exact Option.some.inj hs ▸ h
  | some t =>
    rw [hfit] at hs
    obtain rfl := Option.some.inj hs
    refine { h with fitted := fun e he => ?_ }
    rcases List.mem_append.mp he with he | he
    · exact h.fitted e he
    · obtain rfl := List.mem_singleton.mp he
      have hf : Fitted s.host t := fit_spec h.topology.nodup h.topology.partitioned (fun c hc => by
        obtain ⟨r, -, rfl⟩ := List.mem_map.mp hc
        exact ⟨List.nodup_nil, nofun⟩) hfit
      exact ⟨hf.placed, hf⟩

/-- **A claim.** -/
theorem HostInv.claim (h : HostInv s) {i : ℕ} (hsound : Sound s (.claim i))
    (hs : hostStep s (.claim i) = some s') : HostInv s' := by
  rw [hostStep] at hs
  obtain ⟨e, he, hs⟩ := Option.map_eq_some_iff.mp hs
  obtain ⟨hfree, hcount⟩ := hsound e he
  obtain ⟨hplaced, hfitted⟩ := h.fitted e (List.mem_of_getElem? he)
  have hstill : StillFree s.host e.2 := 
    hfree.elim (fun heq => (heq ▸ hfitted).stillFree h.topology hcount) id
  have hallowed : ∀ x ∈ s.host, Allowed false x (footprint x e.2) := fun x hx =>
    ⟨hplaced.footprint_subset h.topology hx, Finset.disjoint_right.mpr fun y hy hyp =>
      (Finset.mem_sdiff.mp (hstill x hx hy)).2 hyp⟩
  obtain ⟨host', husage, hall⟩ := usage_spec hplaced.nodup hallowed
  rw [husage] at hs
  obtain rfl := hs
  refine ⟨h.topology.claimed hall, fun e' he' => ?_, fun t ht => ?_, fun b hb x => ?_, ?_, h.raised⟩
  · have hmem := List.mem_of_mem_eraseIdx he'
    exact ⟨(h.fitted e' hmem).1.claimed hall, (h.fitted e' hmem).2⟩
  · rcases List.mem_cons.mp ht with rfl | ht
    · exact ⟨hplaced.claimed hall, hcount.claimed hall⟩
    · exact ⟨(h.live t ht).1.claimed hall, (h.live t ht).2.claimed hall⟩
  · obtain ⟨a, ha, hab⟩ := (exists_claimed hall).2 b hb
    rw [hab.pinned, pinnedAfter, if_neg Bool.false_ne_true, Finset.mem_union, h.pinned a ha]
    simp only [hab.same.footprint, List.exists_mem_cons_iff]
    exact or_comm
  · refine List.pairwise_cons.mpr ⟨fun t ht b hb => ?_, disjoint_claimed hall h.disjoint⟩
    obtain ⟨a, ha, hab⟩ := (exists_claimed hall).2 b hb
    rw [hab.same.footprint, hab.same.footprint]
    refine Finset.disjoint_left.mpr fun x hx hxt => ?_
    exact (Finset.mem_sdiff.mp (hstill a ha hx)).2 ((h.pinned a ha x).mpr ⟨t, ht, hxt⟩)

/-- **Freeing a live instance.** -/
theorem HostInv.free (h : HostInv s) {i : ℕ} (hs : hostStep s (.free i) = some s') : HostInv s' := by
  rw [hostStep] at hs
  obtain ⟨t, ht, hs⟩ := Option.map_eq_some_iff.mp hs
  have hmem := List.mem_of_getElem? ht
  obtain ⟨hplaced, hcount⟩ := h.live t hmem
  have hallowed : ∀ x ∈ s.host, Allowed true x (footprint x t) := fun x hx =>
    ⟨hplaced.footprint_subset h.topology hx, fun y hy => (h.pinned x hx y).mpr ⟨t, hmem, hy⟩⟩
  obtain ⟨host', husage, hall⟩ := usage_spec hplaced.nodup hallowed
  rw [husage] at hs
  obtain rfl := hs
  obtain ⟨hi, rfl⟩ := List.getElem?_eq_some_iff.mp ht
  have hperm := List.getElem_cons_eraseIdx_perm hi
  have hdis : ((s.live[i] :: s.live.eraseIdx i)).Pairwise
      fun a b => ∀ h ∈ s.host, Disjoint (footprint h a) (footprint h b) :=
    hperm.symm.pairwise h.disjoint fun hab x hx => (hab x hx).symm
  obtain ⟨hfreed, hrest⟩ := List.pairwise_cons.mp hdis
  refine ⟨h.topology.claimed hall, fun e he => ⟨(h.fitted e he).1.claimed hall, (h.fitted e he).2⟩, fun t ht => ?_,
    fun b hb x => ?_, disjoint_claimed hall hrest, h.raised⟩
  · have ht' := h.live t (List.mem_of_mem_eraseIdx ht)
    exact ⟨ht'.1.claimed hall, ht'.2.claimed hall⟩
  · obtain ⟨a, ha, hab⟩ := (exists_claimed hall).2 b hb
    rw [hab.pinned, pinnedAfter, if_pos rfl, Finset.mem_sdiff, h.pinned a ha]
    simp only [hab.same.footprint]
    constructor
    · rintro ⟨⟨t, ht, hx⟩, hno⟩
      rcases List.mem_cons.mp (hperm.symm.subset ht) with rfl | ht
      · exact absurd hx hno
      · exact ⟨t, ht, hx⟩
    · rintro ⟨t, ht, hx⟩
      exact ⟨⟨t, List.mem_of_mem_eraseIdx ht, hx⟩, fun hno => Finset.disjoint_left.mp (hfreed t ht a ha) hno hx⟩

/-! ## 5. Dedicated CPUs -/

/-- The pinned CPUs of a placed instance, cell by cell. -/
theorem Placed.mem_footprint_iff (ht : HostTopology host)
    (hp : Placed host t) (hc : Countable host t) (hh : h ∈ host) {x : ℕ} :
    x ∈ footprint h t ↔ x ∈ h.cpuset ∧ (PinnedCpu t x ∨ IsolatedCpu host t x) := by
  constructor
  · intro hx
    refine ⟨hp.footprint_subset ht hh hx, ?_⟩
    obtain ⟨hreq, c, hct, hid, hx⟩ := (mem_footprint hp.nodup).mp hx
    rw [cellPins] at hx
    split at hx
    case isTrue hiso =>
      obtain ⟨sib, hsib, hy, hxs⟩ := mem_withSiblings.mp hx
      exact Or.inr ⟨hreq, c, hct, hiso, h, hh, sib, hsib, hy, hxs⟩
    case isFalse => exact Or.inl ⟨hreq, c, hct, hx⟩
  · rintro ⟨hxh, ⟨hreq, c, hct, hx⟩ | ⟨hreq, c, hct, hiso, h', hh', sib, hsib, ⟨y, hy, hys⟩, hxs⟩⟩
    · obtain ⟨a, ha, hid, hsub⟩ := hp.cell c hct
      have hsub := hsub (requested_of_mem hreq hct)
      obtain rfl := ht.eq_of_mem ha hh (hsub hx) hxh
      refine (mem_footprint hp.nodup).mpr ⟨hreq, c, hct, hid, ?_⟩
      rw [cellPins]
      split
      case isTrue hiso =>
        -- the sibling sets of a partitioned cell hold all its CPUs
        obtain ⟨sib, hsib, hxs⟩ := ((ht.partitioned a ha).union (hc.isolate hreq c hct hiso a ha hid) x).mp hxh
        exact mem_withSiblings.mpr ⟨sib, hsib, ⟨x, hx, hxs⟩, hxs⟩
      case isFalse => exact hx
    · have hne := List.ne_nil_of_mem hsib
      have hxh' := ((ht.partitioned h' hh').union hne x).mpr ⟨sib, hsib, hxs⟩
      have hyh' := ((ht.partitioned h' hh').union hne y).mpr ⟨sib, hsib, hys⟩
      obtain rfl := ht.eq_of_mem hh' hh hxh' hxh
      obtain ⟨a, ha, hid, hsub⟩ := hp.cell c hct
      obtain rfl := ht.eq_of_mem ha hh (hsub (requested_of_mem hreq hct) hy) hyh'
      refine (mem_footprint hp.nodup).mpr ⟨hreq, c, hct, hid, ?_⟩
      rw [cellPins, if_pos hiso]
      exact mem_withSiblings.mpr ⟨sib, hsib, ⟨y, hy, hys⟩, hxs⟩

/-- A CPU that an instance is pinned to, or that is a sibling of one, is in a host cell. -/
theorem Placed.exists_cell (ht : HostTopology host)
    (hp : Placed host t) (hc : Countable host t) {x : ℕ} (hx : PinnedCpu t x ∨ IsolatedCpu host t x) :
    ∃ h ∈ host, x ∈ footprint h t := by
  rcases hx with ⟨hreq, c, hct, hx⟩ | ⟨hreq, c, hct, hiso, h, hh, sib, hsib, hy, hxs⟩
  · obtain ⟨a, ha, hid, hsub⟩ := hp.cell c hct
    exact ⟨a, ha, (hp.mem_footprint_iff ht hc ha).mpr
      ⟨hsub (requested_of_mem hreq hct) hx, Or.inl ⟨hreq, c, hct, hx⟩⟩⟩
  · exact ⟨h, hh, (hp.mem_footprint_iff ht hc hh).mpr
      ⟨((ht.partitioned h hh).union (List.ne_nil_of_mem hsib) x).mpr ⟨sib, hsib, hxs⟩,
        Or.inr ⟨hreq, c, hct, hiso, h, hh, sib, hsib, hy, hxs⟩⟩⟩

theorem HostInv.exclusive {s : HostState} (h : HostInv s) : Exclusive s := by
  have hmem : ∀ t ∈ s.live, ∀ x ∈ s.host, ∀ y, y ∈ footprint x t ↔
      y ∈ x.cpuset ∧ (PinnedCpu t y ∨ IsolatedCpu s.host t y) := fun t ht x hx y =>
    (h.live t ht).1.mem_footprint_iff h.topology (h.live t ht).2 hx
  have hpair : s.live.Pairwise fun a b => ∀ x, PinnedCpu a x ∨ IsolatedCpu s.host a x →
      ¬ (PinnedCpu b x ∨ IsolatedCpu s.host b x) := by
    refine h.disjoint.imp_of_mem fun {a b} ha hb hab x hxa hxb => ?_
    obtain ⟨c, hc, hx⟩ := (h.live a ha).1.exists_cell h.topology (h.live a ha).2 hxa
    exact Finset.disjoint_left.mp (hab c hc) hx
      ((hmem b hb c hc x).mpr ⟨((hmem a ha c hc x).mp hx).1, hxb⟩)
  refine ⟨hpair.imp fun hab x hxa hxb => hab x (Or.inl hxa) (Or.inl hxb),
    hpair.imp fun hab x => ⟨fun hxa hxb => hab x (Or.inr hxa) (Or.inl hxb), fun hxb hxa => hab x (Or.inl hxa) (Or.inr hxb)⟩,
    fun c hc x => ?_, h.raised⟩
  rw [h.pinned c hc]
  constructor
  · rintro ⟨t, ht, hx⟩
    obtain ⟨hxc, hx⟩ := (hmem t ht c hc x).mp hx
    exact ⟨hxc, t, ht, hx⟩
  · rintro ⟨hxc, t, ht, hx⟩
    exact ⟨t, ht, (hmem t ht c hc x).mpr ⟨hxc, hx⟩⟩

/-- **Dedicated CPUs are exclusive** in every run whose claims are sound. -/
theorem dedicated_cpus_exclusive {host : List NumaCell} (hhost : HostTopology host)
    (hfresh : ∀ h ∈ host, h.pinnedCpus = ∅) {s : HostState} (hrun : Reach hostStep Sound (.fresh host) s) :
    Exclusive s := by
  have hinit : HostInv (.fresh host) :=
    ⟨hhost, nofun, nofun, fun h hh x => by rw [hfresh h hh]; simp [HostState.fresh], List.Pairwise.nil, rfl⟩
  refine (hrun.invariant hinit fun s a s' h hsound hs => ?_).exclusive
  cases a with
  | fit order requests limits pciFits => exact h.fit hs
  | claim i => exact h.claim hsound hs
  | free i => exact h.free hs

/-! ## 6. Two isolate instances -/

/-- A fit and its claim. -/
theorem reach_fit_claim {P : HostState → HostAction → Prop} {host host' : List NumaCell} {live : List InstanceTopology}
    (requests : List CellRequest)
    (hfit : numaFitInstanceToHost sortedOrder host (requests.map CellRequest.cell) none (fun _ => true) = some t)
    (husage : numaUsageFromInstances host [t] false = .ok host')
    (hp : P ⟨host, [], live, []⟩ (.fit sortedOrder requests none fun _ => true))
    (hp' : P ⟨host, [(host, t)], live, []⟩ (.claim 0)) :
    Reach hostStep P ⟨host, [], live, []⟩ ⟨host', [], t :: live, []⟩ := by
  have h1 : hostStep ⟨host, [], live, []⟩ (.fit sortedOrder requests none fun _ => true) =
      some ⟨host, [(host, t)], live, []⟩ := by
    rw [hostStep, hfit]
    rfl
  have h2 : hostStep ⟨host, [(host, t)], live, []⟩ (.claim 0) = some ⟨host', [], t :: live, []⟩ := by
    rw [hostStep, List.getElem?_cons_zero, Option.map_some, husage]
    rfl
  exact (Reach.refl.tail hp h1).tail hp' h2

/-- An instance with one `isolate` vCPU. -/
def isolateRequest : CellRequest := ⟨{0}, 1, none, some .dedicated, some .isolate⟩

/-- This instance on CPU 0 of cell 0. -/
def isolateOnCpu : InstanceTopology :=
  [⟨0, {0}, 1, none, some ⟨1, 1, 1⟩, [(0, 0)], some .dedicated, some .isolate⟩]

/-- A host of one cell, with its sibling sets, after some memory and CPU usage. -/
def oneCell (cpuset pinned : CpuSet) (siblings : List CpuSet) (usage : ℤ) : List NumaCell :=
  [⟨0, cpuset, 4096, usage, usage, pinned, siblings, []⟩]

theorem hostTopology_oneCell {cpuset pinned : CpuSet} {siblings : List CpuSet} {usage : ℤ}
    (h : (⟨0, cpuset, 4096, usage, usage, pinned, siblings, []⟩ : NumaCell).Partitioned) :
    HostTopology (oneCell cpuset pinned siblings usage) := by
  refine ⟨?_, List.pairwise_singleton _ _, fun x hx => ?_⟩
  · exact List.nodup_singleton (0 : ℤ)
  · obtain rfl := List.mem_singleton.mp hx
    exact h

/-- **An `isolate` instance is alone on its core** of a host with two threads a core. -/
theorem dedicated_cpus_exclusive_isolate :
    ∃ s, Reach hostStep Sound (.fresh (oneCell {0, 1} ∅ [{0, 1}] 0)) s ∧ s.live = [isolateOnCpu] ∧ Exclusive s := by
  have hfit : numaFitInstanceToHost sortedOrder (oneCell {0, 1} ∅ [{0, 1}] 0) [isolateRequest.cell] none (fun _ => true) =
      some isolateOnCpu := by decide +kernel
  have husage : numaUsageFromInstances (oneCell {0, 1} ∅ [{0, 1}] 0) [isolateOnCpu] false =
      .ok [⟨0, {0, 1}, 4096, 2, 1, {0, 1}, [{0, 1}], []⟩] := by decide +kernel
  have hrun : Reach hostStep Sound (.fresh (oneCell {0, 1} ∅ [{0, 1}] 0))
      ⟨[⟨0, {0, 1}, 4096, 2, 1, {0, 1}, [{0, 1}], []⟩], [], [isolateOnCpu], []⟩ := by
    refine reach_fit_claim [isolateRequest] hfit husage trivial fun e he => ?_
    obtain rfl := Option.some.inj he
    exact ⟨Or.inl rfl, Or.inl rfl, fun _ c _ _ h hh _ => by
      obtain rfl := List.mem_singleton.mp hh
      nofun⟩
  refine ⟨_, hrun, rfl, dedicated_cpus_exclusive (hostTopology_oneCell ⟨List.pairwise_singleton _ _, fun _ x => ?_⟩)
    (fun h hh => ?_) hrun⟩
  · simp
  · obtain rfl := List.mem_singleton.mp hh
    rfl

/-- The runs that are promised: what is claimed was fitted to the host as it is, with the same policy for all cells. -/
def Promised (s : HostState) : HostAction → Prop
  | .claim i => ∀ e, s.fitted[i]? = some e → e.1 = s.host ∧ cpuPinningRequested e.2 = true
  | _ => True

/-- **Two `isolate` instances share a CPU** on a host without sibling sets. -/
theorem isolate_shares_cpu :
    ¬ ∀ (host : List NumaCell) (s : HostState), HostTopology host → (∀ h ∈ host, h.pinnedCpus = ∅) →
      Reach hostStep Promised (.fresh host) s → Exclusive s := by
  intro hall
  have hfit : ∀ usage : ℤ, usage = 0 ∨ usage = 1 →
      numaFitInstanceToHost sortedOrder (oneCell {0} ∅ [] usage) [isolateRequest.cell] none (fun _ => true) =
        some isolateOnCpu := fun usage h => by
    rcases h with rfl | rfl
    · decide +kernel
    · decide +kernel
  have husage : ∀ usage : ℤ, usage = 0 ∨ usage = 1 →
      numaUsageFromInstances (oneCell {0} ∅ [] usage) [isolateOnCpu] false = .ok (oneCell {0} ∅ [] (usage + 1)) :=
    fun usage h => by
    rcases h with rfl | rfl
    · decide +kernel
    · decide +kernel
  have hstep : ∀ (usage : ℤ) (live : List InstanceTopology), usage = 0 ∨ usage = 1 →
      Reach hostStep Promised ⟨oneCell {0} ∅ [] usage, [], live, []⟩
        ⟨oneCell {0} ∅ [] (usage + 1), [], isolateOnCpu :: live, []⟩ := fun usage live h => by
    refine reach_fit_claim [isolateRequest] (hfit usage h) (husage usage h) trivial fun e he => ?_
    obtain rfl := Option.some.inj he
    exact ⟨rfl, rfl⟩
  have hex := hall (oneCell {0} ∅ [] 0) _ (hostTopology_oneCell ⟨List.Pairwise.nil, fun hne => absurd rfl hne⟩)
    (fun h hh => by
      obtain rfl := List.mem_singleton.mp hh
      rfl)
    ((hstep 0 [] (Or.inl rfl)).trans (hstep 1 [isolateOnCpu] (Or.inr rfl)))
  have hpinned : PinnedCpu isolateOnCpu 0 := ⟨rfl, _, List.mem_cons_self, by decide⟩
  exact (List.pairwise_cons.mp hex.shared).1 isolateOnCpu List.mem_cons_self 0 hpinned hpinned

end Mitaka.Nova
