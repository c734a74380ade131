/-
  Subject: nova/virt/hardware.py, `numa_usage_from_instances`, over lists of instances.

  A host cell is charged with the instance cells on it, one after another (`charge`); where
  no pinning conflicts, that is all that happens to it (`hostCellUsage_eq_ok`). CPUs, memory
  and pinned CPUs add up, but the pages are counted from the host cell as it was, so only
  the last cell with huge pages counts, and with no instances at all the usage is lost.
-/
import Mitaka.Lib.Fallible
import Mitaka.Nova.Numa

namespace Mitaka.Nova

/-! ## 1. One instance cell -/

/-- The cells of an instance that are on a host cell, with whether the instance asks for pinning. -/
def cellsOn (h : NumaCell) (t : InstanceTopology) : List (Bool × InstanceCell) :=
  (t.filter fun c => c.id = h.id).map fun c => (cpuPinningRequested t, c)

/-- `cpu_usage_diff`. -/
def cpuUsageDiff (h : NumaCell) (c : InstanceCell) : ℤ :=
  if c.isolate ∧ h.siblings ≠ [] then c.cpuset.card * h.threadsPerCore else c.cpuset.card

/-- A cell with huge pages. -/
abbrev Paged (c : InstanceCell) : Prop := c.pagesize.any (0 < ·) = true

/-- The CPUs that a cell takes, or gives back. -/
def cpusOf (h : NumaCell) (p : Bool × InstanceCell) : CpuSet := if p.1 then cellPins h p.2 else ∅

def signOf (free : Bool) : ℤ := if free then -1 else 1

/-- What one cell does to the new host cell and to the running usage. -/
def charge (free : Bool) (h : NumaCell) (s : NumaCell × ℤ × ℤ) (p : Bool × InstanceCell) : NumaCell × ℤ × ℤ :=
  ({ s.1 with
      mempages := if Paged p.2 then pagesizeUsageFromCell h p.2 (signOf free) else s.1.mempages
      pinnedCpus := pinnedAfter free s.1.pinnedCpus (cpusOf h p) },
    s.2.1 + signOf free * p.2.memory, s.2.2 + signOf free * cpuUsageDiff h p.2)

theorem SameCell.charge {free : Bool} {h : NumaCell} {s : NumaCell × ℤ × ℤ} (hs : SameCell h s.1) (p : Bool × InstanceCell) :
    SameCell h (charge free h s p).1 := ⟨hs.id, hs.cpuset, hs.siblings⟩

theorem pinnedAfter_empty (free : Bool) (pinned : CpuSet) : pinnedAfter free pinned ∅ = pinned := by
  cases free <;> simp [pinnedAfter]

theorem allowed_empty (free : Bool) (h : NumaCell) : Allowed free h ∅ :=
  ⟨Finset.empty_subset _, by cases free <;> simp⟩

variable {c : InstanceCell}

/-- **Pinning succeeds** only with CPUs that can be pinned, or unpinned. -/
theorem allowed_of_pinCell {free : Bool} {h h' : NumaCell} (hok : pinCell free h c = .ok h') :
    Allowed free h (cellPins h c) := by
  have hpin : ∀ {cpus : CpuSet}, h.pinCpus cpus = .ok h' → Allowed false h cpus := fun {cpus} hok => by
    rw [NumaCell.pinCpus, Fallible.error_ite_eq_ok, Fallible.error_ite_eq_ok, not_not, not_not] at hok
    exact ⟨Finset.sdiff_eq_empty_iff_subset.mp hok.1, Finset.disjoint_iff_inter_eq_empty.mpr hok.2.1⟩
  have hunpin : ∀ {cpus : CpuSet}, h.unpinCpus cpus = .ok h' → Allowed true h cpus := fun {cpus} hok => by
    rw [NumaCell.unpinCpus, Fallible.error_ite_eq_ok, Fallible.error_ite_eq_ok, not_not, not_not] at hok
    exact ⟨Finset.sdiff_eq_empty_iff_subset.mp hok.1, Finset.inter_eq_right.mp hok.2.1⟩
  unfold pinCell at hok
  unfold cellPins
  cases free <;> cases hiso : c.isolate <;> rw [hiso] at hok
  · exact hpin hok
  · exact hpin hok
  · exact hunpin hok
  · exact hunpin hok

/-- **One instance cell on its host cell.** -/
theorem cellUsage_eq_ok {free pinning : Bool} {h : NumaCell} (hid : c.id = h.id) {s s' : NumaCell × ℤ × ℤ}
    (hs : SameCell h s.1) : cellUsage h free pinning s c = .ok s' ↔
      Allowed free s.1 (cpusOf h (pinning, c)) ∧ s' = charge free h s (pinning, c) := by
  obtain ⟨newcell, memory, cpus⟩ := s
  have hsign : (if free then -1 else 1 : ℤ) = signOf free := rfl
  have hdiff : (if c.isolate ∧ h.siblings ≠ [] then (c.cpuset.card * h.threadsPerCore : ℤ) else c.cpuset.card) = cpuUsageDiff h c := rfl
  have hpages : (if c.pagesize.any (0 < ·) = true then { newcell with mempages := pagesizeUsageFromCell h c (signOf free) } else newcell) =
      { newcell with mempages := if Paged c then pagesizeUsageFromCell h c (signOf free) else newcell.mempages } := by
    split <;> rfl
  unfold cellUsage
  dsimp only
  rw [if_pos hid, hsign, hdiff, hpages]
  cases pinning with
  | false =>
    have hcharge : charge free h (newcell, memory, cpus) (false, c) =
        ({ newcell with mempages := if Paged c then pagesizeUsageFromCell h c (signOf free) else newcell.mempages },
          memory + signOf free * c.memory, cpus + signOf free * cpuUsageDiff h c) := by
      rw [charge, show cpusOf h (false, c) = ∅ from rfl, pinnedAfter_empty]
    rw [if_neg Bool.false_ne_true, hcharge, show cpusOf h (false, c) = ∅ from rfl, and_iff_right (allowed_empty _ _)]
    exact ⟨fun he => (Except.ok.inj he).symm, fun he => congrArg _ he.symm⟩
  | true =>
    have hcpus : cpusOf h (true, c) = cellPins newcell c := (hs.cellPins c).symm
    have hspec : Allowed free newcell (cellPins newcell c) →
        pinCell free { newcell with mempages := if Paged c then pagesizeUsageFromCell h c (signOf free) else newcell.mempages } c =
          .ok { newcell with
            mempages := if Paged c then pagesizeUsageFromCell h c (signOf free) else newcell.mempages
            pinnedCpus := pinnedAfter free newcell.pinnedCpus (cellPins newcell c) } := fun ha =>
      pinCell_spec ⟨rfl, rfl, rfl⟩ rfl ha
    rw [if_pos rfl, hcpus]
    constructor
    · intro hok
      cases hpin : pinCell free { newcell with mempages := if Paged c then pagesizeUsageFromCell h c (signOf free) else newcell.mempages } c with
      | error e =>
        rw [hpin] at hok
        cases hok
      | ok newcell' =>
        have ha := allowed_of_pinCell hpin
        have ha' : Allowed free newcell (cellPins newcell c) := ⟨ha.known, ha.valid⟩
        rw [hspec ha'] at hok
        refine ⟨ha', (Except.ok.inj hok).symm.trans ?_⟩
        rw [charge, hcpus]
    · rintro ⟨ha, rfl⟩
      rw [hspec ha, charge, hcpus]
      rfl

theorem cellUsage_of_ne {free pinning : Bool} {h : NumaCell} (hid : c.id ≠ h.id) (s : NumaCell × ℤ × ℤ) :
    cellUsage h free pinning s c = .ok s := by
  unfold cellUsage
  dsimp only
  rw [if_neg hid]

/-! ## 2. Lists of instances -/

/-- CPUs that can be pinned, or unpinned, one set after another. -/
def Pinnable (free : Bool) (cpuset : CpuSet) : CpuSet → List CpuSet → Prop
  | _, [] => True
  | pinned, cpus :: sets =>
    (cpus ⊆ cpuset ∧ if free then cpus ⊆ pinned else Disjoint pinned cpus) ∧ Pinnable free cpuset (pinnedAfter free pinned cpus) sets

theorem pinnable_append {free : Bool} {cpuset : CpuSet} (sets sets' : List CpuSet) (pinned : CpuSet) :
    Pinnable free cpuset pinned (sets ++ sets') ↔
      Pinnable free cpuset pinned sets ∧ Pinnable free cpuset (sets.foldl (pinnedAfter free) pinned) sets' := by
  induction sets generalizing pinned with
  | nil => exact (and_iff_right trivial).symm
  | cons cpus sets ih =>
    rw [List.cons_append, Pinnable, Pinnable, ih, List.foldl_cons]
    exact and_assoc.symm

section Fold

variable {free : Bool} {h : NumaCell}

theorem pinnedCpus_charge (l : List (Bool × InstanceCell)) (s : NumaCell × ℤ × ℤ) :
    (l.foldl (charge free h) s).1.pinnedCpus = (l.map (cpusOf h)).foldl (pinnedAfter free) s.1.pinnedCpus := by
  induction l generalizing s with
  | nil => rfl
  | cons p l ih => exact ih _

theorem SameCell.foldl_charge {s : NumaCell × ℤ × ℤ} (hs : SameCell h s.1) (l : List (Bool × InstanceCell)) :
    SameCell h (l.foldl (Nova.charge free h) s).1 := by
  induction l generalizing s with
  | nil => exact hs
  | cons p l ih => exact ih (hs.charge p)

/-- **The cells of one instance**, those that are on the host cell. -/
theorem foldlM_cellUsage_eq_ok (pinning : Bool) (l : List InstanceCell) {s s' : NumaCell × ℤ × ℤ} (hs : SameCell h s.1) :
    l.foldlM (cellUsage h free pinning) s = .ok s' ↔
      Pinnable free h.cpuset s.1.pinnedCpus (((l.filter fun c => c.id = h.id).map fun c => (pinning, c)).map (cpusOf h)) ∧
        s' = ((l.filter fun c => c.id = h.id).map fun c => (pinning, c)).foldl (charge free h) s := by
  induction l generalizing s with
  | nil => exact ⟨fun he => ⟨trivial, (Except.ok.inj he).symm⟩, fun he => congrArg _ he.2.symm⟩
  | cons c l ih =>
    rw [List.foldlM_cons]
    by_cases hid : c.id = h.id
    · have hfilter : (c :: l).filter (fun c => c.id = h.id) = c :: l.filter fun c => c.id = h.id :=
        List.filter_cons_of_pos (decide_eq_true hid)
      rw [hfilter, List.map_cons, List.map_cons, List.foldl_cons, Pinnable]
      simp only [Fallible.bind_eq_ok, cellUsage_eq_ok hid hs]
      constructor
      · rintro ⟨_, ⟨ha, rfl⟩, hl⟩
        obtain ⟨hpins, he⟩ := (ih (hs.charge _)).mp hl
        exact ⟨⟨⟨hs.cpuset ▸ ha.known, ha.valid⟩, hpins⟩, he⟩
      · rintro ⟨⟨⟨hknown, hvalid⟩, hpins⟩, he⟩
        exact ⟨_, ⟨⟨hs.cpuset.symm ▸ hknown, hvalid⟩, rfl⟩, (ih (hs.charge _)).mpr ⟨hpins, he⟩⟩
    · rw [List.filter_cons_of_neg (by simpa using hid), cellUsage_of_ne hid]
      exact ih hs

/-- What an instance leaves: the usage as far as it is known. -/
def settle (s : NumaCell × ℤ × ℤ) : NumaCell × ℤ × ℤ :=
  ({ s.1 with cpuUsage := max 0 s.2.2, memoryUsage := max 0 s.2.1 }, s.2)

theorem settle_foldl_charge (l : List (Bool × InstanceCell)) (s : NumaCell × ℤ × ℤ) :
    settle (l.foldl (charge free h) (settle s)) = settle (l.foldl (charge free h) s) := by
  have hkeep : ∀ s s' : NumaCell × ℤ × ℤ, settle s = settle s' → settle (l.foldl (charge free h) s) = settle (l.foldl (charge free h) s') := by
    induction l with
    | nil => exact fun _ _ => id
    | cons p l ih =>
      intro s s' he
      refine ih _ _ ?_
      obtain ⟨⟨id, cpuset, memory, cpuUsage, memoryUsage, pinned, siblings, mempages⟩, m, u⟩ := s
      obtain ⟨⟨id', cpuset', memory', cpuUsage', memoryUsage', pinned', siblings', mempages'⟩, m', u'⟩ := s'
      simp only [settle, charge, Prod.mk.injEq, NumaCell.mk.injEq] at he ⊢
      obtain ⟨⟨rfl, rfl, rfl, -, -, rfl, rfl, rfl⟩, rfl, rfl⟩ := he
      simp
  exact hkeep _ _ rfl

/-- **A list of instances** charges the host cell with their cells on it. -/
theorem foldlM_instanceUsage_eq_ok (xs : List InstanceTopology) {s s' : NumaCell × ℤ × ℤ} (hs : SameCell h s.1) :
    xs.foldlM (instanceUsage h free) s = .ok s' ↔
      Pinnable free h.cpuset s.1.pinnedCpus ((xs.flatMap (cellsOn h)).map (cpusOf h)) ∧
        s' = if xs = [] then s else settle ((xs.flatMap (cellsOn h)).foldl (charge free h) s) := by
  induction xs generalizing s with
  | nil => exact ⟨fun he => ⟨trivial, (Except.ok.inj he).symm⟩, fun he => congrArg _ he.2.symm⟩
  | cons t xs ih =>
    have hone : ∀ s₁, instanceUsage h free s t = .ok s₁ ↔
        Pinnable free h.cpuset s.1.pinnedCpus ((cellsOn h t).map (cpusOf h)) ∧ s₁ = settle ((cellsOn h t).foldl (charge free h) s) := by
      intro s₁
      rw [instanceUsage]
      cases hfold : t.foldlM (cellUsage h free (cpuPinningRequested t)) s with
      | error e =>
        refine ⟨fun he => (by cases he), fun hp => ?_⟩
        rw [(foldlM_cellUsage_eq_ok _ t hs).mpr ⟨hp.1, rfl⟩] at hfold
        cases hfold
      | ok s₂ =>
        obtain ⟨hpins, rfl⟩ := (foldlM_cellUsage_eq_ok _ t hs).mp hfold
        exact ⟨fun he => ⟨hpins, (Except.ok.inj he).symm⟩, fun he => congrArg _ he.2.symm⟩
    have hsettled : ∀ {s : NumaCell × ℤ × ℤ}, SameCell h s.1 → SameCell h (settle s).1 := fun hs => ⟨hs.id, hs.cpuset, hs.siblings⟩
    have hpinned : ∀ s : NumaCell × ℤ × ℤ, (settle s).1.pinnedCpus = s.1.pinnedCpus := fun _ => rfl
    rw [List.foldlM_cons, List.flatMap_cons, List.map_append, pinnable_append, ← pinnedCpus_charge, List.foldl_append,
      if_neg (List.cons_ne_nil _ _)]
    simp only [Fallible.bind_eq_ok, hone]
    have hlast : (if xs = [] then settle ((cellsOn h t).foldl (charge free h) s)
        else settle ((xs.flatMap (cellsOn h)).foldl (charge free h) (settle ((cellsOn h t).foldl (charge free h) s)))) =
        settle ((xs.flatMap (cellsOn h)).foldl (charge free h) ((cellsOn h t).foldl (charge free h) s)) := by
      by_cases hxs : xs = []
      · rw [if_pos hxs, hxs]
        rfl
      · rw [if_neg hxs, settle_foldl_charge]
    rw [← hlast]
    constructor
    · rintro ⟨_, ⟨hpins, rfl⟩, hrest⟩
      obtain ⟨hpins', he⟩ := (ih (hsettled (hs.foldl_charge _))).mp hrest
      exact ⟨⟨hpins, hpins'⟩, he⟩
    · rintro ⟨⟨hpins, hpins'⟩, he⟩
      exact ⟨_, ⟨hpins, rfl⟩, (ih (hsettled (hs.foldl_charge _))).mpr ⟨hpins', he⟩⟩

end Fold

/-! ## 3. What a host cell comes to -/

section Charged

variable {free : Bool} {h : NumaCell} {xs : List InstanceTopology}

/-- The cells of some instances on a host cell. -/
def allOn (h : NumaCell) (xs : List InstanceTopology) : List (Bool × InstanceCell) := xs.flatMap (cellsOn h)

/-- The CPUs that they count for. -/
def cpusUsed (h : NumaCell) (xs : List InstanceTopology) : ℤ := ((allOn h xs).map fun p => cpuUsageDiff h p.2).sum

/-- The memory of theirs. -/
def memoryUsed (h : NumaCell) (xs : List InstanceTopology) : ℤ := ((allOn h xs).map fun p => p.2.memory).sum

/-- The last of them with huge pages. -/
def lastPaged (h : NumaCell) (xs : List InstanceTopology) : Option InstanceCell :=
  (((allOn h xs).map Prod.snd).filter fun c => Paged c).getLast?

/-- The sets of CPUs that they take, or give back. -/
def taken (h : NumaCell) (xs : List InstanceTopology) : List CpuSet := (allOn h xs).map (cpusOf h)

/-- The host cell with some instances charged. -/
def charged (free : Bool) (h : NumaCell) (xs : List InstanceTopology) : NumaCell :=
  { h with
    cpuUsage := if xs = [] then 0 else max 0 (h.cpuUsage + signOf free * cpusUsed h xs)
    memoryUsage := if xs = [] then 0 else max 0 (h.memoryUsage + signOf free * memoryUsed h xs)
    mempages := ((lastPaged h xs).map fun c => pagesizeUsageFromCell h c (signOf free)).getD h.mempages
    pinnedCpus := (taken h xs).foldl (pinnedAfter free) h.pinnedCpus }

theorem foldl_charge (l : List (Bool × InstanceCell)) (s : NumaCell × ℤ × ℤ) :
    l.foldl (charge free h) s =
      ({ s.1 with
          mempages := (((l.map Prod.snd).filter fun c => Paged c).getLast?.map fun c => pagesizeUsageFromCell h c (signOf free)).getD
            s.1.mempages
          pinnedCpus := (l.map (cpusOf h)).foldl (pinnedAfter free) s.1.pinnedCpus },
        s.2.1 + signOf free * (l.map fun p => p.2.memory).sum, s.2.2 + signOf free * (l.map fun p => cpuUsageDiff h p.2).sum) := by
  induction l using List.reverseRecOn with
  | nil => simp
  | append_singleton l p ih =>
    rw [List.foldl_append, ih, List.foldl_cons, List.foldl_nil, charge]
    simp only [List.map_append, List.map_cons, List.map_nil, List.filter_append, List.getLast?_append, List.foldl_append,
      List.foldl_cons, List.foldl_nil, List.sum_append, List.sum_cons, List.sum_nil, add_zero]
    by_cases hp : Paged p.2
    · rw [if_pos hp, List.filter_cons_of_pos (by simpa using hp)]
      simp [mul_add, add_assoc]
    · rw [if_neg hp, List.filter_cons_of_neg (by simpa using hp)]
      simp [mul_add, add_assoc]

/-- **The usage of one host cell**: where the pinning does not conflict, it is charged. -/
theorem hostCellUsage_eq_ok {h' : NumaCell} :
    hostCellUsage xs free h = .ok h' ↔ Pinnable free h.cpuset h.pinnedCpus (taken h xs) ∧ h' = charged free h xs := by
  have hresult : (if xs = [] then ({ h with cpuUsage := 0, memoryUsage := 0 }, h.memoryUsage, h.cpuUsage)
      else settle ((xs.flatMap (cellsOn h)).foldl (charge free h)
        ({ h with cpuUsage := 0, memoryUsage := 0 }, h.memoryUsage, h.cpuUsage))).1 = charged free h xs := by
    by_cases hxs : xs = []
    · rw [if_pos hxs, hxs]
      rfl
    · rw [if_neg hxs, foldl_charge, charged, if_neg hxs, if_neg hxs]
      rfl
  have hlist : ∀ s', xs.foldlM (instanceUsage h free) ({ h with cpuUsage := 0, memoryUsage := 0 }, h.memoryUsage, h.cpuUsage) = .ok s' ↔
      _ := fun _ => foldlM_instanceUsage_eq_ok xs (h := h) ⟨rfl, rfl, rfl⟩
  rw [hostCellUsage]
  cases hfold : xs.foldlM (instanceUsage h free) ({ h with cpuUsage := 0, memoryUsage := 0 }, h.memoryUsage, h.cpuUsage) with
  | error e =>
    refine ⟨fun he => (by cases he), fun hp => ?_⟩
    rw [(hlist _).mpr ⟨hp.1, rfl⟩] at hfold
    cases hfold
  | ok s =>
    obtain ⟨hpins, rfl⟩ := (hlist s).mp hfold
    rw [← hresult]
    exact ⟨fun he => ⟨hpins, (Except.ok.inj he).symm⟩, fun he => congrArg _ he.2.symm⟩

end Charged

/-! ## 4. Pins -/

section Pins

variable {cpuset pinned : CpuSet} {sets : List CpuSet} {x : ℕ}

theorem mem_foldl_pinned : x ∈ sets.foldl (pinnedAfter false) pinned ↔ x ∈ pinned ∨ ∃ s ∈ sets, x ∈ s := by
  induction sets generalizing pinned with
  | nil => simp
  | cons s sets ih =>
    rw [List.foldl_cons, ih, List.exists_mem_cons_iff, ← or_assoc]
    exact or_congr_left Finset.mem_union

theorem mem_foldl_unpinned : x ∈ sets.foldl (pinnedAfter true) pinned ↔ x ∈ pinned ∧ ∀ s ∈ sets, x ∉ s := by
  induction sets generalizing pinned with
  | nil => simp
  | cons s sets ih =>
    rw [List.foldl_cons, ih, List.forall_mem_cons, ← and_assoc]
    exact and_congr_left fun _ => Finset.mem_sdiff

/-- **Pinning sets of CPUs** goes through in every order or in none. -/
theorem pinnable_iff : Pinnable false cpuset pinned sets ↔
    (∀ s ∈ sets, s ⊆ cpuset ∧ Disjoint pinned s) ∧ sets.Pairwise Disjoint := by
  induction sets generalizing pinned with
  | nil => exact ⟨fun _ => ⟨nofun, .nil⟩, fun _ => trivial⟩
  | cons s sets ih =>
    have hdisj : ∀ t : CpuSet, Disjoint (pinnedAfter false pinned s) t ↔ Disjoint pinned t ∧ Disjoint s t := fun t =>
      Finset.disjoint_union_left
    rw [Pinnable, ih, List.forall_mem_cons, List.pairwise_cons]
    simp only [hdisj, Bool.false_eq_true, if_false]
    constructor
    · rintro ⟨⟨hknown, hfree⟩, hall, hpair⟩
      exact ⟨⟨⟨hknown, hfree⟩, fun t ht => ⟨(hall t ht).1, (hall t ht).2.1⟩⟩, fun t ht => (hall t ht).2.2, hpair⟩
    · rintro ⟨⟨⟨hknown, hfree⟩, hall⟩, hs, hpair⟩
      exact ⟨⟨hknown, hfree⟩, fun t ht => ⟨(hall t ht).1, (hall t ht).2, hs t ht⟩, hpair⟩

/-- **What has been pinned** can be unpinned. -/
theorem unpinnable (hsets : ∀ s ∈ sets, s ⊆ cpuset ∧ s ⊆ pinned) (hpair : sets.Pairwise Disjoint) : Pinnable true cpuset pinned sets := by
  induction sets generalizing pinned with
  | nil => trivial
  | cons s sets ih =>
    obtain ⟨hs, hpair⟩ := List.pairwise_cons.mp hpair
    obtain ⟨hfirst, hrest⟩ := List.forall_mem_cons.mp hsets
    refine ⟨hfirst, ih (fun t ht => ⟨(hrest t ht).1, fun x hx => ?_⟩) hpair⟩
    exact Finset.mem_sdiff.mpr ⟨(hrest t ht).2 hx, fun hxs => Finset.disjoint_left.mp (hs t ht) hxs hx⟩

/-- **Unpinning** brings back what was pinned before. -/
theorem unpinned_pinned (h : Pinnable false cpuset pinned sets) :
    Pinnable true cpuset (sets.foldl (pinnedAfter false) pinned) sets ∧
      sets.foldl (pinnedAfter true) (sets.foldl (pinnedAfter false) pinned) = pinned := by
  obtain ⟨hall, hpair⟩ := pinnable_iff.mp h
  refine ⟨unpinnable (fun s hs => ⟨(hall s hs).1, fun x hx => mem_foldl_pinned.mpr (Or.inr ⟨s, hs, hx⟩)⟩) hpair, Finset.ext fun x => ?_⟩
  rw [mem_foldl_unpinned, mem_foldl_pinned]
  constructor
  · rintro ⟨hx | ⟨s, hs, hx⟩, hnone⟩
    · exact hx
    · exact absurd hx (hnone s hs)
  · exact fun hx => ⟨Or.inl hx, fun s hs hxs => Finset.disjoint_left.mp (hall s hs).2 hx hxs⟩

end Pins

/-! ## 5. Pages -/

/-- The pages of a size that a cell takes. -/
def load (c : InstanceCell) (p : PagesTopology) : ℤ := if some p.sizeKb = c.pagesize then c.memory * 1024 / p.sizeKb else 0

/-- Pages with a cell on them. -/
def PagesTopology.loaded (c : InstanceCell) (p : PagesTopology) : PagesTopology := { p with used := p.used + load c p }

section Pages

variable {h : NumaCell} {c : InstanceCell}

theorem load_nonneg (hmemory : 0 ≤ c.memory) (hpaged : Paged c) (p : PagesTopology) : 0 ≤ load c p := by
  rw [load]
  split
  case isTrue hsize =>
    have hpos : 0 < p.sizeKb := by
      rw [Paged, ← hsize] at hpaged
      simpa using hpaged
    exact Int.ediv_nonneg (by omega) hpos.le
  case isFalse => exact le_rfl

theorem pagesizeUsageFromCell_eq (hused : ∀ p ∈ h.mempages, 0 ≤ p.used) (hmemory : 0 ≤ c.memory) (hpaged : Paged c) :
    pagesizeUsageFromCell h c 1 = h.mempages.map (PagesTopology.loaded c) := by
  refine List.map_congr_left fun p hp => ?_
  have hload := load_nonneg hmemory hpaged p
  have hp := hused p hp
  rw [PagesTopology.loaded]
  rw [load] at hload ⊢
  split
  case isTrue hsize =>
    rw [if_pos hsize] at hload
    rw [mul_one, max_eq_right (by omega)]
  case isFalse hsize => rw [add_zero]

/-- **Freeing a cell** takes its pages back. -/
theorem pagesizeUsageFromCell_back (hused : ∀ p ∈ h.mempages, 0 ≤ p.used) {h' : NumaCell}
    (hpages : h'.mempages = h.mempages.map (PagesTopology.loaded c)) : pagesizeUsageFromCell h' c (-1) = h.mempages := by
  rw [pagesizeUsageFromCell, hpages, List.map_map]
  refine (List.map_congr_left fun p hp => ?_).trans (List.map_id _)
  have hp := hused p hp
  by_cases hsize : some p.sizeKb = c.pagesize
  · have hback : p.used + c.memory * 1024 / p.sizeKb + c.memory * 1024 / p.sizeKb * -1 = p.used := by ring
    simp only [Function.comp_apply, PagesTopology.loaded, load, hsize, if_true, hback, max_eq_right hp]
    rfl
  · simp only [Function.comp_apply, PagesTopology.loaded, load, hsize, if_false, add_zero]
    rfl

/-- **Two cells** leave the same pages exactly when they take the same of each size. -/
theorem map_loaded_inj {d : InstanceCell} {pages : List PagesTopology} :
    pages.map (PagesTopology.loaded c) = pages.map (PagesTopology.loaded d) ↔ ∀ p ∈ pages, load c p = load d p := by
  rw [List.map_inj_left]
  refine forall₂_congr fun p _ => ?_
  simp [PagesTopology.loaded]

end Pages

/-! ## 6. The laws on one host cell -/

section Laws

variable {free : Bool} {h h' : NumaCell} {xs ys : List InstanceTopology}

/-- A host cell whose counters are no less than nothing. -/
structure Counted (h : NumaCell) : Prop where
  cpuUsage : 0 ≤ h.cpuUsage
  memoryUsage : 0 ≤ h.memoryUsage
  used : ∀ p ∈ h.mempages, 0 ≤ p.used

/-- Instances whose memory is no less than nothing. -/
def Sized (xs : List InstanceTopology) : Prop := ∀ t ∈ xs, ∀ c ∈ t, 0 ≤ c.memory

theorem mem_allOn {p : Bool × InstanceCell} (hp : p ∈ allOn h xs) : ∃ t ∈ xs, p.2 ∈ t := by
  obtain ⟨t, ht, hp⟩ := List.mem_flatMap.mp hp
  obtain ⟨c, hc, rfl⟩ := List.mem_map.mp hp
  exact ⟨t, ht, List.mem_of_mem_filter hc⟩

theorem cpusUsed_nonneg : 0 ≤ cpusUsed h xs := by
  refine List.sum_nonneg fun n hn => ?_
  obtain ⟨p, -, rfl⟩ := List.mem_map.mp hn
  rw [cpuUsageDiff]
  split
  · exact mul_nonneg (Int.natCast_nonneg _) (Int.natCast_nonneg _)
  · exact Int.natCast_nonneg _

theorem memoryUsed_nonneg (hxs : Sized xs) : 0 ≤ memoryUsed h xs := by
  refine List.sum_nonneg fun n hn => ?_
  obtain ⟨p, hp, rfl⟩ := List.mem_map.mp hn
  obtain ⟨t, ht, hc⟩ := mem_allOn hp
  exact hxs t ht p.2 hc

theorem lastPaged_spec {c : InstanceCell} (hc : lastPaged h xs = some c) : Paged c ∧ ∃ t ∈ xs, c ∈ t := by
  obtain ⟨hmem, hpaged⟩ := List.mem_filter.mp (List.mem_of_getLast? hc)
  obtain ⟨p, hp, rfl⟩ := List.mem_map.mp hmem
  exact ⟨of_decide_eq_true hpaged, mem_allOn hp⟩

theorem allOn_append : allOn h (xs ++ ys) = allOn h xs ++ allOn h ys := List.flatMap_append

theorem lastPaged_append : lastPaged h (xs ++ ys) = (lastPaged h ys).or (lastPaged h xs) := by
  rw [lastPaged, allOn_append, List.map_append, List.filter_append, List.getLast?_append]
  rfl

/-- The last cell with huge pages is the last one of some instance. -/
theorem exists_lastPaged {c : InstanceCell} (hc : lastPaged h xs = some c) : ∃ t ∈ xs, lastPaged h [t] = some c := by
  induction xs using List.reverseRecOn with
  | nil => cases hc
  | append_singleton xs t ih =>
    rw [lastPaged_append] at hc
    cases ht : lastPaged h [t] with
    | some d =>
      rw [ht, Option.some_or] at hc
      exact ⟨t, List.mem_append_right _ (List.mem_singleton_self t), ht.trans hc⟩
    | none =>
      rw [ht, Option.none_or] at hc
      obtain ⟨u, hu, he⟩ := ih hc
      exact ⟨u, List.mem_append_left _ hu, he⟩

/-- The pages of a host cell with some instances charged. -/
theorem mempages_charged (hh : Counted h) (hxs : Sized xs) :
    (charged false h xs).mempages = ((lastPaged h xs).map fun c => h.mempages.map (PagesTopology.loaded c)).getD h.mempages := by
  rw [charged]
  dsimp only
  cases hc : lastPaged h xs with
  | none => rfl
  | some c =>
    obtain ⟨hpaged, t, ht, hmem⟩ := lastPaged_spec hc
    exact pagesizeUsageFromCell_eq hh.used (hxs t ht c hmem) hpaged

theorem SameCell.allOn (hs : SameCell h h') : allOn h' xs = allOn h xs := by
  rw [Nova.allOn, Nova.allOn]
  congr 1
  funext t
  rw [cellsOn, cellsOn, hs.id]

theorem SameCell.cpusUsed (hs : SameCell h h') : cpusUsed h' xs = cpusUsed h xs := by
  have hdiff : cpuUsageDiff h' = cpuUsageDiff h := by
    funext c
    rw [cpuUsageDiff, cpuUsageDiff, NumaCell.threadsPerCore, NumaCell.threadsPerCore, hs.siblings]
  rw [Nova.cpusUsed, Nova.cpusUsed, hs.allOn, hdiff]

theorem SameCell.memoryUsed (hs : SameCell h h') : memoryUsed h' xs = memoryUsed h xs := by
  rw [Nova.memoryUsed, Nova.memoryUsed, hs.allOn]

theorem SameCell.lastPaged (hs : SameCell h h') : lastPaged h' xs = lastPaged h xs := by
  rw [Nova.lastPaged, Nova.lastPaged, hs.allOn]

theorem SameCell.taken (hs : SameCell h h') : taken h' xs = taken h xs := by
  have hcpus : cpusOf h' = cpusOf h := by
    funext p
    rw [cpusOf, cpusOf, hs.cellPins]
  rw [Nova.taken, Nova.taken, hs.allOn, hcpus]

theorem sameCell_charged : SameCell h (charged free h xs) := ⟨rfl, rfl, rfl⟩

/-- A host cell with instances charged, part by part. -/
theorem charged_eq_iff {free' : Bool} {h₁ h₂ : NumaCell} {zs : List InstanceTopology} (hid : h₁.id = h₂.id)
    (hcpuset : h₁.cpuset = h₂.cpuset) (hmemory : h₁.memory = h₂.memory) (hsiblings : h₁.siblings = h₂.siblings) :
    charged free h₁ xs = charged free' h₂ zs ↔
      (charged free h₁ xs).cpuUsage = (charged free' h₂ zs).cpuUsage ∧
      (charged free h₁ xs).memoryUsage = (charged free' h₂ zs).memoryUsage ∧
      (charged free h₁ xs).pinnedCpus = (charged free' h₂ zs).pinnedCpus ∧
      (charged free h₁ xs).mempages = (charged free' h₂ zs).mempages := by
  simp [charged, hid, hcpuset, hmemory, hsiblings]

theorem cpuUsage_charged (hh : Counted h) :
    (charged false h xs).cpuUsage = if xs = [] then 0 else h.cpuUsage + cpusUsed h xs := by
  have husage := hh.cpuUsage
  have hused : 0 ≤ cpusUsed h xs := cpusUsed_nonneg
  change (if xs = [] then 0 else max 0 (h.cpuUsage + 1 * cpusUsed h xs)) = _
  rw [one_mul, max_eq_right (by omega)]

theorem memoryUsage_charged (hh : Counted h) (hxs : Sized xs) :
    (charged false h xs).memoryUsage = if xs = [] then 0 else h.memoryUsage + memoryUsed h xs := by
  have husage := hh.memoryUsage
  have hused : 0 ≤ memoryUsed h xs := memoryUsed_nonneg hxs
  change (if xs = [] then 0 else max 0 (h.memoryUsage + 1 * memoryUsed h xs)) = _
  rw [one_mul, max_eq_right (by omega)]

theorem Counted.charged (hh : Counted h) (hxs : Sized xs) : Counted (charged false h xs) := by
  have hcpus : 0 ≤ Nova.cpusUsed h xs := cpusUsed_nonneg
  have hmemory : 0 ≤ Nova.memoryUsed h xs := memoryUsed_nonneg hxs
  have hcpuUsage := hh.cpuUsage
  have hmemoryUsage := hh.memoryUsage
  refine ⟨?_, ?_, fun p hp => ?_⟩
  · rw [cpuUsage_charged hh]
    split <;> omega
  · rw [memoryUsage_charged hh hxs]
    split <;> omega
  · rw [mempages_charged hh hxs] at hp
    cases hc : Nova.lastPaged h xs with
    | none =>
      rw [hc] at hp
      exact hh.used p hp
    | some c =>
      rw [hc] at hp
      obtain ⟨q, hq, rfl⟩ := List.mem_map.mp hp
      obtain ⟨hpaged, t, ht, hmem⟩ := lastPaged_spec hc
      exact add_nonneg (hh.used q hq) (load_nonneg (hxs t ht c hmem) hpaged q)

theorem Sized.append (hxs : Sized xs) (hys : Sized ys) : Sized (xs ++ ys) := fun t ht =>
  (List.mem_append.mp ht).elim (hxs t) (hys t)

theorem pinnedCpus_append :
    (charged false h (xs ++ ys)).pinnedCpus = (charged false (charged false h xs) ys).pinnedCpus := by
  have htaken : taken h (xs ++ ys) = taken h xs ++ taken h ys := by rw [taken, allOn_append, List.map_append, taken, taken]
  change (taken h (xs ++ ys)).foldl (pinnedAfter false) h.pinnedCpus =
    (taken (charged false h xs) ys).foldl (pinnedAfter false) ((taken h xs).foldl (pinnedAfter false) h.pinnedCpus)
  rw [htaken, List.foldl_append, sameCell_charged.taken]

/-- Of pages only the last cell's count, so the cells of the first call must take none. -/
theorem mempages_append_iff (hh : Counted h) (hxs : Sized xs) (hys : Sized ys) :
    (charged false h (xs ++ ys)).mempages = (charged false (charged false h xs) ys).mempages ↔
      ∀ c d, lastPaged h xs = some c → lastPaged h ys = some d → ∀ p ∈ h.mempages, load c p = 0 := by
  rw [mempages_charged hh (hxs.append hys), mempages_charged (hh.charged hxs) hys, mempages_charged hh hxs,
    sameCell_charged.lastPaged, lastPaged_append]
  cases hys : lastPaged h ys with
  | none => exact iff_of_true rfl fun _ _ _ => nofun
  | some d =>
    cases hxs : lastPaged h xs with
    | none => exact iff_of_true rfl fun _ _ => nofun
    | some c =>
      have hcells : (∀ c' d', some c = some c' → some d = some d' → ∀ p ∈ h.mempages, load c' p = 0) ↔
          ∀ p ∈ h.mempages, load c p = 0 :=
        ⟨fun hall => hall c d rfl rfl, fun hall c' d' hc _ => (Option.some.inj hc) ▸ hall⟩
      rw [hcells, Option.some_or, Option.map_some, Option.map_some, Option.map_some, Option.getD_some, Option.getD_some,
        Option.getD_some, List.map_map, List.map_inj_left]
      refine forall₂_congr fun p _ => ?_
      have htwice : (p.loaded c).loaded d = { p with used := p.used + load c p + load d p } := rfl
      rw [Function.comp_apply, htwice, PagesTopology.loaded, PagesTopology.mk.injEq]
      constructor
      · rintro ⟨-, -, he⟩
        omega
      · intro he
        exact ⟨rfl, rfl, by rw [he, add_zero]⟩

/-- **When one call is two**: an empty list loses the usage, and of pages only the last cell's count. -/
theorem charged_append_iff (hh : Counted h) (hxs : Sized xs) (hys : Sized ys) :
    charged false h (xs ++ ys) = charged false (charged false h xs) ys ↔
      (xs = [] → ys ≠ [] → h.cpuUsage = 0 ∧ h.memoryUsage = 0) ∧
      (ys = [] → xs ≠ [] → h.cpuUsage + cpusUsed h xs = 0 ∧ h.memoryUsage + memoryUsed h xs = 0) ∧
      ∀ c d, lastPaged h xs = some c → lastPaged h ys = some d → ∀ p ∈ h.mempages, load c p = 0 := by
  have hcpus : cpusUsed h (xs ++ ys) = cpusUsed h xs + cpusUsed h ys := by
    rw [cpusUsed, allOn_append, List.map_append, List.sum_append, cpusUsed, cpusUsed]
  have hmemory : memoryUsed h (xs ++ ys) = memoryUsed h xs + memoryUsed h ys := by
    rw [memoryUsed, allOn_append, List.map_append, List.sum_append, memoryUsed, memoryUsed]
  have hparts : charged false h (xs ++ ys) = charged false (charged false h xs) ys ↔ _ := charged_eq_iff rfl rfl rfl rfl
  rw [hparts, cpuUsage_charged hh, cpuUsage_charged (hh.charged hxs), cpuUsage_charged hh,
    memoryUsage_charged hh (hxs.append hys), memoryUsage_charged (hh.charged hxs) hys, memoryUsage_charged hh hxs,
    sameCell_charged.cpusUsed, sameCell_charged.memoryUsed, hcpus, hmemory, mempages_append_iff hh hxs hys,
    and_iff_right pinnedCpus_append]
  have hnoCpus : cpusUsed h [] = 0 := rfl
  have hnoMemory : memoryUsed h [] = 0 := rfl
  by_cases hxs : xs = []
  · by_cases hys : ys = []
    · simp [hxs, hys]
    · simp [hxs, hys, hnoCpus, hnoMemory, and_assoc]
  · by_cases hys : ys = []
    · simp [hxs, hys, hnoCpus, hnoMemory, and_assoc]
    · simp [hxs, hys, add_assoc]

/-- **When the order does not matter**: the last cells of the instances take the same pages. -/
theorem charged_perm_iff (hh : Counted h) (hxs : Sized xs) :
    (∀ zs : List InstanceTopology, zs.Perm xs → charged false h zs = charged false h xs) ↔
      ∀ t ∈ xs, ∀ t' ∈ xs, ∀ c d, lastPaged h [t] = some c → lastPaged h [t'] = some d → ∀ p ∈ h.mempages, load c p = load d p := by
  have hsized : ∀ {zs : List InstanceTopology}, zs.Perm xs → Sized zs := fun hzs t ht => hxs t (hzs.mem_iff.mp ht)
  constructor
  · intro hall t ht t' ht' c d hc hd
    -- an order with a given instance behind the others leaves the pages of its last cell
    have hlast : ∀ t ∈ xs, ∀ c, lastPaged h [t] = some c → (charged false h xs).mempages = h.mempages.map (PagesTopology.loaded c) := by
      intro t ht c hc
      have hperm : (xs.erase t ++ [t]).Perm xs := (List.perm_append_singleton t (xs.erase t)).trans (List.perm_cons_erase ht).symm
      rw [← hall _ hperm, mempages_charged hh (hsized hperm), lastPaged_append, hc]
      rfl
    exact map_loaded_inj.mp ((hlast t ht c hc).symm.trans (hlast t' ht' d hd))
  · intro hsame zs hzs
    have hon : (allOn h zs).Perm (allOn h xs) := hzs.flatMap_right _
    have hempty : zs = [] ↔ xs = [] := ⟨fun e => List.perm_nil.mp (e ▸ hzs.symm), fun e => List.perm_nil.mp (e ▸ hzs)⟩
    have hparts : charged false h zs = charged false h xs ↔ _ := charged_eq_iff rfl rfl rfl rfl
    refine hparts.mpr ⟨?_, ?_, ?_, ?_⟩
    · rw [cpuUsage_charged hh, cpuUsage_charged hh, cpusUsed, (hon.map _).sum_eq, cpusUsed]
      simp only [hempty]
    · rw [memoryUsage_charged hh (hsized hzs), memoryUsage_charged hh hxs, memoryUsed, (hon.map _).sum_eq, memoryUsed]
      simp only [hempty]
    · have hmem : ∀ s, s ∈ taken h zs ↔ s ∈ taken h xs := fun s => (hon.map _).mem_iff
      refine Finset.ext fun x => mem_foldl_pinned.trans (Iff.trans ?_ mem_foldl_pinned.symm)
      simp only [hmem]
    · rw [mempages_charged hh (hsized hzs), mempages_charged hh hxs]
      have hpaged : (((allOn h zs).map Prod.snd).filter fun c => Paged c).Perm (((allOn h xs).map Prod.snd).filter fun c => Paged c) :=
        (hon.map _).filter _
      have hnone : lastPaged h zs = none ↔ lastPaged h xs = none := by
        rw [lastPaged, lastPaged, List.getLast?_eq_none_iff, List.getLast?_eq_none_iff]
        exact ⟨fun e => List.perm_nil.mp (e ▸ hpaged.symm), fun e => List.perm_nil.mp (e ▸ hpaged)⟩
      cases hc : lastPaged h zs with
      | none => rw [hnone.mp hc]
      | some c =>
        cases hd : lastPaged h xs with
        | none =>
          rw [hnone.mpr hd] at hc
          cases hc
        | some d =>
          obtain ⟨t, ht, hct⟩ := exists_lastPaged hc
          obtain ⟨t', ht', hdt⟩ := exists_lastPaged hd
          exact map_loaded_inj.mpr (hsame t (hzs.mem_iff.mp ht) t' ht' c d hct hdt)

/-- **Freeing what was claimed** restores the host cell, but for an empty list. -/
theorem charged_free_iff (hh : Counted h) (hxs : Sized xs) (hpins : Pinnable false h.cpuset h.pinnedCpus (taken h xs)) :
    charged true (charged false h xs) xs = h ↔ (xs = [] → h.cpuUsage = 0 ∧ h.memoryUsage = 0) := by
  have hparts : charged true (charged false h xs) xs = h ↔
      (charged true (charged false h xs) xs).cpuUsage = h.cpuUsage ∧
      (charged true (charged false h xs) xs).memoryUsage = h.memoryUsage ∧
      (charged true (charged false h xs) xs).pinnedCpus = h.pinnedCpus ∧
      (charged true (charged false h xs) xs).mempages = h.mempages := by
    obtain ⟨id, cpuset, memory, cpuUsage, memoryUsage, pinned, siblings, mempages⟩ := h
    simp [charged]
  have hpinned : (charged true (charged false h xs) xs).pinnedCpus = h.pinnedCpus := by
    change (taken (charged false h xs) xs).foldl (pinnedAfter true) ((taken h xs).foldl (pinnedAfter false) h.pinnedCpus) = _
    rw [sameCell_charged.taken]
    exact (unpinned_pinned hpins).2
  have hpages : (charged true (charged false h xs) xs).mempages = h.mempages := by
    change ((lastPaged (charged false h xs) xs).map fun c => pagesizeUsageFromCell (charged false h xs) c (-1)).getD
      (charged false h xs).mempages = _
    have hcharged := mempages_charged hh hxs
    rw [sameCell_charged.lastPaged]
    cases hc : lastPaged h xs with
    | none =>
      rw [hc] at hcharged
      exact hcharged
    | some c =>
      rw [hc] at hcharged
      exact pagesizeUsageFromCell_back hh.used hcharged
  have hcpu : (charged true (charged false h xs) xs).cpuUsage = if xs = [] then 0 else h.cpuUsage := by
    change (if xs = [] then 0 else max 0 ((charged false h xs).cpuUsage + -1 * cpusUsed (charged false h xs) xs)) = _
    rw [cpuUsage_charged hh, sameCell_charged.cpusUsed]
    have husage := hh.cpuUsage
    split
    · rfl
    · rw [show h.cpuUsage + cpusUsed h xs + -1 * cpusUsed h xs = h.cpuUsage by ring, max_eq_right husage]
  have hmemory : (charged true (charged false h xs) xs).memoryUsage = if xs = [] then 0 else h.memoryUsage := by
    change (if xs = [] then 0 else max 0 ((charged false h xs).memoryUsage + -1 * memoryUsed (charged false h xs) xs)) = _
    rw [memoryUsage_charged hh hxs, sameCell_charged.memoryUsed]
    have husage := hh.memoryUsage
    split
    · rfl
    · rw [show h.memoryUsage + memoryUsed h xs + -1 * memoryUsed h xs = h.memoryUsage by ring, max_eq_right husage]
  rw [hparts, hcpu, hmemory, and_iff_left hpages, and_iff_left hpinned]
  split
  case isTrue hempty => simp [hempty, eq_comm]
  case isFalse hempty => simp [hempty]

end Laws

/-! ## 7. The laws on a host -/

section Host

variable {free : Bool} {host : List NumaCell} {xs ys : List InstanceTopology}

/-- **The usage of a host** whose pinning does not conflict. -/
theorem numaUsage_eq (h : ∀ h ∈ host, Pinnable free h.cpuset h.pinnedCpus (taken h xs)) :
    numaUsageFromInstances host xs free = .ok (host.map fun h => charged free h xs) :=
  Fallible.mapM_pure fun c hc => hostCellUsage_eq_ok.mpr ⟨h c hc, rfl⟩

theorem pinnable_of_ok {host' : List NumaCell} (hok : numaUsageFromInstances host xs free = .ok host') :
    ∀ h ∈ host, Pinnable free h.cpuset h.pinnedCpus (taken h xs) := fun h hh => by
  obtain ⟨h', hcell⟩ := Fallible.exists_of_forall₂_left (Fallible.forall₂_of_mapM hok) hh
  exact (hostCellUsage_eq_ok.mp hcell).1

/-- What is expected of the usage of lists of instances. -/
structure UsageLaws (host : List NumaCell) (xs ys : List InstanceTopology) : Prop where
  append : numaUsageFromInstances host (xs ++ ys) false =
    numaUsageFromInstances host xs false >>= fun host' => numaUsageFromInstances host' ys false
  empty : xs = [] → numaUsageFromInstances host xs false = .ok host
  perm : ∀ zs : List InstanceTopology, zs.Perm xs → numaUsageFromInstances host zs false = numaUsageFromInstances host xs false
  reversible : (numaUsageFromInstances host xs false >>= fun host' => numaUsageFromInstances host' xs true) = .ok host

/-- Instances that a host cell is charged with as expected: no list is empty where something is used,
    huge pages are not claimed by both lists, and instances of one list claim the same of them. -/
structure Chargeable (h : NumaCell) (xs ys : List InstanceTopology) : Prop where
  first : xs = [] → h.cpuUsage = 0 ∧ h.memoryUsage = 0
  second : ys = [] → xs ≠ [] → h.cpuUsage + cpusUsed h xs = 0 ∧ h.memoryUsage + memoryUsed h xs = 0
  pages : ∀ c d, lastPaged h xs = some c → lastPaged h ys = some d → ∀ p ∈ h.mempages, load c p = 0
  alike : ∀ t ∈ xs, ∀ t' ∈ xs, ∀ c d, lastPaged h [t] = some c → lastPaged h [t'] = some d → ∀ p ∈ h.mempages, load c p = load d p

/-- **When usage adds up**, does not depend on the order and can be taken back. -/
theorem usageLaws_iff (hhost : ∀ h ∈ host, Counted h) (hsized : Sized (xs ++ ys)) {host' : List NumaCell}
    (hok : numaUsageFromInstances host (xs ++ ys) false = .ok host') :
    UsageLaws host xs ys ↔ ∀ h ∈ host, Chargeable h xs ys := by
  have hxs : Sized xs := fun t ht => hsized t (List.mem_append_left _ ht)
  have hys : Sized ys := fun t ht => hsized t (List.mem_append_right _ ht)
  have hpins := pinnable_of_ok hok
  have htaken : ∀ h, taken h (xs ++ ys) = taken h xs ++ taken h ys := fun h => by
    rw [taken, allOn_append, List.map_append, taken, taken]
  have hpinsxs : ∀ h ∈ host, Pinnable false h.cpuset h.pinnedCpus (taken h xs) := fun h hh =>
    ((pinnable_append _ _ _).mp (htaken h ▸ hpins h hh)).1
  have hpinsys : ∀ h ∈ host.map fun h => charged false h xs, Pinnable false h.cpuset h.pinnedCpus (taken h ys) := fun c hc => by
    obtain ⟨h, hh, rfl⟩ := List.mem_map.mp hc
    rw [sameCell_charged.taken]
    exact ((pinnable_append _ _ _).mp (htaken h ▸ hpins h hh)).2
  have hpinsback : ∀ h ∈ host.map fun h => charged false h xs, Pinnable true h.cpuset h.pinnedCpus (taken h xs) := fun c hc => by
    obtain ⟨h, hh, rfl⟩ := List.mem_map.mp hc
    rw [sameCell_charged.taken]
    exact (unpinned_pinned (hpinsxs h hh)).1
  have hperm : ∀ zs : List InstanceTopology, zs.Perm xs → ∀ h ∈ host, Pinnable false h.cpuset h.pinnedCpus (taken h zs) :=
    fun zs hzs h hh => by
    have hsets : (taken h zs).Perm (taken h xs) := (hzs.flatMap_right _).map _
    obtain ⟨hall, hpair⟩ := pinnable_iff.mp (hpinsxs h hh)
    exact pinnable_iff.mpr ⟨fun s hs => hall s (hsets.mem_iff.mp hs), (hsets.pairwise_iff fun hd => hd.symm).mpr hpair⟩
  have happend : numaUsageFromInstances host (xs ++ ys) false =
      (numaUsageFromInstances host xs false >>= fun host' => numaUsageFromInstances host' ys false) ↔
      ∀ h ∈ host, charged false h (xs ++ ys) = charged false (charged false h xs) ys := by
    have htwo : (numaUsageFromInstances host xs false >>= fun host' => numaUsageFromInstances host' ys false) =
        .ok (host.map fun h => charged false (charged false h xs) ys) := by
      rw [numaUsage_eq hpinsxs]
      exact (numaUsage_eq hpinsys).trans (by rw [List.map_map]; rfl)
    rw [htwo, numaUsage_eq hpins, Except.ok.injEq, List.map_inj_left]
  have hback : (numaUsageFromInstances host xs false >>= fun host' => numaUsageFromInstances host' xs true) = .ok host ↔
      ∀ h ∈ host, charged true (charged false h xs) xs = h := by
    have htwo : (numaUsageFromInstances host xs false >>= fun host' => numaUsageFromInstances host' xs true) =
        .ok (host.map fun h => charged true (charged false h xs) xs) := by
      rw [numaUsage_eq hpinsxs]
      exact (numaUsage_eq hpinsback).trans (by rw [List.map_map]; rfl)
    rw [htwo, Except.ok.injEq]
    exact (Eq.congr_right (List.map_id host).symm).trans List.map_inj_left
  have horder : (∀ zs : List InstanceTopology, zs.Perm xs → numaUsageFromInstances host zs false = numaUsageFromInstances host xs false) ↔
      ∀ h ∈ host, ∀ zs : List InstanceTopology, zs.Perm xs → charged false h zs = charged false h xs := by
    constructor
    · intro hall h hh zs hzs
      have he := hall zs hzs
      rw [numaUsage_eq (hperm zs hzs), numaUsage_eq hpinsxs, Except.ok.injEq, List.map_inj_left] at he
      exact he h hh
    · intro hall zs hzs
      rw [numaUsage_eq (hperm zs hzs), numaUsage_eq hpinsxs, Except.ok.injEq, List.map_inj_left]
      exact fun h hh => hall h hh zs hzs
  constructor
  · rintro ⟨hlawAppend, -, hlawPerm, hlawBack⟩ h hh
    have hfirst := (charged_free_iff (hhost h hh) hxs (hpinsxs h hh)).mp (hback.mp hlawBack h hh)
    obtain ⟨-, hsecond, hpages⟩ := (charged_append_iff (hhost h hh) hxs hys).mp (happend.mp hlawAppend h hh)
    exact ⟨hfirst, hsecond, hpages, (charged_perm_iff (hhost h hh) hxs).mp (horder.mp hlawPerm h hh)⟩
  · intro hall
    refine ⟨happend.mpr fun h hh => ?_, fun hempty => ?_, horder.mpr fun h hh => ?_, hback.mpr fun h hh => ?_⟩
    · exact (charged_append_iff (hhost h hh) hxs hys).mpr ⟨fun hempty _ => (hall h hh).first hempty, (hall h hh).second, (hall h hh).pages⟩
    · rw [numaUsage_eq hpinsxs, Except.ok.injEq]
      refine (List.map_congr_left fun h hh => ?_).trans (List.map_id host)
      obtain ⟨hcpus, hmemory⟩ := (hall h hh).first hempty
      subst hempty
      obtain ⟨id, cpuset, memory, cpuUsage, memoryUsage, pinned, siblings, mempages⟩ := h
      obtain rfl : cpuUsage = 0 := hcpus
      obtain rfl : memoryUsage = 0 := hmemory
      rfl
    · exact (charged_perm_iff (hhost h hh) hxs).mpr (hall h hh).alike
    · exact (charged_free_iff (hhost h hh) hxs (hpinsxs h hh)).mpr (hall h hh).first

/-- A host of one cell with pages of 2 MiB. -/
def hugeHost : List NumaCell := [⟨0, {0, 1, 2, 3}, 4096, 0, 0, ∅, [], [⟨2048, 2048, 0⟩]⟩]

/-- An instance of one cell with huge pages. -/
def hugeInstance (memory : ℤ) : InstanceTopology :=
  [{ InstanceCell.init {0} memory (some 2048) none none with id := 0 }]

/-- An instance of one cell without. -/
def smallInstance : InstanceTopology := [{ InstanceCell.init {0} 512 none none none with id := 0 }]

theorem usageLaws_iff_hugeHost :
    UsageLaws hugeHost [hugeInstance 1024] [smallInstance] ↔ ∀ h ∈ hugeHost, Chargeable h [hugeInstance 1024] [smallInstance] :=
  usageLaws_iff
    (fun h hh => by
      obtain rfl := List.mem_singleton.mp hh
      exact ⟨by decide, by decide, by decide⟩)
    (fun t ht c hc => by
      rcases List.mem_cons.mp ht with rfl | ht
      · obtain rfl := List.mem_singleton.mp hc
        decide
      · obtain rfl := List.mem_singleton.mp ht
        obtain rfl := List.mem_singleton.mp hc
        decide)
    (show numaUsageFromInstances hugeHost ([hugeInstance 1024] ++ [smallInstance]) false =
      .ok [⟨0, {0, 1, 2, 3}, 4096, 2, 1536, ∅, [], [⟨2048, 2048, 512⟩]⟩] by decide +kernel)

/-- **Two instances with huge pages.** In one call only the pages of the last one are counted, in two calls
    all of them; and a call without instances forgets what is used. -/
theorem usage_hugeInstances :
    numaUsageFromInstances hugeHost ([hugeInstance 1024] ++ [hugeInstance 512]) false =
        .ok [⟨0, {0, 1, 2, 3}, 4096, 2, 1536, ∅, [], [⟨2048, 2048, 256⟩]⟩] ∧
      numaUsageFromInstances hugeHost ([hugeInstance 512] ++ [hugeInstance 1024]) false =
        .ok [⟨0, {0, 1, 2, 3}, 4096, 2, 1536, ∅, [], [⟨2048, 2048, 512⟩]⟩] ∧
      (numaUsageFromInstances hugeHost [hugeInstance 1024] false >>= fun host' =>
          numaUsageFromInstances host' [hugeInstance 512] false) =
        .ok [⟨0, {0, 1, 2, 3}, 4096, 2, 1536, ∅, [], [⟨2048, 2048, 768⟩]⟩] ∧
      numaUsageFromInstances [⟨0, {0, 1, 2, 3}, 4096, 2, 1536, ∅, [], [⟨2048, 2048, 768⟩]⟩] [] false =
        .ok [⟨0, {0, 1, 2, 3}, 4096, 0, 0, ∅, [], [⟨2048, 2048, 768⟩]⟩] ∧
      ¬ UsageLaws hugeHost [hugeInstance 1024] [hugeInstance 512] := by
  refine ⟨by decide +kernel, by decide +kernel, by decide +kernel, by decide +kernel, fun h => ?_⟩
  have happend := h.append
  revert happend
  decide +kernel

end Host

end Mitaka.Nova
