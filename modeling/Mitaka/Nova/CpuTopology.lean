/-
  Subject: nova/virt/hardware.py, `get_best_cpu_topology` and what it calls.

  The topologies for a number of vCPUs are enumerated within the limits, those with the
  threads that the NUMA cells of the instance want are kept, and the first one in the order
  of preference is taken. The enumeration finds what there is (`mem_possible`); the filter
  keeps nothing when every topology has more threads than are wanted (`filter_ne_nil`), and
  then there is no first one.
-/
import Mitaka.Lib.Sorting
import Mitaka.Nova.CpuSpec
import Mitaka.Nova.Numa

namespace Mitaka.Nova

open List

open Swift (Str pyInt)

/-! ## 1. Constraints -/

/-- `VirtCPUTopology`, where a preferred topology may have −1s. -/
structure Topology where
  sockets : ℤ
  cores : ℤ
  threads : ℤ
deriving DecidableEq

/-- A count of one is above the count of the other. -/
def Topology.Exceeds (t limits : Topology) : Prop :=
  t.sockets > limits.sockets ∨ t.cores > limits.cores ∨ t.threads > limits.threads

instance (t limits : Topology) : Decidable (t.Exceeds limits) := by
  unfold Topology.Exceeds
  infer_instance

/-- What the selection raises. -/
inductive TopologyError
  | valueError (spec : Str)
  | limitsRangeExceeded (limits flavorLimits : Topology)
  | topologyRangeExceeded (topology limits : Topology)
  | limitsRangeImpossible (vcpus : ℤ) (limits : Topology)
  | indexError
deriving DecidableEq

/-- The fields of a flavor that the selection reads. -/
structure Flavor where
  vcpus : ℤ
  extraSpecs : Dict Str Str

/-- `int(flavor.extra_specs.get(key, default))` -/
def Flavor.extraSpec (flavor : Flavor) (key : Str) (default : ℤ) : Except TopologyError ℤ :=
  match flavor.extraSpecs.get key with
  | none => .ok default
  | some spec =>
    match pyInt spec with
    | none => .error (.valueError spec)
    | some n => .ok n

/-- The properties of an image that the selection reads. -/
structure ImageProperties where
  hwCpuSockets : Option ℤ
  hwCpuCores : Option ℤ
  hwCpuThreads : Option ℤ
  hwCpuMaxSockets : Option ℤ
  hwCpuMaxCores : Option ℤ
  hwCpuMaxThreads : Option ℤ

/-- `_get_cpu_topology_constraints`: the preferred topology and the limits. -/
def getCpuTopologyConstraints (flavor : Flavor) (props : ImageProperties) : Except TopologyError (Topology × Topology) := do
  let flvmaxsockets ← flavor.extraSpec "hw:cpu_max_sockets".toList 65536
  let flvmaxcores ← flavor.extraSpec "hw:cpu_max_cores".toList 65536
  let flvmaxthreads ← flavor.extraSpec "hw:cpu_max_threads".toList 65536
  let flvmax : Topology := ⟨flvmaxsockets, flvmaxcores, flvmaxthreads⟩
  let limits : Topology := ⟨props.hwCpuMaxSockets.getD flvmaxsockets, props.hwCpuMaxCores.getD flvmaxcores,
    props.hwCpuMaxThreads.getD flvmaxthreads⟩
  if limits.Exceeds flvmax then .error (.limitsRangeExceeded limits flvmax)
  else
    let flvsockets ← flavor.extraSpec "hw:cpu_sockets".toList (-1)
    let flvcores ← flavor.extraSpec "hw:cpu_cores".toList (-1)
    let flvthreads ← flavor.extraSpec "hw:cpu_threads".toList (-1)
    let flv : Topology := ⟨flvsockets, flvcores, flvthreads⟩
    let flv := if flv.Exceeds limits then ⟨-1, -1, -1⟩ else flv
    let preferred : Topology := ⟨props.hwCpuSockets.getD (-1), props.hwCpuCores.getD (-1), props.hwCpuThreads.getD (-1)⟩
    if preferred.Exceeds limits then .error (.topologyRangeExceeded preferred limits)
    else return (if preferred = ⟨-1, -1, -1⟩ then flv else preferred, limits)

/-! ## 2. Selection -/

/-- The limits of the enumeration: clamped to the vCPUs, and one thread where threads are not allowed. -/
def clampLimits (vcpus : ℤ) (maxtopology : Topology) (allowThreads : Bool) : Topology :=
  ⟨min vcpus maxtopology.sockets, min vcpus maxtopology.cores,
    if allowThreads then min vcpus maxtopology.threads else 1⟩

/-- The key of the enumeration's order. -/
def possibleKey (t : Topology) : ℤ ×ₗ ℤ ×ₗ ℤ := toLex (t.sockets * t.cores, toLex (t.sockets, t.threads))

/-- `_get_possible_cpu_topologies`. -/
def getPossibleCpuTopologies (vcpus : ℤ) (maxtopology : Topology) (allowThreads : Bool) : Except TopologyError (List Topology) :=
  let limits := clampLimits vcpus maxtopology allowThreads
  let possible :=
    (pyRange 1 (limits.sockets + 1)).flatMap fun s =>
      (pyRange 1 (limits.cores + 1)).flatMap fun c =>
        ((pyRange 1 (limits.threads + 1)).filter fun t => t * c * s = vcpus).map fun t => ⟨s, c, t⟩
  let possible := Sorting.sortDesc possibleKey possible
  if possible.length = 0 then .error (.limitsRangeImpossible vcpus limits) else .ok possible

/-- `_filter_for_numa_threads`. -/
def filterForNumaThreads (possible : List Topology) (wantthreads : ℤ) : List Topology :=
  let mostthreads := possible.foldl (fun mostthreads topology =>
    if topology.threads > wantthreads then mostthreads
    else if topology.threads > mostthreads then topology.threads
    else mostthreads) 0
  possible.filter fun topology => topology.threads = mostthreads

/-- `_score_cpu_topology`. -/
def scoreCpuTopology (topology wanttopology : Topology) : ℕ :=
  (if wanttopology.sockets ≠ -1 ∧ topology.sockets = wanttopology.sockets then 1 else 0) +
  (if wanttopology.cores ≠ -1 ∧ topology.cores = wanttopology.cores then 1 else 0) +
  (if wanttopology.threads ≠ -1 ∧ topology.threads = wanttopology.threads then 1 else 0)

/-- `_sort_possible_cpu_topologies`. -/
def sortPossibleCpuTopologies (possible : List Topology) (wanttopology : Topology) : List Topology :=
  [3, 2, 1, 0].flatMap fun score => possible.filter fun topology => scoreCpuTopology topology wanttopology = score

/-- `specified_threads`: the threads that the cells of the instance want; there may be none. -/
def specifiedThreads (preferred : Topology) (numaTopology : InstanceTopology) : Option ℤ :=
  match ((numaTopology.filterMap InstanceCell.cpuTopology).map fun topo => (topo.threads : ℤ)).min? with
  | none => none
  | some minRequestedThreads =>
    if minRequestedThreads = 0 then none
    else if preferred.threads ≠ -1 then some (max 1 (min preferred.threads minRequestedThreads))
    else some (max 1 minRequestedThreads)

/-- `_get_desirable_cpu_topologies`. No NUMA topology is one without cells. -/
def getDesirableCpuTopologies (flavor : Flavor) (props : ImageProperties) (allowThreads : Bool) (numaTopology : InstanceTopology) :
    Except TopologyError (List Topology) := do
  let (preferred, maximum) ← getCpuTopologyConstraints flavor props
  let possible ← getPossibleCpuTopologies flavor.vcpus maximum allowThreads
  let possible :=
    match specifiedThreads preferred numaTopology with
    | none => possible
    | some threads => filterForNumaThreads possible threads
  return sortPossibleCpuTopologies possible preferred

/-- `get_best_cpu_topology`. -/
def getBestCpuTopology (flavor : Flavor) (props : ImageProperties) (allowThreads : Bool) (numaTopology : InstanceTopology) :
    Except TopologyError Topology := do
  match ← getDesirableCpuTopologies flavor props allowThreads numaTopology with
  | [] => .error .indexError
  | topology :: _ => .ok topology

/-! ## 3. What is found -/

/-- A topology of so many vCPUs within limits. -/
structure Within (vcpus : ℤ) (limits t : Topology) : Prop where
  sockets : 1 ≤ t.sockets ∧ t.sockets ≤ limits.sockets
  cores : 1 ≤ t.cores ∧ t.cores ≤ limits.cores
  threads : 1 ≤ t.threads ∧ t.threads ≤ limits.threads
  total : t.sockets * t.cores * t.threads = vcpus

/-- The limits, with at most one thread where threads are not allowed. -/
def allowedLimits (maximum : Topology) (allowThreads : Bool) : Topology :=
  if allowThreads then maximum else { maximum with threads := min maximum.threads 1 }

/-- The limits of the enumeration: one thread where threads are not allowed. -/
def usedLimits (maximum : Topology) (allowThreads : Bool) : Topology :=
  if allowThreads then maximum else { maximum with threads := 1 }

section Selection

variable {vcpus : ℤ} {maximum : Topology} {allowThreads : Bool} {t : Topology}

/-- **The enumeration** goes through every topology within the limits; clamping them leaves none out. -/
theorem mem_enumeration (vcpus : ℤ) (maximum : Topology) (allowThreads : Bool) (t : Topology) : t ∈ ((pyRange 1 ((clampLimits vcpus maximum allowThreads).sockets + 1)).flatMap fun s =>
      (pyRange 1 ((clampLimits vcpus maximum allowThreads).cores + 1)).flatMap fun c =>
        ((pyRange 1 ((clampLimits vcpus maximum allowThreads).threads + 1)).filter fun t => t * c * s = vcpus).map
          fun t => (⟨s, c, t⟩ : Topology)) ↔ Within vcpus (usedLimits maximum allowThreads) t := by
  simp only [mem_flatMap, List.mem_map, mem_filter, mem_pyRange, Int.lt_add_one_iff, decide_eq_true_eq]
  constructor
  · rintro ⟨s, ⟨hs, hs'⟩, c, ⟨hc, hc'⟩, n, ⟨⟨hn, hn'⟩, htotal⟩, rfl⟩
    have htotal' : s * c * n = vcpus := by rw [← htotal]; ring
    cases allowThreads with
    | true => exact ⟨⟨hs, hs'.trans (min_le_right _ _)⟩, ⟨hc, hc'.trans (min_le_right _ _)⟩, ⟨hn, hn'.trans (min_le_right _ _)⟩, htotal'⟩
    | false => exact ⟨⟨hs, hs'.trans (min_le_right _ _)⟩, ⟨hc, hc'.trans (min_le_right _ _)⟩, ⟨hn, hn'⟩, htotal'⟩
  · intro h
    obtain ⟨s, c, n⟩ := t
    obtain ⟨⟨hs, hs'⟩, ⟨hc, hc'⟩, ⟨hn, hn'⟩, htotal⟩ := h
    dsimp only at hs hs' hc hc' hn hn' htotal
    -- a factor is at most the product
    have hsv : s ≤ vcpus := by nlinarith [mul_le_mul hc hn (by norm_num) (by omega)]
    have hcv : c ≤ vcpus := by nlinarith [mul_le_mul hs hn (by norm_num) (by omega)]
    have hnv : n ≤ vcpus := by nlinarith [mul_le_mul hs hc (by norm_num) (by omega)]
    have htotal' : n * c * s = vcpus := by rw [← htotal]; ring
    cases allowThreads with
    | true => exact ⟨s, ⟨hs, le_min hsv hs'⟩, c, ⟨hc, le_min hcv hc'⟩, n, ⟨⟨hn, le_min hnv hn'⟩, htotal'⟩, rfl⟩
    | false => exact ⟨s, ⟨hs, le_min hsv hs'⟩, c, ⟨hc, le_min hcv hc'⟩, n, ⟨⟨hn, hn'⟩, htotal'⟩, rfl⟩

/-- **The possible topologies**, or the exception that there are none. -/
theorem getPossibleCpuTopologies_cases (vcpus : ℤ) (maximum : Topology) (allowThreads : Bool) :
    (∃ possible, getPossibleCpuTopologies vcpus maximum allowThreads = .ok possible ∧ possible ≠ [] ∧
        ∀ t, t ∈ possible ↔ Within vcpus (usedLimits maximum allowThreads) t) ∨
      (getPossibleCpuTopologies vcpus maximum allowThreads =
          .error (.limitsRangeImpossible vcpus (clampLimits vcpus maximum allowThreads)) ∧
        ∀ t, ¬ Within vcpus (usedLimits maximum allowThreads) t) := by
  have hmem := fun t => (Sorting.mem_sortDesc possibleKey).trans (mem_enumeration vcpus maximum allowThreads t)
  unfold getPossibleCpuTopologies
  dsimp only
  split
  case isTrue hnone =>
    refine Or.inr ⟨rfl, fun t ht => ?_⟩
    have hin := (hmem t).mpr ht
    rw [eq_nil_of_length_eq_zero hnone] at hin
    cases hin
  case isFalse hsome => exact Or.inl ⟨_, rfl, fun e => hsome (by rw [e]; rfl), hmem⟩

/-- The loop of the filter: it ends with a number of threads that is wanted, or with none. -/
theorem mostthreads_spec (possible : List Topology) (wantthreads most : ℤ) :
    let result := possible.foldl (fun mostthreads topology =>
      if topology.threads > wantthreads then mostthreads
      else if topology.threads > mostthreads then topology.threads
      else mostthreads) most
    (result = most ∨ ∃ t ∈ possible, t.threads ≤ wantthreads ∧ t.threads = result) ∧ most ≤ result ∧
      ∀ t ∈ possible, t.threads ≤ wantthreads → t.threads ≤ result := by
  induction possible generalizing most with
  | nil => exact ⟨Or.inl rfl, le_rfl, nofun⟩
  | cons t possible ih =>
    rw [foldl_cons]
    split
    case isTrue hmore =>
      obtain ⟨hfrom, hle, hall⟩ := ih most
      refine ⟨hfrom.imp id fun ⟨u, hu, h⟩ => ⟨u, mem_cons_of_mem _ hu, h⟩, hle, fun u hu hwant => ?_⟩
      rcases mem_cons.mp hu with rfl | hu
      · omega
      · exact hall u hu hwant
    case isFalse hwanted =>
      split
      case isTrue hbetter =>
        obtain ⟨hfrom, hle, hall⟩ := ih t.threads
        refine ⟨Or.inr ?_, by omega, fun u hu hwant => ?_⟩
        · rcases hfrom with hsame | ⟨u, hu, h⟩
          · exact ⟨t, mem_cons_self, by omega, hsame.symm⟩
          · exact ⟨u, mem_cons_of_mem _ hu, h⟩
        · rcases mem_cons.mp hu with rfl | hu
          · exact hle
          · exact hall u hu hwant
      case isFalse hworse =>
        obtain ⟨hfrom, hle, hall⟩ := ih most
        refine ⟨hfrom.imp id fun ⟨u, hu, h⟩ => ⟨u, mem_cons_of_mem _ hu, h⟩, hle, fun u hu hwant => ?_⟩
        rcases mem_cons.mp hu with rfl | hu
        · omega
        · exact hall u hu hwant

/-- **The filter** keeps something where a topology has no more threads than are wanted. -/
theorem filter_ne_nil {possible : List Topology} (hthreads : ∀ t ∈ possible, 1 ≤ t.threads) {wantthreads : ℤ} :
    filterForNumaThreads possible wantthreads ≠ [] ↔ ∃ t ∈ possible, t.threads ≤ wantthreads := by
  obtain ⟨hfrom, -, hall⟩ := mostthreads_spec possible wantthreads 0
  constructor
  · intro hne
    obtain ⟨t, ht⟩ := exists_mem_of_ne_nil _ hne
    obtain ⟨ht, he⟩ := mem_filter.mp ht
    rcases hfrom with hzero | ⟨u, hu, hwant, -⟩
    · rw [decide_eq_true_iff, hzero] at he
      have := hthreads t ht
      omega
    · exact ⟨u, hu, hwant⟩
  · rintro ⟨t, ht, hwant⟩
    rcases hfrom with hzero | ⟨u, hu, -, he⟩
    · have hone := hthreads t ht
      have hle := hall t ht hwant
      omega
    · exact ne_nil_of_mem (mem_filter.mpr ⟨hu, decide_eq_true he⟩)

theorem scoreCpuTopology_le (topology wanttopology : Topology) : scoreCpuTopology topology wanttopology ≤ 3 := by
  unfold scoreCpuTopology
  split <;> split <;> split <;> omega

/-- **Sorting by score** keeps every topology. -/
theorem mem_sortPossibleCpuTopologies {possible : List Topology} (wanttopology : Topology) :
    t ∈ sortPossibleCpuTopologies possible wanttopology ↔ t ∈ possible := by
  have hscore : scoreCpuTopology t wanttopology ∈ [3, 2, 1, 0] := by
    have := scoreCpuTopology_le t wanttopology
    simp only [mem_cons, not_mem_nil, or_false]
    omega
  rw [sortPossibleCpuTopologies, mem_flatMap]
  constructor
  · rintro ⟨score, -, h⟩
    exact mem_of_mem_filter h
  · exact fun h => ⟨_, hscore, mem_filter.mpr ⟨h, decide_eq_true rfl⟩⟩

/-- What the selection owes: a topology within the limits, or the exception where there is none. -/
def BestTopology (vcpus : ℤ) (limits : Topology) : Except TopologyError Topology → Prop
  | .ok t => Within vcpus limits t
  | .error e => (∃ clamped, e = .limitsRangeImpossible vcpus clamped) ∧ ∀ t, ¬ Within vcpus limits t

/-- The topologies that are left for an instance. -/
def remaining (preferred : Topology) (numaTopology : InstanceTopology) (possible : List Topology) : List Topology :=
  match specifiedThreads preferred numaTopology with
  | none => possible
  | some threads => filterForNumaThreads possible threads

section Best

variable {flavor : Flavor} {props : ImageProperties} {preferred maximum : Topology}

theorem getBestCpuTopology_eq (hconstraints : getCpuTopologyConstraints flavor props = .ok (preferred, maximum))
    (allowThreads : Bool) (numaTopology : InstanceTopology) :
    getBestCpuTopology flavor props allowThreads numaTopology =
      (getPossibleCpuTopologies flavor.vcpus maximum allowThreads).bind fun possible =>
        match sortPossibleCpuTopologies (remaining preferred numaTopology possible) preferred with
        | [] => .error .indexError
        | topology :: _ => .ok topology := by
  unfold getBestCpuTopology getDesirableCpuTopologies
  rw [hconstraints]
  simp only [bind, Except.bind]
  cases getPossibleCpuTopologies flavor.vcpus maximum allowThreads <;> rfl

/-- The first of some topologies in the order of preference. -/
theorem first_of_sorted {l : List Topology} (hl : l ≠ []) (wanttopology : Topology) :
    ∃ t rest, sortPossibleCpuTopologies l wanttopology = t :: rest ∧ t ∈ l := by
  obtain ⟨u, hu⟩ := exists_mem_of_ne_nil _ hl
  cases hsorted : sortPossibleCpuTopologies l wanttopology with
  | nil =>
    have hin := (mem_sortPossibleCpuTopologies wanttopology).mpr hu
    rw [hsorted] at hin
    cases hin
  | cons t rest =>
    have hin : t ∈ sortPossibleCpuTopologies l wanttopology := hsorted ▸ mem_cons_self
    exact ⟨t, rest, rfl, (mem_sortPossibleCpuTopologies wanttopology).mp hin⟩

/-- **What the selection does** with constraints that are accepted. -/
theorem getBestCpuTopology_cases (hconstraints : getCpuTopologyConstraints flavor props = .ok (preferred, maximum))
    (allowThreads : Bool) (numaTopology : InstanceTopology) :
    (getBestCpuTopology flavor props allowThreads numaTopology =
          .error (.limitsRangeImpossible flavor.vcpus (clampLimits flavor.vcpus maximum allowThreads)) ∧
        ∀ t, ¬ Within flavor.vcpus (usedLimits maximum allowThreads) t) ∨
      (∃ t, getBestCpuTopology flavor props allowThreads numaTopology = .ok t ∧
        Within flavor.vcpus (usedLimits maximum allowThreads) t ∧
        ∀ threads, specifiedThreads preferred numaTopology = some threads → ∃ u, Within flavor.vcpus (usedLimits maximum allowThreads) u ∧
          u.threads ≤ threads) ∨
      (getBestCpuTopology flavor props allowThreads numaTopology = .error .indexError ∧
        (∃ t, Within flavor.vcpus (usedLimits maximum allowThreads) t) ∧
        ∃ threads, specifiedThreads preferred numaTopology = some threads ∧
          ∀ t, Within flavor.vcpus (usedLimits maximum allowThreads) t → threads < t.threads) := by
  rw [getBestCpuTopology_eq hconstraints]
  rcases getPossibleCpuTopologies_cases flavor.vcpus maximum allowThreads with ⟨possible, hok, hne, hmem⟩ | ⟨herror, hnone⟩
  · refine Or.inr ?_
    rw [hok, Except.bind]
    cases hthreads : specifiedThreads preferred numaTopology with
    | none =>
      have hremaining : remaining preferred numaTopology possible = possible := by rw [remaining, hthreads]
      obtain ⟨t, rest, hsorted, ht⟩ := first_of_sorted hne preferred
      rw [hremaining, hsorted]
      exact Or.inl ⟨t, rfl, (hmem t).mp ht, nofun⟩
    | some threads =>
      have hremaining : remaining preferred numaTopology possible = filterForNumaThreads possible threads := by
        rw [remaining, hthreads]
      have hfilter : filterForNumaThreads possible threads ≠ [] ↔ _ := filter_ne_nil fun u hu => ((hmem u).mp hu).threads.1
      rw [hremaining]
      by_cases hempty : filterForNumaThreads possible threads = []
      · rw [hempty]
        refine Or.inr ⟨rfl, ?_, threads, rfl, fun t ht => ?_⟩
        · obtain ⟨u, hu⟩ := exists_mem_of_ne_nil _ hne
          exact ⟨u, (hmem u).mp hu⟩
        · by_contra hle
          exact hfilter.mpr ⟨t, (hmem t).mpr ht, not_lt.mp hle⟩ hempty
      · obtain ⟨t, rest, hsorted, ht⟩ := first_of_sorted hempty preferred
        obtain ⟨u, hu, hle⟩ := hfilter.mp hempty
        rw [hsorted]
        refine Or.inl ⟨t, rfl, (hmem t).mp (mem_of_mem_filter ht), fun n hn => ?_⟩
        exact ⟨u, (hmem u).mp hu, (Option.some.inj hn) ▸ hle⟩
  · rw [herror]
    exact Or.inl ⟨rfl, hnone⟩

section Limits

variable {vcpus : ℤ} {allowThreads : Bool} {t : Topology}

/-- **The limits that are used** are the ones that hold, where these allow one thread. -/
theorem usedLimits_eq (h : allowThreads = true ∨ 1 ≤ maximum.threads) :
    usedLimits maximum allowThreads = allowedLimits maximum allowThreads := by
  cases allowThreads with
  | true => rfl
  | false => simp [usedLimits, allowedLimits, min_eq_right (h.resolve_left nofun)]

theorem not_within_allowedLimits (h : ¬ (allowThreads = true ∨ 1 ≤ maximum.threads)) (vcpus : ℤ) :
    usedLimits maximum allowThreads = { maximum with threads := 1 } ∧ ∀ t, ¬ Within vcpus (allowedLimits maximum allowThreads) t := by
  cases allowThreads with
  | true => exact absurd (Or.inl rfl) h
  | false =>
    refine ⟨rfl, fun t hw => h (Or.inr ?_)⟩
    exact hw.threads.1.trans (hw.threads.2.trans (min_le_left _ _))

end Limits

/-- The inputs that the selection is right for: one thread is within the limits or not needed, and
    what the cells want does not rule out every topology. -/
def Selectable (vcpus : ℤ) (preferred maximum : Topology) (allowThreads : Bool) (numaTopology : InstanceTopology) : Prop :=
  (allowThreads = true ∨ 1 ≤ maximum.threads ∨ ∀ t, ¬ Within vcpus { maximum with threads := 1 } t) ∧
    ∀ threads, specifiedThreads preferred numaTopology = some threads →
      (∃ t, Within vcpus (allowedLimits maximum allowThreads) t) →
        ∃ t, Within vcpus (allowedLimits maximum allowThreads) t ∧ t.threads ≤ threads

/-- **The selection does what it owes** for these inputs and for no others. -/
theorem getBestCpuTopology_iff (hconstraints : getCpuTopologyConstraints flavor props = .ok (preferred, maximum))
    (allowThreads : Bool) (numaTopology : InstanceTopology) :
    BestTopology flavor.vcpus (allowedLimits maximum allowThreads) (getBestCpuTopology flavor props allowThreads numaTopology) ↔
      Selectable flavor.vcpus preferred maximum allowThreads numaTopology := by
  unfold Selectable
  by_cases hone : allowThreads = true ∨ 1 ≤ maximum.threads
  · rw [← or_assoc, and_iff_right (Or.inl hone), ← usedLimits_eq hone]
    rcases getBestCpuTopology_cases hconstraints allowThreads numaTopology with
      ⟨he, hnone⟩ | ⟨t, he, ht, hwant⟩ | ⟨he, hsome, threads, hthreads, hmore⟩
    · rw [he]
      exact ⟨fun _ _ _ hsome => absurd hsome.choose_spec (hnone _), fun _ => ⟨⟨_, rfl⟩, hnone⟩⟩
    · rw [he]
      exact ⟨fun _ threads hthreads _ => hwant threads hthreads, fun _ => ht⟩
    · rw [he]
      refine ⟨fun h => ?_, fun h => ?_⟩
      · obtain ⟨⟨_, hclamped⟩, -⟩ := h
        cases hclamped
      · obtain ⟨t, ht, hle⟩ := h threads hthreads hsome
        exact absurd hle (not_le.mpr (hmore t ht))
  · -- no topology meets the limits, and those of one thread are found all the same
    obtain ⟨hused, hnone⟩ := not_within_allowedLimits hone flavor.vcpus
    rw [← or_assoc, or_iff_right hone, ← hused]
    rcases getBestCpuTopology_cases hconstraints allowThreads numaTopology with
      ⟨he, hnone'⟩ | ⟨t, he, ht, -⟩ | ⟨he, ⟨t, ht⟩, -⟩
    · rw [he]
      exact ⟨fun _ => ⟨hnone', fun _ _ hsome => absurd hsome.choose_spec (hnone _)⟩, fun _ => ⟨⟨_, rfl⟩, hnone⟩⟩
    · rw [he]
      exact ⟨fun h => absurd h (hnone t), fun h => absurd ht (h.1 t)⟩
    · rw [he]
      refine ⟨fun h => ?_, fun h => absurd ht (h.1 t)⟩
      obtain ⟨⟨_, hclamped⟩, -⟩ := h
      cases hclamped

/-- Eight vCPUs on two cores of two threads in each of two sockets. -/
theorem getBestCpuTopology_iff_preferred :
    BestTopology 8 (allowedLimits ⟨65536, 65536, 2⟩ true)
        (getBestCpuTopology ⟨8, []⟩ ⟨none, some 2, none, none, none, some 2⟩ true []) ↔
      Selectable 8 ⟨-1, 2, -1⟩ ⟨65536, 65536, 2⟩ true [] :=
  getBestCpuTopology_iff (show getCpuTopologyConstraints ⟨8, []⟩ ⟨none, some 2, none, none, none, some 2⟩ =
    .ok (⟨-1, 2, -1⟩, ⟨65536, 65536, 2⟩) by decide +kernel) true []

/-- A flavor of four vCPUs in one core. -/
def oneCore : Flavor := ⟨4, [("hw:cpu_max_sockets".toList, "1".toList), ("hw:cpu_max_cores".toList, "1".toList)]⟩

/-- A NUMA cell that was packed with two threads on each core of the host. -/
def twoThreads : InstanceCell :=
  { InstanceCell.init {0, 1, 2, 3} 512 none (some .dedicated) none with cpuTopology := some ⟨1, 2, 2⟩ }

/-- **Four threads in one core** are the only topology, and the filter for two threads leaves none. -/
theorem getBestCpuTopology_indexError :
    getCpuTopologyConstraints oneCore ⟨none, none, none, none, none, none⟩ = .ok (⟨-1, -1, -1⟩, ⟨1, 1, 65536⟩) ∧
      Within oneCore.vcpus (allowedLimits ⟨1, 1, 65536⟩ true) ⟨1, 1, 4⟩ ∧
      getBestCpuTopology oneCore ⟨none, none, none, none, none, none⟩ true [twoThreads] = .error .indexError ∧
      ¬ BestTopology oneCore.vcpus (allowedLimits ⟨1, 1, 65536⟩ true)
        (getBestCpuTopology oneCore ⟨none, none, none, none, none, none⟩ true [twoThreads]) := by
  have hbest : getBestCpuTopology oneCore ⟨none, none, none, none, none, none⟩ true [twoThreads] = .error .indexError := by
    decide +kernel
  refine ⟨by decide +kernel, ⟨by decide, by decide, by decide, by decide⟩, hbest, fun h => ?_⟩
  rw [hbest] at h
  obtain ⟨⟨_, hclamped⟩, -⟩ := h
  cases hclamped

end Best

end Selection

end Mitaka.Nova
