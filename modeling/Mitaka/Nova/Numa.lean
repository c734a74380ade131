/-
  Subject: nova/virt/hardware.py, fitting an instance topology onto a host and counting its
           usage; nova/objects/numa.py, `NUMACell`.

  Sets of CPUs are finite sets; `SetOrder` is the order in which a set is iterated, which
  the source leaves open. The cells of an instance are changed in place while the
  permutations of the host cells are tried, so each attempt returns its cells, whether or
  not it fits.

  `packInstanceOntoCores_spec` says what CPUs a cell is pinned to, `fit_spec` what a fitted
  topology is like, `usage_spec` what claiming or freeing one does to the host.
-/
import Mitaka.Lib.Dict

namespace Mitaka.Nova

/-! ## 1. Host cells -/

/-- A set of CPUs. -/
abbrev CpuSet := Finset ℕ

/-- The order in which sets are iterated. -/
structure SetOrder where
  list : CpuSet → List ℕ
  nodup : ∀ s, (list s).Nodup
  mem : ∀ s x, x ∈ list s ↔ x ∈ s

/-- `NUMAPagesTopology`. -/
structure PagesTopology where
  sizeKb : ℤ
  total : ℤ
  used : ℤ
  deriving DecidableEq

/-- `free_kb`. -/
def PagesTopology.freeKb (p : PagesTopology) : ℤ := (p.total - p.used) * p.sizeKb

/-- `NUMACell`. -/
structure NumaCell where
  id : ℤ
  cpuset : CpuSet
  memory : ℤ
  cpuUsage : ℤ
  memoryUsage : ℤ
  pinnedCpus : CpuSet
  siblings : List CpuSet
  mempages : List PagesTopology
  deriving DecidableEq

/-- `CPUPinningUnknown` and `CPUPinningInvalid`. -/
inductive PinningError
  | unknown
  | invalid
  deriving DecidableEq

namespace NumaCell

/-- `free_cpus`. -/
def freeCpus (c : NumaCell) : CpuSet := c.cpuset \ c.pinnedCpus

/-- `free_siblings`. -/
def freeSiblings (c : NumaCell) : List CpuSet := c.siblings.map (· ∩ c.freeCpus)

/-- `max(map(len, self.siblings))` -/
def threadsPerCore (c : NumaCell) : ℕ := (c.siblings.map Finset.card).foldr max 0

/-- `pin_cpus`. -/
def pinCpus (c : NumaCell) (cpus : CpuSet) : Except PinningError NumaCell :=
  if cpus \ c.cpuset ≠ ∅ then .error .unknown
  else if c.pinnedCpus ∩ cpus ≠ ∅ then .error .invalid
  else .ok { c with pinnedCpus := c.pinnedCpus ∪ cpus }

/-- `unpin_cpus`. -/
def unpinCpus (c : NumaCell) (cpus : CpuSet) : Except PinningError NumaCell :=
  if cpus \ c.cpuset ≠ ∅ then .error .unknown
  else if c.pinnedCpus ∩ cpus ≠ cpus then .error .invalid
  else .ok { c with pinnedCpus := c.pinnedCpus \ cpus }

/-- The siblings of some CPUs: every sibling set that one of them is in. -/
def withSiblings (c : NumaCell) (cpus : CpuSet) : CpuSet :=
  c.siblings.foldl (fun pinSiblings sib => if cpus ∩ sib ≠ ∅ then pinSiblings ∪ sib else pinSiblings) ∅

/-- `pin_cpus_with_siblings`. -/
def pinCpusWithSiblings (c : NumaCell) (cpus : CpuSet) : Except PinningError NumaCell := c.pinCpus (c.withSiblings cpus)

/-- `unpin_cpus_with_siblings`. -/
def unpinCpusWithSiblings (c : NumaCell) (cpus : CpuSet) : Except PinningError NumaCell :=
  c.unpinCpus (c.withSiblings cpus)

/-- `can_fit_hugepages`; `none` is the `MemoryPageSizeNotSupported`. -/
def canFitHugepages (c : NumaCell) (pagesize memory : ℤ) : Option Bool :=
  (c.mempages.find? fun pages => pages.sizeKb = pagesize).map fun pages =>
    memory ≤ pages.freeKb && memory % pages.sizeKb == 0

end NumaCell

/-! ## 2. Instance cells -/

/-- `CPUThreadAllocationPolicy`. -/
inductive ThreadPolicy
  | prefer
  | isolate
  | require
  deriving DecidableEq

/-- `CPUAllocationPolicy`. -/
inductive CpuPolicy
  | dedicated
  | shared
  deriving DecidableEq

/-- `VirtCPUTopology`. -/
structure VirtCpuTopology where
  sockets : ℕ
  cores : ℕ
  threads : ℕ
  deriving DecidableEq

/-- `InstanceNUMACell`. -/
structure InstanceCell where
  id : ℤ
  cpuset : CpuSet
  memory : ℤ
  pagesize : Option ℤ
  cpuTopology : Option VirtCpuTopology
  cpuPinning : Dict ℕ ℕ
  cpuPolicy : Option CpuPolicy
  cpuThreadPolicy : Option ThreadPolicy
  deriving DecidableEq

namespace InstanceCell

/-- `__init__`, without pinning information. -/
def init (cpuset : CpuSet) (memory : ℤ) (pagesize : Option ℤ) (cpuPolicy : Option CpuPolicy)
    (cpuThreadPolicy : Option ThreadPolicy) : InstanceCell :=
  ⟨-1, cpuset, memory, pagesize, none, [], cpuPolicy, cpuThreadPolicy⟩

/-- `cpu_pinning_requested`. -/
def cpuPinningRequested (c : InstanceCell) : Bool := c.cpuPolicy == some .dedicated

/-- `pin`. -/
def pin (c : InstanceCell) (pair : ℕ × ℕ) : InstanceCell :=
  if pair.1 ∈ c.cpuset then { c with cpuPinning := c.cpuPinning.set pair.1 pair.2 } else c

/-- `pin_vcpus`. -/
def pinVcpus (c : InstanceCell) (cpuPairs : List (ℕ × ℕ)) : InstanceCell := cpuPairs.foldl pin c

/-- `set(self.cpu_pinning.values())` -/
def pinnedCpus (c : InstanceCell) : CpuSet := (c.cpuPinning.map Prod.snd).toFinset

/-- An `isolate` cell. -/
def isolate (c : InstanceCell) : Bool := c.cpuThreadPolicy == some .isolate

end InstanceCell

/-- `InstanceNUMATopology`. -/
abbrev InstanceTopology := List InstanceCell

/-- `InstanceNUMATopology.cpu_pinning_requested`. -/
def cpuPinningRequested (t : InstanceTopology) : Bool := t.all InstanceCell.cpuPinningRequested

/-! ## 3. Packing -/

/-- `sibling_sets[threads_no]`. -/
def siblingSets (available : List CpuSet) (threadsNo : ℕ) : List CpuSet :=
  available.filter fun sib => threadsNo ≤ sib.card

/-- The keys of `sibling_sets`, in descending order. -/
def siblingKeys (available : List CpuSet) : List ℕ :=
  ((List.range ((available.map Finset.card).foldr max 0)).map (· + 1)).reverse

/-- `_orphans`. -/
def orphans (c : InstanceCell) (threadsPerCore : ℕ) : ℕ := c.cpuset.card % threadsPerCore

/-- `_threads`. -/
def threads (c : InstanceCell) (threadsPerCore : ℕ) : ℕ := Nat.gcd threadsPerCore (orphans c threadsPerCore)

/-- `sorted(cpus)` -/
def sortedCpus (cpus : CpuSet) : List ℕ := (List.range (cpus.sup id + 1)).filter (· ∈ cpus)

/-- `_get_pinning`; nothing is an empty list. -/
def getPinning (order : SetOrder) (threadsNo : ℕ) (siblingSet : List CpuSet) (instanceCores : CpuSet) :
    List (ℕ × ℕ) :=
  if threadsNo * siblingSet.length < instanceCores.card then []
  else
    let usableCores := siblingSet.map fun s => (order.list s).take threadsNo
    (sortedCpus instanceCores).zip usableCores.flatten

/-- The packing loop: the first number of threads that works, with its pinning, or the last one tried. -/
def packLoop (order : SetOrder) (available : List CpuSet) (c : InstanceCell) :
    List ℕ → ℕ × List (ℕ × ℕ) → ℕ × List (ℕ × ℕ)
  | [], last => last
  | threadsNo :: keys, (_, pinning) =>
    if c.cpuThreadPolicy = some .require ∧ threadsNo ≤ 1 then packLoop order available c keys (threadsNo, pinning)
    else
      let pinning := getPinning order threadsNo (siblingSets available threadsNo) c.cpuset
      if pinning ≠ [] then (threadsNo, pinning) else packLoop order available c keys (threadsNo, pinning)

/-- `_pack_instance_onto_cores`. -/
def packInstanceOntoCores (order : SetOrder) (available : List CpuSet) (c : InstanceCell) (hostCellId : ℤ)
    (threadsPerCore : ℕ) : Option InstanceCell :=
  let (threadsNo, pinning) :=
    if c.cpuThreadPolicy = some .isolate then
      if threadsPerCore ∉ siblingKeys available then (1, [])
      else (1, getPinning order 1 (siblingSets available threadsPerCore) c.cpuset)
    else
      let (threadsNo, pinning) := packLoop order available c (siblingKeys available) (1, [])
      (threads c threadsNo, pinning)
  if pinning = [] then none
  else some { c.pinVcpus pinning with
    cpuTopology := some ⟨1, pinning.length / threadsNo, threadsNo⟩
    id := hostCellId }

/-- `_numa_fit_instance_cell_with_pinning`. -/
def fitInstanceCellWithPinning (order : SetOrder) (h : NumaCell) (c : InstanceCell) : Option InstanceCell :=
  if h.freeCpus.card < c.cpuset.card ∨ h.memory - h.memoryUsage < c.memory then none
  else if h.siblings ≠ [] then packInstanceOntoCores order h.freeSiblings c h.id h.threadsPerCore
  else packInstanceOntoCores order ((order.list h.freeCpus).map fun cpu => {cpu}) c h.id 1

/-! ## 4. Fitting -/

/-- `verify_pagesizes`: the first page size that fits; an exception ends the search. -/
def verifyPagesizes (h : NumaCell) (memory : ℤ) : List ℤ → Option ℤ
  | [] => none
  | pagesize :: pagesizes =>
    match h.canFitHugepages pagesize memory with
    | none => none
    | some true => some pagesize
    | some false => verifyPagesizes h memory pagesizes

/-- `_numa_cell_supports_pagesize_request`; the exception, like no page size, ends the attempt. -/
def supportsPagesizeRequest (h : NumaCell) (c : InstanceCell) (pagesize : ℤ) : Option ℤ :=
  let availPagesize := (h.mempages.map PagesTopology.sizeKb).mergeSort (fun a b => decide (b ≤ a))
  let memory := c.memory * 1024
  if pagesize = -1 then verifyPagesizes h memory (availPagesize.drop (availPagesize.length - 1))
  else if pagesize = -2 then verifyPagesizes h memory availPagesize.dropLast
  else if pagesize = -3 then verifyPagesizes h memory availPagesize
  else verifyPagesizes h memory [pagesize]

/-- `NUMATopologyLimits`. -/
structure Limits where
  cpuAllocationRatio : ℚ
  ramAllocationRatio : ℚ

/-- The first part of `_numa_fit_instance_cell`: the cell pinned, if it asks for that. -/
def fitCpus (order : SetOrder) (limits : Option Limits) (h : NumaCell) (c : InstanceCell) : Option InstanceCell :=
  if h.memory < c.memory ∨ h.cpuset.card < c.cpuset.card then none
  else if c.cpuPinningRequested then fitInstanceCellWithPinning order h c
  else
    match limits with
    | none => some c
    | some limits =>
      let memoryUsage := h.memoryUsage + c.memory
      let cpuUsage := h.cpuUsage + c.cpuset.card
      if h.memory * limits.ramAllocationRatio < memoryUsage ∨ h.cpuset.card * limits.cpuAllocationRatio < cpuUsage then none
      else some c

/-- `_numa_fit_instance_cell`: the cell afterwards, and whether it fits. -/
def fitInstanceCell (order : SetOrder) (limits : Option Limits) (h : NumaCell) (c : InstanceCell) : InstanceCell × Bool :=
  match fitCpus order limits h c with
  | none => (c, false)
  | some c =>
    match c.pagesize.filter (· ≠ 0) with
    | none => ({ c with id := h.id, pagesize := none }, true)
    | some pagesize =>
      match (supportsPagesizeRequest h c pagesize).filter (· ≠ 0) with
      | none => (c, false)
      | some pagesize => ({ c with id := h.id, pagesize := some pagesize }, true)

/-- One permutation of the host cells: the cells afterwards, and whether all of them fit. -/
def fitCells (order : SetOrder) (limits : Option Limits) : List NumaCell → InstanceTopology → InstanceTopology × Bool
  | h :: hs, c :: cs =>
    match fitInstanceCell order limits h c with
    | (c, false) => (c :: cs, false)
    | (c, true) => let (cs, fits) := fitCells order limits hs cs; (c :: cs, fits)
  | _, cs => (cs, true)

/-- `itertools.permutations(l, r)` -/
def permutations {α : Type} : ℕ → List α → List (List α)
  | 0, _ => [[]]
  | r + 1, l => (List.range l.length).flatMap fun i =>
      (l[i]?).toList.flatMap fun x => (permutations r (l.eraseIdx i)).map (x :: ·)

/-- The loop over the permutations. `pciFits`: there are no PCI requests, or they are supported with these cells. -/
def fitPermutations (order : SetOrder) (limits : Option Limits) (pciFits : InstanceTopology → Bool) :
    List (List NumaCell) → InstanceTopology → Option InstanceTopology
  | [], _ => none
  | perm :: perms, cells =>
    match fitCells order limits perm cells with
    | (cells, true) => if pciFits cells then some cells else fitPermutations order limits pciFits perms cells
    | (cells, false) => fitPermutations order limits pciFits perms cells

/-- `numa_fit_instance_to_host`. -/
def numaFitInstanceToHost (order : SetOrder) (host : List NumaCell) (instanceTopology : InstanceTopology)
    (limits : Option Limits) (pciFits : InstanceTopology → Bool) : Option InstanceTopology :=
  if host = [] ∨ instanceTopology = [] then none
  else if host.length < instanceTopology.length then none
  else fitPermutations order limits pciFits (permutations instanceTopology.length host) instanceTopology

/-! ## 5. Usage -/

/-- `_numa_pagesize_usage_from_cell`. -/
def pagesizeUsageFromCell (h : NumaCell) (c : InstanceCell) (sign : ℤ) : List PagesTopology :=
  h.mempages.map fun pages =>
    if some pages.sizeKb = c.pagesize then
      { pages with used := max 0 (pages.used + c.memory * 1024 / pages.sizeKb * sign) }
    else pages

/-- The pinning of one instance cell on its host cell. -/
def pinCell (free : Bool) (newcell : NumaCell) (c : InstanceCell) : Except PinningError NumaCell :=
  match free, c.isolate with
  | true, true => newcell.unpinCpusWithSiblings c.pinnedCpus
  | true, false => newcell.unpinCpus c.pinnedCpus
  | false, true => newcell.pinCpusWithSiblings c.pinnedCpus
  | false, false => newcell.pinCpus c.pinnedCpus

/-- The usage of one instance cell: the new cell, the memory and the CPUs used. -/
def cellUsage (h : NumaCell) (free pinning : Bool) (s : NumaCell × ℤ × ℤ) (c : InstanceCell) :
    Except PinningError (NumaCell × ℤ × ℤ) :=
  let (newcell, memoryUsage, cpuUsage) := s
  let sign : ℤ := if free then -1 else 1
  if c.id = h.id then
    let memoryUsage := memoryUsage + sign * c.memory
    let cpuUsageDiff : ℤ :=
      if c.isolate ∧ h.siblings ≠ [] then c.cpuset.card * h.threadsPerCore else c.cpuset.card
    let cpuUsage := cpuUsage + sign * cpuUsageDiff
    let newcell :=
      if c.pagesize.any (0 < ·) then { newcell with mempages := pagesizeUsageFromCell h c sign } else newcell
    if pinning then (pinCell free newcell c).map fun newcell => (newcell, memoryUsage, cpuUsage)
    else .ok (newcell, memoryUsage, cpuUsage)
  else .ok s

/-- The usage of one instance. -/
def instanceUsage (h : NumaCell) (free : Bool) (s : NumaCell × ℤ × ℤ) (t : InstanceTopology) :
    Except PinningError (NumaCell × ℤ × ℤ) :=
  (t.foldlM (cellUsage h free (cpuPinningRequested t)) s).map fun s =>
    ({ s.1 with cpuUsage := max 0 s.2.2, memoryUsage := max 0 s.2.1 }, s.2)

/-- One host cell of `numa_usage_from_instances`. -/
def hostCellUsage (instances : List InstanceTopology) (free : Bool) (h : NumaCell) : Except PinningError NumaCell :=
  (instances.foldlM (instanceUsage h free) ({ h with cpuUsage := 0, memoryUsage := 0 }, h.memoryUsage, h.cpuUsage)).map
    Prod.fst

/-- `numa_usage_from_instances`. -/
def numaUsageFromInstances (host : List NumaCell) (instances : List InstanceTopology) (free : Bool) :
    Except PinningError (List NumaCell) :=
  host.mapM (hostCellUsage instances free)

/-! ## 6. What a cell is pinned to -/

variable {h : NumaCell}

theorem mem_withSiblings {cpus : CpuSet} {x : ℕ} :
    x ∈ h.withSiblings cpus ↔ ∃ sib ∈ h.siblings, (∃ y ∈ cpus, y ∈ sib) ∧ x ∈ sib := by
  have hne : ∀ sib : CpuSet, cpus ∩ sib ≠ ∅ ↔ ∃ y ∈ cpus, y ∈ sib := fun sib => by
    rw [← Finset.nonempty_iff_ne_empty]
    exact ⟨fun ⟨y, hy⟩ => ⟨y, Finset.mem_inter.mp hy⟩, fun ⟨y, hy⟩ => ⟨y, Finset.mem_inter.mpr hy⟩⟩
  have hfold : ∀ (l : List CpuSet) (s : CpuSet),
      x ∈ l.foldl (fun pinSiblings sib => if cpus ∩ sib ≠ ∅ then pinSiblings ∪ sib else pinSiblings) s ↔
        x ∈ s ∨ ∃ sib ∈ l, (∃ y ∈ cpus, y ∈ sib) ∧ x ∈ sib := fun l => by
    induction l with
    | nil => simp
    | cons sib l ih =>
      intro s
      rw [List.foldl_cons, ih, List.exists_mem_cons_iff]
      by_cases hs : cpus ∩ sib ≠ ∅
      · rw [if_pos hs, Finset.mem_union, or_assoc, and_iff_right ((hne sib).mp hs)]
      · have hno : ¬ ((∃ y ∈ cpus, y ∈ sib) ∧ x ∈ sib) := fun h => hs ((hne sib).mpr h.1)
        rw [if_neg hs, or_iff_right hno]
  rw [NumaCell.withSiblings, hfold]
  simp

/-- The pinning of a cell has one entry a vCPU. -/
structure InstanceCell.Pinned (c : InstanceCell) : Prop where
  nodup : c.cpuPinning.KeysNodup
  mem : ∀ k v, c.cpuPinning.get k = some v → k ∈ c.cpuset

/-- The cells before and after an attempt ask for the same. -/
structure SameRequest (c c' : InstanceCell) : Prop where
  cpuset : c'.cpuset = c.cpuset
  cpuPolicy : c'.cpuPolicy = c.cpuPolicy
  cpuThreadPolicy : c'.cpuThreadPolicy = c.cpuThreadPolicy

theorem SameRequest.trans {a b c : InstanceCell} (h : SameRequest a b) (h' : SameRequest b c) : SameRequest a c :=
  ⟨h'.cpuset.trans h.cpuset, h'.cpuPolicy.trans h.cpuPolicy, h'.cpuThreadPolicy.trans h.cpuThreadPolicy⟩

variable {c : InstanceCell}

/-- **Pinning every vCPU** leaves no pinning of before. -/
theorem pinVcpus_spec (hc : c.Pinned) (pairs : List (ℕ × ℕ)) :
    (c.pinVcpus pairs).Pinned ∧ SameRequest c (c.pinVcpus pairs) ∧
      ∀ k v, (c.pinVcpus pairs).cpuPinning.get k = some v →
        (∃ p ∈ pairs, v = p.2) ∨ k ∉ pairs.map Prod.fst := by
  induction pairs using List.reverseRecOn with
  | nil => exact ⟨hc, ⟨rfl, rfl, rfl⟩, fun k v _ => Or.inr List.not_mem_nil⟩
  | append_singleton pairs p ih =>
    obtain ⟨hp, hsame, hget⟩ := ih
    have happend : c.pinVcpus (pairs ++ [p]) = (c.pinVcpus pairs).pin p := by
      rw [InstanceCell.pinVcpus, List.foldl_append]
      rfl
    rw [happend]
    generalize c.pinVcpus pairs = c' at hp hsame hget
    rw [InstanceCell.pin]
    split
    case isTrue hmem =>
      refine ⟨⟨hp.nodup.set _ _, fun k v hk => ?_⟩, ⟨hsame.cpuset, hsame.cpuPolicy, hsame.cpuThreadPolicy⟩,
        fun k v hk => ?_⟩
      · rw [Dict.get_set] at hk
        split at hk
        case isTrue e => exact e ▸ hmem
        case isFalse => exact hp.mem k v hk
      · dsimp only at hk
        rw [Dict.get_set] at hk
        split at hk
        case isTrue e => exact Or.inl ⟨p, List.mem_append_right _ (List.mem_singleton_self p), (Option.some.inj hk).symm⟩
        case isFalse e =>
          rcases hget k v hk with ⟨q, hq, hv⟩ | hk'
          · exact Or.inl ⟨q, List.mem_append_left _ hq, hv⟩
          · refine Or.inr fun hm => ?_
            rw [List.map_append, List.mem_append] at hm
            rcases hm with hm | hm
            · exact hk' hm
            · exact e (List.mem_singleton.mp hm).symm
    case isFalse hmem =>
      refine ⟨hp, hsame, fun k v hk => ?_⟩
      rcases hget k v hk with ⟨q, hq, hv⟩ | hk'
      · exact Or.inl ⟨q, List.mem_append_left _ hq, hv⟩
      · refine Or.inr fun hm => ?_
        rw [List.map_append, List.mem_append] at hm
        rcases hm with hm | hm
        · exact hk' hm
        · obtain rfl : k = p.1 := by simpa using hm
          exact hmem (hp.mem p.1 v hk)

theorem mem_sortedCpus {cpus : CpuSet} {x : ℕ} : x ∈ sortedCpus cpus ↔ x ∈ cpus := by
  rw [sortedCpus, List.mem_filter, List.mem_range, decide_eq_true_iff, Nat.lt_succ_iff]
  exact ⟨fun h => h.2, fun h => ⟨Finset.le_sup (f := id) h, h⟩⟩

/-- The iteration order of a set of small integers. -/
def sortedOrder : SetOrder where
  list := sortedCpus
  nodup _ := List.nodup_range.filter _
  mem _ _ := mem_sortedCpus

theorem length_list (order : SetOrder) (s : CpuSet) : (order.list s).length = s.card := by
  rw [← List.toFinset_card_of_nodup (order.nodup s)]
  congr 1
  exact Finset.ext fun x => by rw [List.mem_toFinset, order.mem]

variable {order : SetOrder}

theorem getPinning_spec {n : ℕ} {sets : List CpuSet} {cores : CpuSet}
    (hlen : ∀ s ∈ sets, n ≤ s.card) (h : getPinning order n sets cores ≠ []) :
    (getPinning order n sets cores).map Prod.fst = sortedCpus cores ∧
      ∀ p ∈ getPinning order n sets cores, ∃ s ∈ sets, p.2 ∈ s := by
  rw [getPinning] at h ⊢
  split at h
  · exact absurd rfl h
  · rename_i henough
    rw [if_neg henough]
    dsimp only
    have htotal : ((sets.map fun s => (order.list s).take n).flatten).length = n * sets.length := by
      rw [List.length_flatten, List.map_map]
      have hall : ∀ l : List CpuSet, (∀ s ∈ l, n ≤ s.card) →
          (l.map (List.length ∘ fun s => (order.list s).take n)).sum = n * l.length := fun l => by
        induction l with
        | nil => simp
        | cons s l ih =>
          intro hl
          rw [List.map_cons, List.sum_cons, ih fun s hs => hl s (List.mem_cons_of_mem _ hs), Function.comp_apply,
            List.length_take, length_list, min_eq_left (hl s List.mem_cons_self), List.length_cons, Nat.mul_succ, Nat.add_comm]
      exact hall sets hlen
    refine ⟨List.map_fst_zip (by
      have hcores : (sortedCpus cores).length = cores.card := length_list sortedOrder cores
      rw [htotal, hcores]
      exact Nat.le_of_not_lt henough), fun p hp => ?_⟩
    obtain ⟨a, b⟩ := p
    obtain ⟨l, hl, hb⟩ := List.mem_flatten.mp (List.of_mem_zip hp).2
    obtain ⟨s, hs, rfl⟩ := List.mem_map.mp hl
    exact ⟨s, hs, (order.mem s b).mp (List.mem_of_mem_take hb)⟩

variable {available : List CpuSet}

theorem packLoop_spec (keys : List ℕ)
    (last : ℕ × List (ℕ × ℕ)) (hlast : last.2 = []) (h : (packLoop order available c keys last).2 ≠ []) :
    ∃ n, (packLoop order available c keys last).2 = getPinning order n (siblingSets available n) c.cpuset := by
  induction keys generalizing last with
  | nil => exact absurd hlast h
  | cons n keys ih =>
    obtain ⟨m, pinning⟩ := last
    rw [packLoop] at h ⊢
    split at h
    case isTrue hr =>
      rw [if_pos hr]
      exact ih _ hlast h
    case isFalse hr =>
      rw [if_neg hr]
      dsimp only at h ⊢
      split at h
      case isTrue hp =>
        rw [if_pos hp]
        exact ⟨n, rfl⟩
      case isFalse hp =>
        rw [if_neg hp]
        exact ih _ (not_not.mp hp) h

/-- A cell that has been pinned to sets of CPUs. -/
structure PinnedTo (available : List CpuSet) (threadsPerCore : ℕ) (id : ℤ) (c c' : InstanceCell) : Prop where
  same : SameRequest c c'
  pinned : c'.Pinned
  id : c'.id = id
  mem : ∀ x ∈ c'.pinnedCpus, ∃ s ∈ available, x ∈ s ∧ (c.isolate = true → threadsPerCore ≤ s.card)

variable {c c' : InstanceCell}

/-- **What a cell is pinned to.** -/
theorem packInstanceOntoCores_spec {id : ℤ} {n : ℕ}
    (hc : c.Pinned) (h : packInstanceOntoCores order available c id n = some c') : PinnedTo available n id c c' := by
  have hsets : ∀ m, ∀ s ∈ siblingSets available m, s ∈ available ∧ m ≤ s.card := fun m s hs => by
    obtain ⟨hs, hm⟩ := List.mem_filter.mp hs
    exact ⟨hs, of_decide_eq_true hm⟩
  have hpinned : ∀ (pairs : List (ℕ × ℕ)) (topology : Option VirtCpuTopology) (sets : List CpuSet),
      pairs.map Prod.fst = sortedCpus c.cpuset → (∀ p ∈ pairs, ∃ s ∈ sets, p.2 ∈ s) →
      (∀ s ∈ sets, s ∈ available ∧ (c.isolate = true → n ≤ s.card)) →
      PinnedTo available n id c { c.pinVcpus pairs with cpuTopology := topology, id := id } :=
    fun pairs topology sets hkeys hmem hs => by
    obtain ⟨hp, hsame, hget⟩ := pinVcpus_spec hc pairs
    refine ⟨⟨hsame.cpuset, hsame.cpuPolicy, hsame.cpuThreadPolicy⟩, ⟨hp.nodup, hp.mem⟩, rfl, fun x hx => ?_⟩
    obtain ⟨⟨k, v⟩, he, rfl⟩ := List.mem_map.mp (List.mem_toFinset.mp hx)
    have hk := hp.nodup.mem_iff.mp he
    rcases hget k v hk with ⟨p, hpm, hv⟩ | hk'
    · obtain ⟨s, hss, hps⟩ := hmem p hpm
      obtain ⟨hav, hiso⟩ := hs s hss
      exact ⟨s, hav, hv ▸ hps, hiso⟩
    · rw [hkeys, mem_sortedCpus] at hk'
      exact absurd (hsame.cpuset ▸ hp.mem k v hk) hk'
  rw [packInstanceOntoCores] at h
  by_cases hiso : c.cpuThreadPolicy = some .isolate
  · rw [if_pos hiso] at h
    by_cases hkeys : n ∉ siblingKeys available
    · rw [if_pos hkeys] at h
      cases h
    · rw [if_neg hkeys] at h
      dsimp only at h
      split at h
      · cases h
      · rename_i hne
        obtain rfl := Option.some.inj h
        have hn : 1 ≤ n := by
          have hmem := not_not.mp hkeys
          rw [siblingKeys, List.mem_reverse, List.mem_map] at hmem
          obtain ⟨m, -, rfl⟩ := hmem
          omega
        obtain ⟨hfst, hmem⟩ := getPinning_spec (fun s hs => hn.trans (hsets n s hs).2) hne
        exact hpinned _ _ _ hfst hmem fun s hs => ⟨(hsets n s hs).1, fun _ => (hsets n s hs).2⟩
  · rw [if_neg hiso] at h
    dsimp only at h
    split at h
    · cases h
    · rename_i hne
      obtain rfl := Option.some.inj h
      obtain ⟨m, hm⟩ := packLoop_spec _ _ rfl hne
      rw [hm] at hne
      obtain ⟨hfst, hmem⟩ := getPinning_spec (fun s hs => (hsets m s hs).2) hne
      rw [← hm] at hfst hmem
      refine hpinned _ _ _ hfst hmem fun s hs => ⟨(hsets m s hs).1, fun hc => absurd ?_ hiso⟩
      exact eq_of_beq hc

/-! ## 7. Fitting a topology -/

/-- The sibling sets of a cell are empty or partition its CPUs. -/
structure NumaCell.Partitioned (h : NumaCell) : Prop where
  disjoint : h.siblings.Pairwise Disjoint
  union : h.siblings ≠ [] → ∀ x, x ∈ h.cpuset ↔ ∃ sib ∈ h.siblings, x ∈ sib

theorem NumaCell.Partitioned.eq (hp : h.Partitioned) {s t : CpuSet} (hs : s ∈ h.siblings)
    (ht : t ∈ h.siblings) {x : ℕ} (hxs : x ∈ s) (hxt : x ∈ t) : s = t := by
  by_contra hne
  exact Finset.disjoint_left.mp (hp.disjoint.forall hs ht hne) hxs hxt

theorem card_le_threadsPerCore {s : CpuSet} (hs : s ∈ h.siblings) : s.card ≤ h.threadsPerCore := by
  rw [NumaCell.threadsPerCore]
  have hfold : ∀ (l : List ℕ) (n : ℕ), n ∈ l → n ≤ l.foldr max 0 := fun l => by
    induction l with
    | nil => simp
    | cons m l ih =>
      intro n hn
      rcases List.mem_cons.mp hn with rfl | hn
      · exact le_max_left _ _
      · exact (ih n hn).trans (le_max_right _ _)
  exact hfold _ _ (List.mem_map_of_mem hs)

/-- A cell that has been fitted onto a host cell. -/
structure FitsOn (h : NumaCell) (c : InstanceCell) : Prop where
  id : c.id = h.id
  pins : c.cpuPinningRequested = true → c.pinnedCpus ⊆ h.freeCpus
  siblings : c.cpuPinningRequested = true → c.isolate = true → h.siblings ≠ [] → h.withSiblings c.pinnedCpus ⊆ h.freeCpus

theorem PinnedTo.requested {n : ℕ} {id : ℤ}
    (h : PinnedTo available n id c c') : c'.isolate = c.isolate := by
  rw [InstanceCell.isolate, InstanceCell.isolate, h.same.cpuThreadPolicy]

/-- **Pinning onto a host cell** takes free CPUs, with free siblings for an `isolate` cell. -/
theorem fitInstanceCellWithPinning_spec (hh : h.Partitioned)
    (hc : c.Pinned) (hfit : fitInstanceCellWithPinning order h c = some c') : c'.Pinned ∧ FitsOn h c' := by
  rw [fitInstanceCellWithPinning] at hfit
  split at hfit
  · cases hfit
  · split at hfit
    case isTrue hsib =>
      have hp := packInstanceOntoCores_spec hc hfit
      refine ⟨hp.pinned, hp.id, fun _ x hx => ?_, fun _ hiso _ x hx => ?_⟩
      · obtain ⟨s, hs, hxs, -⟩ := hp.mem x hx
        obtain ⟨sib, -, rfl⟩ := List.mem_map.mp hs
        exact (Finset.mem_inter.mp hxs).2
      · -- an isolate cell takes whole cores, and the sibling sets of its CPUs are these
        obtain ⟨sib, hsib, ⟨y, hy, hys⟩, hxs⟩ := mem_withSiblings.mp hx
        obtain ⟨s, hs, hyfree, hcard⟩ := hp.mem y hy
        obtain ⟨core, hcore, rfl⟩ := List.mem_map.mp hs
        have hle : core.card ≤ (core ∩ h.freeCpus).card :=
          (card_le_threadsPerCore hcore).trans (hcard (hp.requested ▸ hiso))
        have hwhole : core ∩ h.freeCpus = core := Finset.eq_of_subset_of_card_le Finset.inter_subset_left hle
        have heq := hh.eq hsib hcore hys (Finset.mem_inter.mp hyfree).1
        exact (Finset.mem_inter.mp (hwhole.symm ▸ heq ▸ hxs : x ∈ core ∩ h.freeCpus)).2
    case isFalse hsib =>
      have hp := packInstanceOntoCores_spec hc hfit
      refine ⟨hp.pinned, hp.id, fun _ x hx => ?_, fun _ _ hne => absurd (not_not.mp hsib) hne⟩
      obtain ⟨s, hs, hxs, -⟩ := hp.mem x hx
      obtain ⟨cpu, hcpu, rfl⟩ := List.mem_map.mp hs
      rw [Finset.mem_singleton.mp hxs]
      exact (order.mem _ _).mp hcpu

theorem fitCpus_spec {limits : Option Limits} (hh : h.Partitioned)
    (hc : c.Pinned) (hfit : fitCpus order limits h c = some c') :
    c'.Pinned ∧ ∀ id pagesize, id = h.id → FitsOn h { c' with id := id, pagesize := pagesize } := by
  unfold fitCpus at hfit
  split at hfit
  · cases hfit
  · split at hfit
    case isTrue hreq =>
      obtain ⟨hp, hf⟩ := fitInstanceCellWithPinning_spec hh hc hfit
      exact ⟨hp, fun id pagesize hid => ⟨hid, hf.pins, hf.siblings⟩⟩
    case isFalse hreq =>
      have hsame : c' = c := by
        cases limits with
        | none => exact (Option.some.inj hfit).symm
        | some limits =>
          dsimp only at hfit
          split at hfit
          · cases hfit
          · exact (Option.some.inj hfit).symm
      subst hsame
      exact ⟨hc, fun id pagesize hid => ⟨hid, fun h => absurd h hreq, fun h => absurd h hreq⟩⟩

theorem fitInstanceCell_spec (order : SetOrder) (limits : Option Limits) (hh : h.Partitioned)
    (hc : c.Pinned) : (fitInstanceCell order limits h c).1.Pinned ∧
      ((fitInstanceCell order limits h c).2 = true → FitsOn h (fitInstanceCell order limits h c).1) := by
  rw [fitInstanceCell]
  cases hcpus : fitCpus order limits h c with
  | none => exact ⟨hc, nofun⟩
  | some c' =>
    obtain ⟨hp, hf⟩ := fitCpus_spec hh hc hcpus
    dsimp only
    split
    · exact ⟨⟨hp.nodup, hp.mem⟩, fun _ => hf _ _ rfl⟩
    · split
      · exact ⟨hp, nofun⟩
      · exact ⟨⟨hp.nodup, hp.mem⟩, fun _ => hf _ _ rfl⟩

theorem fitCells_spec (order : SetOrder) (limits : Option Limits) (hs : List NumaCell) (cs : InstanceTopology)
    (hh : ∀ h ∈ hs, h.Partitioned) (hc : ∀ c ∈ cs, c.Pinned) (hlen : hs.length = cs.length) :
    (∀ c ∈ (fitCells order limits hs cs).1, c.Pinned) ∧ (fitCells order limits hs cs).1.length = cs.length ∧
      ((fitCells order limits hs cs).2 = true → List.Forall₂ FitsOn hs (fitCells order limits hs cs).1) := by
  induction hs generalizing cs with
  | nil =>
    obtain rfl := List.eq_nil_of_length_eq_zero hlen.symm
    exact ⟨hc, rfl, fun _ => .nil⟩
  | cons h hs ih =>
    cases cs with
    | nil => cases hlen
    | cons c cs =>
      obtain ⟨hp, hf⟩ := fitInstanceCell_spec order limits (hh h List.mem_cons_self)
        (hc c List.mem_cons_self)
      obtain ⟨hp', hlen', hf'⟩ := ih cs (fun h hm => hh h (List.mem_cons_of_mem _ hm))
        (fun c hm => hc c (List.mem_cons_of_mem _ hm)) (Nat.succ.inj hlen)
      rw [fitCells]
      generalize fitInstanceCell order limits h c = x at hp hf
      obtain ⟨c', b⟩ := x
      cases b with
      | false =>
        refine ⟨fun d hd => ?_, rfl, nofun⟩
        rcases List.mem_cons.mp hd with rfl | hd
        · exact hp
        · exact hc d (List.mem_cons_of_mem _ hd)
      | true =>
        dsimp only
        generalize fitCells order limits hs cs = y at hp' hlen' hf'
        obtain ⟨cs', b'⟩ := y
        refine ⟨fun d hd => ?_, congrArg Nat.succ hlen', fun hb => .cons (hf rfl) (hf' hb)⟩
        rcases List.mem_cons.mp hd with rfl | hd
        · exact hp
        · exact hp' d hd

theorem mem_permutations {α : Type} {r : ℕ} {l p : List α} (h : p ∈ permutations r l) : p.length = r ∧ p.Subperm l := by
  induction r generalizing l p with
  | zero =>
    obtain rfl := List.mem_singleton.mp h
    exact ⟨rfl, List.nil_subperm⟩
  | succ r ih =>
    obtain ⟨i, hi, h⟩ := List.mem_flatMap.mp h
    obtain ⟨x, hx, h⟩ := List.mem_flatMap.mp h
    obtain ⟨p, hp, rfl⟩ := List.mem_map.mp h
    obtain ⟨hlen, hsub⟩ := ih hp
    have hi' := List.mem_range.mp hi
    rw [List.getElem?_eq_getElem hi', Option.toList_some, List.mem_singleton] at hx
    refine ⟨congrArg Nat.succ hlen, ((List.subperm_cons x).mpr hsub).trans ?_⟩
    rw [hx]
    exact (List.getElem_cons_eraseIdx_perm hi').subperm

theorem map_id_of_fitsOn {hs : List NumaCell} {cs : InstanceTopology} (h : List.Forall₂ FitsOn hs cs) :
    cs.map InstanceCell.id = hs.map NumaCell.id := by
  induction h with
  | nil => rfl
  | cons hx _ ih => rw [List.map_cons, List.map_cons, hx.id, ih]

/-- A topology that has been fitted onto a host. -/
structure Fitted (host : List NumaCell) (t : InstanceTopology) : Prop where
  nodup : (t.map InstanceCell.id).Nodup
  cell : ∀ c ∈ t, ∃ h ∈ host, FitsOn h c

/-- **What a fitted topology is like.** -/
theorem fit_spec {host : List NumaCell} {t t' : InstanceTopology} {limits : Option Limits}
    {pciFits : InstanceTopology → Bool} (hids : (host.map NumaCell.id).Nodup) (hh : ∀ h ∈ host, h.Partitioned)
    (hc : ∀ c ∈ t, c.Pinned) (h : numaFitInstanceToHost order host t limits pciFits = some t') : Fitted host t' := by
  have hloop : ∀ (perms : List (List NumaCell)) (cells : InstanceTopology),
      (∀ p ∈ perms, p.length = cells.length ∧ p.Subperm host) → (∀ c ∈ cells, c.Pinned) →
      fitPermutations order limits pciFits perms cells = some t' → Fitted host t' := fun perms => by
    induction perms with
    | nil => exact fun _ _ _ h => nomatch h
    | cons perm perms ih =>
      intro cells hperms hcells h
      obtain ⟨hlen, hsub⟩ := hperms perm List.mem_cons_self
      obtain ⟨hp, hlen', hf⟩ := fitCells_spec order limits perm cells
        (fun h hm => hh h (hsub.subset hm)) hcells hlen
      have hrest : ∀ p ∈ perms, p.length = (fitCells order limits perm cells).1.length ∧ p.Subperm host := fun p hm => by
        rw [hlen']
        exact hperms p (List.mem_cons_of_mem _ hm)
      rw [fitPermutations] at h
      generalize fitCells order limits perm cells = x at hp hlen' hf hrest h
      obtain ⟨cells', b⟩ := x
      cases b with
      | false => exact ih cells' hrest hp h
      | true =>
        dsimp only at h
        split at h
        · obtain rfl := Option.some.inj h
          have hall := hf rfl
          refine ⟨?_, fun c hc => ?_⟩
          · rw [map_id_of_fitsOn hall]
            obtain ⟨l, hperm, hsubl⟩ := hsub
            exact ((hperm.map NumaCell.id).nodup_iff).mp ((hsubl.map NumaCell.id).nodup hids)
          · obtain ⟨i, hi, rfl⟩ := List.getElem_of_mem hc
            have hi' : i < perm.length := by rw [hall.length_eq]; exact hi
            exact ⟨perm[i], hsub.subset (List.getElem_mem hi'), hall.get hi' hi⟩
        · exact ih cells' hrest hp h
  rw [numaFitInstanceToHost] at h
  split at h
  · cases h
  · split at h
    · cases h
    · exact hloop _ _ (fun p hp => mem_permutations hp) hc h

/-! ## 8. Claiming and freeing a topology -/

/-- The CPUs of a host cell that an instance cell takes. -/
def cellPins (h : NumaCell) (c : InstanceCell) : CpuSet :=
  if c.isolate then h.withSiblings c.pinnedCpus else c.pinnedCpus

/-- The CPUs of a host cell that an instance takes. -/
def footprint (h : NumaCell) (t : InstanceTopology) : CpuSet :=
  if cpuPinningRequested t then ((t.find? fun c => c.id = h.id).map (cellPins h)).getD ∅ else ∅

/-- What usage does not change of a host cell. -/
structure SameCell (h h' : NumaCell) : Prop where
  id : h'.id = h.id
  cpuset : h'.cpuset = h.cpuset
  siblings : h'.siblings = h.siblings

theorem SameCell.cellPins {h h' : NumaCell} (hs : SameCell h h') (c : InstanceCell) : cellPins h' c = cellPins h c := by
  rw [Nova.cellPins, Nova.cellPins, NumaCell.withSiblings, NumaCell.withSiblings, hs.siblings]

theorem SameCell.footprint {h h' : NumaCell} (hs : SameCell h h') (t : InstanceTopology) :
    footprint h' t = footprint h t := by
  rw [Nova.footprint, Nova.footprint, hs.id, funext hs.cellPins]

/-- CPUs that can be pinned, or unpinned. -/
structure Allowed (free : Bool) (h : NumaCell) (cpus : CpuSet) : Prop where
  known : cpus ⊆ h.cpuset
  valid : if free then cpus ⊆ h.pinnedCpus else Disjoint h.pinnedCpus cpus

/-- The pinned CPUs afterwards. -/
def pinnedAfter (free : Bool) (pinned cpus : CpuSet) : CpuSet := if free then pinned \ cpus else pinned ∪ cpus

theorem pinCell_spec {free : Bool} {h newcell : NumaCell} (hs : SameCell h newcell)
    (hpinned : newcell.pinnedCpus = h.pinnedCpus) (ha : Allowed free h (cellPins h c)) :
    pinCell free newcell c = .ok { newcell with pinnedCpus := pinnedAfter free h.pinnedCpus (cellPins h c) } := by
  have hknown : ¬ cellPins h c \ newcell.cpuset ≠ ∅ := by
    rw [hs.cpuset, not_not, Finset.sdiff_eq_empty_iff_subset]
    exact ha.known
  have hpins : cellPins h c = if c.isolate then newcell.withSiblings c.pinnedCpus else c.pinnedCpus := by
    rw [← hs.cellPins]
    rfl
  have hvalid := ha.valid
  unfold pinCell
  cases free with
  | true =>
    have hinter : ¬ newcell.pinnedCpus ∩ cellPins h c ≠ cellPins h c := by
      rw [hpinned, not_not, Finset.inter_eq_right]
      exact hvalid
    cases hiso : c.isolate with
    | true =>
      rw [hiso, if_pos rfl] at hpins
      dsimp only
      rw [NumaCell.unpinCpusWithSiblings, ← hpins, NumaCell.unpinCpus, if_neg hknown, if_neg hinter, hpinned]
      rfl
    | false =>
      rw [hiso, if_neg Bool.false_ne_true] at hpins
      dsimp only
      rw [← hpins, NumaCell.unpinCpus, if_neg hknown, if_neg hinter, hpinned]
      rfl
  | false =>
    have hinter : ¬ newcell.pinnedCpus ∩ cellPins h c ≠ ∅ := by
      rw [hpinned, not_not, ← Finset.disjoint_iff_inter_eq_empty]
      exact hvalid
    cases hiso : c.isolate with
    | true =>
      rw [hiso, if_pos rfl] at hpins
      dsimp only
      rw [NumaCell.pinCpusWithSiblings, ← hpins, NumaCell.pinCpus, if_neg hknown, if_neg hinter, hpinned]
      rfl
    | false =>
      rw [hiso, if_neg Bool.false_ne_true] at hpins
      dsimp only
      rw [← hpins, NumaCell.pinCpus, if_neg hknown, if_neg hinter, hpinned]
      rfl

variable {t : InstanceTopology}

/-- One instance cell at most is on a host cell. -/
theorem foldlM_cellUsage {free pinning : Bool}
    (hnodup : (t.map InstanceCell.id).Nodup) (s : NumaCell × ℤ × ℤ) :
    t.foldlM (cellUsage h free pinning) s =
      match t.find? fun c => c.id = h.id with
      | none => .ok s
      | some c => cellUsage h free pinning s c := by
  have hskip : ∀ (l : InstanceTopology) (s : NumaCell × ℤ × ℤ), (∀ c ∈ l, c.id ≠ h.id) →
      l.foldlM (cellUsage h free pinning) s = .ok s := fun l => by
    induction l with
    | nil => exact fun _ _ => rfl
    | cons c l ih =>
      intro s hl
      have hone : cellUsage h free pinning s c = .ok s := by
        rw [cellUsage]
        dsimp only
        rw [if_neg (hl c List.mem_cons_self)]
      rw [List.foldlM_cons, hone]
      exact ih s fun c hc => hl c (List.mem_cons_of_mem _ hc)
  induction t with
  | nil => rfl
  | cons c t ih =>
    obtain ⟨hc, hnodup⟩ := List.nodup_cons.mp hnodup
    by_cases hid : c.id = h.id
    · have hrest : ∀ d ∈ t, d.id ≠ h.id := fun d hd e => hc (by
        rw [hid, ← e]
        exact List.mem_map_of_mem hd)
      rw [List.foldlM_cons, List.find?_cons_of_pos (by simpa using hid)]
      dsimp only
      cases cellUsage h free pinning s c with
      | error e => rfl
      | ok s' => exact hskip t s' hrest
    · have hone : cellUsage h free pinning s c = .ok s := by
        rw [cellUsage]
        dsimp only
        rw [if_neg hid]
      rw [List.foldlM_cons, hone, List.find?_cons_of_neg (by simpa using hid)]
      exact ih hnodup

/-- **One instance on one host cell.** -/
theorem hostCellUsage_spec {free : Bool} (hnodup : (t.map InstanceCell.id).Nodup)
    (ha : Allowed free h (footprint h t)) :
    ∃ h', hostCellUsage [t] free h = .ok h' ∧ SameCell h h' ∧
      h'.pinnedCpus = pinnedAfter free h.pinnedCpus (footprint h t) := by
  have hnone : pinnedAfter free h.pinnedCpus ∅ = h.pinnedCpus := by
    rw [pinnedAfter]
    split <;> simp
  rw [hostCellUsage, List.foldlM_cons, instanceUsage, foldlM_cellUsage hnodup]
  cases hfind : t.find? fun c => c.id = h.id with
  | none =>
    have hempty : footprint h t = ∅ := by
      rw [footprint, hfind]
      split <;> rfl
    exact ⟨_, rfl, ⟨rfl, rfl, rfl⟩, by rw [hempty, hnone]⟩
  | some c =>
    have hid : c.id = h.id := by simpa using List.find?_some hfind
    dsimp only
    rw [cellUsage]
    dsimp only
    rw [if_pos hid]
    generalize hcell : (if c.pagesize.any (0 < ·) then
      ({ h with cpuUsage := 0, memoryUsage := 0, mempages := pagesizeUsageFromCell h c (if free then -1 else 1) } : NumaCell)
      else { h with cpuUsage := 0, memoryUsage := 0 }) = newcell
    have hsame : SameCell h newcell ∧ newcell.pinnedCpus = h.pinnedCpus := by
      rw [← hcell]
      split <;> exact ⟨⟨rfl, rfl, rfl⟩, rfl⟩
    cases hreq : cpuPinningRequested t with
    | true =>
      have hfoot : footprint h t = cellPins h c := by
        rw [footprint, hreq, if_pos rfl, hfind]
        rfl
      rw [hfoot] at ha
      rw [if_pos rfl, pinCell_spec hsame.1 hsame.2 ha, hfoot]
      exact ⟨_, rfl, ⟨hsame.1.id, hsame.1.cpuset, hsame.1.siblings⟩, rfl⟩
    | false =>
      have hempty : footprint h t = ∅ := by
        rw [footprint, hreq, if_neg Bool.false_ne_true]
      rw [if_neg Bool.false_ne_true, hempty, hnone]
      exact ⟨_, rfl, ⟨hsame.1.id, hsame.1.cpuset, hsame.1.siblings⟩, hsame.2⟩

/-- What claiming or freeing an instance does to a host cell. -/
structure Claimed (free : Bool) (t : InstanceTopology) (h h' : NumaCell) : Prop where
  same : SameCell h h'
  pinned : h'.pinnedCpus = pinnedAfter free h.pinnedCpus (footprint h t)

/-- **Claiming or freeing an instance.** -/
theorem usage_spec {free : Bool} {host : List NumaCell} (hnodup : (t.map InstanceCell.id).Nodup)
    (ha : ∀ h ∈ host, Allowed free h (footprint h t)) :
    ∃ host', numaUsageFromInstances host [t] free = .ok host' ∧ List.Forall₂ (Claimed free t) host host' := by
  rw [numaUsageFromInstances]
  induction host with
  | nil => exact ⟨[], rfl, .nil⟩
  | cons h host ih =>
    obtain ⟨h', hh, hsame, hpinned⟩ := hostCellUsage_spec hnodup (ha h List.mem_cons_self)
    obtain ⟨host', hhost, hall⟩ := ih fun h hm => ha h (List.mem_cons_of_mem _ hm)
    refine ⟨h' :: host', ?_, .cons ⟨hsame, hpinned⟩ hall⟩
    rw [List.mapM_cons, hh, hhost]
    rfl

end Mitaka.Nova
