/-
  Subject: nova/virt/hardware.py, `_pack_instance_onto_cores`: where the vCPUs of a cell
           are placed.

  A pinning pairs the vCPUs in ascending order with slots, `n` of each sibling set: the
  slot at position `j` lies in set number `j / n` (`slots_getElem?`). The threads of the
  guest divide `n`, so the positions of one group of them have one quotient by `n`, and
  they divide the number of vCPUs (`threads_dvd`).
-/
import Mitaka.Nova.Numa

namespace Mitaka.Nova

/-! ## 1. Slots -/

/-- The CPUs that `_get_pinning` hands out: `n` of each set. -/
def slots (order : SetOrder) (n : ℕ) (sets : List CpuSet) : List ℕ := (sets.map fun s => (order.list s).take n).flatten

section Slots

variable {order : SetOrder} {n : ℕ} {sets : List CpuSet}

/-- **The slot at a position** lies in the set with the position's quotient. -/
theorem slots_getElem? (hn : 0 < n) (hlen : ∀ s ∈ sets, n ≤ s.card) {j x : ℕ} (h : (slots order n sets)[j]? = some x) :
    ∃ s, sets[j / n]? = some s ∧ x ∈ s := by
  induction sets generalizing j with
  | nil => cases h
  | cons s sets ih =>
    have hs : ((order.list s).take n).length = n := by
      rw [List.length_take, length_list, min_eq_left (hlen s List.mem_cons_self)]
    rw [slots, List.map_cons, List.flatten_cons, List.getElem?_append, hs] at h
    by_cases hj : j < n
    · rw [if_pos hj] at h
      rw [Nat.div_eq_of_lt hj]
      exact ⟨s, rfl, (order.mem s x).mp (List.mem_of_mem_take (List.mem_of_getElem? h))⟩
    · rw [if_neg hj] at h
      obtain ⟨s', hs', hx⟩ := ih (fun s hs => hlen s (List.mem_cons_of_mem _ hs)) h
      refine ⟨s', ?_, hx⟩
      rw [← Nat.sub_add_cancel (not_lt.mp hj), Nat.add_div_right _ hn]
      exact hs'

theorem length_slots (hlen : ∀ s ∈ sets, n ≤ s.card) : (slots order n sets).length = n * sets.length := by
  induction sets with
  | nil => rfl
  | cons s sets ih =>
    rw [slots, List.map_cons, List.flatten_cons, List.length_append, List.length_take, length_list,
      min_eq_left (hlen s List.mem_cons_self), ← slots, ih fun s hs => hlen s (List.mem_cons_of_mem _ hs), List.length_cons]
    ring

/-- **No CPU is handed out twice.** -/
theorem slots_nodup (hdisj : sets.Pairwise Disjoint) : (slots order n sets).Nodup := by
  rw [slots, List.nodup_flatten, List.forall_mem_map, List.pairwise_map]
  refine ⟨fun s _ => (order.nodup s).sublist (List.take_sublist _ _), hdisj.imp fun {s t} hst => ?_⟩
  intro x hs ht
  exact Finset.disjoint_left.mp hst ((order.mem s x).mp (List.mem_of_mem_take hs))
    ((order.mem t x).mp (List.mem_of_mem_take ht))

end Slots

/-! ## 2. Pinning -/

theorem pin_cpuset (c : InstanceCell) (p : ℕ × ℕ) : (c.pin p).cpuset = c.cpuset := by
  rw [InstanceCell.pin]
  split <;> rfl

theorem pinVcpus_cpuset (c : InstanceCell) (pairs : List (ℕ × ℕ)) : (c.pinVcpus pairs).cpuset = c.cpuset := by
  induction pairs generalizing c with
  | nil => rfl
  | cons p pairs ih => exact (ih (c.pin p)).trans (pin_cpuset c p)

/-- **A pair whose vCPU is not paired again** is in the pinning. -/
theorem pinVcpus_get {c : InstanceCell} {pairs : List (ℕ × ℕ)} (hnodup : (pairs.map Prod.fst).Nodup) {p : ℕ × ℕ}
    (hp : p ∈ pairs) (hmem : p.1 ∈ c.cpuset) : (c.pinVcpus pairs).cpuPinning.get p.1 = some p.2 := by
  induction pairs using List.reverseRecOn with
  | nil => cases hp
  | append_singleton pairs q ih =>
    have happend : c.pinVcpus (pairs ++ [q]) = (c.pinVcpus pairs).pin q := by
      rw [InstanceCell.pinVcpus, List.foldl_append]
      rfl
    rw [List.map_append, List.map_singleton, List.nodup_append] at hnodup
    obtain ⟨hnodup, -, hnew⟩ := hnodup
    rw [happend, InstanceCell.pin, pinVcpus_cpuset]
    rcases List.mem_append.mp hp with hp | hp
    · have hne : q.1 ≠ p.1 := fun e => hnew p.1 (List.mem_map_of_mem hp) q.1 (List.mem_singleton_self _) e.symm
      split
      · rw [Dict.get_set, if_neg hne]
        exact ih hnodup hp
      · exact ih hnodup hp
    · obtain rfl := List.mem_singleton.mp hp
      rw [if_pos hmem, Dict.get_set, if_pos rfl]

/-- **Pinning in order**: each vCPU gets the CPU at its position. -/
theorem pinVcpus_zip {c : InstanceCell} {vcpus cpus : List ℕ} (hnodup : vcpus.Nodup) (hmem : ∀ k ∈ vcpus, k ∈ c.cpuset)
    (hlen : vcpus.length ≤ cpus.length) {j k x : ℕ} (hk : vcpus[j]? = some k) (hx : cpus[j]? = some x) :
    (c.pinVcpus (vcpus.zip cpus)).cpuPinning.get k = some x := by
  have hkeys : ((vcpus.zip cpus).map Prod.fst).Nodup := by rwa [List.map_fst_zip hlen]
  have hpair : (vcpus.zip cpus)[j]? = some (k, x) := List.getElem?_zip_eq_some.mpr ⟨hk, hx⟩
  exact pinVcpus_get hkeys (List.mem_of_getElem? hpair) (hmem k (List.mem_of_getElem? hk))

/-- The threads divide the vCPUs, and the threads taken of each core. -/
theorem threads_dvd (c : InstanceCell) (n : ℕ) : threads c n ∣ n ∧ threads c n ∣ c.cpuset.card := by
  have hn : threads c n ∣ n := Nat.gcd_dvd_left _ _
  exact ⟨hn, (Nat.dvd_mod_iff hn).mp (Nat.gcd_dvd_right _ _)⟩

/-- A cell whose vCPUs are pinned to the slots, position by position. -/
def SlotPinned (order : SetOrder) (n : ℕ) (sets : List CpuSet) (c c' : InstanceCell) : Prop :=
  ∀ j k : ℕ, (sortedCpus c.cpuset)[j]? = some k →
    ∃ x, (slots order n sets)[j]? = some x ∧ c'.cpuPinning.get k = some x

namespace SlotPinned

variable {order : SetOrder} {n : ℕ} {sets : List CpuSet} {c c' : InstanceCell}

theorem of_pinVcpus (hlen : c.cpuset.card ≤ (slots order n sets).length) :
    SlotPinned order n sets c (c.pinVcpus ((sortedCpus c.cpuset).zip (slots order n sets))) := fun j k hk => by
  have hcard : (sortedCpus c.cpuset).length ≤ (slots order n sets).length := (length_list sortedOrder c.cpuset).trans_le hlen
  obtain ⟨hj, -⟩ := List.getElem?_eq_some_iff.mp hk
  have hx := List.getElem?_eq_getElem (hj.trans_le hcard)
  exact ⟨_, hx, pinVcpus_zip (sortedOrder.nodup c.cpuset) (fun k hk => mem_sortedCpus.mp hk) hcard hk hx⟩

theorem exists_index {k : ℕ} (hk : k ∈ c.cpuset) : ∃ j : ℕ, (sortedCpus c.cpuset)[j]? = some k :=
  List.mem_iff_getElem?.mp (mem_sortedCpus.mpr hk)

/-- **A vCPU's CPU** is in the set with its position's quotient. -/
theorem mem (h : SlotPinned order n sets c c') (hn : 0 < n) (hlen : ∀ s ∈ sets, n ≤ s.card) {j k : ℕ}
    (hk : (sortedCpus c.cpuset)[j]? = some k) : ∃ s, sets[j / n]? = some s ∧ ∃ x ∈ s, c'.cpuPinning.get k = some x := by
  obtain ⟨x, hx, hget⟩ := h j k hk
  obtain ⟨s, hs, hxs⟩ := slots_getElem? hn hlen hx
  exact ⟨s, hs, x, hxs, hget⟩

/-- **Different vCPUs** have different CPUs. -/
theorem distinct (h : SlotPinned order n sets c c') (hdisj : sets.Pairwise Disjoint) {k k' : ℕ} (hk : k ∈ c.cpuset)
    (hk' : k' ∈ c.cpuset) (he : c'.cpuPinning.get k = c'.cpuPinning.get k') : k = k' := by
  obtain ⟨j, hj⟩ := exists_index hk
  obtain ⟨j', hj'⟩ := exists_index hk'
  obtain ⟨x, hx, hget⟩ := h j k hj
  obtain ⟨x', hx', hget'⟩ := h j' k' hj'
  obtain rfl : x = x' := Option.some.inj (hget.symm.trans (he.trans hget'))
  obtain ⟨hlt, -⟩ := List.getElem?_eq_some_iff.mp hx
  obtain rfl : j = j' := (List.getElem?_inj hlt (slots_nodup hdisj)).mp (hx.trans hx'.symm)
  exact Option.some.inj (hj.symm.trans hj')

/-- **A group of threads** lies in one set. -/
theorem group (h : SlotPinned order n sets c c') (hn : 0 < n) (hlen : ∀ s ∈ sets, n ≤ s.card) {t : ℕ} (ht : t ∣ n) {i : ℕ}
    (hi : i < c.cpuset.card / t) :
    ∃ s ∈ sets, ∀ k ∈ ((sortedCpus c.cpuset).drop (i * t)).take t, ∃ x ∈ s, c'.cpuPinning.get k = some x := by
  obtain ⟨q, rfl⟩ := ht
  have ht : 0 < t := Nat.pos_of_mul_pos_right hn
  -- the positions of the group have one quotient
  have hquot : ∀ m < t, (i * t + m) / (t * q) = i / q := fun m hm => by
    rw [← Nat.div_div_eq_div_mul, Nat.add_comm, Nat.add_mul_div_right _ _ ht, Nat.div_eq_of_lt hm, Nat.zero_add]
  have hcard : i * t < (sortedCpus c.cpuset).length := by
    have hgroups : (i + 1) * t ≤ c.cpuset.card := (Nat.le_div_iff_mul_le ht).mp hi
    have hlength : (sortedCpus c.cpuset).length = c.cpuset.card := length_list sortedOrder _
    rw [Nat.succ_mul] at hgroups
    omega
  obtain ⟨s, hs, -⟩ := h.mem hn hlen (List.getElem?_eq_getElem hcard)
  rw [← Nat.add_zero (i * t), hquot 0 ht] at hs
  refine ⟨s, List.mem_of_getElem? hs, fun k hk => ?_⟩
  obtain ⟨m, hm⟩ := List.mem_iff_getElem?.mp hk
  obtain ⟨hlt, -⟩ := List.getElem?_eq_some_iff.mp hm
  have hmt : m < t := hlt.trans_le (List.length_take_le _ _)
  rw [List.getElem?_take_of_lt hmt, List.getElem?_drop] at hm
  obtain ⟨s', hs', hx⟩ := h.mem hn hlen hm
  rw [hquot m hmt, hs] at hs'
  exact (Option.some.inj hs') ▸ hx

end SlotPinned

/-! ## 3. The packing loop -/

section Packing

variable {order : SetOrder} {available : List CpuSet} {c : InstanceCell}

theorem le_card_of_mem_siblingSets {n : ℕ} : ∀ s ∈ siblingSets available n, n ≤ s.card := fun _ hs =>
  of_decide_eq_true (List.mem_filter.mp hs).2

theorem siblingSets_sublist (n : ℕ) : (siblingSets available n).Sublist available := List.filter_sublist

theorem mem_siblingKeys {n : ℕ} : n ∈ siblingKeys available ↔ 0 < n ∧ ∃ s ∈ available, n ≤ s.card := by
  have hmax : ∀ l : List CpuSet, 0 < n → (n ≤ (l.map Finset.card).foldr max 0 ↔ ∃ s ∈ l, n ≤ s.card) := fun l hn => by
    induction l with
    | nil => simpa using hn.ne'
    | cons s l ih => rw [List.map_cons, List.foldr_cons, le_max_iff, ih, List.exists_mem_cons_iff]
  rw [siblingKeys, List.mem_reverse, List.mem_map]
  constructor
  · rintro ⟨m, hm, rfl⟩
    exact ⟨Nat.succ_pos m, (hmax available (Nat.succ_pos m)).mp (List.mem_range.mp hm)⟩
  · rintro ⟨hn, hs⟩
    have hle := (hmax available hn).mpr hs
    exact ⟨n - 1, List.mem_range.mpr (by omega), by omega⟩

/-- **No pinning** comes only of too few slots. -/
theorem getPinning_eq_nil {n : ℕ} {sets : List CpuSet} (hlen : ∀ s ∈ sets, n ≤ s.card) {cores : CpuSet}
    (hcores : cores.Nonempty) : getPinning order n sets cores = [] ↔ n * sets.length < cores.card := by
  rw [getPinning]
  refine ⟨fun h => ?_, fun h => if_pos h⟩
  by_contra henough
  rw [if_neg henough] at h
  have hcard : 0 < cores.card := hcores.card_pos
  have hzip := congrArg List.length h
  rw [List.length_zip, ← slots, length_slots hlen, show (sortedCpus cores).length = cores.card from length_list sortedOrder _,
    List.length_nil] at hzip
  omega

theorem getPinning_eq_zip {n : ℕ} {sets : List CpuSet} {cores : CpuSet} (h : getPinning order n sets cores ≠ []) :
    getPinning order n sets cores = (sortedCpus cores).zip (slots order n sets) ∧ cores.card ≤ n * sets.length := by
  rw [getPinning] at h ⊢
  split at h
  · exact absurd rfl h
  · next henough => exact ⟨if_neg henough, not_lt.mp henough⟩

/-- **The packing loop**: a number of threads that works, or none of them does. -/
theorem packLoop_cases (order : SetOrder) (available : List CpuSet) (c : InstanceCell) (keys : List ℕ) (last : ℕ × List (ℕ × ℕ)) (hlast : last.2 = []) :
    (∃ n ∈ keys, (c.cpuThreadPolicy = some .require → 1 < n) ∧ getPinning order n (siblingSets available n) c.cpuset ≠ [] ∧
        packLoop order available c keys last = (n, getPinning order n (siblingSets available n) c.cpuset)) ∨
      ((packLoop order available c keys last).2 = [] ∧
        ∀ n ∈ keys, (c.cpuThreadPolicy = some .require → 1 < n) → getPinning order n (siblingSets available n) c.cpuset = []) := by
  induction keys generalizing last with
  | nil => exact Or.inr ⟨hlast, nofun⟩
  | cons n keys ih =>
    obtain ⟨m, pinning⟩ := last
    obtain rfl : pinning = [] := hlast
    rw [packLoop]
    by_cases hskip : c.cpuThreadPolicy = some .require ∧ n ≤ 1
    · rw [if_pos hskip]
      refine (ih (n, []) rfl).imp (fun h => ?_) fun h => ⟨h.1, fun k hk hrequire => ?_⟩
      · obtain ⟨k, hk, h⟩ := h
        exact ⟨k, List.mem_cons_of_mem _ hk, h⟩
      · rcases List.mem_cons.mp hk with rfl | hk
        · exact absurd (hrequire hskip.1) (not_lt.mpr hskip.2)
        · exact h.2 k hk hrequire
    · rw [if_neg hskip]
      dsimp only
      by_cases hpinning : getPinning order n (siblingSets available n) c.cpuset ≠ []
      · rw [if_pos hpinning]
        exact Or.inl ⟨n, List.mem_cons_self, fun hr => not_le.mp fun hle => hskip ⟨hr, hle⟩, hpinning, rfl⟩
      · rw [if_neg hpinning]
        rw [not_not] at hpinning
        refine (ih _ hpinning).imp (fun h => ?_) fun h => ⟨h.1, fun k hk hrequire => ?_⟩
        · obtain ⟨k, hk, h⟩ := h
          exact ⟨k, List.mem_cons_of_mem _ hk, h⟩
        · rcases List.mem_cons.mp hk with rfl | hk
          · exact hpinning
          · exact h.2 k hk hrequire

end Packing

/-! ## 4. Where a cell is placed -/

/-- A cell that has been placed on sets of CPUs. -/
structure PlacedOn (available : List CpuSet) (threadsPerCore : ℕ) (c c' : InstanceCell) : Prop where
  pinned : ∀ k ∈ c.cpuset, ∃ s ∈ available, ∃ x ∈ s, c'.cpuPinning.get k = some x
  distinct : ∀ k ∈ c.cpuset, ∀ k' ∈ c.cpuset, c'.cpuPinning.get k = c'.cpuPinning.get k' → k = k'
  topology : ∃ topology, c'.cpuTopology = some topology ∧ topology.cores * topology.threads = c.cpuset.card ∧
    ∀ i < topology.cores, ∃ s ∈ available,
      ∀ k ∈ ((sortedCpus c.cpuset).drop (i * topology.threads)).take topology.threads, ∃ x ∈ s, c'.cpuPinning.get k = some x
  isolate : c.cpuThreadPolicy = some .isolate → ∀ k ∈ c.cpuset, ∀ s ∈ available, ∀ x ∈ s, c'.cpuPinning.get k = some x →
    threadsPerCore ≤ s.card ∧ ∀ k' ∈ c.cpuset, ∀ x' ∈ s, c'.cpuPinning.get k' = some x' → k' = k
  require : c.cpuThreadPolicy = some .require → ∀ k ∈ c.cpuset, ∀ s ∈ available, ∀ x ∈ s, c'.cpuPinning.get k = some x → 2 ≤ s.card

/-- The vCPUs that fit, with so many threads of each core, for a thread policy. -/
def Reaches (available : List CpuSet) (threadsPerCore : ℕ) (c : InstanceCell) : Prop :=
  match c.cpuThreadPolicy with
  | some .isolate => c.cpuset.card ≤ (siblingSets available threadsPerCore).length
  | some .require => ∃ n, 2 ≤ n ∧ c.cpuset.card ≤ n * (siblingSets available n).length
  | _ => ∃ n, c.cpuset.card ≤ n * (siblingSets available n).length

/-- What a packing is made of: `n` CPUs of each set with at least `m`, and `t` threads for the guest. -/
structure Packing (available : List CpuSet) (threadsPerCore : ℕ) (c : InstanceCell) (n m t : ℕ) : Prop where
  pos : 0 < n
  le : n ≤ m
  enough : c.cpuset.card ≤ n * (siblingSets available m).length
  dvd : t ∣ n
  dvd_card : t ∣ c.cpuset.card
  isolate : c.cpuThreadPolicy = some .isolate → n = 1 ∧ m = threadsPerCore
  require : c.cpuThreadPolicy = some .require → 2 ≤ m

section Packing

variable {order : SetOrder} {available : List CpuSet} {threadsPerCore : ℕ} {c : InstanceCell} {hostCellId : ℤ}

/-- The cell that a packing makes. -/
def packed (order : SetOrder) (available : List CpuSet) (c : InstanceCell) (hostCellId : ℤ) (n m t : ℕ) : InstanceCell :=
  let pinning := (sortedCpus c.cpuset).zip (slots order n (siblingSets available m))
  { c.pinVcpus pinning with cpuTopology := some ⟨1, pinning.length / t, t⟩, id := hostCellId }

/-- **What the packing does**: it makes a packing, or there is none. -/
theorem packInstanceOntoCores_cases (order : SetOrder) (hostCellId : ℤ) (hne : c.cpuset.Nonempty) (hthreads : 0 < threadsPerCore) :
    (packInstanceOntoCores order available c hostCellId threadsPerCore = none ∧ ¬ Reaches available threadsPerCore c) ∨
      ∃ n m t, Packing available threadsPerCore c n m t ∧
        packInstanceOntoCores order available c hostCellId threadsPerCore = some (packed order available c hostCellId n m t) := by
  have hcard : 0 < c.cpuset.card := hne.card_pos
  rw [packInstanceOntoCores]
  by_cases hiso : c.cpuThreadPolicy = some .isolate
  · rw [if_pos hiso]
    have hreaches : Reaches available threadsPerCore c ↔ c.cpuset.card ≤ (siblingSets available threadsPerCore).length := by
      rw [Reaches, hiso]
    have hlen : ∀ s ∈ siblingSets available threadsPerCore, 1 ≤ s.card := fun s hs =>
      le_trans hthreads (le_card_of_mem_siblingSets s hs)
    by_cases hkey : threadsPerCore ∉ siblingKeys available
    · rw [if_pos hkey, hreaches]
      -- no set is fully free
      have hnone : siblingSets available threadsPerCore = [] := List.filter_eq_nil_iff.mpr fun s hs h =>
        hkey (mem_siblingKeys.mpr ⟨hthreads, s, hs, of_decide_eq_true h⟩)
      rw [hnone]
      exact Or.inl ⟨rfl, not_le.mpr hcard⟩
    · rw [if_neg hkey, hreaches]
      dsimp only
      by_cases hpinning : getPinning order 1 (siblingSets available threadsPerCore) c.cpuset = []
      · rw [if_pos hpinning]
        have hfew := (getPinning_eq_nil hlen hne).mp hpinning
        exact Or.inl ⟨rfl, by omega⟩
      · rw [if_neg hpinning]
        obtain ⟨hzip, henough⟩ := getPinning_eq_zip hpinning
        refine Or.inr ⟨1, threadsPerCore, 1, ⟨one_pos, hthreads, henough, dvd_rfl, one_dvd _, fun _ => ⟨rfl, rfl⟩, fun h => ?_⟩, ?_⟩
        · rw [hiso] at h
          cases h
        · rw [hzip]
          rfl
  · rw [if_neg hiso]
    dsimp only
    have hreaches : Reaches available threadsPerCore c ↔ ∃ n, (c.cpuThreadPolicy = some .require → 1 < n) ∧
        c.cpuset.card ≤ n * (siblingSets available n).length := by
      rw [Reaches]
      split
      case h_1 h => exact absurd h hiso
      case h_2 h => simp only [h, forall_const]; rfl
      case h_3 h h' => exact exists_congr fun n => (and_iff_right fun hr => absurd hr h').symm
    rcases packLoop_cases order available c (siblingKeys available) (1, []) rfl with
      ⟨n, hn, hrequire, hpinning, hloop⟩ | ⟨hloop, hall⟩
    · rw [hloop]
      dsimp only
      rw [if_neg hpinning]
      obtain ⟨hzip, henough⟩ := getPinning_eq_zip hpinning
      obtain ⟨hdvd, hdvd'⟩ := threads_dvd c n
      refine Or.inr ⟨n, n, threads c n, ⟨(mem_siblingKeys.mp hn).1, le_rfl, henough, hdvd, hdvd', fun h => absurd h hiso, hrequire⟩, ?_⟩
      rw [hzip]
      rfl
    · rw [if_pos hloop]
      refine Or.inl ⟨rfl, fun hr => ?_⟩
      obtain ⟨n, hrequire, henough⟩ := hreaches.mp hr
      -- a number of threads that reaches the vCPUs is one of the keys
      obtain ⟨hn, hsets⟩ : 0 < n ∧ siblingSets available n ≠ [] := by
        constructor
        · exact Nat.pos_of_ne_zero fun e => by
            rw [e, Nat.zero_mul] at henough
            omega
        · intro e
          rw [e, List.length_nil, Nat.mul_zero] at henough
          omega
      obtain ⟨s, hs⟩ := List.exists_mem_of_ne_nil _ hsets
      have hkey : n ∈ siblingKeys available :=
        mem_siblingKeys.mpr ⟨hn, s, (siblingSets_sublist n).subset hs, le_card_of_mem_siblingSets s hs⟩
      have hfew := (getPinning_eq_nil le_card_of_mem_siblingSets hne).mp (hall n hkey hrequire)
      omega

theorem packed_slotPinned (order : SetOrder) (hostCellId : ℤ) {n m t : ℕ} (h : Packing available threadsPerCore c n m t) :
    SlotPinned order n (siblingSets available m) c (packed order available c hostCellId n m t) := by
  have hlen : ∀ s ∈ siblingSets available m, n ≤ s.card := fun s hs => h.le.trans (le_card_of_mem_siblingSets s hs)
  exact SlotPinned.of_pinVcpus (h.enough.trans_eq (length_slots hlen).symm)

/-- **A packing places the cell.** -/
theorem Packing.placedOn (hdisj : available.Pairwise Disjoint) {n m t : ℕ} (h : Packing available threadsPerCore c n m t) :
    PlacedOn available threadsPerCore c (packed order available c hostCellId n m t) := by
  have hpinned := packed_slotPinned order hostCellId h
  have hlen : ∀ s ∈ siblingSets available m, n ≤ s.card := fun s hs => h.le.trans (le_card_of_mem_siblingSets s hs)
  have hdisj' : (siblingSets available m).Pairwise Disjoint := hdisj.sublist (siblingSets_sublist m)
  -- the set that a vCPU's CPU lies in is the one its position says
  have hset : ∀ k ∈ c.cpuset, ∀ s ∈ available, ∀ x ∈ s, (packed order available c hostCellId n m t).cpuPinning.get k = some x →
      ∃ j : ℕ, (sortedCpus c.cpuset)[j]? = some k ∧ (siblingSets available m)[j / n]? = some s := by
    intro k hk s hs x hx hget
    obtain ⟨j, hj⟩ := SlotPinned.exists_index hk
    obtain ⟨s', hs', x', hx', hget'⟩ := hpinned.mem h.pos hlen hj
    obtain rfl : x = x' := Option.some.inj (hget.symm.trans hget')
    have heq : s = s' := by
      by_contra hne
      have hmem := (siblingSets_sublist m).subset (List.mem_of_getElem? hs')
      exact Finset.disjoint_left.mp (hdisj.forall hs hmem hne) hx hx'
    exact ⟨j, hj, heq ▸ hs'⟩
  have hpairs : ((sortedCpus c.cpuset).zip (slots order n (siblingSets available m))).length = c.cpuset.card := by
    rw [List.length_zip, length_slots hlen, show (sortedCpus c.cpuset).length = c.cpuset.card from length_list sortedOrder _,
      min_eq_left h.enough]
  refine ⟨fun k hk => ?_, fun k hk k' hk' => hpinned.distinct hdisj' hk hk', ?_, fun hiso k hk s hs x hx hget => ?_,
    fun hrequire k hk s hs x hx hget => ?_⟩
  · obtain ⟨j, hj⟩ := SlotPinned.exists_index hk
    obtain ⟨s, hs, hx⟩ := hpinned.mem h.pos hlen hj
    exact ⟨s, (siblingSets_sublist m).subset (List.mem_of_getElem? hs), hx⟩
  · refine ⟨_, rfl, ?_, fun i hi => ?_⟩
    · dsimp only
      rw [hpairs, Nat.div_mul_cancel h.dvd_card]
    · dsimp only at hi ⊢
      rw [hpairs] at hi
      obtain ⟨s, hs, hgroup⟩ := hpinned.group h.pos hlen h.dvd hi
      exact ⟨s, (siblingSets_sublist m).subset hs, hgroup⟩
  · obtain ⟨j, hj, hs'⟩ := hset k hk s hs x hx hget
    obtain ⟨rfl, rfl⟩ := h.isolate hiso
    refine ⟨le_card_of_mem_siblingSets s (List.mem_of_getElem? hs'), fun k' hk' x' hx' hget' => ?_⟩
    obtain ⟨j', hj', hs''⟩ := hset k' hk' s hs x' hx' hget'
    rw [Nat.div_one] at hs' hs''
    -- with one CPU of each set, one set is one position
    obtain rfl : j = j' := by
      by_contra hne
      obtain ⟨hlt, hs₁⟩ := List.getElem?_eq_some_iff.mp hs'
      obtain ⟨hlt', hs₂⟩ := List.getElem?_eq_some_iff.mp hs''
      have hself : Disjoint s s := by
        rcases Nat.lt_or_gt_of_ne hne with hlt'' | hlt''
        · have hdisjoint := List.pairwise_iff_getElem.mp hdisj' j j' hlt hlt' hlt''
          rwa [hs₁, hs₂] at hdisjoint
        · have hdisjoint := List.pairwise_iff_getElem.mp hdisj' j' j hlt' hlt hlt''
          rwa [hs₁, hs₂] at hdisjoint
      exact Finset.disjoint_left.mp hself hx hx
    exact Option.some.inj (hj'.symm.trans hj)
  · obtain ⟨j, -, hs'⟩ := hset k hk s hs x hx hget
    exact (h.require hrequire).trans (le_card_of_mem_siblingSets s (List.mem_of_getElem? hs'))

/-- **Packing a cell.** What is found places every vCPU, and nothing is found only where no number
    of threads reaches the vCPUs. -/
theorem packInstanceOntoCores_correct (order : SetOrder) (hdisj : available.Pairwise Disjoint) (hne : c.cpuset.Nonempty)
    (hostCellId : ℤ) (hthreads : 0 < threadsPerCore) :
    (∀ c', packInstanceOntoCores order available c hostCellId threadsPerCore = some c' → PlacedOn available threadsPerCore c c') ∧
      (packInstanceOntoCores order available c hostCellId threadsPerCore = none → ¬ Reaches available threadsPerCore c) := by
  rcases packInstanceOntoCores_cases order hostCellId hne hthreads with ⟨hnone, hreaches⟩ | ⟨n, m, t, h, hsome⟩
  · rw [hnone]
    exact ⟨nofun, fun _ => hreaches⟩
  · rw [hsome]
    refine ⟨fun c' hc' => ?_, nofun⟩
    obtain rfl := Option.some.inj hc'
    exact h.placedOn hdisj

/-- Six vCPUs on cores of unequal size: three threads of each of two cores. -/
theorem packInstanceOntoCores_correct_unequal :
    PlacedOn [{0, 1, 2, 3}, {4, 5, 6}, {7}] 4 (.init {0, 1, 2, 3, 4, 5} 512 none (some .dedicated) (some .prefer))
      { InstanceCell.init {0, 1, 2, 3, 4, 5} 512 none (some .dedicated) (some .prefer) with
        id := 7
        cpuPinning := [(0, 0), (1, 1), (2, 2), (3, 4), (4, 5), (5, 6)]
        cpuTopology := some ⟨1, 2, 3⟩ } :=
  (packInstanceOntoCores_correct sortedOrder (by decide) (by decide) 7 (by decide)).1 _ (by decide +kernel)

end Packing

end Mitaka.Nova
