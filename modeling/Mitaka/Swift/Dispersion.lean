/-
  Subject: swift/common/ring/builder.py, `_build_dispersion_graph`: how many partitions
           have how many replicas in each tier, and what a rebalance has changed.

  The loop goes over `zip(*self._replica2part2dev)`, which ends with the shortest row.
-/
import Mitaka.Lib.Tally
import Mitaka.Swift.RebalanceFilled

namespace Mitaka.Swift.Ring

open List Option

/-! ## 1. `_build_dispersion_graph` -/

/-- `_dispersion_graph`, `changed_parts` and `parts_at_risk`. -/
structure Dispersion where
  graph : Dict Tier (List ℤ)
  changedParts : ℕ
  partsAtRisk : ℕ
  deriving DecidableEq

/-- The devices of a part, by replica: `dev_ids`, where every row has an entry. -/
def column (table : List (List ℕ)) (part : ℕ) : List ℕ := table.filterMap (·[part]?)

/-- One replica of a part: its tiers, and whether it has changed. -/
def countReplica (devs : List (Option Dev)) (old : List (List ℕ)) (part : ℕ) (acc : Dict Tier ℕ × ℕ)
    (e : ℕ × ℕ) : Option (Dict Tier ℕ × ℕ) :=
  (devAt devs e.1).toOption.map fun dev =>
    (dev.tiersForDev.foldl bump acc.1, if slot old e.2 part = some dev.id then acc.2 else acc.2 + 1)

/-- One tier of a part; the `Bool` is `part_at_risk`. -/
def countTier (parts intReplicas : ℕ) (maxAllowed : Dict Tier ℚ) (acc : Dict Tier (List ℤ) × Bool)
    (e : Tier × ℕ) : Option (Dict Tier (List ℤ) × Bool) :=
  let row := (acc.1.get e.1).getD ((parts : ℤ) :: replicate intReplicas 0)
  if e.2 < row.length then
    (maxAllowed.get e.1).map fun allowed : ℚ => (acc.1.set e.1 (record row e.2), acc.2 || allowed < e.2)
  else none

section Graph

variable (b : Builder) (table old : List (List ℕ))

/-- `int_replicas`. -/
def Builder.intReplicas : ℕ := ⌈b.replicas⌉.toNat

/-- One part; `none` is an exception. -/
def countPart (acc : Dispersion) (part : ℕ) : Option Dispersion := do
  let (atTier, changedParts) ← (column table part).zipIdx.foldlM (countReplica b.devs old part) ([], acc.changedParts)
  let (graph, atRisk) ← atTier.foldlM (countTier b.parts b.intReplicas (b.buildMaxReplicasByTier fun x => ⌈x⌉))
    (acc.graph, false)
  return ⟨graph, changedParts, if atRisk then acc.partsAtRisk + 1 else acc.partsAtRisk⟩

/-- Where `zip` ends. -/
def shortest : ℕ := (table.map List.length).min?.getD 0

def buildDispersionGraph : Option Dispersion :=
  (List.range (shortest table)).foldlM (countPart b table old) ⟨[], 0, 0⟩

end Graph

/-! ## 2. What the numbers should be -/

/-- The replicas of a part in a tier. -/
def replicasIn (devs : List (Option Dev)) (table : List (List ℕ)) (tier : Tier) (part : ℕ) : ℕ :=
  (column table part).countP fun id => (devAt devs id).toOption.any fun dev => tier ∈ dev.tiersForDev

/-- The slots, new ones too, whose device is not that of the old table. -/
def changedSlots (table old : List (List ℕ)) : ℕ :=
  (eachPartReplica table).countP fun e => slot old e.2 e.1 ≠ slot table e.2 e.1

/-- The dispersion is that of all the partitions. -/
structure Tells (b : Builder) (table old : List (List ℕ)) (out : Dispersion) : Prop where
  graph : ∀ (r p : ℕ) (dev : Dev), slot table r p = some dev.id → b.devs[dev.id]? = some (some dev) →
    ∀ tier ∈ dev.tiersForDev, out.graph.get tier = some ((List.range (b.intReplicas + 1)).map fun k =>
      (Nat.count (fun part => replicasIn b.devs table tier part = k) b.parts : ℤ))
  changed : out.changedParts = changedSlots table old

/-! ## 3. One part -/

theorem nodup_tiersForDev (d : Dev) : d.tiersForDev.Nodup := by
  simp [Dev.tiersForDev, Dev.tiers, Dev.tier]

section Part

variable {b : Builder} {table old : List (List ℕ)}

/-- **The replicas of a part.** -/
theorem countReplica_foldlM {devs : List (Option Dev)} (hids : AtIds devs) {part : ℕ} {l : List (ℕ × ℕ)}
    {acc acc' : Dict Tier ℕ × ℕ} (h : l.foldlM (countReplica devs old part) acc = some acc')
    (hcounts : Counts acc.1) : Counts acc'.1 ∧
      (∀ tier, (acc'.1.get tier).getD 0 = (acc.1.get tier).getD 0 +
        l.countP fun e => (devAt devs e.1).toOption.any fun dev => tier ∈ dev.tiersForDev) ∧
      acc'.2 = acc.2 + l.countP fun e => slot old e.2 part ≠ some e.1 := by
  induction l generalizing acc with
  | nil =>
    obtain rfl := Option.some.inj h
    exact ⟨hcounts, fun _ => rfl, rfl⟩
  | cons e l ih =>
    rw [foldlM_cons, bind_eq_bind] at h
    obtain ⟨next, hnext, hrest⟩ := bind_eq_some_iff.mp h
    obtain ⟨dev, hdev, rfl⟩ := map_eq_some_iff.mp hnext
    obtain ⟨hcounts', hget, hchanged⟩ := ih hrest (hcounts.foldl_bump _)
    have hok : devAt devs e.1 = .ok dev := by
      cases hd : devAt devs e.1 with
      | ok d => rw [hd] at hdev; rw [Option.some.inj hdev]
      | error err => rw [hd] at hdev; cases hdev
    refine ⟨hcounts', fun tier => ?_, ?_⟩
    · rw [hget, get_foldl_bump, countP_cons, hdev, (nodup_tiersForDev dev).count]
      simp only [any_some, decide_eq_true_eq]
      omega
    · rw [hchanged, countP_cons, ← hids e.1 dev (devAt_eq_ok.mp hok)]
      by_cases hsame : slot old e.2 part = some dev.id
      · simp [hsame]
      · simp [hsame]
        omega

/-- `dispersion_graph[tier]`, as it is when the first part of the tier comes. -/
def rowAt (b : Builder) (graph : Dict Tier (List ℤ)) (tier : Tier) : List ℤ :=
  (graph.get tier).getD ((b.parts : ℤ) :: replicate b.intReplicas 0)

/-- **The tiers of a part**, each of them once. -/
theorem countTier_foldlM {maxAllowed : Dict Tier ℚ} {l : Dict Tier ℕ} {acc acc' : Dict Tier (List ℤ) × Bool}
    (h : l.foldlM (countTier b.parts b.intReplicas maxAllowed) acc = some acc') (hnodup : l.KeysNodup) (tier : Tier) :
    rowAt b acc'.1 tier = (match l.get tier with
      | some n => record (rowAt b acc.1 tier) n
      | none => rowAt b acc.1 tier) ∧
      ((acc'.1.get tier).isSome = true ↔ (acc.1.get tier).isSome = true ∨ (l.get tier).isSome = true) := by
  induction l generalizing acc with
  | nil =>
    obtain rfl := Option.some.inj h
    exact ⟨rfl, by simp⟩
  | cons e l ih =>
    rw [foldlM_cons, bind_eq_bind] at h
    obtain ⟨next, hnext, hrest⟩ := bind_eq_some_iff.mp h
    rw [countTier] at hnext
    split at hnext
    · obtain ⟨allowed, -, rfl⟩ := map_eq_some_iff.mp hnext
      obtain ⟨hfirst, hnodup⟩ := nodup_cons.mp hnodup
      obtain ⟨hrow, hsome⟩ := ih hrest hnodup
      rw [hrow, hsome, Dict.get_cons, Dict.get_set]
      by_cases htier : e.1 = tier
      · have hnone : Dict.get l tier = none := by
          rw [← not_isSome_iff_eq_none, ← Dict.mem_keys_iff, ← htier]
          exact hfirst
        rw [if_pos htier, hnone, rowAt, Dict.get_set, if_pos htier, htier]
        simp [rowAt]
      · rw [if_neg htier, if_neg htier, rowAt, Dict.get_set, if_neg htier]
        exact ⟨rfl, Iff.rfl⟩
    · cases hnext

/-- What is counted for one part. -/
theorem countPart_spec {acc acc' : Dispersion} {part : ℕ} (h : countPart b table old acc part = some acc') :
    (∀ tier, rowAt b acc'.graph tier = (if replicasIn b.devs table tier part = 0 then rowAt b acc.graph tier
      else record (rowAt b acc.graph tier) (replicasIn b.devs table tier part)) ∧
      ((acc'.graph.get tier).isSome = true ↔
        (acc.graph.get tier).isSome = true ∨ replicasIn b.devs table tier part ≠ 0)) ∧
      acc'.changedParts = acc.changedParts +
        (column table part).zipIdx.countP fun e => slot old e.2 part ≠ some e.1 := by
  rw [countPart, bind_eq_bind] at h
  obtain ⟨⟨atTier, changedParts⟩, hreplicas, h⟩ := bind_eq_some_iff.mp h
  obtain ⟨⟨graph, atRisk⟩, htiers, h⟩ := bind_eq_some_iff.mp h
  obtain rfl := Option.some.inj h
  obtain ⟨hcounts, hget, hchanged⟩ := countReplica_foldlM b.ids hreplicas Counts.nil
  refine ⟨fun tier => ?_, hchanged⟩
  obtain ⟨hrow, hsome⟩ := countTier_foldlM htiers hcounts.nodup tier
  have hvalue : (Dict.get atTier tier).getD 0 = replicasIn b.devs table tier part := by
    rw [hget, replicasIn, ← zipIdx_map_fst 0 (column table part), countP_map, zipIdx_map_fst]
    exact Nat.zero_add _
  dsimp only at hrow hsome ⊢
  rw [hrow, hsome]
  cases hat : Dict.get atTier tier with
  | none =>
    rw [hat] at hvalue
    rw [← hvalue]
    simp
  | some n =>
    rw [hat] at hvalue
    have hpos := (hcounts.pos tier n hat).ne'
    rw [← hvalue]
    simp [hpos]

/-! ## 4. All parts -/

/-- The replicas of a part that are new or on another device. -/
def changedAt (table old : List (List ℕ)) (part : ℕ) : ℕ :=
  (column table part).zipIdx.countP fun e => slot old e.2 part ≠ some e.1

/-- **The first parts**: histograms of the replicas in each tier. -/
theorem countParts_spec (n : ℕ) {acc : Dispersion}
    (h : (List.range n).foldlM (countPart b table old) ⟨[], 0, 0⟩ = some acc) :
    (∀ tier, rowAt b acc.graph tier = histogram b.parts b.intReplicas (replicasIn b.devs table tier) n ∧
      ((acc.graph.get tier).isSome = true ↔ ∃ p < n, replicasIn b.devs table tier p ≠ 0)) ∧
      acc.changedParts = ((List.range n).map (changedAt table old)).sum := by
  induction n generalizing acc with
  | zero =>
    obtain rfl := Option.some.inj h
    exact ⟨fun tier => ⟨(histogram_zero _ _ _).symm, by simp⟩, rfl⟩
  | succ n ih =>
    rw [range_succ, foldlM_append, bind_eq_bind] at h
    obtain ⟨before, hbefore, hlast⟩ := bind_eq_some_iff.mp h
    rw [foldlM_cons, bind_eq_bind] at hlast
    obtain ⟨after, hafter, hend⟩ := bind_eq_some_iff.mp hlast
    obtain rfl := Option.some.inj hend
    obtain ⟨hgraph, hchanged⟩ := ih hbefore
    obtain ⟨hgraph', hchanged'⟩ := countPart_spec hafter
    refine ⟨fun tier => ⟨?_, ?_⟩, ?_⟩
    · rw [(hgraph' tier).1, (hgraph tier).1]
      split
      · next hzero => exact (histogram_succ_of_zero _ _ hzero).symm
      · next hne => exact (histogram_succ _ _ hne).symm
    · rw [(hgraph' tier).2, (hgraph tier).2]
      refine ⟨fun hor => ?_, fun ⟨p, hp, hne⟩ => ?_⟩
      · rcases hor with ⟨p, hp, hne⟩ | hne
        · exact ⟨p, hp.trans n.lt_succ_self, hne⟩
        · exact ⟨n, n.lt_succ_self, hne⟩
      · rcases Nat.lt_succ_iff_lt_or_eq.mp hp with hp | rfl
        · exact Or.inl ⟨p, hp, hne⟩
        · exact Or.inr hne
    · rw [hchanged', hchanged, range_succ, map_append, sum_append]
      rfl

/-- A device in a slot counts for its tiers. -/
theorem replicasIn_ne_zero {devs : List (Option Dev)} {r p : ℕ} {dev : Dev} (hslot : slot table r p = some dev.id)
    (hdev : devs[dev.id]? = some (some dev)) {tier : Tier} (htier : tier ∈ dev.tiersForDev) :
    replicasIn devs table tier p ≠ 0 := by
  obtain ⟨row, hrow, hd⟩ := bind_eq_some_iff.mp hslot
  have hmem : dev.id ∈ column table p := mem_filterMap.mpr ⟨row, mem_of_getElem? hrow, hd⟩
  refine (countP_pos_iff.mpr ⟨dev.id, hmem, ?_⟩).ne'
  rw [devAt_eq_ok.mpr hdev]
  exact decide_eq_true htier

end Part

/-! ## 5. Rows of one length -/

/-- Counting pairs by their first or by their second entry. -/
theorem countP_swap {α β : Type} (l : List α) (l' : List β) (q : α → β → Bool) :
    (l.map fun a => l'.countP (q a)).sum = (l'.map fun b => l.countP (q · b)).sum := by
  induction l with
  | nil => simp
  | cons a l ih =>
    rw [map_cons, sum_cons, ih]
    have hcons : (fun b => (a :: l).countP (q · b)) = fun b => (if q a b then 1 else 0) + l.countP (q · b) :=
      funext fun b => by rw [countP_cons, Nat.add_comm]
    have hone : (l'.map fun b => if q a b then 1 else 0).sum = l'.countP (q a) := by
      clear hcons ih
      induction l' with
      | nil => rfl
      | cons b l' ih => rw [map_cons, sum_cons, ih, countP_cons, Nat.add_comm]
    rw [hcons, sum_map_add, hone]

section Square

variable {table : List (List ℕ)} {m : ℕ}

theorem column_of_square (hrows : ∀ row ∈ table, row.length = m) {p : ℕ} (hp : p < m) :
    column table p = table.map fun row => row.getD p 0 := by
  rw [column, ← filterMap_eq_map]
  refine filterMap_congr fun row hrow => ?_
  rw [getElem?_eq_getElem ((hrows row hrow).symm ▸ hp), Function.comp,
    getD_eq_getElem _ _ ((hrows row hrow).symm ▸ hp)]

theorem column_of_le (hrows : ∀ row ∈ table, row.length = m) {p : ℕ} (hp : m ≤ p) : column table p = [] :=
  filterMap_eq_nil_iff.mpr fun row hrow => getElem?_eq_none ((hrows row hrow).symm ▸ hp)

theorem shortest_of_square (hrows : ∀ row ∈ table, row.length = m) (hne : table ≠ []) : shortest table = m := by
  have hlengths : table.map List.length = replicate table.length m :=
    eq_replicate_iff.mpr ⟨length_map _, fun n hn => by
      obtain ⟨row, hrow, rfl⟩ := List.mem_map.mp hn
      exact hrows row hrow⟩
  rw [shortest, hlengths, min?_replicate_of_pos (length_pos_iff.mpr hne)]
  rfl

/-- **With rows of one length**, part by part or row by row is the same. -/
theorem sum_changedAt (hrows : ∀ row ∈ table, row.length = m) (old : List (List ℕ)) :
    ((List.range m).map (changedAt table old)).sum = changedSlots table old := by
  have hcolumns : (List.range m).map (changedAt table old) = (List.range m).map fun p =>
      table.zipIdx.countP fun e => slot old e.2 p ≠ some (e.1.getD p 0) := by
    refine map_congr_left fun p hp => ?_
    rw [changedAt, column_of_square hrows (mem_range.mp hp), zipIdx_map, countP_map]
    rfl
  rw [hcolumns, countP_swap, changedSlots, eachPartReplica, countP_flatMap]
  refine congrArg List.sum (map_congr_left fun e he => ?_)
  obtain ⟨r, hr⟩ := mem_iff_getElem?.mp he
  rw [getElem?_zipIdx, zero_add] at hr
  obtain ⟨row, hrow, rfl⟩ := map_eq_some_iff.mp hr
  have hlength := hrows row (mem_of_getElem? hrow)
  rw [Function.comp, countP_map, hlength]
  refine countP_congr fun p hp => ?_
  have hlt : p < row.length := hlength.symm ▸ mem_range.mp hp
  rw [Function.comp, slot, slot, hrow, bind_some, getElem?_eq_getElem hlt, getD_eq_getElem _ _ hlt]

end Square

theorem shortest_le {table : List (List ℕ)} {row : List ℕ} (h : row ∈ table) : shortest table ≤ row.length := by
  rw [shortest]
  cases hmin : (table.map List.length).min? with
  | none => exact Nat.zero_le _
  | some n => exact (min?_eq_some_iff.mp hmin).2 _ (List.mem_map_of_mem h)

section Whole

variable {b : Builder} {table old : List (List ℕ)} {out : Dispersion}

/-- **Rows of one length**: nothing is left out. -/
theorem tells_of_square {m : ℕ} (hrows : ∀ row ∈ table, row.length = m) (hm : m ≤ b.parts)
    (hshort : shortest table = m) (h : buildDispersionGraph b table old = some out) : Tells b table old out := by
  rw [buildDispersionGraph, hshort] at h
  obtain ⟨hgraph, hchanged⟩ := countParts_spec m h
  refine ⟨fun r p dev hslot hdev tier htier => ?_, hchanged.trans (sum_changedAt hrows old)⟩
  obtain ⟨hrow, hsome⟩ := hgraph tier
  have hlater : ∀ q, m ≤ q → replicasIn b.devs table tier q = 0 := fun q hq => by
    rw [replicasIn, column_of_le hrows hq]
    rfl
  have hne := replicasIn_ne_zero hslot hdev htier
  have hp : p < m := by
    by_contra hle
    exact hne (hlater p (not_lt.mp hle))
  obtain ⟨row, hget⟩ := isSome_iff_exists.mp (hsome.mpr ⟨p, hp, hne⟩)
  rw [rowAt, hget, getD_some] at hrow
  rw [hget, hrow, ← histogram_of_zero _ _ hm hlater, histogram_total]

/-- **A short row**: the parts behind it are left out, though they are on devices. -/
theorem not_tells_of_short {row : List ℕ} (hfirst : table[0]? = some row) (hlen : row.length = b.parts)
    (hshort : shortest table < b.parts) (hon : OnDevices b.devs table)
    (h : buildDispersionGraph b table old = some out) : ¬ Tells b table old out := by
  intro htells
  obtain ⟨hgraph, -⟩ := countParts_spec _ h
  -- the first part that is not counted
  have hlt : shortest table < row.length := hlen ▸ hshort
  have hslot : slot table 0 (shortest table) = some row[shortest table] := by
    rw [slot, hfirst, bind_some, getElem?_eq_getElem hlt]
  obtain ⟨dev, hdev⟩ := hon _ _ _ hslot
  have hid := b.ids _ dev hdev
  rw [← hid] at hdev hslot
  have htier : Tier.region dev.region ∈ dev.tiersForDev := mem_cons_self
  have hrow := (hgraph (.region dev.region)).1
  rw [rowAt, htells.graph _ _ dev hslot hdev _ htier, getD_some, ← histogram_total] at hrow
  exact histogram_ne _ _ hshort (replicasIn_ne_zero hslot hdev htier) hrow

end Whole

/-! ## 6. After a rebalance -/

/-- The builder without the removed devices. -/
def RingBuilder.remaining (b : RingBuilder) : Builder where
  partPower := b.partPower
  replicas := b.replicas
  devs := withoutDevs b.devs b.removeDevs
  ids i d h := b.ids i d (withoutDevs_eq h).1

/-- The rows of a table that has the desired size. -/
theorem rows_of_desiredLengths {replicas : ℚ} {parts : ℕ} {table : List (List ℕ)}
    (h : table.map List.length = desiredLengths replicas parts) :
    ((Int.fract replicas = 0 ∨ replicas < 1) → ∃ m ≤ parts, (∀ row ∈ table, row.length = m) ∧ shortest table = m) ∧
      (¬ (Int.fract replicas = 0 ∨ replicas < 1) → 0 < parts →
        shortest table < parts ∧ ∃ row, table[0]? = some row ∧ row.length = parts) := by
  have hshort : ⌊parts * Int.fract replicas⌋.toNat ≤ parts := by
    have hle : (parts : ℚ) * Int.fract replicas ≤ parts :=
      mul_le_of_le_one_right (Nat.cast_nonneg _) (Int.fract_lt_one _).le
    exact Int.toNat_le.mpr (by exact_mod_cast (Int.floor_le _).trans hle)
  refine ⟨fun hor => ?_, fun hnot hpos => ?_⟩
  · have hall : ∃ m ≤ parts, ∀ n ∈ desiredLengths replicas parts, n = m := by
      rcases hor with hint | hlt
      · refine ⟨parts, le_rfl, fun n hn => ?_⟩
        rw [desiredLengths, if_pos hint, append_nil] at hn
        exact eq_of_mem_replicate hn
      · have hfloor : ⌊replicas⌋.toNat = 0 := by
          rw [Int.toNat_eq_zero]
          exact Int.lt_add_one_iff.mp (Int.floor_lt.mpr (by exact_mod_cast hlt))
        refine ⟨⌊parts * Int.fract replicas⌋.toNat, hshort, fun n hn => ?_⟩
        rw [desiredLengths, hfloor, replicate_zero, nil_append] at hn
        split at hn
        · cases hn
        · exact mem_singleton.mp hn
    obtain ⟨m, hm, hall⟩ := hall
    have hrows : ∀ row ∈ table, row.length = m := fun row hrow => hall _ (h ▸ List.mem_map_of_mem hrow)
    by_cases hne : table = []
    · subst hne
      exact ⟨0, Nat.zero_le _, fun row hrow => absurd hrow not_mem_nil, rfl⟩
    · exact ⟨m, hm, hrows, shortest_of_square hrows hne⟩
  · obtain ⟨hfract, hone⟩ := not_or.mp hnot
    have hlt : ⌊parts * Int.fract replicas⌋.toNat < parts := by
      have hmul : (parts : ℚ) * Int.fract replicas < parts :=
        mul_lt_of_lt_one_right (by exact_mod_cast hpos) (Int.fract_lt_one _)
      have hnonneg : 0 ≤ ⌊parts * Int.fract replicas⌋ :=
        Int.floor_nonneg.mpr (mul_nonneg (Nat.cast_nonneg _) (Int.fract_nonneg _))
      exact (Int.toNat_lt hnonneg).mpr (by exact_mod_cast (Int.floor_le _).trans_lt hmul)
    have hfloor : 0 < ⌊replicas⌋.toNat := Int.lt_toNat.mpr (Int.floor_pos.mpr (not_lt.mp hone))
    rw [desiredLengths, if_neg hfract] at h
    obtain ⟨last, hlast, hlastLen⟩ := List.mem_map.mp (h ▸ mem_append_right _ (mem_singleton_self _))
    refine ⟨(shortest_le hlast).trans_lt (hlastLen ▸ hlt), ?_⟩
    have hfirst : (table.map List.length)[0]? = some parts := by
      rw [h, getElem?_append_left (by rwa [length_replicate]), getElem?_replicate, if_pos hfloor]
    rw [getElem?_map] at hfirst
    exact map_eq_some_iff.mp hfirst

/-- **The dispersion after a rebalance** is that of the ring exactly when no row is shorter
    than the others: the replica count is integral (or below one, with a single row). -/
theorem dispersion_graph_iff {b : RingBuilder} (hcounted : b.Counted) {fuel : ℕ} {now : ℤ} {choices : ℕ → Choices}
    {w : Work} {out : Dispersion} (h : b.rebalance fuel now choices = some (.reached none w))
    (hout : buildDispersionGraph b.remaining w.replica2part2dev b.table = some out) :
    Tells b.remaining w.replica2part2dev b.table out ↔ Int.fract b.replicas = 0 ∨ b.replicas < 1 := by
  obtain ⟨hlengths, hon⟩ := rebalance_fills hcounted h
  obtain ⟨hsquare, hragged⟩ := rows_of_desiredLengths hlengths
  constructor
  · intro htells
    by_contra hnot
    obtain ⟨hshort, row, hfirst, hlen⟩ := hragged hnot (Nat.two_pow_pos b.partPower)
    have hparts : row.length = b.remaining.parts := hlen
    exact not_tells_of_short hfirst hparts hshort hon hout htells
  · intro hor
    obtain ⟨m, hm, hrows, hshort⟩ := hsquare hor
    exact tells_of_square hrows hm hshort hout

/-- Two devices for one and a half replicas of two partitions. -/
def fractional : RingBuilder where
  partPower := 1
  replicas := 3 / 2
  devs := [some ⟨0, 0, 0, "a", 1⟩, some ⟨1, 0, 1, "b", 1⟩]
  ids i d h := by
    have hlt : i < 2 := (List.getElem?_eq_some_iff.mp h).1
    have hall : ∀ i < 2, ∀ e ∈ [some (⟨0, 0, 0, "a", 1⟩ : Dev), some ⟨1, 0, 1, "b", 1⟩][i]?,
      ∀ d ∈ e, d.id = i := by decide
    exact hall i hlt _ h d rfl
  minPartHours := 1
  overload := 0
  replica2part2dev := none
  lastPartMoves := none
  lastPartMovesEpoch := 0
  lastPartGatherStart := 0
  removeDevs := []
  devParts _ := 0
  fits := by decide
  removes := by decide

theorem fractional_counted : fractional.Counted :=
  ⟨fun _ _ _ h => (nomatch h), fun _ => rfl⟩

/-- The table that a rebalance without an exception leaves. -/
def Ended.doneTable : Ended → Option (List (List ℕ))
  | .reached none w => some w.replica2part2dev
  | _ => none

theorem fractional_rebalance : ∃ w,
    fractional.rebalance 5 0 inOrder = some (.reached none w) ∧ w.replica2part2dev = [[0, 0], [1]] := by
  have hrun : (fractional.rebalance 5 0 inOrder).bind Ended.doneTable = some [[0, 0], [1]] := by decide +kernel
  obtain ⟨ended, he, ht⟩ := bind_eq_some_iff.mp hrun
  match ended, ht with
  | .reached none w, ht => exact ⟨w, he, Option.some.inj ht⟩

theorem dispersion_graph_iff_fractional : ∃ w out, fractional.rebalance 5 0 inOrder = some (.reached none w) ∧
    (Tells fractional.remaining w.replica2part2dev fractional.table out ↔
      Int.fract fractional.replicas = 0 ∨ fractional.replicas < 1) := by
  obtain ⟨w, hw, htable⟩ := fractional_rebalance
  have hgraph : (buildDispersionGraph fractional.remaining w.replica2part2dev fractional.table).isSome = true := by
    rw [htable]
    decide +kernel
  obtain ⟨out, hout⟩ := isSome_iff_exists.mp hgraph
  exact ⟨w, out, hw, dispersion_graph_iff fractional_counted hw hout⟩

/-- **The second partition is left out**: three replicas are new, two are counted. -/
theorem short_row_left_out : ∃ w out, fractional.Counted ∧ fractional.rebalance 5 0 inOrder = some (.reached none w) ∧
    buildDispersionGraph fractional.remaining w.replica2part2dev fractional.table = some out ∧
    out.changedParts = 2 ∧ changedSlots w.replica2part2dev fractional.table = 3 ∧
    ¬ Tells fractional.remaining w.replica2part2dev fractional.table out := by
  obtain ⟨w, hw, htable⟩ := fractional_rebalance
  have hgraph : (buildDispersionGraph fractional.remaining [[0, 0], [1]] fractional.table).map Dispersion.changedParts =
      some 2 := by decide +kernel
  obtain ⟨out, hout, hchanged⟩ := map_eq_some_iff.mp hgraph
  have hslots : changedSlots [[0, 0], [1]] fractional.table = 3 := by decide
  refine ⟨w, out, fractional_counted, hw, htable ▸ hout, hchanged, htable ▸ hslots, fun htells => ?_⟩
  have hsame := htells.changed
  rw [htable, hchanged, hslots] at hsame
  exact absurd hsame (by decide)

end Mitaka.Swift.Ring
