/-
  Subject: swift/common/ring/builder.py: `_build_weighted_replicas_by_tier` fills the devices.

  The dictionary of the loop is at every round the table of the devices filled to one level
  (`table`), and a round raises the level (`spreadReplicas_level`). What is missing when the
  loop ends is less than `eps`, so that the check of the totals passes.
-/
import Mitaka.Lib.WaterFill
import Mitaka.Swift.RingBuilder

namespace Mitaka.Swift.Ring

open List

/-! ## 1. A dictionary of the devices -/

section Tables

variable {devs : List Dev} {g : Dev → ℚ}

/-- The devices, with a value each. -/
def table (devs : List Dev) (g : Dev → ℚ) : Dict ℕ ℚ := devs.map fun d => (d.id, g d)

theorem table_congr {g' : Dev → ℚ} (h : ∀ d ∈ devs, g d = g' d) : table devs g = table devs g' :=
  map_congr_left fun d hd => by rw [h d hd]

theorem keysNodup_table (h : Table.Ordered Dev.id devs) : Dict.KeysNodup (table devs g) := by
  rw [Dict.KeysNodup, table, List.map_map]
  exact (pairwise_map.mpr h).imp ne_of_lt

theorem forDevice_table (h : Table.Ordered Dev.id devs) {d : Dev} (hd : d ∈ devs) :
    forDevice (table devs g) d.id = g d := by
  have hmem : (d.id, g d) ∈ table devs g := List.mem_map_of_mem hd
  rw [forDevice, ((keysNodup_table h).mem_iff).mp hmem]
  rfl

theorem sum_table (devs : List Dev) (g : Dev → ℚ) : ((table devs g).map Prod.snd).sum = (devs.map g).sum := by
  rw [table, List.map_map]
  rfl

theorem set_table (h : Table.Ordered Dev.id devs) {d : Dev} (hd : d ∈ devs) (v : ℚ) :
    Dict.set (table devs g) d.id v = table devs fun e => if e.id = d.id then v else g e := by
  induction devs with
  | nil => exact nomatch hd
  | cons e devs ih =>
    obtain ⟨he, h⟩ := pairwise_cons.mp h
    rw [table, map_cons, Dict.set]
    rcases mem_cons.mp hd with rfl | hd
    · rw [if_pos rfl, table, map_cons, if_pos rfl]
      refine congrArg _ (table_congr fun f hf => ?_)
      rw [if_neg (he f hf).ne']
    · have hne : e.id ≠ d.id := (he d hd).ne
      rw [if_neg hne, table, map_cons, if_neg hne]
      exact congrArg _ (ih h hd)

theorem table_append (devs : List Dev) (d : Dev) (g : Dev → ℚ) : table (devs ++ [d]) g = table devs g ++ [(d.id, g d)] := by
  rw [table, map_append]
  rfl

end Tables

/-- `if not dev['weight']: continue`. -/
def weighted (devs : List Dev) : List Dev := devs.filter fun d => d.weight ≠ 0

variable {devs : List Dev}

theorem assignByWeight_eq {parts : ℕ} {w : ℚ} (h : Table.Ordered Dev.id (weighted devs)) :
    assignByWeight parts w devs =
      (table (weighted devs) fun d => min 1 (d.weight * w / parts),
        ((weighted devs).filter fun d => d.weight * w / parts < 1).map Dev.id) := by
  suffices H : ∀ pre, Table.Ordered Dev.id (pre ++ weighted devs) →
      devs.foldl (fun acc dev =>
        if dev.weight = 0 then acc
        else
          let weightedReplicas := dev.weight * w / parts
          if weightedReplicas < 1 then (acc.1.set dev.id weightedReplicas, acc.2 ++ [dev.id])
          else (acc.1.set dev.id 1, acc.2))
        (table pre fun d => min 1 (d.weight * w / parts),
          (pre.filter fun d => d.weight * w / parts < 1).map Dev.id) =
        (table (pre ++ weighted devs) fun d => min 1 (d.weight * w / parts),
          ((pre ++ weighted devs).filter fun d => d.weight * w / parts < 1).map Dev.id) from H [] h
  clear h
  induction devs with
  | nil =>
    intro pre _
    rw [weighted, filter_nil, append_nil]
    rfl
  | cons d devs ih =>
    intro pre hpre
    rw [foldl_cons]
    by_cases hw : d.weight = 0
    · have hskip : weighted (d :: devs) = weighted devs := filter_cons_of_neg (by simpa using hw)
      rw [hskip] at hpre ⊢
      rw [if_pos hw]
      exact ih pre hpre
    · have hcons : weighted (d :: devs) = d :: weighted devs := filter_cons_of_pos (by simpa using hw)
      rw [hcons, append_cons pre d (weighted devs)] at hpre ⊢
      have hnew : d.id ∉ (table pre fun d => min 1 (d.weight * w / parts)).map Prod.fst := by
        rw [table, List.map_map]
        intro hmem
        obtain ⟨e, he, heq⟩ := List.mem_map.mp hmem
        have hlt := (pairwise_append.mp (pairwise_append.mp hpre).1).2.2 e he d (mem_singleton_self d)
        exact hlt.ne heq
      rw [if_neg hw]
      refine Eq.trans (congrArg (fun acc => foldl _ acc devs) ?_) (ih (pre ++ [d]) hpre)
      rw [table_append, filter_append, map_append]
      by_cases hroom : d.weight * w / parts < 1
      · simp only [if_pos hroom, Dict.set_of_notMem hnew, min_eq_right hroom.le]
        rw [filter_cons, if_pos (decide_eq_true hroom)]
        rfl
      · simp only [if_neg hroom, Dict.set_of_notMem hnew, min_eq_left (not_lt.mp hroom)]
        rw [filter_cons, if_neg (by simpa using hroom), filter_nil, map_nil, append_nil]

/-! ## 2. The loop -/

/-- Every device with room gets its share on top. -/
theorem stretch_eq {k : ℚ} {g : Dev → ℚ} (h : Table.Ordered Dev.id devs) {devicesWithRoom : List ℕ}
    (hnodup : devicesWithRoom.Nodup) (hroom : ∀ i ∈ devicesWithRoom, ∃ d ∈ devs, d.id = i) :
    stretch k (table devs g) devicesWithRoom =
      table devs fun d => if d.id ∈ devicesWithRoom then min 1 (g d * (k + 1)) else g d := by
  induction devicesWithRoom generalizing g with
  | nil => rfl
  | cons i room ih =>
    obtain ⟨hi, hrest⟩ := nodup_cons.mp hnodup
    obtain ⟨d, hd, rfl⟩ := hroom i mem_cons_self
    rw [stretch, foldl_cons, forDevice_table h hd, set_table h hd]
    refine (ih hrest fun j hj => hroom j (mem_cons_of_mem _ hj)).trans (table_congr fun e he => ?_)
    by_cases heq : e.id = d.id
    · have hed : e = d := h.eq he hd heq
      rw [hed, if_neg hi, if_pos rfl, if_pos mem_cons_self]
    · have hmem : e.id ∈ d.id :: room ↔ e.id ∈ room := by rw [mem_cons, or_iff_right heq]
      rw [if_neg heq]
      exact if_congr hmem.symm rfl rfl

/-- The devices, filled to a level. -/
def tableAt (devs : List Dev) (c : ℚ) : Dict ℕ ℚ := table devs fun d => min 1 (c * d.weight)

/-- **The loop of `_build_weighted_replicas_by_tier`** ends at the level of the weights. -/
theorem spreadReplicas_level (h : Table.Ordered Dev.id devs) (hpos : ∀ d ∈ devs, 0 < d.weight)
    {replicas : ℚ} (hcount : replicas ≤ devs.length) {fuel : ℕ} {c d : ℚ} (hc : 0 < c)
    (hle : filled (devs.map Dev.weight) c ≤ replicas) (hlevel : level replicas eps (devs.map Dev.weight) fuel c = some d)
    {p : Dev → Bool} (hp : ∀ e ∈ devs, c * e.weight < 1 → p e = true) :
    spreadReplicas replicas fuel (tableAt devs c) ((devs.filter p).map Dev.id) = some (.ok (tableAt devs d)) := by
  induction fuel generalizing c p with
  | zero => exact nomatch hlevel
  | succ fuel ih =>
    have hws : ∀ w ∈ devs.map Dev.weight, 0 < w := fun w hw => by
      obtain ⟨e, he, rfl⟩ := List.mem_map.mp hw
      exact hpos e he
    have hsum : ((tableAt devs c).map Prod.snd).sum = filled (devs.map Dev.weight) c := by
      rw [tableAt, sum_table, filled, List.map_map]
      rfl
    have hfull (e : Dev) (he : e ∈ devs) : forDevice (tableAt devs c) e.id = min 1 (c * e.weight) :=
      forDevice_table h he
    have hroom : ((devs.filter p).map Dev.id).filter (fun i => forDevice (tableAt devs c) i < 1) =
        (devs.filter fun e => c * e.weight < 1).map Dev.id := by
      rw [List.filter_map, List.filter_filter]
      refine congrArg _ (filter_congr fun e he => ?_)
      rw [Function.comp_apply, hfull e he]
      by_cases hlt : c * e.weight < 1
      · rw [hp e he hlt, Bool.and_true, min_eq_right hlt.le]
      · rw [min_eq_left (not_lt.mp hlt), decide_eq_false (lt_irrefl 1), Bool.false_and, decide_eq_false hlt]
    have htotal : (((devs.filter fun e => c * e.weight < 1).map Dev.id).map (forDevice (tableAt devs c))).sum =
        slack (devs.map Dev.weight) c := by
      rw [slack, room, List.filter_map, List.map_map, List.map_map]
      refine congrArg List.sum (map_congr_left fun e he => ?_)
      obtain ⟨he, hlt⟩ := mem_filter.mp he
      rw [Function.comp_apply, hfull e he]
      exact min_eq_right (of_decide_eq_true hlt).le
    rw [level] at hlevel
    rw [spreadReplicas, hsum]
    split_ifs at hlevel with hdone
    · cases hlevel
      exact if_pos hdone
    · have hmiss : filled (devs.map Dev.weight) c < replicas := by
        have heps : 0 < eps := by decide +kernel
        linarith
      have hslack : 0 < slack (devs.map Dev.weight) c :=
        slack_pos hc hws (hmiss.trans_le (by rwa [length_map]))
      have hup := le_raise hc hslack hle
      rw [if_neg hdone]
      simp only [hroom, htotal, if_neg hslack.ne']
      have hmem (e : Dev) (he : e ∈ devs) :
          e.id ∈ (devs.filter fun e => c * e.weight < 1).map Dev.id ↔ c * e.weight < 1 := by
        refine ⟨fun hin => ?_, fun hlt => List.mem_map_of_mem (mem_filter.mpr ⟨he, decide_eq_true hlt⟩)⟩
        obtain ⟨f, hf, heq⟩ := List.mem_map.mp hin
        obtain ⟨hf, hlt⟩ := mem_filter.mp hf
        rw [← h.eq hf he heq]
        exact of_decide_eq_true hlt
      have hstretch : stretch ((replicas - filled (devs.map Dev.weight) c) / slack (devs.map Dev.weight) c)
          (tableAt devs c) ((devs.filter fun e => c * e.weight < 1).map Dev.id) =
          tableAt devs (raise replicas (devs.map Dev.weight) c) := by
        have hsub : (devs.filter fun e => c * e.weight < 1).Sublist devs := filter_sublist
        rw [tableAt, stretch_eq h ((pairwise_map.mpr (h.sublist hsub)).imp ne_of_lt) fun i hi => ?_]
        · refine table_congr fun e he => ?_
          split_ifs with hin
          · rw [min_eq_right ((hmem e he).mp hin).le, raise]
            congr 1
            ring
          · have hge : 1 ≤ c * e.weight := not_lt.mp fun hlt => hin ((hmem e he).mpr hlt)
            have hge' : c * e.weight ≤ raise replicas (devs.map Dev.weight) c * e.weight :=
              mul_le_mul_of_nonneg_right hup (hpos e he).le
            rw [min_eq_left hge, min_eq_left (hge.trans hge')]
        · obtain ⟨e, he, heq⟩ := List.mem_map.mp hi
          exact ⟨e, mem_of_mem_filter he, heq⟩
      rw [hstretch]
      refine ih (hc.trans_le hup) (filled_raise_le hslack) hlevel fun e he hlt => decide_eq_true ?_
      exact (mul_le_mul_of_nonneg_right hup (hpos e he).le).trans_lt hlt

/-! ## 3. The sums of the tiers -/

/-- `replicas_by_tier[tier]` of a `defaultdict(float)`. -/
def valueAt (v : Dict Tier ℚ) (tier : Tier) : ℚ := (v.get tier).getD 0

theorem valueAt_add (v : Dict Tier ℚ) (x : ℚ) (tier tier' : Tier) :
    valueAt (v.set tier (valueAt v tier + x)) tier' = valueAt v tier' + if tier = tier' then x else 0 := by
  rw [valueAt, Dict.get_set]
  split_ifs with h
  · rw [h]
    rfl
  · rw [add_zero]
    rfl

theorem replicasAtTier_add (v : Dict Tier ℚ) (x : ℚ) (tier : Tier) (n : ℕ) :
    replicasAtTier (v.set tier (valueAt v tier + x)) n = replicasAtTier v n + if tier.len = n then x else 0 := by
  have hcons (e : Tier × ℚ) (v : Dict Tier ℚ) :
      replicasAtTier (e :: v) n = (if e.1.len = n then e.2 else 0) + replicasAtTier v n := by
    rw [replicasAtTier, filter_cons]
    by_cases hn : e.1.len = n
    · rw [if_pos hn, if_pos (decide_eq_true hn), map_cons, sum_cons]
      rfl
    · rw [if_neg hn, if_neg (by simpa using hn), zero_add]
      rfl
  induction v with
  | nil =>
    rw [Dict.set, hcons]
    simp only [valueAt, Dict.get_nil, Option.getD_none, zero_add]
    exact add_comm _ _
  | cons e v ih =>
    by_cases he : e.1 = tier
    · have hval : valueAt (e :: v) tier = e.2 := by rw [valueAt, Dict.get_cons, if_pos he, Option.getD_some]
      rw [Dict.set, if_pos he, hval, hcons, hcons, he]
      split_ifs
      · ring
      · ring
    · have hval : valueAt (e :: v) tier = valueAt v tier := by rw [valueAt, Dict.get_cons, if_neg he]; rfl
      rw [Dict.set, if_neg he, hval, hcons, hcons, ih, add_assoc]

section Sums

variable (replicasForDev : Dict ℕ ℚ)

/-- The tiers of one device. -/
theorem tiers_foldl (ts : List Tier) (x : ℚ) (v : Dict Tier ℚ) :
    (∀ tier, valueAt (ts.foldl (fun acc tier => acc.set tier ((acc.get tier).getD 0 + x)) v) tier =
      valueAt v tier + (ts.map fun t => if t = tier then x else 0).sum) ∧
    ∀ n, replicasAtTier (ts.foldl (fun acc tier => acc.set tier ((acc.get tier).getD 0 + x)) v) n =
      replicasAtTier v n + (ts.map fun t => if t.len = n then x else 0).sum := by
  induction ts generalizing v with
  | nil => exact ⟨fun _ => (add_zero _).symm, fun _ => (add_zero _).symm⟩
  | cons t ts ih =>
    obtain ⟨hval, htotal⟩ := ih (v.set t (valueAt v t + x))
    refine ⟨fun tier => ?_, fun n => ?_⟩
    · rw [map_cons, sum_cons, ← add_assoc, ← valueAt_add]
      exact hval tier
    · rw [map_cons, sum_cons, ← add_assoc, ← replicasAtTier_add]
      exact htotal n

theorem sum_tiers (d : Dev) (x : ℚ) (tier : Tier) :
    (d.tiers.map fun t => if t = tier then x else 0).sum = if tier ∈ d.tiers then x else 0 := by
  cases tier with
  | cluster => simp [Dev.tiers, Dev.tier]
  | region r => simp [Dev.tiers, Dev.tier, eq_comm]
  | zone r z => simp [Dev.tiers, Dev.tier, eq_comm]
  | server r z ip => simp [Dev.tiers, Dev.tier, eq_comm]
  | device r z ip i => simp [Dev.tiers, Dev.tier, eq_comm]

theorem sum_tiers_len (d : Dev) (x : ℚ) {n : ℕ} (hn : n < 5) :
    (d.tiers.map fun t => if t.len = n then x else 0).sum = x := by
  interval_cases n
  all_goals simp [Dev.tiers, Dev.tier, Tier.len]

/-- **The value of a tier is the sum of its devices.** -/
theorem sumByTier_spec (devs : List Dev) :
    (∀ tier, valueAt (sumByTier devs replicasForDev) tier =
      ((weighted devs).map fun d => if tier ∈ d.tiers then forDevice replicasForDev d.id else 0).sum) ∧
    ∀ n < 5, replicasAtTier (sumByTier devs replicasForDev) n =
      ((weighted devs).map fun d => forDevice replicasForDev d.id).sum := by
  suffices H : ∀ v : Dict Tier ℚ,
      (∀ tier, valueAt (devs.foldl (fun acc dev => if dev.weight = 0 then acc
        else dev.tiers.foldl
          (fun acc tier => acc.set tier ((acc.get tier).getD 0 + forDevice replicasForDev dev.id)) acc) v) tier =
        valueAt v tier +
          ((weighted devs).map fun d => if tier ∈ d.tiers then forDevice replicasForDev d.id else 0).sum) ∧
      ∀ n < 5, replicasAtTier (devs.foldl (fun acc dev => if dev.weight = 0 then acc
        else dev.tiers.foldl
          (fun acc tier => acc.set tier ((acc.get tier).getD 0 + forDevice replicasForDev dev.id)) acc) v) n =
        replicasAtTier v n + ((weighted devs).map fun d => forDevice replicasForDev d.id).sum by
    obtain ⟨hval, htotal⟩ := H []
    exact ⟨fun tier => (hval tier).trans (zero_add _), fun n hn => (htotal n hn).trans (zero_add _)⟩
  induction devs with
  | nil => exact fun v => ⟨fun _ => (add_zero _).symm, fun _ _ => (add_zero _).symm⟩
  | cons d devs ih =>
    intro v
    rw [foldl_cons]
    by_cases hw : d.weight = 0
    · have hskip : weighted (d :: devs) = weighted devs := filter_cons_of_neg (by simpa using hw)
      rw [if_pos hw, hskip]
      exact ih v
    · have hcons : weighted (d :: devs) = d :: weighted devs := filter_cons_of_pos (by simpa using hw)
      obtain ⟨hval, htotal⟩ := tiers_foldl d.tiers (forDevice replicasForDev d.id) v
      rw [if_neg hw, hcons]
      refine ⟨fun tier => ?_, fun n hn => ?_⟩
      · rw [(ih _).1, hval, sum_tiers, map_cons, sum_cons, add_assoc]
      · rw [(ih _).2 n hn, htotal, sum_tiers_len d _ hn, map_cons, sum_cons, add_assoc]

end Sums

/-! ## 4. The whole function -/

theorem ordered_reduceOption (l : List (Option Dev)) (n : ℕ) (h : ∀ (i : ℕ) d, l[i]? = some (some d) → d.id = n + i) :
    Table.Ordered Dev.id l.reduceOption ∧ ∀ d ∈ l.reduceOption, n ≤ d.id := by
  induction l generalizing n with
  | nil => exact ⟨List.Pairwise.nil, fun _ hd => nomatch hd⟩
  | cons o l ih =>
    obtain ⟨hord, hge⟩ := ih (n + 1) fun i d hd => by
      rw [h (i + 1) d (by rwa [getElem?_cons_succ])]
      omega
    cases o with
    | none =>
      rw [reduceOption_cons_of_none]
      exact ⟨hord, fun d hd => n.le_succ.trans (hge d hd)⟩
    | some d =>
      have hd : d.id = n := h 0 d rfl
      rw [reduceOption_cons_of_some]
      refine ⟨pairwise_cons.mpr ⟨fun e he => ?_, hord⟩, fun e he => ?_⟩
      · rw [hd]
        exact hge e he
      · rcases mem_cons.mp he with rfl | he
        · exact hd.ge
        · exact n.le_succ.trans (hge e he)

/-- The devices stand in the order of their ids. -/
theorem Builder.ordered (b : Builder) : Table.Ordered Dev.id b.iterDevs :=
  (ordered_reduceOption b.devs 0 fun i d h => by rw [b.ids i d h, Nat.zero_add]).1

/-- The devices of positive weight. -/
def Builder.positive (b : Builder) : List Dev := b.iterDevs.filter fun d => 0 < d.weight

/-- The level of the devices of a ring. -/
def waterLevel (replicas : ℚ) (ws : List ℚ) : Option ℚ := level replicas eps ws (ws.length + 2) (replicas / ws.sum)

theorem eps_pos : 0 < eps := by decide +kernel

theorem sum_weighted (devs : List Dev) : (devs.map Dev.weight).sum = ((weighted devs).map Dev.weight).sum := by
  induction devs with
  | nil => rfl
  | cons d devs ih =>
    rw [weighted, filter_cons, map_cons, sum_cons, ih]
    by_cases hw : d.weight = 0
    · rw [if_neg (by simpa using hw), hw, zero_add]
      rfl
    · rw [if_pos (decide_eq_true hw), map_cons, sum_cons]
      rfl

theorem sum_tableAt (h : Table.Ordered Dev.id devs) (c : ℚ) :
    (devs.map fun d => forDevice (tableAt devs c) d.id).sum = filled (devs.map Dev.weight) c := by
  rw [filled, List.map_map]
  exact congrArg List.sum (map_congr_left fun d hd => forDevice_table h hd)

/-- No total is off. -/
theorem checkTotals_eq {replicas total : ℚ} {v : Dict Tier ℚ} (h : ∀ n < 5, replicasAtTier v n = total)
    (hle : total ≤ replicas) (hmiss : replicas - total < eps) : checkTotals replicas v = .ok v := by
  have hnone : (tierNames.find? fun e => eps < |replicas - replicasAtTier v e.1|) = none := by
    refine find?_eq_none.mpr fun e he => ?_
    have hlen : e.1 < 5 := forall_iff_forall_mem.mp (by decide : tierNames.Forall fun e => e.1 < 5) e he
    rw [h e.1 hlen, abs_of_nonneg (sub_nonneg.mpr hle)]
    simpa using hmiss.le
  rw [checkTotals, hnone]

section Build

variable {b : Builder} (hreplicas : 0 < b.replicas) (hweights : ∀ d ∈ b.iterDevs, 0 ≤ d.weight)
  (hcount : b.replicas ≤ b.positive.length)

include hweights in
theorem weighted_eq : weighted b.iterDevs = b.positive :=
  filter_congr fun d hd => decide_eq_decide.mpr (lt_iff_le_and_ne.trans ⟨fun h => h.2.symm, fun h => ⟨hweights d hd, h.symm⟩⟩).symm

include hreplicas hweights hcount in
/-- **`_build_weighted_replicas_by_tier` fills the devices to the level of their weights.** -/
theorem buildWeighted_eq :
    ∃ c, waterLevel b.replicas (b.positive.map Dev.weight) = some c ∧
      filled (b.positive.map Dev.weight) c ≤ b.replicas ∧ b.replicas - filled (b.positive.map Dev.weight) c < eps ∧
      ∀ fuel, b.positive.length + 2 ≤ fuel →
        b.buildWeightedReplicasByTier fuel = some (.ok (sumByTier b.iterDevs (tableAt b.positive c))) := by
  have hord : Table.Ordered Dev.id b.positive := b.ordered.sublist filter_sublist
  have hpos : ∀ d ∈ b.positive, 0 < d.weight := fun d hd => of_decide_eq_true (mem_filter.mp hd).2
  have hws : ∀ w ∈ b.positive.map Dev.weight, 0 < w := fun w hw => by
    obtain ⟨d, hd, rfl⟩ := List.mem_map.mp hw
    exact hpos d hd
  have hne : b.positive ≠ [] := by
    intro hnil
    rw [hnil, length_nil, Nat.cast_zero] at hcount
    exact absurd hreplicas (not_lt.mpr hcount)
  -- the devices of weight zero add nothing to the weight of the ring
  have htotal : (b.iterDevs.map Dev.weight).sum = (b.positive.map Dev.weight).sum := by
    rw [← weighted_eq hweights]
    exact sum_weighted b.iterDevs
  have htotalPos : 0 < (b.positive.map Dev.weight).sum :=
    sum_pos _ hws fun h => hne (map_eq_nil_iff.mp h)
  set c₀ := b.replicas / (b.positive.map Dev.weight).sum with hc₀
  have hc₀Pos : 0 < c₀ := div_pos hreplicas htotalPos
  have hle₀ : filled (b.positive.map Dev.weight) c₀ ≤ b.replicas := by
    calc filled (b.positive.map Dev.weight) c₀ ≤ ((b.positive.map Dev.weight).map (c₀ * ·)).sum :=
          sum_le_sum fun w _ => min_le_right 1 _
      _ = c₀ * (b.positive.map Dev.weight).sum := by
          rw [List.map_map]
          exact sum_map_mul_left _ _ _
      _ = b.replicas := div_mul_cancel₀ _ htotalPos.ne'
  have hlength : b.replicas ≤ ((b.positive.map Dev.weight).length : ℚ) := by rwa [length_map]
  have hroom : (room (b.positive.map Dev.weight) c₀).length ≤ (b.positive.map Dev.weight).length :=
    List.length_filter_le _ _
  obtain ⟨c, hlevel, _, hle, hmiss⟩ := exists_level eps_pos hws hlength hc₀Pos hle₀
    (show (room (b.positive.map Dev.weight) c₀).length + 1 < (b.positive.map Dev.weight).length + 2 by omega)
  refine ⟨c, hlevel, hle, hmiss, fun fuel hfuel => ?_⟩
  have hassign : assignByWeight b.parts (b.parts * b.replicas / (b.iterDevs.map Dev.weight).sum) b.iterDevs =
      (tableAt b.positive c₀, (b.positive.filter fun d => c₀ * d.weight < 1).map Dev.id) := by
    have hparts : (b.parts : ℚ) ≠ 0 := Nat.cast_ne_zero.mpr (Nat.two_pow_pos _).ne'
    have hshare (d : Dev) : d.weight * (b.parts * b.replicas / (b.positive.map Dev.weight).sum) / b.parts =
        c₀ * d.weight := by
      rw [hc₀]
      field_simp
    rw [assignByWeight_eq (by rwa [weighted_eq hweights]), weighted_eq hweights, htotal]
    simp only [hshare]
    rfl
  have hloop := spreadReplicas_level hord hpos hcount hc₀Pos hle₀
    (level_mono hlevel (show (b.positive.map Dev.weight).length + 2 ≤ fuel by rwa [length_map]))
    (p := fun d => c₀ * d.weight < 1) fun d _ h => decide_eq_true h
  have hcheck : checkTotals b.replicas (sumByTier b.iterDevs (tableAt b.positive c)) =
      .ok (sumByTier b.iterDevs (tableAt b.positive c)) := by
    refine checkTotals_eq (fun n hn => ?_) hle hmiss
    rw [(sumByTier_spec _ _).2 n hn, weighted_eq hweights]
    exact sum_tableAt hord c
  rw [Builder.buildWeightedReplicasByTier, Builder.weightOfOnePart]
  simp only [htotal] at hassign ⊢
  rw [if_neg htotalPos.ne']
  simp only [hassign, hloop, Option.map_some]
  exact congrArg some hcheck

end Build

theorem tier_mem_tiers {d e : Dev} : d.tier ∈ e.tiers ↔ d.tier = e.tier := by
  simp [Dev.tiers, Dev.tier]

/-- The value of a device is what it is filled with. -/
theorem valueAt_device {b : Builder} (hweights : ∀ d ∈ b.iterDevs, 0 ≤ d.weight) (c : ℚ) {d : Dev} (hd : d ∈ b.positive) :
    valueAt (sumByTier b.iterDevs (tableAt b.positive c)) d.tier = min 1 (c * d.weight) := by
  have hord : Table.Ordered Dev.id b.positive := b.ordered.sublist filter_sublist
  have hone : (b.positive.map fun e => if d.tier ∈ e.tiers then forDevice (tableAt b.positive c) e.id else 0) =
      b.positive.map fun e => if e = d then min 1 (c * e.weight) else 0 := by
    refine map_congr_left fun e he => ?_
    have hiff : d.tier ∈ e.tiers ↔ e = d := by
      rw [tier_mem_tiers]
      refine ⟨fun h => hord.eq he hd ?_, fun h => by rw [h]⟩
      injection h with _ _ _ hid
      exact hid.symm
    exact if_congr hiff (forDevice_table hord he) rfl
  have hnodup : b.positive.Nodup := hord.imp fun h heq => h.ne (congrArg Dev.id heq)
  rw [(sumByTier_spec _ _).1, weighted_eq hweights, hone, sum_map_ite_eq, count_eq_one_of_mem hnodup hd]
  simp

/-- **Water-filling.** With at least as many devices of positive weight as replicas, the loop ends and nothing is raised.
There is a level to which every such device is filled, one replica at most; the devices hold the replicas of the ring but
for less than `eps`, and a tier what its devices hold. The level is that of any ring with as many replicas whose
positive weights are the same, whatever the ids, the tiers and the order of its devices. -/
theorem weighted_waterFilling {b : Builder} (hreplicas : 0 < b.replicas) (hweights : ∀ d ∈ b.iterDevs, 0 ≤ d.weight)
    (hcount : b.replicas ≤ b.positive.length) :
    ∃ (c : ℚ) (v : Dict Tier ℚ),
      (∀ fuel, b.positive.length + 2 ≤ fuel → b.buildWeightedReplicasByTier fuel = some (.ok v)) ∧
      (∀ d ∈ b.positive, valueAt v d.tier = min 1 (c * d.weight)) ∧
      (b.positive.map fun d => valueAt v d.tier).sum ≤ b.replicas ∧
      b.replicas - (b.positive.map fun d => valueAt v d.tier).sum < eps ∧
      (∀ tier, valueAt v tier = ((b.positive.filter fun d => tier ∈ d.tiers).map fun d => valueAt v d.tier).sum) ∧
      ∀ b' : Builder, b'.replicas = b.replicas → (∀ d ∈ b'.iterDevs, 0 ≤ d.weight) →
        (b'.positive.map Dev.weight).Perm (b.positive.map Dev.weight) →
        ∃ v', (∀ fuel, b'.positive.length + 2 ≤ fuel → b'.buildWeightedReplicasByTier fuel = some (.ok v')) ∧
          ∀ d ∈ b'.positive, valueAt v' d.tier = min 1 (c * d.weight) := by
  obtain ⟨c, hlevel, hle, hmiss, hbuild⟩ := buildWeighted_eq hreplicas hweights hcount
  have hsum : (b.positive.map fun d => valueAt (sumByTier b.iterDevs (tableAt b.positive c)) d.tier).sum =
      filled (b.positive.map Dev.weight) c := by
    rw [filled, List.map_map]
    exact congrArg List.sum (map_congr_left fun d hd => valueAt_device hweights c hd)
  refine ⟨c, _, hbuild, fun d hd => valueAt_device hweights c hd, hsum ▸ hle, hsum ▸ hmiss, fun tier => ?_,
    fun b' hsame hweights' hperm => ?_⟩
  · rw [(sumByTier_spec _ _).1, weighted_eq hweights, sum_map_ite]
    have hzero : ((b.positive.filter fun d => tier ∉ d.tiers).map fun _ => (0 : ℚ)).sum = 0 := by
      rw [map_const', sum_replicate, smul_zero]
    rw [hzero, add_zero]
    refine congrArg List.sum (map_congr_left fun d hd => ?_)
    have hd : d ∈ b.positive := mem_of_mem_filter hd
    rw [valueAt_device hweights c hd]
    exact forDevice_table (b.ordered.sublist filter_sublist) hd
  · have hlength : b'.positive.length = b.positive.length := by
      have h := hperm.length_eq
      rwa [length_map, length_map] at h
    obtain ⟨c', hlevel', _, _, hbuild'⟩ := buildWeighted_eq (b := b') (hsame ▸ hreplicas) hweights'
      (by rw [hsame, hlength]; exact hcount)
    -- the same level, since it is a function of the weights
    have heq : c' = c := by
      rw [waterLevel, hsame, level_perm hperm, hperm.sum_eq, hperm.length_eq] at hlevel'
      exact Option.some.inj (hlevel'.symm.trans hlevel)
    exact ⟨_, hbuild', fun d hd => heq ▸ valueAt_device hweights' c' hd⟩

/-- Two devices of one server. -/
def pair (weight weight' replicas : ℚ) : Builder where
  partPower := 8
  replicas := replicas
  devs := [some ⟨0, 1, 1, "10.0.0.1", weight⟩, none, some ⟨2, 1, 1, "10.0.0.1", weight'⟩]
  ids
    | 0, _, h => by cases h; rfl
    | 2, _, h => by cases h; rfl

theorem weighted_waterFilling_pair :
    ∃ (c : ℚ) (v : Dict Tier ℚ), (∀ fuel, 4 ≤ fuel → (pair 3 1 (3 / 2)).buildWeightedReplicasByTier fuel = some (.ok v)) ∧
      ∀ d ∈ (pair 3 1 (3 / 2)).positive, valueAt v d.tier = min 1 (c * d.weight) := by
  obtain ⟨c, v, hbuild, hvalue, _⟩ := weighted_waterFilling (b := pair 3 1 (3 / 2)) (by decide +kernel)
    (by decide +kernel) (by decide +kernel)
  exact ⟨c, v, hbuild, hvalue⟩

/-- The first device is full by its weight, and the second lacks less than `eps`: the loop has nothing to do. -/
theorem sum_within_eps :
    ¬ ∀ b : Builder, 0 < b.replicas → (∀ d ∈ b.iterDevs, 0 ≤ d.weight) → b.replicas ≤ b.positive.length →
      ∃ v, (∀ fuel, b.positive.length + 2 ≤ fuel → b.buildWeightedReplicasByTier fuel = some (.ok v)) ∧
        (b.positive.map fun d => valueAt v d.tier).sum = b.replicas := by
  intro h
  obtain ⟨v, hbuild, hsum⟩ := h (pair (1 + 1 / 2 ^ 34) 1 2) (by decide +kernel) (by decide +kernel) (by decide +kernel)
  have hv : (pair (1 + 1 / 2 ^ 34) 1 2).buildWeightedReplicasByTier 4 =
      some (.ok (sumByTier (pair (1 + 1 / 2 ^ 34) 1 2).iterDevs [(0, 1), (2, 2 / (2 + 1 / 2 ^ 34))])) := by
    decide +kernel
  have heq : sumByTier (pair (1 + 1 / 2 ^ 34) 1 2).iterDevs [(0, 1), (2, 2 / (2 + 1 / 2 ^ 34))] = v :=
    Except.ok.inj (Option.some.inj (hv.symm.trans (hbuild 4 (by decide +kernel))))
  rw [← heq] at hsum
  revert hsum
  decide +kernel

end Mitaka.Swift.Ring
