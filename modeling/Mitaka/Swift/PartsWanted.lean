/-
  Subject: How many parts `_set_parts_wanted` asks the tiers of a ring to hold.

  `place_parts` gives every sub-tier the floor of its target, in parts, and throws what
  is left about, one part to a tier. Where the targets add up, what is left is at most
  one part for each sub-tier (`placeFloors_eq`, `left_le`), so that every tier gets its
  floor or one more. One more than the floor is one too many for a device whose target
  is one replica.
-/
import Mitaka.Swift.ReplicaPlan

namespace Mitaka.Swift.Ring

open List

/-! ## 1. Tiers under tiers -/

/-- The tier with those above it. -/
def Tier.chain : Tier → List Tier
  | .cluster => [.cluster]
  | .region r => [.cluster, .region r]
  | .zone r z => [.cluster, .region r, .zone r z]
  | .server r z ip => [.cluster, .region r, .zone r z, .server r z ip]
  | .device r z ip id => [.cluster, .region r, .zone r z, .server r z ip, .device r z ip id]

theorem Tier.mem_chain (t : Tier) : t ∈ t.chain := by
  cases t <;> simp [Tier.chain]

theorem Tier.chain_trans {s t u : Tier} (h : s ∈ t.chain) (h' : t ∈ u.chain) : s ∈ u.chain := by
  cases u <;> grind [Tier.chain]

/-- Above a tier there is one tier of each length. -/
theorem Tier.chain_unique {s t u : Tier} (h : s ∈ u.chain) (h' : t ∈ u.chain) (hl : s.len = t.len) :
    s = t := by
  cases u <;> grind [Tier.chain, Tier.len]

theorem Tier.len_le_of_mem_chain {t u : Tier} (h : t ∈ u.chain) : t.len ≤ u.len := by
  cases u <;> grind [Tier.chain, Tier.len]

/-- A child of a device is right below its tier. -/
theorem childOf_spec {d : Dev} {t c : Tier} (h : d.childOf t = some c) :
    t ∈ c.chain ∧ c.len = t.len + 1 ∧ c ∈ d.tiers := by
  unfold Dev.childOf at h
  obtain ⟨e, he, rfl⟩ := Option.map_eq_some_iff.mp h
  have hm := mem_of_find?_eq_some he
  have ht := find?_some he
  simp only [decide_eq_true_eq] at ht
  subst ht
  simp only [Dev.tiers, Dev.tiersForDev, Dev.tier, tail_cons, zip_cons_cons, zip_nil_right,
    mem_cons, not_mem_nil, or_false] at hm
  rcases hm with rfl | rfl | rfl | rfl <;> simp [Tier.chain, Tier.len, Dev.tiers, Dev.tier]

/-- Every tier of a device has a child of it, down to the device. -/
theorem exists_childOf {d : Dev} {t : Tier} (h : t ∈ d.tiers) (hl : t.len < 4) :
    ∃ c, d.childOf t = some c := by
  simp only [Dev.tiers, mem_cons, not_mem_nil, or_false] at h
  rcases h with rfl | rfl | rfl | rfl | rfl
  · exact ⟨_, rfl⟩
  · exact ⟨.zone d.region d.zone, by simp [Dev.childOf, Dev.tiers, Dev.tiersForDev, Dev.tier]⟩
  · exact ⟨.server d.region d.zone d.ip, by simp [Dev.childOf, Dev.tiers, Dev.tiersForDev, Dev.tier]⟩
  · exact ⟨d.tier, by simp [Dev.childOf, Dev.tiers, Dev.tiersForDev, Dev.tier]⟩
  · exact absurd hl (by simp [Dev.tier, Tier.len])

variable {b : Builder} {t c : Tier}

theorem mem_subTiers : c ∈ b.subTiers t ↔ ∃ d ∈ b.iterDevs, d.weight ≠ 0 ∧ d.childOf t = some c := by
  rw [Builder.subTiers, mem_insertionSort, mem_dedup, mem_filterMap]
  simp only [mem_filter, decide_eq_true_eq, and_assoc]

theorem nodup_subTiers (b : Builder) (t : Tier) : (b.subTiers t).Nodup :=
  (perm_insertionSort _ _).nodup_iff.mpr (nodup_dedup _)

/-- The sub-tiers of a tree: right below their tier, each once. -/
structure IsTree (subTiers : Tier → List Tier) : Prop where
  below : ∀ t, ∀ c ∈ subTiers t, t ∈ c.chain ∧ c.len = t.len + 1
  nodup : ∀ t, (subTiers t).Nodup

theorem isTree_subTiers (b : Builder) : IsTree b.subTiers := by
  refine ⟨fun t c hc => ?_, nodup_subTiers b⟩
  obtain ⟨d, -, -, h⟩ := mem_subTiers.mp hc
  exact ⟨(childOf_spec h).1, (childOf_spec h).2.1⟩

/-! ## 2. The parts of the sub-tiers -/

section SubTiers

variable (plan : Dict Tier TierPlan) (ringParts : ℕ)

/-- `int(math.floor(replica_plan[t]['target'] * self.parts))`. -/
def floorParts (t : Tier) : ℤ := ⌊(planAt plan t).target * ringParts⌋

/-- `to_place`, after the floors and the parts left over. -/
def toPlace (subTiers : List Tier) (parts : ℤ) : Dict Tier ℤ :=
  throwAbout (subTiers.insertionSort fun t t' => (planAt plan t).target ≤ (planAt plan t').target)
    (placeFloors plan ringParts subTiers parts).2.toNat (placeFloors plan ringParts subTiers parts).1

variable {plan ringParts}

/-- Where the parts suffice, every sub-tier gets its floor. -/
theorem placeFloors_foldl {l : List Tier} (hnodup : l.Nodup) {acc : Dict Tier ℤ} {parts : ℤ}
    (hacc : ∀ t ∈ l, t ∉ acc.map Prod.fst) (hnonneg : ∀ t ∈ l, 0 ≤ floorParts plan ringParts t)
    (hsum : (l.map (floorParts plan ringParts)).sum ≤ parts) :
    l.foldl (fun (acc : Dict Tier ℤ × ℤ) t =>
      let placed := min acc.2 ⌊(planAt plan t).target * ringParts⌋
      (acc.1.set t placed, acc.2 - placed)) (acc, parts) =
    (acc ++ l.map fun t => (t, floorParts plan ringParts t), parts - (l.map (floorParts plan ringParts)).sum) := by
  induction l generalizing acc parts with
  | nil => simp
  | cons t l ih =>
    rw [map_cons, sum_cons] at hsum
    have hrest : 0 ≤ (l.map (floorParts plan ringParts)).sum := sum_nonneg fun x hx => by
      obtain ⟨u, hu, rfl⟩ := List.mem_map.mp hx
      exact hnonneg u (mem_cons_of_mem _ hu)
    have hmin : min parts (floorParts plan ringParts t) = floorParts plan ringParts t := by omega
    rw [foldl_cons]
    change foldl _ (Dict.set acc t (min parts (floorParts plan ringParts t)),
      parts - min parts (floorParts plan ringParts t)) l = _
    rw [hmin, Dict.set_of_notMem (hacc t mem_cons_self), ih (nodup_cons.mp hnodup).2]
    · rw [map_cons, append_assoc, singleton_append, map_cons, sum_cons, sub_sub]
    · intro u hu
      rw [map_append, mem_append]
      rintro (h | h)
      · exact hacc u (mem_cons_of_mem _ hu) h
      · obtain rfl := mem_singleton.mp h
        exact (nodup_cons.mp hnodup).1 hu
    · exact fun u hu => hnonneg u (mem_cons_of_mem _ hu)
    · omega

/-- Throwing parts about: each of the first `left` tiers gets one more. -/
theorem partsAt_throwAbout {order : List Tier} (hnodup : order.Nodup) (d : Dict Tier ℤ) {left : ℕ}
    (hle : left ≤ order.length) (t : Tier) :
    partsAt (throwAbout order left d) t = partsAt d t + if t ∈ order.take left then 1 else 0 := by
  induction left with
  | zero => simp [throwAbout]
  | succ n ih =>
    have hn : n < order.length := hle
    have hstep : throwAbout order (n + 1) d =
        (throwAbout order n d).set order[n] (partsAt (throwAbout order n d) order[n] + 1) := by
      rw [throwAbout, range_succ, foldl_append, foldl_cons, foldl_nil,
        Nat.mod_eq_of_lt hn, getElem?_eq_getElem hn]
      rfl
    have htake : order.take (n + 1) = order.take n ++ [order[n]] := (take_append_getElem hn).symm
    rw [hstep, htake, partsAt, Dict.get_set]
    by_cases ht : order[n] = t
    · subst ht
      have hnot : order[n] ∉ order.take n := by
        have htwo := hnodup.sublist (take_sublist (n + 1) order)
        rw [htake] at htwo
        exact fun h => (nodup_append.mp htwo).2.2 _ h _ (mem_singleton_self _) rfl
      have hin : order[n] ∈ order.take n ++ [order[n]] :=
        mem_append_right _ (mem_singleton_self _)
      rw [if_pos rfl, Option.getD_some, ih hn.le, if_neg hnot, if_pos hin]
      omega
    · rw [if_neg ht]
      have hiff : t ∈ order.take n ++ [order[n]] ↔ t ∈ order.take n := by
        rw [mem_append, mem_singleton]
        exact or_iff_left fun e => ht e.symm
      rw [if_congr hiff rfl rfl]
      exact ih hn.le

/-- The extra parts together. -/
theorem sum_take {order : List Tier} (hnodup : order.Nodup) {left : ℕ} (hle : left ≤ order.length) :
    (order.map fun t => if t ∈ order.take left then (1 : ℤ) else 0).sum = left := by
  have hsplit := take_append_drop left order
  have hdisj := nodup_append.mp (hsplit.symm ▸ hnodup)
  have htake : (order.take left).map (fun t => if t ∈ order.take left then (1 : ℤ) else 0) =
      (order.take left).map fun _ => 1 := map_congr_left fun t ht => if_pos ht
  have hdrop : (order.drop left).map (fun t => if t ∈ order.take left then (1 : ℤ) else 0) =
      (order.drop left).map fun _ => 0 := map_congr_left fun t ht =>
    if_neg fun h => hdisj.2.2 t h t ht rfl
  have hall : (order.map fun t => if t ∈ order.take left then (1 : ℤ) else 0) =
      (order.take left).map (fun t => if t ∈ order.take left then (1 : ℤ) else 0) ++
        (order.drop left).map (fun t => if t ∈ order.take left then (1 : ℤ) else 0) := by
    rw [← map_append, hsplit]
  rw [hall, htake, hdrop]
  simp [hle]

theorem partsAt_map {l : List Tier} (hnodup : l.Nodup) (f : Tier → ℤ) {t : Tier} (ht : t ∈ l) :
    partsAt (l.map fun t => (t, f t)) t = f t := by
  have hkeys : Dict.KeysNodup (l.map fun t => (t, f t)) := by
    rw [Dict.KeysNodup, List.map_map]
    exact (List.map_id l).symm ▸ hnodup
  rw [partsAt, hkeys.mem_iff.mp (List.mem_map_of_mem ht)]
  rfl

/-- The targets of the sub-tiers add up to the one of the tier. -/
def AddsUp (plan : Dict Tier TierPlan) (subTiers : Tier → List Tier) (t : Tier) : Prop :=
  subTiers t ≠ [] → ((subTiers t).map fun c => (planAt plan c).target).sum = (planAt plan t).target

/-- The floor of the target, or one more. -/
def Near (plan : Dict Tier TierPlan) (ringParts : ℕ) (t : Tier) (parts : ℤ) : Prop :=
  parts = floorParts plan ringParts t ∨ parts = floorParts plan ringParts t + 1

/-- The floors together: at most the sum of the targets, and less than one part for each
    tier below it. -/
theorem sum_floorParts (plan : Dict Tier TierPlan) (ringParts : ℕ) (l : List Tier) :
    ((l.map (floorParts plan ringParts)).sum : ℚ) ≤
        (l.map fun c => (planAt plan c).target).sum * ringParts ∧
      (l ≠ [] → (l.map fun c => (planAt plan c).target).sum * ringParts - l.length <
        ((l.map (floorParts plan ringParts)).sum : ℚ)) := by
  induction l with
  | nil => simp
  | cons c l ih =>
    obtain ⟨ih1, ih2⟩ := ih
    have hle : (floorParts plan ringParts c : ℚ) ≤ (planAt plan c).target * ringParts := Int.floor_le _
    have hlt : (planAt plan c).target * ringParts - 1 < (floorParts plan ringParts c : ℚ) :=
      Int.sub_one_lt_floor _
    rw [map_cons, map_cons, sum_cons, sum_cons, length_cons, Int.cast_add,
      Nat.cast_succ, add_mul]
    refine ⟨by linarith, fun _ => ?_⟩
    by_cases hl : l = []
    · subst hl
      simpa using hlt
    · have := ih2 hl
      linarith

/-- **What is left over** is at least nothing, and at most one part for each sub-tier. -/
theorem left_le {l : List Tier} {t : Tier} {parts : ℤ} (hparts : Near plan ringParts t parts)
    (hne : l ≠ []) (hsum : (l.map fun c => (planAt plan c).target).sum = (planAt plan t).target) :
    (l.map (floorParts plan ringParts)).sum ≤ parts ∧
      parts - (l.map (floorParts plan ringParts)).sum ≤ l.length := by
  obtain ⟨h1, h2⟩ := sum_floorParts plan ringParts l
  have h2 := h2 hne
  rw [hsum] at h1 h2
  have hle : (l.map (floorParts plan ringParts)).sum ≤ floorParts plan ringParts t := Int.le_floor.mpr h1
  have hfloor : (floorParts plan ringParts t : ℚ) ≤ (planAt plan t).target * ringParts := Int.floor_le _
  have hlt : ((floorParts plan ringParts t : ℤ) : ℚ) <
      (((l.map (floorParts plan ringParts)).sum + l.length : ℤ) : ℚ) := by
    rw [Int.cast_add, Int.cast_natCast]
    linarith
  have := Int.cast_lt.mp hlt
  rcases hparts with h | h <;> omega

/-- **Every sub-tier gets its floor or one more, and together they get the parts.** -/
theorem toPlace_spec {subTiers : Tier → List Tier} (htree : IsTree subTiers) {t : Tier} {parts : ℤ}
    (hnonneg : ∀ t, 0 ≤ (planAt plan t).target) (hne : subTiers t ≠ []) (hsum : AddsUp plan subTiers t)
    (hparts : Near plan ringParts t parts) :
    (∀ c ∈ subTiers t, Near plan ringParts c (partsAt (toPlace plan ringParts (subTiers t) parts) c)) ∧
      ((subTiers t).map (partsAt (toPlace plan ringParts (subTiers t) parts))).sum = parts := by
  obtain ⟨hle, hleft⟩ := left_le hparts hne (hsum hne)
  set l := subTiers t
  have hnodup : l.Nodup := htree.nodup t
  have hfloor : ∀ c, 0 ≤ floorParts plan ringParts c := fun c =>
    Int.floor_nonneg.mpr (mul_nonneg (hnonneg c) (Nat.cast_nonneg _))
  have hfloors : placeFloors plan ringParts l parts = (l.map fun c => (c, floorParts plan ringParts c),
      parts - (l.map (floorParts plan ringParts)).sum) :=
    placeFloors_foldl hnodup (by simp) (fun c _ => hfloor c) hle
  set left := (parts - (l.map (floorParts plan ringParts)).sum).toNat with hdef
  set order := l.insertionSort fun t t' => (planAt plan t).target ≤ (planAt plan t').target
  have hperm : order.Perm l := perm_insertionSort _ _
  have horder : order.Nodup := hperm.nodup_iff.mpr hnodup
  have hlen : left ≤ order.length := by
    rw [hperm.length_eq]
    omega
  have hplace : ∀ c ∈ l, partsAt (toPlace plan ringParts l parts) c =
      floorParts plan ringParts c + if c ∈ order.take left then 1 else 0 := by
    intro c hc
    rw [toPlace, hfloors]
    exact (partsAt_throwAbout horder _ hlen c).trans (by rw [partsAt_map hnodup _ hc])
  refine ⟨fun c hc => ?_, ?_⟩
  · rw [hplace c hc]
    by_cases h : c ∈ order.take left
    · rw [if_pos h]
      exact Or.inr rfl
    · rw [if_neg h, add_zero]
      exact Or.inl rfl
  · have hextra : (l.map fun c => if c ∈ order.take left then (1 : ℤ) else 0).sum = left :=
      ((hperm.map _).sum_eq.symm).trans (sum_take horder hlen)
    rw [map_congr_left hplace, sum_map_add, hextra]
    omega

end SubTiers

/-! ## 3. All tiers -/

/-- What `place_parts` writes, as a list: a tier, and then its sub-tiers. -/
def placed (plan : Dict Tier TierPlan) (ringParts : ℕ) (subTiers : Tier → List Tier) :
    ℕ → Tier → ℤ → List (Tier × ℤ)
  | 0, tier, parts => [(tier, parts)]
  | n + 1, tier, parts => (tier, parts) :: (subTiers tier).flatMap fun c =>
      placed plan ringParts subTiers n c (partsAt (toPlace plan ringParts (subTiers tier) parts) c)

section Tree

variable {plan : Dict Tier TierPlan} {ringParts : ℕ} {subTiers : Tier → List Tier} (htree : IsTree subTiers)

include htree

variable {tier : Tier} {parts : ℤ}

/-- Everything written is for the tier and what is under it. -/
theorem chain_of_placed {n : ℕ} {e : Tier × ℤ}
    (he : e ∈ placed plan ringParts subTiers n tier parts) : tier ∈ e.1.chain := by
  induction n generalizing tier parts with
  | zero =>
    obtain rfl := mem_singleton.mp he
    exact Tier.mem_chain _
  | succ n ih =>
    rcases mem_cons.mp he with rfl | he
    · exact Tier.mem_chain _
    · obtain ⟨c, hc, he⟩ := mem_flatMap.mp he
      exact Tier.chain_trans (htree.below _ c hc).1 (ih he)

/-- **`place_parts` writes every tier once.** -/
theorem placeParts_eq {n : ℕ} {acc : Dict Tier ℤ}
    (hacc : ∀ t ∈ acc.map Prod.fst, tier ∉ t.chain) :
    placeParts plan ringParts subTiers n acc tier parts = acc ++ placed plan ringParts subTiers n tier parts := by
  induction n generalizing acc tier parts with
  | zero => exact Dict.set_of_notMem (fun h => hacc tier h tier.mem_chain) _
  | succ n ih =>
    have hchildren : ∀ (l : List Tier) (acc : Dict Tier ℤ), l.Nodup → (∀ c ∈ l, c ∈ subTiers tier) →
        (∀ c ∈ l, ∀ t ∈ acc.map Prod.fst, c ∉ t.chain) →
        l.foldl (fun partsByTier t => placeParts plan ringParts subTiers n partsByTier t
          (partsAt (toPlace plan ringParts (subTiers tier) parts) t)) acc =
        acc ++ l.flatMap fun c => placed plan ringParts subTiers n c
          (partsAt (toPlace plan ringParts (subTiers tier) parts) c) := by
      intro l
      induction l with
      | nil => intro acc _ _ _; simp
      | cons c l ihl =>
        intro acc hnodup hsub hacc
        have hfresh : ∀ c' ∈ l, ∀ t ∈ (acc ++ placed plan ringParts subTiers n c
            (partsAt (toPlace plan ringParts (subTiers tier) parts) c)).map Prod.fst, c' ∉ t.chain := by
          intro c' hc' t ht hct
          rw [map_append, mem_append] at ht
          rcases ht with ht | ht
          · exact hacc c' (mem_cons_of_mem _ hc') t ht hct
          · obtain ⟨e, he, rfl⟩ := List.mem_map.mp ht
            -- two children of one tier are not above one tier
            have hlen : c.len = c'.len :=
              (htree.below tier c (hsub c mem_cons_self)).2.trans
                (htree.below tier c' (hsub c' (mem_cons_of_mem _ hc'))).2.symm
            have heq := Tier.chain_unique (chain_of_placed htree he) hct hlen
            exact (nodup_cons.mp hnodup).1 (heq ▸ hc')
        rw [foldl_cons, ih (hacc c mem_cons_self), ihl _ (nodup_cons.mp hnodup).2
          (fun c' hc' => hsub c' (mem_cons_of_mem _ hc')) hfresh, flatMap_cons, append_assoc]
    have hset : acc.set tier parts = acc ++ [(tier, parts)] :=
      Dict.set_of_notMem (fun h => hacc tier h tier.mem_chain) _
    have hstart : ∀ c ∈ subTiers tier, ∀ t ∈ (acc ++ [(tier, parts)]).map Prod.fst, c ∉ t.chain := by
      intro c hc t ht hct
      obtain ⟨habove, hlen⟩ := htree.below tier c hc
      rw [map_append, mem_append] at ht
      rcases ht with ht | ht
      · exact hacc t ht (Tier.chain_trans habove hct)
      · obtain rfl := mem_singleton.mp ht
        have := Tier.len_le_of_mem_chain hct
        omega
    have hrun := hchildren (subTiers tier) (acc ++ [(tier, parts)]) (htree.nodup tier) (fun _ => id) hstart
    rw [append_assoc] at hrun
    rw [placeParts, hset]
    exact hrun

/-- **Every tier is asked for its floor or one more**, where the targets add up. -/
theorem near_of_placed (hnonneg : ∀ t, 0 ≤ (planAt plan t).target) (hsum : ∀ t, AddsUp plan subTiers t)
    {n : ℕ} (hparts : Near plan ringParts tier parts) :
    ∀ e ∈ placed plan ringParts subTiers n tier parts, Near plan ringParts e.1 e.2 := by
  induction n generalizing tier parts with
  | zero =>
    intro e he
    obtain rfl := mem_singleton.mp he
    exact hparts
  | succ n ih =>
    intro e he
    rcases mem_cons.mp he with rfl | he
    · exact hparts
    · obtain ⟨c, hc, he⟩ := mem_flatMap.mp he
      have hne := ne_nil_of_mem hc
      exact ih ((toPlace_spec htree hnonneg hne (hsum tier) hparts).1 c hc) e he

/-- **Every level has the parts of the tier**, where the tiers above it have sub-tiers. -/
theorem sum_placed (hnonneg : ∀ t, 0 ≤ (planAt plan t).target) (hsum : ∀ t, AddsUp plan subTiers t)
    {occurs : Tier → Prop} (hdown : ∀ t, occurs t → t.len < 4 → subTiers t ≠ [])
    (hsub : ∀ t, occurs t → ∀ c ∈ subTiers t, occurs c)
    {n : ℕ} (hparts : Near plan ringParts tier parts) (htier : occurs tier)
    (hlen : tier.len + n ≤ 4) {j : ℕ} (hj : j ≤ n) :
    partsAtLevel (placed plan ringParts subTiers n tier parts) (tier.len + j) = parts := by
  induction n generalizing tier parts j with
  | zero =>
    obtain rfl : j = 0 := by omega
    simp [partsAtLevel, placed]
  | succ n ih =>
    have hbelow : ∀ e ∈ (subTiers tier).flatMap (fun c => placed plan ringParts subTiers n c
        (partsAt (toPlace plan ringParts (subTiers tier) parts) c)), tier.len < e.1.len := by
      intro e he
      obtain ⟨c, hc, he⟩ := mem_flatMap.mp he
      have h1 := (htree.below tier c hc).2
      have h2 := Tier.len_le_of_mem_chain (chain_of_placed htree he)
      omega
    rw [partsAtLevel, placed]
    cases j with
    | zero =>
      have hnone : ((subTiers tier).flatMap (fun c => placed plan ringParts subTiers n c
          (partsAt (toPlace plan ringParts (subTiers tier) parts) c))).filter
            (fun e => e.1.len = tier.len + 0) = [] :=
        filter_eq_nil_iff.mpr fun e he => by
          have := hbelow e he
          simp only [decide_eq_true_eq]
          omega
      rw [filter_cons_of_pos (by simp), hnone]
      simp
    | succ j =>
      have hne := hdown tier htier (by omega)
      obtain ⟨hnear, htotal⟩ := toPlace_spec htree hnonneg hne (hsum tier) hparts
      have hchild : ∀ c ∈ subTiers tier, partsAtLevel (placed plan ringParts subTiers n c
          (partsAt (toPlace plan ringParts (subTiers tier) parts) c)) (tier.len + (j + 1)) =
          partsAt (toPlace plan ringParts (subTiers tier) parts) c := by
        intro c hc
        have hl := (htree.below tier c hc).2
        have := ih (hnear c hc) (hsub tier htier c hc) (by omega) (j := j) (by omega)
        rwa [hl, show tier.len + 1 + j = tier.len + (j + 1) by omega] at this
      rw [filter_cons_of_neg (by simp), filter_flatMap, map_flatMap, flatMap_def,
        sum_flatten, List.map_map]
      exact (congrArg List.sum (map_congr_left hchild)).trans htotal

end Tree

/-! ## 4. The parts wanted -/

/-- The targets of a plan are not negative and add up: to the replicas at the root, and
    from the sub-tiers to every tier. -/
structure TargetsAddUp (b : Builder) (plan : Dict Tier TierPlan) : Prop where
  nonneg : ∀ t, 0 ≤ (planAt plan t).target
  root : (planAt plan .cluster).target = b.replicas
  sums : ∀ t, AddsUp plan b.subTiers t

/-- The tier of a device with a weight, or one above it. -/
def Occurs (b : Builder) (t : Tier) : Prop := ∃ d ∈ b.iterDevs, d.weight ≠ 0 ∧ t ∈ d.tiers

theorem subTiers_ne_nil (h : Occurs b t) (hl : t.len < 4) : b.subTiers t ≠ [] := by
  obtain ⟨d, hd, hw, ht⟩ := h
  obtain ⟨c, hc⟩ := exists_childOf ht hl
  exact ne_nil_of_mem (mem_subTiers.mpr ⟨d, hd, hw, hc⟩)

theorem occurs_subTiers (h : c ∈ b.subTiers t) : Occurs b c := by
  obtain ⟨d, hd, hw, hc⟩ := mem_subTiers.mp h
  exact ⟨d, hd, hw, (childOf_spec hc).2.2⟩

variable {plan : Dict Tier TierPlan}

theorem near_abs {ringParts : ℕ} {parts : ℤ} (h : Near plan ringParts t parts) :
    |(parts : ℚ) - (planAt plan t).target * ringParts| ≤ 1 := by
  have hle : (floorParts plan ringParts t : ℚ) ≤ (planAt plan t).target * ringParts := Int.floor_le _
  have hlt : (planAt plan t).target * ringParts - 1 < (floorParts plan ringParts t : ℚ) :=
    Int.sub_one_lt_floor _
  rw [abs_le]
  rcases h with rfl | rfl
  · exact ⟨by linarith, by linarith⟩
  · rw [Int.cast_add, Int.cast_one]
    exact ⟨by linarith, by linarith⟩

/-- A device with a target below one replica is asked for no more than the parts. -/
theorem near_le {ringParts : ℕ} {parts : ℤ} (h : Near plan ringParts t parts)
    (ht : (planAt plan t).target < 1) : parts ≤ ringParts ∨ ringParts = 0 := by
  by_cases h0 : ringParts = 0
  · exact Or.inr h0
  · refine Or.inl ?_
    have hpos : (0 : ℚ) < ringParts := Nat.cast_pos.mpr (Nat.pos_of_ne_zero h0)
    have hlt : floorParts plan ringParts t < (ringParts : ℤ) := by
      refine Int.floor_lt.mpr ?_
      rw [Int.cast_natCast]
      exact mul_lt_of_lt_one_left hpos ht
    rcases h with h | h <;> omega

/-- Servers with one, two and two devices, four replicas and 256 parts. -/
def limitedDevs : List (Option Dev) :=
  [some ⟨0, 0, 0, "a", 100⟩, some ⟨1, 0, 0, "b", 4⟩, some ⟨2, 0, 0, "b", 4⟩, some ⟨3, 0, 0, "c", 5⟩,
    some ⟨4, 0, 0, "c", 5⟩]

def limited : Builder where
  partPower := 8
  replicas := 4
  devs := limitedDevs
  ids i d h := by
    have hlt : i < limitedDevs.length := (List.getElem?_eq_some_iff.mp h).1
    have hall : ∀ i < 5, ∀ e ∈ limitedDevs[i]?, ∀ d ∈ e, d.id = i := by decide
    exact hall i hlt _ h d rfl

/-- Its plan: the one device of "a" can hold one replica. -/
def limitedPlan : Dict Tier TierPlan :=
  [(.cluster, ⟨4, 4, 4⟩), (.region 0, ⟨4, 4, 4⟩), (.zone 0 0, ⟨4, 4, 4⟩), (.server 0 0 "a", ⟨1, 1, 1⟩),
    (.device 0 0 "a" 0, ⟨1, 1, 1⟩), (.server 0 0 "b", ⟨1, 4 / 3, 2⟩), (.device 0 0 "b" 1, ⟨0, 2 / 3, 1⟩),
    (.device 0 0 "b" 2, ⟨0, 2 / 3, 1⟩), (.server 0 0 "c", ⟨1, 5 / 3, 2⟩), (.device 0 0 "c" 3, ⟨0, 5 / 6, 1⟩),
    (.device 0 0 "c" 4, ⟨0, 5 / 6, 1⟩)]

/-- The targets need checking only where the plan or the devices say something. -/
theorem targetsAddUp_of_devs (hnonneg : ∀ e ∈ plan, 0 ≤ e.2.target)
    (hroot : (planAt plan .cluster).target = b.replicas)
    (hsums : ∀ d ∈ b.iterDevs, ∀ t ∈ d.tiers, b.subTiers t ≠ [] →
      ((b.subTiers t).map fun c => (planAt plan c).target).sum = (planAt plan t).target) :
    TargetsAddUp b plan := by
  refine ⟨fun t => ?_, hroot, fun t hne => ?_⟩
  · cases hget : plan.get t with
    | none => rw [planAt, hget]; exact le_rfl
    | some v =>
      rw [planAt, hget]
      exact hnonneg (t, v) (Dict.mem_of_get hget)
  · obtain ⟨c, hc⟩ := exists_mem_of_ne_nil _ hne
    obtain ⟨d, hd, -, h⟩ := mem_subTiers.mp hc
    have ht : t ∈ d.tiers := by
      unfold Dev.childOf at h
      obtain ⟨e, he, -⟩ := Option.map_eq_some_iff.mp h
      have heq := find?_some he
      exact of_decide_eq_true heq ▸ (of_mem_zip (mem_of_find?_eq_some he)).1
    exact hsums d hd t ht hne

end Mitaka.Swift.Ring
