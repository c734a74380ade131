/-
  Subject: A rebalance moves at most one replica of a part, and none of a part that
           was moved too recently.

  What every gatherer and `_reassign_parts` keep is `Guarded`: of the replicas of a part
  that were on a device before, and not on a removed one, at most one is off it, and when
  one is, the part counts as moved just now. All gatherers but one leave such a part
  alone; the exception, for a device with two replicas of the part, is never taken
  (`replicasAtTiers_le_one`).
-/
import Mitaka.Lib.Fallible
import Mitaka.Lib.Outcome
import Mitaka.Swift.Rebalance

namespace Mitaka.Swift.Ring

open List Option

/-! ## 1. Slots -/

theorem getElem?_setSlot (table : List (List ℕ)) (replica part dev r : ℕ) :
    (setSlot table replica part dev)[r]? =
      if r = replica then (table[r]?).map (·.set part dev) else table[r]? := by
  rw [setSlot, getElem?_modify]
  by_cases hr : r = replica
  · subst hr
    simp
  · simp [hr, Ne.symm hr]

theorem slot_setSlot (table : List (List ℕ)) (replica part dev r p : ℕ) :
    slot (setSlot table replica part dev) r p =
      if r = replica ∧ p = part then (slot table r p).map fun _ => dev else slot table r p := by
  unfold slot
  rw [getElem?_setSlot]
  by_cases hr : r = replica
  · rw [if_pos hr]
    cases hrow : table[r]? with
    | none => simp
    | some row =>
      rw [map_some, bind_some, bind_some, getElem?_set]
      by_cases hp : part = p
      · subst hp
        have hboth : r = replica ∧ part = part := ⟨hr, rfl⟩
        rw [if_pos rfl]
        by_cases hlt : part < row.length
        · rw [if_pos hlt, if_pos hboth, getElem?_eq_getElem hlt]
          rfl
        · rw [if_neg hlt, if_pos hboth, getElem?_eq_none (not_lt.mp hlt)]
          rfl
      · rw [if_neg hp, if_neg fun h => hp h.2.symm]
  · rw [if_neg hr, if_neg fun h => hr h.1]

variable {table : List (List ℕ)}

theorem slot_setSlot_of_ne {replica part dev r p : ℕ} (h : p ≠ part) :
    slot (setSlot table replica part dev) r p = slot table r p := by
  rw [slot_setSlot, if_neg fun e => h e.2]

theorem mem_heldSlots {p r d : ℕ} :
    (r, d) ∈ heldSlots table p ↔ slot table r p = some d ∧ d ≠ NONE_DEV := by
  rw [heldSlots, mem_filterMap]
  refine ⟨fun ⟨e, he, h⟩ => ?_, fun ⟨h, hd⟩ => ?_⟩
  · obtain ⟨x, hx, h⟩ := bind_eq_some_iff.mp h
    split at h
    · cases h
    · next hne =>
      obtain ⟨rfl, rfl⟩ := Prod.mk.inj (Option.some.inj h)
      have hrow := mem_zipIdx_iff_getElem?.mp he
      exact ⟨by rw [slot, hrow]; exact hx, hne⟩
  · obtain ⟨row, hrow, hx⟩ := bind_eq_some_iff.mp h
    exact ⟨(row, r), mem_zipIdx_iff_getElem?.mpr hrow, by simp [hx, hd]⟩

/-- No replica is listed twice. -/
theorem nodup_heldSlots (table : List (List ℕ)) (p : ℕ) : ((heldSlots table p).map Prod.fst).Nodup := by
  have hsub : ∀ l : List (List ℕ × ℕ), (((l.filterMap fun e => (e.1[p]?).bind fun d =>
      if d = NONE_DEV then none else some (e.2, d)) : List (ℕ × ℕ)).map Prod.fst).Sublist (l.map Prod.snd) := by
    intro l
    induction l with
    | nil => exact Sublist.refl _
    | cons e l ih =>
      rw [filterMap_cons, map_cons]
      split
      · exact ih.cons _
      · next s hs =>
        obtain ⟨d, -, hd⟩ := bind_eq_some_iff.mp hs
        split at hd
        · cases hd
        · rw [← Option.some.inj hd]
          exact ih.cons_cons _
  have hnodup : (table.zipIdx.map Prod.snd).Nodup := by
    rw [zipIdx_map_snd]
    exact nodup_range'
  exact hnodup.sublist (hsub _)

/-- Another part does not matter. -/
theorem heldSlots_setSlot {replica part dev p : ℕ} (h : p ≠ part) :
    heldSlots (setSlot table replica part dev) p = heldSlots table p := by
  have hmap : ∀ (l l' : List (List ℕ × ℕ)), l.map (fun e => (e.1[p]?, e.2)) = l'.map (fun e => (e.1[p]?, e.2)) →
      (l.filterMap fun e => (e.1[p]?).bind fun d => if d = NONE_DEV then none else some (e.2, d)) =
        l'.filterMap fun e => (e.1[p]?).bind fun d => if d = NONE_DEV then none else some (e.2, d) := by
    intro l l' he
    have hfm : ∀ l : List (List ℕ × ℕ), (l.filterMap fun e => (e.1[p]?).bind fun d =>
        if d = NONE_DEV then none else some (e.2, d)) = (l.map fun e => (e.1[p]?, e.2)).filterMap fun e =>
          e.1.bind fun d => if d = NONE_DEV then none else some (e.2, d) := fun l => by
      rw [filterMap_map]
      rfl
    rw [hfm, hfm, he]
  refine hmap _ _ (ext_getElem? fun i => ?_)
  simp only [getElem?_map, getElem?_zipIdx, getElem?_setSlot]
  by_cases hi : i = replica
  · rw [if_pos hi]
    cases table[i]? with
    | none => rfl
    | some row => simp [getElem?_set_ne h.symm]
  · rw [if_neg hi]

theorem held_setSlot (devs : List (Option Dev)) {replica part dev p : ℕ}
    (h : p ≠ part) : held devs (setSlot table replica part dev) p = held devs table p := by
  rw [held, heldSlots_setSlot h, held]

theorem age_set_self (moves : List ℕ) (p : ℕ) : age (moves.set p 0) p = 0 := by
  unfold age
  by_cases h : p < moves.length
  · simp [h]
  · simp [h]

theorem age_set_of_ne {moves : List ℕ} {p q : ℕ} (h : p ≠ q) : age (moves.set q 0) p = age moves p := by
  simp [age, getD_eq_getElem?_getD, getElem?_set_ne h.symm]

/-- Counting a part as moved makes no part older. -/
theorem age_set_lt {moves : List ℕ} {p q n : ℕ} (hn : 0 < n) (h : age moves p < n) :
    age (moves.set q 0) p < n := by
  by_cases hp : p = q
  · subst hp
    rw [age_set_self]
    exact hn
  · rwa [age_set_of_ne hp]

/-! ## 2. One replica of a part on a device -/

/-- The replicas of a part are on different devices. -/
def Distinct (table : List (List ℕ)) (p : ℕ) : Prop :=
  ∀ r r' d, slot table r p = some d → slot table r' p = some d → d ≠ NONE_DEV → r = r'

theorem Distinct.setSlot {p : ℕ} (h : Distinct table p) (replica part : ℕ) :
    Distinct (setSlot table replica part NONE_DEV) p := by
  intro r r' d hr hr' hd
  rw [slot_setSlot] at hr hr'
  split at hr
  · obtain ⟨x, -, rfl⟩ := map_eq_some_iff.mp hr
    exact absurd rfl hd
  · split at hr'
    · obtain ⟨x, -, rfl⟩ := map_eq_some_iff.mp hr'
      exact absurd rfl hd
    · exact h r r' d hr hr' hd

/-- The devices stand at their ids. -/
def AtIds (devs : List (Option Dev)) : Prop := ∀ (i : ℕ) d, devs[i]? = some (some d) → d.id = i

variable {devs : List (Option Dev)}

theorem devAt_eq_ok {id : ℕ} {d : Dev} :
    devAt devs id = .ok d ↔ devs[id]? = some (some d) := by
  unfold devAt
  split
  · next d' h => rw [h]; simp
  · next h =>
    exact ⟨nofun, fun e => absurd e (h d)⟩

variable {l : List (Dev × ℕ)}

/-- The devices of a part, each with its slot. -/
theorem forall₂_held {p : ℕ}
    (h : held devs table p = .ok l) :
    Forall₂ (fun s e => devAt devs s.2 = .ok e.1 ∧ s.1 = e.2) (heldSlots table p) l := by
  refine (Fallible.forall₂_of_mapM h).imp fun s e he => ?_
  cases hd : devAt devs s.2 with
  | error err => rw [hd] at he; cases he
  | ok d =>
    rw [hd] at he
    obtain rfl := Except.ok.inj he
    exact ⟨rfl, rfl⟩

/-- What is held, with the devices: each replica once, on the device of its slot. -/
theorem held_spec {p : ℕ}
    (hids : AtIds devs) (h : held devs table p = .ok l) :
    (∀ e ∈ l, slot table e.2 p = some e.1.id ∧ e.1.id ≠ NONE_DEV) ∧ (l.map Prod.snd).Nodup := by
  have heq : l.map (fun e => (e.2, e.1.id)) = heldSlots table p := by
    have hall := forall₂_held h
    generalize heldSlots table p = slots at hall
    clear h
    induction hall with
    | nil => rfl
    | cons he _ ih => rw [map_cons, ih, hids _ _ (devAt_eq_ok.mp he.1), ← he.2]
  refine ⟨fun e he => mem_heldSlots.mp ?_, ?_⟩
  · rw [← heq]
    exact List.mem_map_of_mem he
  · have hn := nodup_heldSlots table p
    rw [← heq, List.map_map] at hn
    exact hn

theorem held_error {p r d : ℕ}
    (h : slot table r p = some d) (hd : d ≠ NONE_DEV) (hnone : ∀ dev, devAt devs d ≠ .ok dev) :
    ∃ e, held devs table p = .error e := by
  cases hl : held devs table p with
  | error e => exact ⟨e, rfl⟩
  | ok l =>
    exfalso
    obtain ⟨e, hdev, -⟩ := Fallible.exists_of_forall₂_left (forall₂_held hl) (mem_heldSlots.mpr ⟨h, hd⟩)
    exact hnone e.1 hdev

theorem replicasAtTiers_eq (l : List (Dev × ℕ)) (t : Tier) :
    replicasAtTiers l t = (l.filter fun e => t ∈ e.1.tiersForDev).length := by
  have hfold : ∀ (l : List (Dev × ℕ)) (f : Tier → ℤ),
      l.foldl (fun atTier dr => countTiers 1 dr.1 atTier) f t =
        f t + (l.filter fun e => t ∈ e.1.tiersForDev).length := by
    intro l
    induction l with
    | nil => intro f; simp
    | cons e l ih =>
      intro f
      rw [foldl_cons, ih, countTiers]
      by_cases he : t ∈ e.1.tiersForDev
      · rw [if_pos he, filter_cons_of_pos (by simpa using he), length_cons]
        push_cast
        ring
      · rw [if_neg he, filter_cons_of_neg (by simpa using he)]
  rw [replicasAtTiers, hfold, zero_add]

/-- **A device has at most one replica of the part.** -/
theorem replicasAtTiers_le_one {p : ℕ}
    (hids : AtIds devs) (hdist : Distinct table p) (h : held devs table p = .ok l)
    (d : Dev) : replicasAtTiers l d.tier ≤ 1 := by
  obtain ⟨hslot, hnodup⟩ := held_spec hids h
  rw [replicasAtTiers_eq]
  have htier : ∀ e : Dev, d.tier ∈ e.tiersForDev → e.id = d.id := fun e he => by
    simp [Dev.tiersForDev, Dev.tiers, Dev.tier] at he
    exact he.2.2.2.symm
  set found := l.filter fun e => d.tier ∈ e.1.tiersForDev with hfound
  have hsame : ∀ x ∈ found.map Prod.snd, ∀ y ∈ found.map Prod.snd, x = y := by
    intro x hx y hy
    obtain ⟨e, he, rfl⟩ := List.mem_map.mp hx
    obtain ⟨e', he', rfl⟩ := List.mem_map.mp hy
    obtain ⟨hel, het⟩ := mem_filter.mp he
    obtain ⟨hel', het'⟩ := mem_filter.mp he'
    obtain ⟨h1, h2⟩ := hslot e hel
    obtain ⟨h1', -⟩ := hslot e' hel'
    have hid : e'.1.id = e.1.id := (htier _ (of_decide_eq_true het')).trans (htier _ (of_decide_eq_true het)).symm
    exact hdist _ _ _ h1 (hid ▸ h1') h2
  have hn : (found.map Prod.snd).Nodup := hnodup.sublist (filter_sublist.map _)
  have hlen : (found.map Prod.snd).length ≤ 1 := by
    by_contra hlong
    have h0 : 0 < (found.map Prod.snd).length := by omega
    have h1 : 1 < (found.map Prod.snd).length := by omega
    exact absurd (hn.getElem_inj_iff.mp (hsame _ (getElem_mem h0) _ (getElem_mem h1))) zero_ne_one
  rw [length_map] at hlen
  omega

/-! ## 3. What visiting a part does -/

/-- A visit raises and leaves everything, or does nothing, or takes one replica of a part
    whose age allows it. -/
def VisitsOnce (devs : List (Option Dev)) (minPartHours : ℕ) (w : Work) (part : ℕ) : Raising Work → Prop :=
  Finishes (fun w' => w' = w ∨ (minPartHours ≤ age w.lastPartMoves part ∧
    (∃ l, held devs w.replica2part2dev part = .ok l) ∧ ∃ dev replica, w' = w.pick part dev replica))
    fun e => e.2 = w

section Visit

variable {devs : List (Option Dev)} {plan : Dict Tier TierPlan} {minPartHours : ℕ} {w : Work} {part : ℕ}

theorem age_pick (w : Work) (part : ℕ) (dev : Dev) (replica : ℕ) :
    age (w.pick part dev replica).lastPartMoves part = 0 := age_set_self _ _

/-- Behind the first replica taken, no other one is. -/
theorem balanceReplica_foldl (hpos : 0 < minPartHours) (stays : (Tier → ℤ) → Dev → Bool)
    (l : List (Dev × ℕ)) (atTier : Tier → ℤ) :
    (l.foldl (balanceReplica minPartHours stays part) (w, atTier)).1 = w ∨
      ∃ dev replica, (l.foldl (balanceReplica minPartHours stays part) (w, atTier)).1 = w.pick part dev replica := by
  have hstop : ∀ (l : List (Dev × ℕ)) (acc : Work × (Tier → ℤ)), age acc.1.lastPartMoves part < minPartHours →
      l.foldl (balanceReplica minPartHours stays part) acc = acc := by
    intro l
    induction l with
    | nil => exact fun _ _ => rfl
    | cons dr l ih =>
      intro acc hlt
      rw [foldl_cons, balanceReplica, if_pos hlt, ih acc hlt]
  induction l generalizing atTier with
  | nil => exact Or.inl rfl
  | cons dr l ih =>
    rw [foldl_cons, balanceReplica]
    split
    · exact ih atTier
    · split
      · exact ih atTier
      · refine Or.inr ⟨dr.1, dr.2, ?_⟩
        rw [hstop]
        rw [age_pick]
        exact hpos

theorem balancePart_visitsOnce (hpos : 0 < minPartHours) (stays : (Tier → ℤ) → Dev → Bool) :
    VisitsOnce devs minPartHours w part (balancePart devs minPartHours stays w part) := by
  rw [balancePart]
  split
  · exact Or.inl rfl
  · next hage =>
    split
    · exact rfl
    · next l hl =>
      refine (balanceReplica_foldl hpos stays _ _).imp id fun h => ?_
      exact ⟨not_lt.mp hage, ⟨l, hl⟩, h⟩

/-- The exception for a device with two replicas of the part is not taken. -/
theorem disperseReplica_foldl (hpos : 0 < minPartHours) (l : List (Dev × ℕ)) {atTier : Tier → ℤ}
    (hone : ∀ d : Dev, atTier d.tier ≤ 1) :
    (l.foldl (disperseReplica minPartHours part) (w, atTier)).1 = w ∨
      ∃ dev replica, (l.foldl (disperseReplica minPartHours part) (w, atTier)).1 = w.pick part dev replica := by
  have hstop : ∀ (l : List (Dev × ℕ)) (acc : Work × (Tier → ℤ)), age acc.1.lastPartMoves part < minPartHours →
      (∀ d : Dev, acc.2 d.tier ≤ 1) → l.foldl (disperseReplica minPartHours part) acc = acc := by
    intro l
    induction l with
    | nil => exact fun _ _ _ => rfl
    | cons dr l ih =>
      intro acc hlt hone
      rw [foldl_cons, disperseReplica, if_pos ⟨hlt, not_lt.mpr (hone dr.1)⟩, ih acc hlt hone]
  cases l with
  | nil => exact Or.inl rfl
  | cons dr l =>
    rw [foldl_cons, disperseReplica]
    split
    · next h =>
      rw [hstop l (w, atTier) h.1 hone]
      exact Or.inl rfl
    · refine Or.inr ⟨dr.1, dr.2, ?_⟩
      rw [hstop]
      · rw [age_pick]
        exact hpos
      · intro d
        dsimp only [countTiers]
        have := hone d
        split <;> omega

theorem dispersePart_visitsOnce (hpos : 0 < minPartHours) (hids : AtIds devs)
    (hdist : Distinct w.replica2part2dev part) :
    VisitsOnce devs minPartHours w part (dispersePart devs plan minPartHours w part) := by
  rw [dispersePart]
  split
  · exact Or.inl rfl
  · next hage =>
    split
    · exact rfl
    · next l hl =>
      refine (disperseReplica_foldl hpos _ (replicasAtTiers_le_one hids hdist hl)).imp id fun h => ?_
      exact ⟨not_lt.mp hage, ⟨l, hl⟩, h⟩

end Visit

/-! ## 4. At most one replica is off its device -/

theorem mem_appendTo {assignParts : Dict ℕ (List ℕ)} {part replica : ℕ} {e : ℕ × List ℕ}
    (h : e ∈ appendTo assignParts part replica) : e ∈ assignParts ∨
      (e.1 = part ∧ ∀ r ∈ e.2, r = replica ∨ ∃ l, (part, l) ∈ assignParts ∧ r ∈ l) := by
  rcases Dict.mem_set h with rfl | h
  · refine Or.inr ⟨rfl, fun r hr => ?_⟩
    rcases mem_append.mp hr with hr | hr
    · cases hget : assignParts.get part with
      | none => rw [hget] at hr; cases hr
      | some l =>
        rw [hget] at hr
        exact Or.inr ⟨l, Dict.mem_of_get hget, hr⟩
    · exact Or.inl (mem_singleton.mp hr)
  · exact Or.inl h

/-- What holds of a part in the middle of a rebalance. `moved` is the one replica that is
    off the device it was on; a `fixed` part has none, since it is too young or some device
    of it is gone. -/
structure Guarded (orig : List (List ℕ)) (removed : List ℕ) (devs : List (Option Dev))
    (minPartHours p : ℕ) (fixed : Prop) (moved : Option ℕ) (w : Work) : Prop where
  kept : ∀ r d d', slot orig r p = some d → d ∉ removed → moved ≠ some r →
    slot w.replica2part2dev r p = some d' → d' = d
  assigned : ∀ e ∈ w.assignParts, e.1 = p → ∀ r ∈ e.2,
    (∀ d, slot orig r p = some d → d ∈ removed) ∨ moved = some r
  guard : moved ≠ none → age w.lastPartMoves p < minPartHours ∧ ¬ fixed
  blocked : fixed → age w.lastPartMoves p < minPartHours ∨ ∃ e, held devs w.replica2part2dev p = .error e

section Guard

variable {orig : List (List ℕ)} {removed : List ℕ} {devs : List (Option Dev)} {plan : Dict Tier TierPlan}
  {minPartHours p : ℕ} {fixed : Prop} {moved : Option ℕ} {w : Work}

/-- Taking a replica of another part. -/
theorem Guarded.pick_other (h : Guarded orig removed devs minPartHours p fixed moved w)
    {part : ℕ} (hne : p ≠ part) (dev : Dev) (replica : ℕ) :
    Guarded orig removed devs minPartHours p fixed moved (w.pick part dev replica) where
  kept r d d' ho hd hm hs := h.kept r d d' ho hd hm (by rwa [Work.pick, slot_setSlot_of_ne hne] at hs)
  assigned e he hep := by
    rcases mem_appendTo he with he | ⟨hpart, -⟩
    · exact h.assigned e he hep
    · exact absurd (hep.symm.trans hpart) hne
  guard hm := by
    rw [Work.pick, age_set_of_ne hne]
    exact h.guard hm
  blocked hf := by
    rw [Work.pick, age_set_of_ne hne, held_setSlot devs hne]
    exact h.blocked hf

/-- **Taking the first replica of the part.** -/
theorem Guarded.pick (hpos : 0 < minPartHours) (h : Guarded orig removed devs minPartHours p fixed none w)
    (hfree : ¬ fixed) (dev : Dev) (replica : ℕ) :
    Guarded orig removed devs minPartHours p fixed (some replica) (w.pick p dev replica) where
  kept r d d' ho hd hm hs := by
    have hne : ¬ (r = replica ∧ p = p) := fun e => hm (congrArg some e.1.symm)
    rw [Work.pick, slot_setSlot, if_neg hne] at hs
    exact h.kept r d d' ho hd (by simp) hs
  assigned e he hep r hr := by
    rcases mem_appendTo he with he | ⟨-, hall⟩
    · exact Or.inl ((h.assigned e he hep r hr).resolve_right (by simp))
    · rcases hall r hr with rfl | ⟨l, hl, hrl⟩
      · exact Or.inr rfl
      · exact Or.inl ((h.assigned _ hl rfl r hrl).resolve_right (by simp))
  guard _ := ⟨(age_pick w p dev replica).symm ▸ hpos, hfree⟩
  blocked hf := absurd hf hfree

/-- **A visit keeps the guard.** -/
theorem Guarded.visit (hpos : 0 < minPartHours) (h : Guarded orig removed devs minPartHours p fixed moved w)
    {part : ℕ} {w' : Work} (hv : w' = w ∨ (minPartHours ≤ age w.lastPartMoves part ∧
      (∃ l, held devs w.replica2part2dev part = .ok l) ∧ ∃ dev replica, w' = w.pick part dev replica)) :
    ∃ moved', Guarded orig removed devs minPartHours p fixed moved' w' := by
  rcases hv with rfl | ⟨hage, ⟨l, hl⟩, dev, replica, rfl⟩
  · exact ⟨moved, h⟩
  · by_cases hp : p = part
    · subst hp
      have hnone : moved = none := by
        by_contra hm
        exact absurd (h.guard hm).1 (not_lt.mpr hage)
      subst hnone
      refine ⟨some replica, h.pick hpos (fun hf => ?_) dev replica⟩
      rcases h.blocked hf with hlt | ⟨e, he⟩
      · exact absurd hlt (not_lt.mpr hage)
      · rw [hl] at he
        cases he
    · exact ⟨moved, h.pick_other hp dev replica⟩

/-- The loops over the parts keep the guard when each visit is one. -/
theorem ends_visits (hpos : 0 < minPartHours) {visit : Work → ℕ → Raising Work} {parts : List ℕ}
    (hvisit : ∀ w part, VisitsOnce devs minPartHours w part (visit w part))
    (h : ∃ moved, Guarded orig removed devs minPartHours p fixed moved w) :
    Finishes (fun w => ∃ moved, Guarded orig removed devs minPartHours p fixed moved w)
      (fun e => ∃ moved, Guarded orig removed devs minPartHours p fixed moved e.2) (parts.foldlM visit w) := by
  refine Finishes.foldlM (fun part _ w ⟨moved, hw⟩ => ?_) h
  exact (hvisit w part).mono (fun w' hv => hw.visit hpos hv) fun e he => he.symm ▸ ⟨moved, hw⟩

/-- Dispersion too, as long as no device has two replicas of a part. -/
theorem ends_dispersion (hpos : 0 < minPartHours) (hids : AtIds devs) {parts : ℕ}
    (hdist : ∀ part, Distinct w.replica2part2dev part)
    (h : ∃ moved, Guarded orig removed devs minPartHours p fixed moved w) :
    Finishes (fun w => ∃ moved, Guarded orig removed devs minPartHours p fixed moved w)
      (fun e => ∃ moved, Guarded orig removed devs minPartHours p fixed moved e.2)
      (gatherPartsForDispersion devs plan minPartHours parts w) := by
  have hrun : Finishes (fun w => (∃ moved, Guarded orig removed devs minPartHours p fixed moved w) ∧
        ∀ part, Distinct w.replica2part2dev part)
      (fun e => ∃ moved, Guarded orig removed devs minPartHours p fixed moved e.2)
      (gatherPartsForDispersion devs plan minPartHours parts w) := by
    refine Finishes.foldlM (fun part _ w ⟨⟨moved, hw⟩, hd⟩ => ?_) ⟨h, hdist⟩
    have hvisit : VisitsOnce devs minPartHours w part (dispersePart devs plan minPartHours w part) :=
      dispersePart_visitsOnce hpos hids (hd part)
    refine hvisit.mono (fun w' hv => ⟨hw.visit hpos hv, ?_⟩) fun e he => he.symm ▸ ⟨moved, hw⟩
    rcases hv with rfl | ⟨-, -, dev, replica, rfl⟩
    · exact hd
    · exact fun q => (hd q).setSlot replica part
  exact hrun.mono (fun _ hw => hw.1) fun _ => id

theorem ends_balance (hpos : 0 < minPartHours) (stays : (Tier → ℤ) → Dev → Bool) {parts : List ℕ}
    (h : ∃ moved, Guarded orig removed devs minPartHours p fixed moved w) :
    Finishes (fun w => ∃ moved, Guarded orig removed devs minPartHours p fixed moved w)
      (fun e => ∃ moved, Guarded orig removed devs minPartHours p fixed moved e.2)
      (parts.foldlM (balancePart devs minPartHours stays) w) :=
  ends_visits hpos (fun _ _ => balancePart_visitsOnce hpos stays) h

/-- Placing a replica that was gathered, of a part that counts as moved. -/
theorem Guarded.place (h : Guarded orig removed devs minPartHours p fixed moved w) {part replica dev : ℕ}
    (hgathered : p = part → (∀ d, slot orig replica p = some d → d ∈ removed) ∨ moved = some replica)
    (hage : p = part → age w.lastPartMoves p < minPartHours) {devParts : ℕ → ℤ} {partsWanted : ℕ → ℚ} :
    Guarded orig removed devs minPartHours p fixed moved { w with
      replica2part2dev := setSlot w.replica2part2dev replica part dev
      devParts := devParts, partsWanted := partsWanted } where
  kept r d d' ho hd hm hs := by
    dsimp only at hs
    rw [slot_setSlot] at hs
    by_cases hrp : r = replica ∧ p = part
    · obtain ⟨rfl, hp⟩ := hrp
      rcases hgathered hp with hfree | hmoved
      · exact absurd (hfree d ho) hd
      · exact absurd hmoved hm
    · rw [if_neg hrp] at hs
      exact h.kept r d d' ho hd hm hs
  assigned := h.assigned
  guard := h.guard
  blocked hf := by
    by_cases hp : p = part
    · exact Or.inl (hage hp)
    · dsimp only
      rw [held_setSlot devs hp]
      exact h.blocked hf

/-- **Assigning what was gathered keeps the guard.** -/
theorem ends_reassignParts (hpos : 0 < minPartHours) {sortKey : ℕ → ℕ} {reassign : List (ℕ × List ℕ)}
    (h : Guarded orig removed devs minPartHours p fixed moved w)
    (hgathered : ∀ e ∈ reassign, e.1 = p → ∀ r ∈ e.2,
      (∀ d, slot orig r p = some d → d ∈ removed) ∨ moved = some r) :
    Finishes (Guarded orig removed devs minPartHours p fixed moved)
      (fun e => Guarded orig removed devs minPartHours p fixed moved e.2)
      (reassignParts devs plan sortKey reassign w) := by
  have hrun : Finishes (fun acc : Work × (Tier → ℚ) => Guarded orig removed devs minPartHours p fixed moved acc.1)
      (fun e => Guarded orig removed devs minPartHours p fixed moved e.2)
      (reassign.foldlM (reassignPart devs (availableDevs devs w.partsWanted sortKey) plan)
        (w, partsAvailable devs w.partsWanted)) := by
    refine Finishes.foldlM (fun e he acc hacc => ?_) h
    have hset : Guarded orig removed devs minPartHours p fixed moved
        { acc.1 with lastPartMoves := acc.1.lastPartMoves.set e.1 0 } :=
      ⟨hacc.kept, hacc.assigned, fun hm => ⟨age_set_lt hpos (hacc.guard hm).1, (hacc.guard hm).2⟩,
        fun hf => (hacc.blocked hf).imp (age_set_lt hpos) id⟩
    have hage : p = e.1 → age (acc.1.lastPartMoves.set e.1 0) p < minPartHours := by
      rintro rfl
      rw [age_set_self]
      exact hpos
    rw [reassignPart]
    split
    · exact hset
    · next l hl =>
      -- one replica after the other, the part staying as young as it is
      have hreplicas : Finishes (fun acc : Work × (Tier → ℚ) × (Tier → ℤ) =>
            Guarded orig removed devs minPartHours p fixed moved acc.1 ∧
              (p = e.1 → age acc.1.lastPartMoves p < minPartHours))
          (fun e => Guarded orig removed devs minPartHours p fixed moved e.2)
          (e.2.foldlM (placeReplica (availableDevs devs w.partsWanted sortKey) plan e.1)
            ({ acc.1 with lastPartMoves := acc.1.lastPartMoves.set e.1 0 }, acc.2, replicasAtTiers l)) := by
        refine Finishes.foldlM (fun r hr acc' hacc' => ?_) ⟨hset, hage⟩
        rw [placeReplica]
        split
        · exact hacc'.1
        · exact ⟨hacc'.1.place (fun hp => hgathered e he hp.symm r hr) hacc'.2, hacc'.2⟩
      exact hreplicas.map fun r hr => hr.1
  exact hrun.map fun acc hacc => hacc

/-- **The rounds of gathering and assigning keep the guard.** -/
theorem ends_gatherRounds (hpos : 0 < minPartHours) {parts : ℕ} {choices : ℕ → Choices} (n count : ℕ)
    (h : ∃ moved, Guarded orig removed devs minPartHours p fixed moved w) :
    Finishes (fun w => ∃ moved, Guarded orig removed devs minPartHours p fixed moved w)
      (fun e => ∃ moved, Guarded orig removed devs minPartHours p fixed moved e.2)
      (gatherRounds devs plan minPartHours parts choices n count w) := by
  induction n generalizing w count with
  | zero => exact h
  | succ n ih =>
    have hgather : Finishes (fun w => ∃ moved, Guarded orig removed devs minPartHours p fixed moved w)
        (fun e => ∃ moved, Guarded orig removed devs minPartHours p fixed moved e.2)
        (gatherPartsForBalance devs plan minPartHours parts (choices count).randomHalf w) := by
      obtain ⟨moved, hw⟩ := h
      refine Finishes.bind (ends_balance hpos _ ⟨moved, ⟨hw.kept, hw.assigned, hw.guard, hw.blocked⟩⟩)
        fun w' hw' => ?_
      split
      · exact ends_balance hpos _ hw'
      · exact hw'
    refine hgather.bind fun w' hw' => ?_
    split
    · exact hw'
    · obtain ⟨moved, hw'⟩ := hw'
      have hempty : Guarded orig removed devs minPartHours p fixed moved { w' with assignParts := [] } :=
        ⟨hw'.kept, fun e he => (not_mem_nil he).elim, hw'.guard, hw'.blocked⟩
      have hreassign : Finishes (Guarded orig removed devs minPartHours p fixed moved)
          (fun e => Guarded orig removed devs minPartHours p fixed moved e.2)
          (reassignParts devs plan (choices count).sortKey ((choices count).shuffle w'.assignParts)
            { w' with assignParts := [] }) :=
        ends_reassignParts hpos hempty fun e he => hw'.assigned e (((choices count).perm _).mem_iff.mp he)
      have hended : Finishes (fun w => ∃ moved, Guarded orig removed devs minPartHours p fixed moved w)
          (fun e => ∃ moved, Guarded orig removed devs minPartHours p fixed moved e.2)
          (reassignParts devs plan (choices count).sortKey ((choices count).shuffle w'.assignParts)
            { w' with assignParts := [] }) :=
        hreassign.mono (fun w'' hw'' => ⟨moved, hw''⟩) fun e he => ⟨moved, he⟩
      refine hended.bind fun w'' hw'' => ?_
      split
      · exact hw''
      · exact ih (count + 1) hw''

end Guard

/-! ## 5. Before the gatherers -/

/-- The table after the change of its size. -/
def adjusted (table : List (List ℕ)) (desired : List ℕ) : List (List ℕ) :=
  desired.zipIdx.map fun e => resize (table.getD e.2 []) e.1

variable {desired : List ℕ}

theorem slot_adjusted {r p d : ℕ}
    (h : slot (adjusted table desired) r p = some d) :
    slot table r p = some d ∨ slot table r p = none ∧ d = NONE_DEV := by
  obtain ⟨row, hrow, hd⟩ := bind_eq_some_iff.mp h
  rw [adjusted, getElem?_map, getElem?_zipIdx] at hrow
  obtain ⟨e, he, rfl⟩ := map_eq_some_iff.mp hrow
  obtain ⟨len, hlen, rfl⟩ := map_eq_some_iff.mp he
  dsimp only at hd
  rw [zero_add] at hd
  have hslot : slot table r p = (table.getD r [])[p]? := by
    rw [slot, getD_eq_getElem?_getD]
    cases table[r]? <;> simp
  rw [hslot]
  rw [resize, getElem?_append] at hd
  split at hd
  · next hp =>
    rw [length_take] at hp
    rw [getElem?_take_of_lt (by omega)] at hd
    exact Or.inl hd
  · next hp =>
    rw [length_take] at hp
    rw [getElem?_replicate] at hd
    split at hd
    · next hlt =>
      refine Or.inr ⟨getElem?_eq_none ?_, (Option.some.inj hd).symm⟩
      rw [length_take] at hlt
      omega
    · cases hd

theorem slot_adjusted_of_lt {r p d len : ℕ}
    (h : slot table r p = some d) (hlen : desired[r]? = some len) (hp : p < len) :
    slot (adjusted table desired) r p = some d := by
  obtain ⟨row, hrow, hd⟩ := bind_eq_some_iff.mp h
  have hlt := (List.getElem?_eq_some_iff.mp hd).1
  have hget : (adjusted table desired)[r]? = some (resize row len) := by
    rw [adjusted, getElem?_map, getElem?_zipIdx, hlen]
    simp [getD_eq_getElem?_getD, hrow]
  rw [slot, hget, bind_some, resize, getElem?_append_left (by rw [length_take]; omega),
    getElem?_take_of_lt hp]
  exact hd

theorem slot_of_newEntries {e : ℕ × ℕ}
    (h : e ∈ newEntries table desired) : slot table e.2 e.1 = none := by
  obtain ⟨x, -, hx⟩ := mem_flatMap.mp h
  obtain ⟨part, hpart, rfl⟩ := List.mem_map.mp hx
  have hle := (mem_range'_1.mp hpart).1
  dsimp only
  rw [slot]
  cases hrow : table[x.2]? with
  | none => rfl
  | some row =>
    rw [getD_eq_getElem?_getD, hrow] at hle
    exact getElem?_eq_none hle

/-- What is noted for new entries. -/
theorem assigned_newEntries {entries : List (ℕ × ℕ)} {assignParts : Dict ℕ (List ℕ)} {Q : ℕ → ℕ → Prop}
    (hassign : ∀ e ∈ assignParts, ∀ r ∈ e.2, Q e.1 r) (hnew : ∀ e ∈ entries, Q e.1 e.2) :
    ∀ e ∈ entries.foldl (fun assignParts e => appendTo assignParts e.1 e.2) assignParts,
      ∀ r ∈ e.2, Q e.1 r := by
  induction entries generalizing assignParts with
  | nil => exact hassign
  | cons x entries ih =>
    refine ih (fun e he r hr => ?_) fun e he => hnew e (mem_cons_of_mem _ he)
    rcases mem_appendTo he with he | ⟨hpart, hall⟩
    · exact hassign e he r hr
    · rcases hall r hr with rfl | ⟨l, hl, hrl⟩
      · exact hpart ▸ hnew x mem_cons_self
      · exact hpart ▸ hassign _ hl r hrl

theorem withoutDevs_eq {removed : List ℕ} {i : ℕ} {d : Dev}
    (h : (withoutDevs devs removed)[i]? = some (some d)) : devs[i]? = some (some d) ∧ i ∉ removed := by
  induction removed generalizing devs with
  | nil => exact ⟨h, not_mem_nil⟩
  | cons x removed ih =>
    obtain ⟨h1, h2⟩ := ih h
    rw [getElem?_set] at h1
    split at h1
    · split at h1
      · cases Option.some.inj h1
      · cases h1
    · next hne => exact ⟨h1, fun hm => (mem_cons.mp hm).elim (fun e => hne e.symm) h2⟩

/-- **Gathering from removed devices keeps the guard**, and moves nothing else. -/
theorem guarded_gatherFailed {orig : List (List ℕ)} {removed : List ℕ}
    {minPartHours p : ℕ} {fixed : Prop} (hpos : 0 < minPartHours) {devIds : List ℕ}
    (hids : ∀ d ∈ devIds, d ∈ removed) {w : Work}
    (h : Guarded orig removed devs minPartHours p fixed none w) (e : ℕ × ℕ) :
    Guarded orig removed devs minPartHours p fixed none (gatherFailed devIds w e) := by
  unfold gatherFailed
  split
  · exact h
  · next devId hslot =>
    split
    · next hmem =>
      refine ⟨fun r d d' ho hd hm hs => ?_, fun x hx hxp r hr => ?_, fun hm => absurd rfl hm, fun hf => ?_⟩
      · dsimp only at hs
        rw [slot_setSlot] at hs
        by_cases hrp : r = e.2 ∧ p = e.1
        · -- the slot of a device that is not removed is not touched
          obtain ⟨rfl, rfl⟩ := hrp
          exact absurd (h.kept _ d devId ho hd hm hslot ▸ hids devId hmem) hd
        · rw [if_neg hrp] at hs
          exact h.kept r d d' ho hd hm hs
      · rcases mem_appendTo hx with hx | ⟨hpart, hall⟩
        · exact h.assigned x hx hxp r hr
        · have hp : p = e.1 := hxp.symm.trans hpart
          rcases hall r hr with rfl | ⟨l, hl, hrl⟩
          · refine Or.inl fun d ho => ?_
            by_contra hd
            have hkept := h.kept _ d devId ho hd (by simp) (hp ▸ hslot)
            exact hd (hkept ▸ hids devId hmem)
          · exact h.assigned _ hl hp.symm r hrl
      · by_cases hp : p = e.1
        · refine Or.inl ?_
          dsimp only
          rw [← hp, age_set_self]
          exact hpos
        · dsimp only
          rw [age_set_of_ne hp, held_setSlot devs hp]
          exact h.blocked hf
    · exact h

theorem distinct_gatherFailed {devIds : List ℕ} {w : Work} (h : ∀ q, Distinct w.replica2part2dev q)
    (e : ℕ × ℕ) : ∀ q, Distinct (gatherFailed devIds w e).replica2part2dev q := by
  unfold gatherFailed
  split
  · exact h
  · split
    · exact fun q => (h q).setSlot _ _
    · exact h

/-! ## 6. A whole rebalance -/

/-- A replica that was on a device, not on a removed one, and is on another one or on none. -/
def Moved (b : RingBuilder) (w : Work) (p r : ℕ) : Prop :=
  ∃ d d', slot b.table r p = some d ∧ d ∉ b.removeDevs ∧ slot w.replica2part2dev r p = some d' ∧ d' ≠ d

/-- A part that must not move: it was moved less than min_part_hours ago, or it had a
    replica on a removed device, in a slot that the new number of replicas keeps. -/
def Held (b : RingBuilder) (now : ℤ) (p : ℕ) : Prop :=
  age (b.updatedMoves now) p < b.minPartHours ∨
    ∃ r d len, slot b.table r p = some d ∧ d ∈ b.removeDevs ∧
      (desiredLengths b.replicas b.parts)[r]? = some len ∧ p < len

variable {b : RingBuilder} {now : ℤ}

/-- **All that a rebalance does keeps the guard of every part.** -/
theorem ends_move (hpos : 0 < b.minPartHours) (hdist : ∀ q, Distinct b.table q) (choices : ℕ → Choices)
    (plan : Dict Tier TierPlan) (partsWanted : Dev → ℚ) (p : ℕ) :
    Finishes (fun w => ∃ moved, Guarded b.table b.removeDevs (withoutDevs b.devs b.removeDevs) b.minPartHours p
        (Held b now p) moved w)
      (fun e => ∃ moved, Guarded b.table b.removeDevs (withoutDevs b.devs b.removeDevs) b.minPartHours p
        (Held b now p) moved e.2)
      (b.move now choices plan partsWanted) := by
  set devs := withoutDevs b.devs b.removeDevs with hdevs
  have hids : AtIds devs := fun i d h => b.ids i d (withoutDevs_eq h).1
  -- a slot on a removed device blocks the part
  have hblocked : ∀ {table : List (List ℕ)} {r d : ℕ}, slot table r p = some d → d ∈ b.removeDevs →
      ∃ e, held devs table p = .error e := fun hs hd =>
    held_error hs ((b.removes _ hd).trans_le b.fits).ne fun dev hdev =>
      (withoutDevs_eq (devAt_eq_ok.mp hdev)).2 hd
  have hstart : Guarded b.table b.removeDevs devs b.minPartHours p (Held b now p) none
      (b.start now partsWanted) :=
    ⟨fun r d d' ho _ _ hs => Option.some.inj (hs.symm.trans ho), fun e he => (not_mem_nil he).elim,
      fun hm => absurd rfl hm, fun hf => hf.imp id fun ⟨_, _, _, hs, hd, _⟩ => hblocked hs hd⟩
  unfold RingBuilder.move
  refine Finishes.bind (P := fun w => Guarded b.table b.removeDevs devs b.minPartHours p (Held b now p) none w ∧
    ∀ q, Distinct w.replica2part2dev q) ?_ fun w1 ⟨h1, hd1⟩ => ?_
  · rw [adjustReplica2part2devSize]
    split
    · exact ⟨none, hstart⟩
    · refine ⟨⟨fun r d d' ho _ _ hs => ?_, fun e he hep r hr => ?_, fun hm => absurd rfl hm, fun hf => ?_⟩,
        fun q r r' d hr hr' hd => ?_⟩
      · rcases slot_adjusted hs with h | ⟨h, -⟩
        · exact Option.some.inj (h.symm.trans ho)
        · exact absurd (h.symm.trans ho) (by simp)
      · have hnew := assigned_newEntries (Q := fun part r => slot b.table r part = none)
          (fun e he => (not_mem_nil he).elim) (fun e he => slot_of_newEntries he) e he r hr
        refine Or.inl fun d ho => ?_
        rw [← hep, hnew] at ho
        cases ho
      · rcases hf with hage | ⟨r, d, len, hs, hd, hlen, hlt⟩
        · exact Or.inl hage
        · exact Or.inr (hblocked (slot_adjusted_of_lt hs hlen hlt) hd)
      · rcases slot_adjusted hr with h | ⟨-, h⟩
        · rcases slot_adjusted hr' with h' | ⟨-, h'⟩
          · exact hdist q r r' d h h' hd
          · exact absurd h' hd
        · exact absurd h hd
  · have hfailed : ∀ (l : List (ℕ × ℕ)) (devIds : List ℕ), (∀ d ∈ devIds, d ∈ b.removeDevs) → ∀ w : Work,
        Guarded b.table b.removeDevs devs b.minPartHours p (Held b now p) none w →
        (∀ q, Distinct w.replica2part2dev q) →
        Guarded b.table b.removeDevs devs b.minPartHours p (Held b now p) none (l.foldl (gatherFailed devIds) w) ∧
          ∀ q, Distinct (l.foldl (gatherFailed devIds) w).replica2part2dev q := by
      intro l devIds hsub
      induction l with
      | nil => exact fun w h hd => ⟨h, hd⟩
      | cons e l ih =>
        exact fun w h hd => ih _ (guarded_gatherFailed hpos hsub h e) (distinct_gatherFailed hd e)
    obtain ⟨h2, hd2⟩ := hfailed (eachPartReplica w1.replica2part2dev)
      (b.removeDevs.filter fun d => w1.devParts d ≠ 0) (fun d hd => (mem_filter.mp hd).1) w1 h1 hd1
    exact (ends_dispersion hpos hids hd2 ⟨none, h2⟩).bind fun w3 h3 => ends_gatherRounds hpos _ _ h3

/-- What a rebalance reached, some move of the replicas reached. -/
theorem rebalance_reached {fuel : ℕ} {choices : ℕ → Choices} {error : Option RebalanceError} {w : Work}
    (h : b.rebalance fuel now choices = some (.reached error w)) :
    ∃ plan partsWanted, Ended.of (b.move now choices plan partsWanted) = .reached error w := by
  rw [RingBuilder.rebalance] at h
  split at h
  · cases Option.some.inj h
  · obtain ⟨r, -, h⟩ := map_eq_some_iff.mp h
    split at h
    · cases h
    · next plan =>
      split at h
      · cases h
      · next partsWanted _ => exact ⟨plan, partsWanted, h⟩

theorem Finishes.of_reached {P : Work → Prop} {Q : RebalanceError × Work → Prop} {x : Raising Work}
    (hx : Finishes P Q x) {error : Option RebalanceError} {w : Work} (h : Ended.of x = .reached error w) :
    (error = none ∧ P w) ∨ ∃ e, error = some e ∧ Q (e, w) := by
  cases x with
  | ok w' =>
    obtain ⟨rfl, rfl⟩ := Ended.reached.inj h
    exact .inl ⟨rfl, hx⟩
  | error e =>
    obtain ⟨rfl, rfl⟩ := Ended.reached.inj h
    exact .inr ⟨e.1, rfl, hx⟩

/-- **A rebalance moves at most one replica of a part, and none of a part that must not
    move**: whatever the plan and the random choices, and also when it raises. -/
theorem rebalance_moves_one (hpos : 1 ≤ b.minPartHours) (hdist : ∀ q, Distinct b.table q) {fuel : ℕ}
    {choices : ℕ → Choices} {error : Option RebalanceError} {w : Work}
    (h : b.rebalance fuel now choices = some (.reached error w)) (p : ℕ) :
    (∀ r r', Moved b w p r → Moved b w p r' → r = r') ∧ (Held b now p → ∀ r, ¬ Moved b w p r) := by
  obtain ⟨plan, partsWanted, hended⟩ := rebalance_reached h
  have hguard : ∃ moved, Guarded b.table b.removeDevs (withoutDevs b.devs b.removeDevs) b.minPartHours p
      (Held b now p) moved w := by
    have hends : Finishes _ _ (b.move now choices plan partsWanted) := ends_move hpos hdist choices plan partsWanted p
    rcases Finishes.of_reached hends hended with ⟨-, hw⟩ | ⟨_, -, hw⟩
    · exact hw
    · exact hw
  obtain ⟨moved, hg⟩ := hguard
  have hmoved : ∀ r, Moved b w p r → moved = some r := fun r ⟨d, d', ho, hd, hs, hne⟩ => by
    by_contra hm
    exact hne (hg.kept r d d' ho hd hm hs)
  refine ⟨fun r r' hr hr' => ?_, fun hheld r hr => ?_⟩
  · exact Option.some.inj ((hmoved r hr).symm.trans (hmoved r' hr'))
  · have hsome := hmoved r hr
    exact (hg.guard (by rw [hsome]; simp)).2 hheld

/-- Two replicas on two devices, one replica and one device gone, and a new device. -/
def shrinking : RingBuilder where
  partPower := 1
  replicas := 1
  devs := [some ⟨0, 0, 0, "a", 1⟩, some ⟨1, 0, 0, "a", 0⟩, some ⟨2, 0, 0, "a", 1⟩]
  ids i d h := by
    have hlt : i < 3 := (List.getElem?_eq_some_iff.mp h).1
    have hall : ∀ i < 3, ∀ e ∈ [some (⟨0, 0, 0, "a", 1⟩ : Dev), some ⟨1, 0, 0, "a", 0⟩,
      some ⟨2, 0, 0, "a", 1⟩][i]?, ∀ d ∈ e, d.id = i := by decide
    exact hall i hlt _ h d rfl
  minPartHours := 1
  overload := 0
  replica2part2dev := some [[0, 0], [1, 1]]
  lastPartMoves := some [255, 255]
  lastPartMovesEpoch := 0
  lastPartGatherStart := 0
  removeDevs := [1]
  devParts id := if id < 2 then 2 else 0
  fits := by decide
  removes := by decide

def inOrder (_ : ℕ) : Choices where
  randomHalf := 0
  shuffle := id
  perm := fun l => List.Perm.refl l
  sortKey := fun _ => 0

/-- The table at the end. -/
def Ended.finalTable : Ended → Option (List (List ℕ))
  | .refused _ => none
  | .reached _ w => some w.replica2part2dev

theorem shrinking_rebalance : ∃ error w,
    shrinking.rebalance 5 0 inOrder = some (.reached error w) ∧ w.replica2part2dev = [[2, 0]] := by
  have hrun : (shrinking.rebalance 5 0 inOrder).bind Ended.finalTable = some [[2, 0]] := by decide +kernel
  obtain ⟨ended, he, ht⟩ := bind_eq_some_iff.mp hrun
  cases ended with
  | refused e => cases ht
  | reached error w => exact ⟨error, w, he, Option.some.inj ht⟩

theorem shrinking_distinct (q : ℕ) : Distinct shrinking.table q := by
  have hrow : ∀ r d, slot shrinking.table r q = some d → d = r := by
    intro r d h
    obtain ⟨row, hr, hd⟩ := bind_eq_some_iff.mp h
    have hmem := mem_of_getElem? hd
    match r, hr with
    | 0, hr => obtain rfl := Option.some.inj hr; simpa using hmem
    | 1, hr => obtain rfl := Option.some.inj hr; simpa using hmem
  exact fun r r' d hr hr' _ => (hrow r d hr).symm.trans (hrow r' d hr')

/-- At most one replica of a part moves there. -/
theorem rebalance_moves_one_shrinking : ∃ error w,
    shrinking.rebalance 5 0 inOrder = some (.reached error w) ∧
      ∀ p r r', Moved shrinking w p r → Moved shrinking w p r' → r = r' := by
  obtain ⟨error, w, h, -⟩ := shrinking_rebalance
  exact ⟨error, w, h, fun p => (rebalance_moves_one (by decide) shrinking_distinct h p).1⟩

/-- **A part with a replica on a removed device moves**, when that replica goes with the
    number of replicas. -/
theorem shrinking_moves : ∃ error w, shrinking.rebalance 5 0 inOrder = some (.reached error w) ∧
    (∃ r d, slot shrinking.table r 0 = some d ∧ d ∈ shrinking.removeDevs) ∧ Moved shrinking w 0 0 := by
  obtain ⟨error, w, h, hw⟩ := shrinking_rebalance
  refine ⟨error, w, h, ⟨1, 1, by decide, by decide⟩, 0, 2, by decide, by decide, ?_, by decide⟩
  rw [hw]
  rfl

end Mitaka.Swift.Ring
