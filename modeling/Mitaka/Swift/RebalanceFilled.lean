/-
  Subject: What a rebalance that does not raise leaves: a table of the desired size with
           every replica on a device.

  A replica that is taken off its device is noted in `assign_parts`, and what is noted is
  assigned before the rebalance ends.
-/
import Mitaka.Swift.RebalanceMoves

namespace Mitaka.Swift.Ring

open List Option

/-! ## 1. Noted replicas -/

/-- Every replica is on a device. -/
def OnDevices (devs : List (Option Dev)) (table : List (List ℕ)) : Prop :=
  ∀ r p d, slot table r p = some d → ∃ dev, devs[d]? = some (some dev)

/-- The table has the desired size, and what is on no device is noted. -/
structure Noted (devs : List (Option Dev)) (desired : List ℕ) (table : List (List ℕ))
    (assignParts : Dict ℕ (List ℕ)) : Prop where
  lengths : table.map List.length = desired
  noted : ∀ r p d, slot table r p = some d →
    (∃ dev, devs[d]? = some (some dev)) ∨ r ∈ (assignParts.get p).getD []

theorem map_length_setSlot (table : List (List ℕ)) (replica part dev : ℕ) :
    (setSlot table replica part dev).map List.length = table.map List.length := by
  refine ext_getElem? fun r => ?_
  rw [getElem?_map, getElem?_map, getElem?_setSlot]
  split
  · cases table[r]? with
    | none => rfl
    | some row => simp
  · rfl

theorem get_appendTo (assignParts : Dict ℕ (List ℕ)) (part replica p : ℕ) :
    ((appendTo assignParts part replica).get p).getD [] =
      (assignParts.get p).getD [] ++ if part = p then [replica] else [] := by
  rw [appendTo, Dict.get_set]
  by_cases h : part = p
  · subst h
    rw [if_pos rfl, if_pos rfl, getD_some]
  · rw [if_neg h, if_neg h, append_nil]

section Filling

variable {devs : List (Option Dev)} {plan : Dict Tier TierPlan} {desired : List ℕ} {minPartHours : ℕ} {w : Work}

/-- **What is taken off is noted.** -/
theorem Noted.unset {table : List (List ℕ)} {assignParts : Dict ℕ (List ℕ)}
    (h : Noted devs desired table assignParts) (replica part : ℕ) :
    Noted devs desired (setSlot table replica part NONE_DEV) (appendTo assignParts part replica) where
  lengths := (map_length_setSlot _ _ _ _).trans h.lengths
  noted r p d hs := by
    rw [get_appendTo, mem_append]
    rw [slot_setSlot] at hs
    split at hs
    · next hrp => exact Or.inr (Or.inr (by rw [if_pos hrp.2.symm, hrp.1]; exact mem_singleton_self _))
    · exact (h.noted r p d hs).imp id Or.inl

/-- What a rebalance works on, with its replicas noted. -/
def Work.Noted (devs : List (Option Dev)) (desired : List ℕ) (w : Work) : Prop :=
  Ring.Noted devs desired w.replica2part2dev w.assignParts

theorem Work.Noted.pick (h : w.Noted devs desired) (part : ℕ) (dev : Dev) (replica : ℕ) :
    (w.pick part dev replica).Noted devs desired := h.unset replica part

theorem Work.Noted.disperse (part : ℕ) (l : List (Dev × ℕ)) {acc : Work × (Tier → ℤ)}
    (h : acc.1.Noted devs desired) : (l.foldl (disperseReplica minPartHours part) acc).1.Noted devs desired := by
  induction l generalizing acc with
  | nil => exact h
  | cons dr l ih =>
    refine ih ?_
    rw [disperseReplica]
    split
    · exact h
    · exact h.pick part dr.1 dr.2

theorem Work.Noted.balance (stays : (Tier → ℤ) → Dev → Bool) (part : ℕ) (l : List (Dev × ℕ))
    {acc : Work × (Tier → ℤ)} (h : acc.1.Noted devs desired) :
    (l.foldl (balanceReplica minPartHours stays part) acc).1.Noted devs desired := by
  induction l generalizing acc with
  | nil => exact h
  | cons dr l ih =>
    refine ih ?_
    rw [balanceReplica]
    split
    · exact h
    · split
      · exact h
      · exact h.pick part dr.1 dr.2

theorem finishes_dispersion (h : w.Noted devs desired) (parts : ℕ) :
    Finishes (Work.Noted devs desired) (fun _ => True) (gatherPartsForDispersion devs plan minPartHours parts w) := by
  refine Finishes.foldlM (fun part _ w hw => ?_) h
  rw [dispersePart]
  split
  · exact hw
  · split
    · trivial
    · exact hw.disperse part _

theorem finishes_balanceParts (stays : (Tier → ℤ) → Dev → Bool) (h : w.Noted devs desired) (parts : List ℕ) :
    Finishes (Work.Noted devs desired) (fun _ => True) (parts.foldlM (balancePart devs minPartHours stays) w) := by
  refine Finishes.foldlM (fun part _ w hw => ?_) h
  rw [balancePart]
  split
  · exact hw
  · split
    · trivial
    · exact hw.balance stays part _

theorem finishes_balance (h : w.Noted devs desired) (parts randomHalf : ℕ) :
    Finishes (Work.Noted devs desired) (fun _ => True)
      (gatherPartsForBalance devs plan minPartHours parts randomHalf w) := by
  have hstart : Work.Noted devs desired
      { w with lastPartGatherStart := (w.lastPartGatherStart + parts / 4 + randomHalf) % parts } := h
  refine Finishes.bind (finishes_balanceParts _ hstart _) fun w' hw' => ?_
  split
  · exact finishes_balanceParts _ hw' _
  · exact hw'

/-! ## 2. Assigning what is noted -/

theorem devAt_available {wanted : ℕ → ℚ} {sortKey : ℕ → ℕ} (hids : AtIds devs) {dev : Dev}
    (h : dev ∈ availableDevs devs wanted sortKey) : devs[dev.id]? = some (some dev) := by
  rw [availableDevs, mem_insertionSort] at h
  obtain ⟨i, hi⟩ := mem_iff_getElem?.mp (reduceOption_mem_iff.mp (mem_filter.mp h).1)
  exact hids i dev hi ▸ hi

/-- **The replicas of a part** are on devices once they are placed, and no others have moved. -/
theorem finishes_placeReplicas {available : List Dev} (havail : ∀ dev ∈ available, devs[dev.id]? = some (some dev))
    (part : ℕ) (replicas : List ℕ) (acc : Work × (Tier → ℚ) × (Tier → ℤ)) :
    Finishes (fun acc' => acc'.1.replica2part2dev.map List.length = acc.1.replica2part2dev.map List.length ∧
        ∀ r p d, slot acc'.1.replica2part2dev r p = some d → (∃ dev, devs[d]? = some (some dev)) ∨
          slot acc.1.replica2part2dev r p = some d ∧ ¬ (p = part ∧ r ∈ replicas))
      (fun _ => True) (replicas.foldlM (placeReplica available plan part) acc) := by
  induction replicas generalizing acc with
  | nil => exact ⟨rfl, fun r p d hs => Or.inr ⟨hs, fun h => not_mem_nil h.2⟩⟩
  | cons replica replicas ih =>
    obtain ⟨w, room, atTier⟩ := acc
    rw [foldlM_cons]
    refine Finishes.bind (P := fun acc' => ∃ dev ∈ available,
      acc'.1.replica2part2dev = setSlot w.replica2part2dev replica part dev.id) ?_ fun acc' h => ?_
    · rw [placeReplica]
      split
      · trivial
      · next dev hdev =>
        obtain ⟨tier, -, hlast⟩ := bind_eq_some_iff.mp hdev
        exact ⟨dev, (mem_filter.mp (mem_of_getLast? hlast)).1, rfl⟩
    · obtain ⟨dev, hdev, htable⟩ := h
      refine (ih acc').mono (fun acc'' h => ⟨h.1.trans ?_, fun r p d hs => ?_⟩) fun _ => id
      · rw [htable, map_length_setSlot]
      · rcases h.2 r p d hs with hd | ⟨hs', hnot⟩
        · exact Or.inl hd
        · rw [htable, slot_setSlot] at hs'
          split at hs'
          · obtain ⟨-, -, rfl⟩ := map_eq_some_iff.mp hs'
            exact Or.inl ⟨dev, havail dev hdev⟩
          · next hne =>
            refine Or.inr ⟨hs', fun h => ?_⟩
            rcases mem_cons.mp h.2 with rfl | hr
            · exact hne ⟨rfl, h.1⟩
            · exact hnot ⟨h.1, hr⟩

/-- **Everything that is noted is assigned.** -/
theorem finishes_reassignParts (hids : AtIds devs) {sortKey : ℕ → ℕ} {reassign : List (ℕ × List ℕ)}
    (hlen : w.replica2part2dev.map List.length = desired)
    (h : ∀ r p d, slot w.replica2part2dev r p = some d →
      (∃ dev, devs[d]? = some (some dev)) ∨ ∃ e ∈ reassign, e.1 = p ∧ r ∈ e.2) :
    Finishes (fun w => w.replica2part2dev.map List.length = desired ∧ OnDevices devs w.replica2part2dev)
      (fun _ => True) (reassignParts devs plan sortKey reassign w) := by
  have hrun : ∀ (available : List Dev), (∀ dev ∈ available, devs[dev.id]? = some (some dev)) →
      ∀ (reassign : List (ℕ × List ℕ)) (acc : Work × (Tier → ℚ)),
      acc.1.replica2part2dev.map List.length = desired →
      (∀ r p d, slot acc.1.replica2part2dev r p = some d →
        (∃ dev, devs[d]? = some (some dev)) ∨ ∃ e ∈ reassign, e.1 = p ∧ r ∈ e.2) →
      Finishes (fun acc => acc.1.replica2part2dev.map List.length = desired ∧ OnDevices devs acc.1.replica2part2dev)
        (fun _ => True) (reassign.foldlM (reassignPart devs available plan) acc) := by
    intro available havail reassign
    induction reassign with
    | nil =>
      exact fun acc hlen h => ⟨hlen, fun r p d hs => (h r p d hs).resolve_right (by simp)⟩
    | cons e reassign ih =>
      intro acc hlen h
      rw [foldlM_cons]
      refine Finishes.bind (P := fun acc' => acc'.1.replica2part2dev.map List.length = desired ∧
        ∀ r p d, slot acc'.1.replica2part2dev r p = some d →
          (∃ dev, devs[d]? = some (some dev)) ∨ ∃ e ∈ reassign, e.1 = p ∧ r ∈ e.2) ?_
        fun acc' h' => ih acc' h'.1 h'.2
      rw [reassignPart]
      split
      · trivial
      · next l _ =>
        refine (finishes_placeReplicas havail e.1 e.2 _).map fun acc' h' => ⟨h'.1.trans hlen, ?_⟩
        intro r p d hs
        rcases h'.2 r p d hs with hd | ⟨hs', hnot⟩
        · exact Or.inl hd
        · refine (h r p d hs').imp id fun h => ?_
          obtain ⟨x, hx, hp, hr⟩ := h
          refine ⟨x, ?_, hp, hr⟩
          refine (mem_cons.mp hx).resolve_left fun heq => ?_
          subst heq
          exact hnot ⟨hp.symm, hr⟩
  exact (hrun _ (fun dev => devAt_available hids) reassign _ hlen h).map fun _ => id

/-- The rounds end with every replica on a device. -/
theorem finishes_gatherRounds (hids : AtIds devs) {parts : ℕ} {choices : ℕ → Choices} (n count : ℕ)
    (h : w.Noted devs desired) (hlast : n = 0 → OnDevices devs w.replica2part2dev) :
    Finishes (fun w => w.replica2part2dev.map List.length = desired ∧ OnDevices devs w.replica2part2dev)
      (fun _ => True) (gatherRounds devs plan minPartHours parts choices n count w) := by
  induction n generalizing w count with
  | zero => exact ⟨h.lengths, hlast rfl⟩
  | succ n ih =>
    refine Finishes.bind (finishes_balance h parts (choices count).randomHalf) fun w' hw' => ?_
    split
    · next hnone =>
      refine ⟨hw'.lengths, fun r p d hs => (hw'.noted r p d hs).resolve_right ?_⟩
      rw [hnone]
      exact not_mem_nil
    · have hassigned : ∀ r p d, slot w'.replica2part2dev r p = some d →
          (∃ dev, devs[d]? = some (some dev)) ∨
            ∃ e ∈ (choices count).shuffle w'.assignParts, e.1 = p ∧ r ∈ e.2 := fun r p d hs => by
        refine (hw'.noted r p d hs).imp id fun hr => ?_
        cases hget : w'.assignParts.get p with
        | none => rw [hget] at hr; exact absurd hr not_mem_nil
        | some l =>
          rw [hget] at hr
          exact ⟨(p, l), ((choices count).perm _).mem_iff.mpr (Dict.mem_of_get hget), rfl, hr⟩
      have hreassign : Finishes
          (fun w => w.replica2part2dev.map List.length = desired ∧ OnDevices devs w.replica2part2dev) (fun _ => True)
          (reassignParts devs plan (choices count).sortKey ((choices count).shuffle w'.assignParts)
            { w' with assignParts := [] }) :=
        finishes_reassignParts hids hw'.lengths hassigned
      refine hreassign.bind fun w'' hw'' => ?_
      split
      · exact hw''
      · exact ih (count + 1) ⟨hw''.1, fun r p d hs => Or.inl (hw''.2 r p d hs)⟩ fun _ => hw''.2

end Filling

/-! ## 3. Before the gatherers -/

theorem withoutDevs_of_not_mem {devs : List (Option Dev)} {removed : List ℕ} {i : ℕ} (h : i ∉ removed) :
    (withoutDevs devs removed)[i]? = devs[i]? := by
  induction removed generalizing devs with
  | nil => rfl
  | cons x removed ih =>
    obtain ⟨hx, hrest⟩ := ne_and_not_mem_of_not_mem_cons h
    rw [withoutDevs, foldl_cons, ← withoutDevs, ih hrest, getElem?_set_ne (Ne.symm hx)]

theorem length_resize (row : List ℕ) (len : ℕ) : (resize row len).length = len := by
  rw [resize, length_append, length_take, length_replicate]
  omega

theorem map_length_adjusted (table : List (List ℕ)) (desired : List ℕ) :
    (adjusted table desired).map List.length = desired := by
  rw [adjusted, List.map_map]
  have hlength : (List.length ∘ fun e : ℕ × ℕ => resize (table.getD e.2 []) e.1) = Prod.fst :=
    funext fun e => length_resize _ _
  rw [hlength, zipIdx_map_fst]

/-- **A slot that the old table has not** is a new entry. -/
theorem mem_newEntries {table : List (List ℕ)} {desired : List ℕ} {r p d : ℕ}
    (h : slot (adjusted table desired) r p = some d) (hnone : slot table r p = none) :
    (p, r) ∈ newEntries table desired := by
  obtain ⟨row, hrow, hd⟩ := bind_eq_some_iff.mp h
  rw [adjusted, getElem?_map, getElem?_zipIdx, zero_add] at hrow
  obtain ⟨e, he, rfl⟩ := map_eq_some_iff.mp hrow
  obtain ⟨len, hlen, rfl⟩ := map_eq_some_iff.mp he
  have hp := (List.getElem?_eq_some_iff.mp hd).1
  rw [length_resize] at hp
  have hshort : (table.getD r []).length ≤ p := by
    rw [slot] at hnone
    rw [getD_eq_getElem?_getD]
    cases hr : table[r]? with
    | none => exact Nat.zero_le _
    | some row =>
      rw [hr] at hnone
      exact List.getElem?_eq_none_iff.mp hnone
  refine mem_flatMap.mpr ⟨(len, r), ?_, List.mem_map.mpr ⟨p, ?_, rfl⟩⟩
  · rw [mem_iff_getElem?]
    exact ⟨r, by rw [getElem?_zipIdx, hlen]; simp⟩
  · exact mem_range'_1.mpr ⟨hshort, by dsimp only at hp ⊢; omega⟩

theorem mem_assigned {entries : List (ℕ × ℕ)} {assignParts : Dict ℕ (List ℕ)} {r p : ℕ}
    (h : (p, r) ∈ entries ∨ r ∈ (assignParts.get p).getD []) :
    r ∈ ((entries.foldl (fun assignParts e => appendTo assignParts e.1 e.2) assignParts).get p).getD [] := by
  induction entries generalizing assignParts with
  | nil => exact h.resolve_left not_mem_nil
  | cons x entries ih =>
    refine ih ?_
    rw [get_appendTo, mem_append]
    rcases h with h | h
    · rcases mem_cons.mp h with rfl | h
      · exact Or.inr (Or.inr (by rw [if_pos rfl]; exact mem_singleton_self _))
      · exact Or.inl h
    · exact Or.inr (Or.inl h)

/-- What the new size keeps of the old entries. -/
def keptEntries (table : List (List ℕ)) (desired : List ℕ) : List ℕ :=
  desired.zipIdx.flatMap fun e => (table.getD e.2 []).take e.1

theorem flatMap_zipIdx_cons (f : List ℕ → ℕ → List ℕ) (row : List ℕ) (table : List (List ℕ)) (len : ℕ)
    (desired : List ℕ) :
    ((len :: desired).zipIdx.flatMap fun e => f ((row :: table).getD e.2 []) e.1) =
      f row len ++ desired.zipIdx.flatMap fun e => f (table.getD e.2 []) e.1 := by
  rw [zipIdx_cons, flatMap_cons, zipIdx_succ, flatMap_map]
  rfl

/-- **Every old entry is kept or cut off.** -/
theorem count_cutOff (table : List (List ℕ)) (desired : List ℕ) (d : ℕ) :
    (cutOff table desired).count d + (keptEntries table desired).count d = table.flatten.count d := by
  induction desired generalizing table with
  | nil => simp [cutOff, keptEntries]
  | cons len desired ih =>
    cases table with
    | nil =>
      have hnone : ∀ l : List (ℕ × ℕ), (l.flatMap fun _ => ([] : List ℕ)) = [] := fun l =>
        flatMap_eq_nil_iff.mpr fun _ _ => rfl
      simp [cutOff, keptEntries, hnone]
    | cons row table =>
      have hrow : row.count d = (row.take len).count d + (row.drop len).count d := by
        rw [← count_append, take_append_drop]
      have hrest := ih table
      rw [cutOff, keptEntries, count_append] at hrest
      rw [cutOff, keptEntries, flatMap_zipIdx_cons fun row len => row.drop len,
        flatMap_zipIdx_cons fun row len => row.take len, length_cons, drop_succ_cons, flatten_cons]
      simp only [count_append]
      omega

/-! ## 4. A whole rebalance -/

/-- A builder between its calls: every replica is on a device, which counts it. -/
structure RingBuilder.Counted (b : RingBuilder) : Prop where
  onDevices : OnDevices b.devs b.table
  devParts : ∀ d, b.devParts d = (b.table.flatten.count d : ℤ)

theorem mem_eachPartReplica {table : List (List ℕ)} {r p d : ℕ} (h : slot table r p = some d) :
    (p, r) ∈ eachPartReplica table := by
  obtain ⟨row, hrow, hd⟩ := bind_eq_some_iff.mp h
  refine mem_flatMap.mpr ⟨(row, r), ?_, List.mem_map.mpr ⟨p, ?_, rfl⟩⟩
  · exact mem_iff_getElem?.mpr ⟨r, by rw [getElem?_zipIdx, hrow]; simp⟩
  · exact mem_range.mpr (List.getElem?_eq_some_iff.mp hd).1

/-- The counts after the change of size. -/
theorem devParts_cutOff {devs : List (Option Dev)} (hids : AtIds devs) {l : List ℕ} {parts parts' : ℕ → ℤ}
    (h : l.foldlM (fun parts id => (devAt devs id).map fun d => Function.update parts d.id (parts d.id - 1)) parts =
      .ok parts') (d : ℕ) : parts' d = parts d - l.count d := by
  induction l generalizing parts with
  | nil =>
    obtain rfl := Except.ok.inj h
    simp
  | cons x l ih =>
    rw [foldlM_cons] at h
    cases hx : devAt devs x with
    | error e => rw [hx] at h; cases h
    | ok dev =>
      rw [hx] at h
      rw [ih h]
      dsimp only
      rw [hids x dev (devAt_eq_ok.mp hx)]
      by_cases heq : x = d
      · subst heq
        rw [Function.update_self, count_cons_self]
        push_cast
        ring
      · rw [Function.update_of_ne (Ne.symm heq), count_cons_of_ne heq]

/-- **Gathering from removed devices** takes every replica off them. -/
theorem gatherFailed_foldl (devIds : List ℕ) (l : List (ℕ × ℕ)) (w : Work) :
    (l.foldl (gatherFailed devIds) w).replica2part2dev.map List.length = w.replica2part2dev.map List.length ∧
      (∀ r p, r ∈ (w.assignParts.get p).getD [] → r ∈ ((l.foldl (gatherFailed devIds) w).assignParts.get p).getD []) ∧
      ∀ r p d, slot (l.foldl (gatherFailed devIds) w).replica2part2dev r p = some d →
        r ∈ ((l.foldl (gatherFailed devIds) w).assignParts.get p).getD [] ∨
          slot w.replica2part2dev r p = some d ∧ ((p, r) ∈ l → d ∉ devIds) := by
  induction l generalizing w with
  | nil => exact ⟨rfl, fun _ _ => id, fun r p d hs => Or.inr ⟨hs, fun h => absurd h not_mem_nil⟩⟩
  | cons e l ih =>
    rw [foldl_cons]
    obtain ⟨hlen, hkeep, hslots⟩ := ih (gatherFailed devIds w e)
    have hone : (gatherFailed devIds w e).replica2part2dev.map List.length = w.replica2part2dev.map List.length ∧
        (∀ r p, r ∈ (w.assignParts.get p).getD [] → r ∈ ((gatherFailed devIds w e).assignParts.get p).getD []) ∧
        ∀ r p d, slot (gatherFailed devIds w e).replica2part2dev r p = some d →
          r ∈ ((gatherFailed devIds w e).assignParts.get p).getD [] ∨
            slot w.replica2part2dev r p = some d ∧ ((p, r) = e → d ∉ devIds) := by
      rw [gatherFailed]
      split
      · next hnone =>
        refine ⟨rfl, fun _ _ => id, fun r p d hs => Or.inr ⟨hs, ?_⟩⟩
        rintro rfl
        rw [hnone] at hs
        cases hs
      · next devId hslot =>
        split
        · refine ⟨map_length_setSlot _ _ _ _, fun r p hr => ?_, fun r p d hs => ?_⟩
          · rw [get_appendTo]
            exact mem_append_left _ hr
          · dsimp only at hs
            rw [slot_setSlot] at hs
            split at hs
            · next hrp =>
              refine Or.inl ?_
              rw [get_appendTo, if_pos hrp.2.symm, hrp.1]
              exact mem_append_right _ (mem_singleton_self _)
            · next hne =>
              refine Or.inr ⟨hs, ?_⟩
              rintro rfl
              exact absurd ⟨rfl, rfl⟩ hne
        · next hnot =>
          refine ⟨rfl, fun _ _ => id, fun r p d hs => Or.inr ⟨hs, ?_⟩⟩
          rintro rfl
          rw [hslot] at hs
          exact Option.some.inj hs ▸ hnot
    refine ⟨hlen.trans hone.1, fun r p hr => hkeep r p (hone.2.1 r p hr), fun r p d hs => ?_⟩
    rcases hslots r p d hs with hr | ⟨hs', hl⟩
    · exact Or.inl hr
    · rcases hone.2.2 r p d hs' with hr | ⟨hs'', he⟩
      · exact Or.inl (hkeep r p hr)
      · exact Or.inr ⟨hs'', fun h => (mem_cons.mp h).elim he hl⟩

variable {b : RingBuilder} {now : ℤ}

/-- **All that a rebalance does** ends with every replica on a device that stays. -/
theorem finishes_move (hcounted : b.Counted) (choices : ℕ → Choices) (plan : Dict Tier TierPlan)
    (partsWanted : Dev → ℚ) :
    Finishes (fun w => w.replica2part2dev.map List.length = desiredLengths b.replicas b.parts ∧
        OnDevices (withoutDevs b.devs b.removeDevs) w.replica2part2dev) (fun _ => True)
      (b.move now choices plan partsWanted) := by
  set devs := withoutDevs b.devs b.removeDevs with hdevs
  set desired := desiredLengths b.replicas b.parts with hdesired
  have hids : AtIds devs := fun i d h => b.ids i d (withoutDevs_eq h).1
  unfold RingBuilder.move
  refine Finishes.bind (P := fun w => w.replica2part2dev = adjusted b.table desired ∧
    (∀ d, w.devParts d = (b.table.flatten.count d : ℤ) - (cutOff b.table desired).count d) ∧
    ∀ p r, (p, r) ∈ newEntries b.table desired → r ∈ (w.assignParts.get p).getD []) ?_
    fun w ⟨htable, hparts, hnew⟩ => ?_
  · rw [adjustReplica2part2devSize]
    split
    · trivial
    · next devParts hfold =>
      refine ⟨rfl, fun d => ?_, fun p r hmem => mem_assigned (Or.inl hmem)⟩
      have hcut := devParts_cutOff b.ids hfold d
      exact hcut.trans (congrArg (· - _) (hcounted.devParts d))
  · -- what stays on a device, stays on one that is not removed
    have hkept : ∀ r p d, slot (adjusted b.table desired) r p = some d → slot b.table r p = some d →
        d ∈ keptEntries b.table desired := by
      intro r p d hs hold
      obtain ⟨row, hrow, hd⟩ := bind_eq_some_iff.mp hold
      obtain ⟨row', hrow', hd'⟩ := bind_eq_some_iff.mp hs
      rw [adjusted, getElem?_map, getElem?_zipIdx, zero_add] at hrow'
      obtain ⟨e, he, rfl⟩ := map_eq_some_iff.mp hrow'
      obtain ⟨len, hlen, rfl⟩ := map_eq_some_iff.mp he
      have hp := (List.getElem?_eq_some_iff.mp hd').1
      rw [length_resize] at hp
      refine mem_flatMap.mpr ⟨(len, r), mem_iff_getElem?.mpr ⟨r, ?_⟩, ?_⟩
      · rw [getElem?_zipIdx, hlen]
        simp
      · rw [getD_eq_getElem?_getD, hrow]
        exact mem_iff_getElem?.mpr ⟨p, (getElem?_take_of_lt hp).trans hd⟩
    obtain ⟨hlen, hkeepAssigned, hslots⟩ := gatherFailed_foldl (b.removeDevs.filter fun d => w.devParts d ≠ 0)
      (eachPartReplica w.replica2part2dev) w
    have hnoted : (gatherPartsFromFailedDevices b.removeDevs w).Noted devs desired := by
      refine ⟨hlen.trans (htable ▸ map_length_adjusted _ _), fun r p d hs => ?_⟩
      rcases hslots r p d hs with hr | ⟨hs', hfailed⟩
      · exact Or.inr hr
      · rw [htable] at hs'
        rcases slot_adjusted hs' with hold | ⟨hnone, -⟩
        · refine Or.inl ?_
          obtain ⟨dev, hdev⟩ := hcounted.onDevices r p d hold
          have hstays : d ∉ b.removeDevs := fun hremoved => by
            refine hfailed (mem_eachPartReplica (htable ▸ hs')) (mem_filter.mpr ⟨hremoved, ?_⟩)
            have hcount := count_cutOff b.table desired d
            have hpos := count_pos_iff.mpr (hkept r p d hs' hold)
            have hd := hparts d
            exact decide_eq_true (by omega)
          exact ⟨dev, by rw [hdevs, withoutDevs_of_not_mem hstays, hdev]⟩
        · exact Or.inr (hkeepAssigned r p (hnew p r (mem_newEntries hs' hnone)))
    exact (finishes_dispersion hnoted b.parts).bind fun w' hw' =>
      finishes_gatherRounds hids _ _ hw' fun h => absurd h (by decide)

/-- **After a rebalance** the table has the desired size and every replica is on a device. -/
theorem rebalance_fills (hcounted : b.Counted) {fuel : ℕ} {choices : ℕ → Choices} {w : Work}
    (h : b.rebalance fuel now choices = some (.reached none w)) :
    w.replica2part2dev.map List.length = desiredLengths b.replicas b.parts ∧
      OnDevices (withoutDevs b.devs b.removeDevs) w.replica2part2dev := by
  obtain ⟨plan, partsWanted, hended⟩ := rebalance_reached h
  have hmoved : Finishes _ _ (b.move now choices plan partsWanted) := finishes_move hcounted choices plan partsWanted
  rcases Finishes.of_reached hmoved hended with ⟨-, hw⟩ | ⟨_, herror, -⟩
  · exact hw
  · cases herror

end Mitaka.Swift.Ring
