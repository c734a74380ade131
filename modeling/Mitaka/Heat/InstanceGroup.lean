/-
  Subject: heat/engine/resources/openstack/heat/instance_group.py, the batches of a rolling
           update, over the members in the order of heat/common/grouputils.py.

  Members are replaced and removed from the front of a list that is sorted by the time of
  creation. A member that is changed in place keeps its time, and so its place at the front:
  it is the first to go when the surplus of members is removed, and a member with the old
  definition stays in its stead. **The update is complete exactly when no batch that changes a
  member in place is followed by one that makes the group smaller** (`replace_complete_iff`).

  Members have no failures. The time of a new member is later than those that are there.
-/
import Mitaka.Heat.RollingUpdate

namespace Mitaka.Heat.InstanceGroup

open List

/-! ## 1. Members -/

structure Member (N D : Type) where
  created : ℕ
  name : N
  defn : D
  deriving DecidableEq

variable {N D : Type} [LinearOrder N] [DecidableEq D]

/-- The order of `get_members`. -/
def Member.le (a b : Member N D) : Prop := a.created < b.created ∨ (a.created = b.created ∧ a.name ≤ b.name)

instance (a b : Member N D) : Decidable (a.le b) := inferInstanceAs (Decidable (_ ∨ _))

/-- `get_members`. -/
def getMembers (group : List (Member N D)) : List (Member N D) := group.insertionSort Member.le

/-- `_create_template`, for the names that `short_id.generate_id` gives. -/
def createTemplate (newDef : D) (group : List (Member N D)) (numInstances numReplace : ℕ) (newIds : List N) : List (N × D) :=
  memberDefinitions (fun _ => newDef) ((getMembers group).map fun r => (r.name, r.defn)) numInstances numReplace newIds

/-- `_get_batches`, for a number of turns; none is the assertion of `next_batch`, or that
    there are turns left. -/
def getBatches (capacity batchSize minInService : ℕ) : ℕ → ℕ → ℕ → Option (List (ℕ × ℕ))
  | 0, efftCapacity, updated => if needsUpdate capacity efftCapacity updated then none else some []
  | turns + 1, efftCapacity, updated =>
    if needsUpdate capacity efftCapacity updated then
      (nextBatch capacity efftCapacity updated batchSize minInService).bind fun batch =>
        (getBatches capacity batchSize minInService turns batch.1 (updated + batch.2)).map (batch :: ·)
    else some []

/-- What the update of the stack makes of a resource of the template: a change is applied in
    place, or by a replacement. -/
def updateMember (inPlace : N → Bool) (clock : N → ℕ) (group : List (Member N D)) (x : N × D) : Member N D :=
  match group.find? fun r => r.name = x.1 with
  | some r => if r.defn = x.2 ∨ inPlace x.1 then { r with defn := x.2 } else ⟨clock x.1, x.1, x.2⟩
  | none => ⟨clock x.1, x.1, x.2⟩

/-- One batch, with any choice for each member. -/
structure Applied (newDef : D) (group : List (Member N D)) (batch : ℕ × ℕ) (inPlace : N → Bool) (group' : List (Member N D)) :
    Prop where
  applied : ∃ (clock : N → ℕ) (newIds : List N), (∀ name, ∀ r ∈ group, r.created < clock name) ∧
    newIds.Nodup ∧ (∀ name ∈ newIds, name ∉ group.map Member.name) ∧ newIds.length = batch.1 - group.length ∧
    group'.Perm ((createTemplate newDef group batch.1 batch.2 newIds).map (updateMember inPlace clock group))

/-- A batch of a run: the group before and after it. -/
abbrev Trace (N D : Type) := List (List (Member N D) × List (Member N D))

/-- The batches one after the other. -/
inductive Rolled (newDef : D) : List (Member N D) → List (ℕ × ℕ) → Trace N D → List (Member N D) → Prop
  | done (group : List (Member N D)) : Rolled newDef group [] [] group
  | batch {group group' final : List (Member N D)} {batch : ℕ × ℕ} {batches : List (ℕ × ℕ)} {inPlace : N → Bool}
      {trace : Trace N D} : Applied newDef group batch inPlace group' → Rolled newDef group' batches trace final →
      Rolled newDef group (batch :: batches) ((group, group') :: trace) final

/-- A member has another definition, and the time it had. -/
def ChangedInPlace (p : List (Member N D) × List (Member N D)) : Prop :=
  ∃ r ∈ p.1, ∃ r' ∈ p.2, r'.name = r.name ∧ r'.created = r.created ∧ r'.defn ≠ r.defn

/-- The group has fewer members. -/
def Shrinks (p : List (Member N D) × List (Member N D)) : Prop := p.2.length < p.1.length

/-! ## 2. The plan -/

section Plan

variable {capacity c updated batchSize minInService newCap totalNew : ℕ}

theorem nextBatch_surplus (hc : capacity ≤ c)
    (h : nextBatch capacity c updated batchSize minInService = some (newCap, totalNew)) :
    totalNew = min batchSize (capacity - updated) ∧ newCap = max capacity (totalNew + min minInService capacity) := by
  obtain ⟨h1, h2⟩ := nextBatch_spec h
  have hle : totalNew ≤ capacity := by omega
  have hleast : min (min minInService capacity) c = min minInService capacity := by omega
  have hrest : min c (capacity - totalNew) = capacity - totalNew := by omega
  rw [hleast, hrest] at h2
  refine ⟨h1, ?_⟩
  generalize min minInService capacity = least at h2 ⊢
  omega

/-- A batch does not fall below the capacity, keeps the minimum, and has a place for each of its members. -/
theorem nextBatch_room (hc : capacity ≤ c) (hle : updated ≤ capacity)
    (h : nextBatch capacity c updated batchSize minInService = some (newCap, totalNew)) :
    capacity ≤ newCap ∧ min minInService capacity ≤ newCap - totalNew ∧ newCap - c ≤ totalNew ∧
      updated + totalNew ≤ capacity := by
  obtain ⟨h1, h2⟩ := nextBatch_surplus hc h
  have hleast : min minInService capacity ≤ capacity := Nat.min_le_right _ _
  generalize min minInService capacity = least at h2 hleast ⊢
  omega

end Plan

/-! ## 3. The order of the members -/

instance : Std.Total (Member.le (N := N) (D := D)) := ⟨fun a b => by
  unfold Member.le
  rcases lt_trichotomy a.created b.created with h | h | h
  · exact Or.inl (Or.inl h)
  · exact (le_total a.name b.name).imp (fun hle => Or.inr ⟨h, hle⟩) fun hle => Or.inr ⟨h.symm, hle⟩
  · exact Or.inr (Or.inl h)⟩

instance : IsTrans (Member N D) Member.le := ⟨fun a b c hab hbc => by
  unfold Member.le at *
  rcases hab with hab | ⟨hab, hab'⟩ <;> rcases hbc with hbc | ⟨hbc, hbc'⟩
  · exact Or.inl (hab.trans hbc)
  · exact Or.inl (hbc ▸ hab)
  · exact Or.inl (hab ▸ hbc)
  · exact Or.inr ⟨hab.trans hbc, hab'.trans hbc'⟩⟩

omit [DecidableEq D] in
theorem getMembers_perm (group : List (Member N D)) : (getMembers group).Perm group := perm_insertionSort _ _

omit [DecidableEq D] in
theorem getMembers_pairwise (group : List (Member N D)) : (getMembers group).Pairwise Member.le :=
  pairwise_insertionSort _ _

omit [LinearOrder N] [DecidableEq D] in
/-- Members whose names differ are told apart by them. -/
theorem eq_of_name {group : List (Member N D)} (hnames : (group.map Member.name).Nodup) {a b : Member N D} (ha : a ∈ group)
    (hb : b ∈ group) (h : a.name = b.name) : a = b :=
  inj_on_of_nodup_map hnames ha hb h

omit [DecidableEq D] in
/-- An ordered list of the members is what they are sorted to. -/
theorem getMembers_eq {group l : List (Member N D)} (hnames : (group.map Member.name).Nodup) (hperm : l.Perm group)
    (hl : l.Pairwise Member.le) : getMembers group = l := by
  refine ((getMembers_perm group).trans hperm.symm).eq_of_pairwise (fun a b ha hb hab hba => ?_) (getMembers_pairwise group) hl
  refine eq_of_name hnames ((getMembers_perm group).mem_iff.mp ha) (hperm.mem_iff.mp hb) ?_
  unfold Member.le at hab hba
  rcases hab with hab | ⟨hab, hab'⟩ <;> rcases hba with hba | ⟨hba, hba'⟩
  · omega
  · omega
  · omega
  · exact le_antisymm hab' hba'

/-! ## 4. One batch -/

/-- A member with the new definition, in place or as a new one. -/
def change (newDef : D) (inPlace : N → Bool) (clock : N → ℕ) (r : Member N D) : Member N D :=
  if inPlace r.name then { r with defn := newDef } else ⟨clock r.name, r.name, newDef⟩

omit [LinearOrder N] in
/-- The first members with another definition are replaced. -/
theorem replaceLoop_eq [DecidableEq N] (newDef : D) {l : List (Member N D)} (hl : l.Nodup) (n : ℕ) :
    replaceLoop (fun _ : N => newDef) (l.map fun r => (r.name, r.defn)) n =
      l.map fun r => if r ∈ (l.filter fun r => r.defn ≠ newDef).take n then (r.name, newDef) else (r.name, r.defn) := by
  induction l generalizing n with
  | nil => rfl
  | cons r l ih =>
    obtain ⟨hr, hl⟩ := nodup_cons.mp hl
    rw [map_cons, replaceLoop, map_cons]
    by_cases hdefn : r.defn ≠ newDef
    · have hfilter : ((r :: l).filter fun r => r.defn ≠ newDef) = r :: l.filter fun r => r.defn ≠ newDef := by
        simp [hdefn]
      rw [hfilter]
      cases n with
      | zero =>
        rw [if_neg (fun h => absurd h.2 (lt_irrefl 0)), replaceLoop_zero]
        simp
      | succ n =>
        rw [if_pos ⟨hdefn, Nat.succ_pos n⟩, take_succ_cons, if_pos mem_cons_self, Nat.add_sub_cancel, ih hl]
        refine congrArg _ (map_congr_left fun x hx => if_congr ?_ rfl rfl)
        rw [mem_cons, or_iff_right fun h : x = r => hr (h ▸ hx)]
    · have hnot : r ∉ (l.filter fun r => r.defn ≠ newDef).take n := fun h =>
        hr (mem_of_mem_filter (mem_of_mem_take h))
      have hfilter : ((r :: l).filter fun r => r.defn ≠ newDef) = l.filter fun r => r.defn ≠ newDef := by
        simp [hdefn]
      rw [hfilter, if_neg (fun h => hdefn h.1), if_neg hnot, ih hl]

section Step

variable {newDef : D} {group group' : List (Member N D)} {newCap totalNew : ℕ} {inPlace : N → Bool}

/-- The members that are kept. -/
def keptMembers (group : List (Member N D)) (newCap : ℕ) : List (Member N D) :=
  (getMembers group).drop (group.length - newCap)

/-- The members that are changed. -/
def changedMembers (newDef : D) (group : List (Member N D)) (newCap totalNew : ℕ) : List (Member N D) :=
  ((keptMembers group newCap).filter fun r => r.defn ≠ newDef).take (totalNew - (newCap - group.length))

omit [DecidableEq D] in
theorem length_keptMembers (group : List (Member N D)) (newCap : ℕ) :
    (keptMembers group newCap).length = min group.length newCap := by
  rw [keptMembers, length_drop, (getMembers_perm group).length_eq]
  omega

omit [DecidableEq D] in
theorem mem_of_mem_keptMembers {r : Member N D} (h : r ∈ keptMembers group newCap) : r ∈ group :=
  (getMembers_perm group).mem_iff.mp (mem_of_mem_drop h)

/-- **What a batch makes of a group.** -/
theorem Applied.spec (hpos : 0 < newCap) (hnames : (group.map Member.name).Nodup)
    (h : Applied newDef group (newCap, totalNew) inPlace group') :
    ∃ clock created, (∀ name, ∀ r ∈ group, r.created < clock name) ∧ created.length = newCap - group.length ∧
      (∀ m ∈ created, m.defn = newDef ∧ m.name ∉ group.map Member.name ∧ ∀ r ∈ group, r.created < m.created) ∧
      (created.map Member.name).Nodup ∧
      group'.Perm ((keptMembers group newCap).map (fun r =>
        if r ∈ changedMembers newDef group newCap totalNew then change newDef inPlace clock r else r) ++ created) := by
  obtain ⟨clock, newIds, hclock, hids, hnew, hlen, hperm⟩ := h.applied
  have hnodup : (keptMembers group newCap).Nodup := by
    have hgroup : group.Nodup := Nodup.of_map _ hnames
    exact ((getMembers_perm group).nodup_iff.mpr hgroup).sublist (drop_sublist _ _)
  have hfind : ∀ r ∈ group, group.find? (fun r' => r'.name = r.name) = some r := fun r hr => by
    obtain ⟨r', hr'⟩ := Option.isSome_iff_exists.mp
      (find?_isSome (p := fun r' => decide (r'.name = r.name)).mpr ⟨r, hr, decide_eq_true rfl⟩)
    have hname : r'.name = r.name := by simpa using find?_some hr'
    rw [hr', eq_of_name hnames (mem_of_find?_eq_some hr') hr hname]
  have htemplate : createTemplate newDef group newCap totalNew newIds =
      replaceLoop (fun _ => newDef) ((keptMembers group newCap).map fun r => (r.name, r.defn))
        (totalNew - (newCap - group.length)) ++ newIds.map fun name => (name, newDef) := by
    have hsplit : (getMembers group).map (fun r => (r.name, r.defn)) =
        ((getMembers group).take (group.length - newCap)).map (fun r => (r.name, r.defn)) ++
          (keptMembers group newCap).map fun r => (r.name, r.defn) := by
      rw [← map_append, keptMembers, take_append_drop]
    have hkept : ((keptMembers group newCap).map fun r => (r.name, r.defn)).length = min group.length newCap := by
      rw [length_map, length_keptMembers]
    have hdropped : (((getMembers group).take (group.length - newCap)).map fun r => (r.name, r.defn)).length =
        group.length - newCap := by
      rw [length_map, length_take, (getMembers_perm group).length_eq]
      omega
    rw [createTemplate, hsplit, memberDefinitions_append hpos (by rw [hkept, hdropped]; omega) (by rw [hkept]; omega),
      hkept, show newCap - min group.length newCap = newCap - group.length by omega, ← hlen, take_length]
  have hloop : replaceLoop (fun _ => newDef) ((keptMembers group newCap).map fun r => (r.name, r.defn))
      (totalNew - (newCap - group.length)) = (keptMembers group newCap).map fun r =>
        if r ∈ changedMembers newDef group newCap totalNew then (r.name, newDef) else (r.name, r.defn) :=
    replaceLoop_eq newDef hnodup _
  rw [htemplate, hloop, map_append, List.map_map, List.map_map] at hperm
  refine ⟨clock, newIds.map fun name => ⟨clock name, name, newDef⟩, hclock, by rw [length_map, hlen], ?_, ?_, ?_⟩
  · intro m hm
    obtain ⟨name, hname, rfl⟩ := List.mem_map.mp hm
    exact ⟨rfl, hnew name hname, hclock name⟩
  · rw [List.map_map]
    exact (List.map_id' newIds).symm ▸ hids
  · refine hperm.trans (Perm.of_eq ?_)
    congr 1
    · refine map_congr_left fun r hr => ?_
      have hr' := mem_of_mem_keptMembers hr
      rw [Function.comp_apply]
      by_cases hc : r ∈ changedMembers newDef group newCap totalNew
      · have hdefn : r.defn ≠ newDef := by
          have hm := (mem_filter.mp (mem_of_mem_take hc)).2
          exact of_decide_eq_true hm
        rw [if_pos hc, if_pos hc, updateMember]
        dsimp only
        rw [hfind r hr']
        dsimp only
        rw [change]
        exact if_congr (or_iff_right hdefn) rfl rfl
      · rw [if_neg hc, if_neg hc, updateMember]
        dsimp only
        rw [hfind r hr']
        dsimp only
        rw [if_pos (Or.inl rfl)]
    · refine map_congr_left fun name hname => ?_
      have hnone : group.find? (fun r => r.name = name) = none :=
        find?_eq_none.mpr fun r hr he => hnew name hname (List.mem_map.mpr ⟨r, hr, of_decide_eq_true he⟩)
      rw [Function.comp_apply, updateMember]
      dsimp only
      rw [hnone]

omit [LinearOrder N] [DecidableEq D] in
theorem change_name (newDef : D) (inPlace : N → Bool) (clock : N → ℕ) (r : Member N D) :
    (change newDef inPlace clock r).name = r.name := by
  unfold change
  split <;> rfl

theorem Applied.names (hpos : 0 < newCap) (hnames : (group.map Member.name).Nodup)
    (h : Applied newDef group (newCap, totalNew) inPlace group') : (group'.map Member.name).Nodup := by
  obtain ⟨clock, created, -, -, hcreated, hids, hperm⟩ := h.spec hpos hnames
  have hkept : (keptMembers group newCap).map (Member.name ∘ fun r =>
      if r ∈ changedMembers newDef group newCap totalNew then change newDef inPlace clock r else r) =
      (keptMembers group newCap).map Member.name := by
    refine map_congr_left fun r _ => ?_
    rw [Function.comp_apply]
    split_ifs
    · exact change_name _ _ _ _
    · rfl
  rw [(hperm.map Member.name).nodup_iff, map_append, List.map_map, hkept]
  refine nodup_append.mpr ⟨?_, hids, fun a ha b hb hab => ?_⟩
  · have hsorted := ((getMembers_perm group).map Member.name).nodup_iff.mpr hnames
    exact hsorted.sublist (List.Sublist.map _ (drop_sublist _ _))
  · obtain ⟨m, hm, rfl⟩ := List.mem_map.mp hb
    obtain ⟨r, hr, rfl⟩ := List.mem_map.mp ha
    exact (hcreated m hm).2.1 (hab ▸ List.mem_map_of_mem (mem_of_mem_keptMembers hr))

theorem Applied.length (hpos : 0 < newCap) (hnames : (group.map Member.name).Nodup)
    (h : Applied newDef group (newCap, totalNew) inPlace group') : group'.length = newCap := by
  obtain ⟨clock, created, -, hlen, -, -, hperm⟩ := h.spec hpos hnames
  rw [hperm.length_eq, length_append, length_map, length_keptMembers, hlen]
  omega

/-- The members that are kept and changed are not more than are to be changed. -/
theorem length_changed_le (newDef : D) (newCap totalNew : ℕ) (hnames : (group.map Member.name).Nodup) :
    ((keptMembers group newCap).filter fun r => r ∈ changedMembers newDef group newCap totalNew).length ≤
      totalNew - (newCap - group.length) := by
  have hnodup : (keptMembers group newCap).Nodup :=
    ((getMembers_perm group).nodup_iff.mpr (Nodup.of_map _ hnames)).sublist (drop_sublist _ _)
  have hsub : ((keptMembers group newCap).filter fun r => r ∈ changedMembers newDef group newCap totalNew) ⊆
      changedMembers newDef group newCap totalNew := fun r hr => of_decide_eq_true (mem_filter.mp hr).2
  exact (subperm_of_subset (hnodup.filter _) hsub).length_le.trans (length_take_le _ _)

/-- The other members are left alone. -/
theorem Applied.inService (hpos : 0 < newCap) (hnames : (group.map Member.name).Nodup)
    (hroom : newCap - group.length ≤ totalNew) (h : Applied newDef group (newCap, totalNew) inPlace group') :
    newCap - totalNew ≤ (group.filter fun r => r ∈ group').length := by
  obtain ⟨clock, created, -, -, -, -, hperm⟩ := h.spec hpos hnames
  have hnodup : (keptMembers group newCap).Nodup :=
    ((getMembers_perm group).nodup_iff.mpr (Nodup.of_map _ hnames)).sublist (drop_sublist _ _)
  have hsub : ((keptMembers group newCap).filter fun r => !decide (r ∈ changedMembers newDef group newCap totalNew)) ⊆
      group.filter fun r => r ∈ group' := fun r hr => by
    rw [mem_filter, Bool.not_eq_true', decide_eq_false_iff_not] at hr
    refine mem_filter.mpr ⟨mem_of_mem_keptMembers hr.1, decide_eq_true (hperm.mem_iff.mpr ?_)⟩
    refine mem_append_left _ (List.mem_map.mpr ⟨r, hr.1, ?_⟩)
    rw [if_neg hr.2]
  have hlen := (subperm_of_subset (hnodup.filter _) hsub).length_le
  have hsplit := length_eq_length_filter_add (l := keptMembers group newCap)
    fun r => decide (r ∈ changedMembers newDef group newCap totalNew)
  have hchanged := length_changed_le newDef newCap totalNew hnames
  rw [length_keptMembers] at hsplit
  omega

theorem countP_le_add {α : Type} {p q s : α → Bool} {l : List α} (h : ∀ x ∈ l, p x = true → q x = true ∨ s x = true) :
    l.countP p ≤ l.countP q + l.countP s := by
  induction l with
  | nil => exact Nat.zero_le _
  | cons x l ih =>
    have ih := ih fun y hy => h y (mem_cons_of_mem _ hy)
    have hx := h x mem_cons_self
    rw [countP_cons, countP_cons, countP_cons]
    split_ifs <;> first | omega | exact absurd (hx ‹_›) (by simp [*])

/-- The members with the new definition that are kept, and as many more as the batch has. -/
theorem Applied.count (hpos : 0 < newCap) (hnames : (group.map Member.name).Nodup)
    (hroom : newCap - group.length ≤ totalNew) (h : Applied newDef group (newCap, totalNew) inPlace group') :
    group'.countP (fun r => r.defn = newDef) ≤
      (keptMembers group newCap).countP (fun r => r.defn = newDef) + totalNew := by
  obtain ⟨clock, created, -, hlen, -, -, hperm⟩ := h.spec hpos hnames
  have hcreated : created.countP (fun r => r.defn = newDef) ≤ newCap - group.length := by
    rw [← hlen]
    exact countP_le_length
  have hchanged := length_changed_le newDef newCap totalNew hnames
  rw [← countP_eq_length_filter] at hchanged
  have hkept : (keptMembers group newCap).countP ((fun r : Member N D => decide (r.defn = newDef)) ∘ fun r =>
      if r ∈ changedMembers newDef group newCap totalNew then change newDef inPlace clock r else r) ≤
      (keptMembers group newCap).countP (fun r => r.defn = newDef) +
        (keptMembers group newCap).countP fun r => r ∈ changedMembers newDef group newCap totalNew := by
    refine countP_le_add fun r _ hr => ?_
    rw [Function.comp_apply] at hr
    split_ifs at hr with hc
    · exact Or.inr (decide_eq_true hc)
    · exact Or.inl hr
  rw [hperm.countP_eq, countP_append, countP_map]
  omega

/-! ## 5. The members in order -/

/-- In the order of the members: those that have been changed in place, those with the old definition, and those that
are newer than both. -/
structure Shape (newDef : D) (group front old back : List (Member N D)) : Prop where
  members : getMembers group = front ++ (old ++ back)
  frontNew : ∀ r ∈ front, r.defn = newDef
  outdated : ∀ r ∈ old, r.defn ≠ newDef
  backNew : ∀ r ∈ back, r.defn = newDef
  late : ∀ r ∈ front ++ old, ∀ r' ∈ back, r.created < r'.created

variable {front old back : List (Member N D)}

/-- The members with the old definition are changed from the first on. -/
theorem Shape.changed (totalNew : ℕ) (h : Shape newDef group front old back) (hfront : newCap < group.length → front = [])
    (hold : group.length - newCap ≤ old.length) :
    keptMembers group newCap = front ++ (old.drop (group.length - newCap) ++ back) ∧
      changedMembers newDef group newCap totalNew =
        (old.drop (group.length - newCap)).take (totalNew - (newCap - group.length)) := by
  have hkept : keptMembers group newCap = front ++ (old.drop (group.length - newCap) ++ back) := by
    rw [keptMembers, h.members]
    rcases Nat.lt_or_ge newCap group.length with hlt | hge
    · rw [hfront hlt, nil_append, nil_append, drop_append_of_le_length hold]
    · rw [Nat.sub_eq_zero_of_le hge, drop_zero, drop_zero]
  refine ⟨hkept, ?_⟩
  have hnone : ∀ l : List (Member N D), (∀ r ∈ l, r.defn = newDef) → l.filter (fun r => r.defn ≠ newDef) = [] := fun l hl =>
    filter_eq_nil_iff.mpr fun r hr hne => of_decide_eq_true hne (hl r hr)
  have hall : (old.drop (group.length - newCap)).filter (fun r => r.defn ≠ newDef) = old.drop (group.length - newCap) :=
    filter_eq_self.mpr fun r hr => decide_eq_true (h.outdated r (mem_of_mem_drop hr))
  rw [changedMembers, hkept, filter_append, filter_append, hnone front h.frontNew, hnone back h.backNew, hall,
    append_nil, nil_append]

/-- What orders the members. -/
def orderKey (r : Member N D) : ℕ × N := (r.created, r.name)

omit [DecidableEq D] in
theorem pairwise_le_iff {l : List (Member N D)} : l.Pairwise Member.le ↔
    (l.map orderKey).Pairwise fun x y => x.1 < y.1 ∨ (x.1 = y.1 ∧ x.2 ≤ y.2) := by
  rw [pairwise_map]
  rfl

/-- **One batch that loses no updated member.** -/
theorem Shape.next (h : Shape newDef group front old back) (hpos : 0 < newCap) (hnames : (group.map Member.name).Nodup)
    (hfront : newCap < group.length → front = []) (hold : group.length - newCap ≤ old.length)
    (hroom : totalNew - (newCap - group.length) ≤ old.length - (group.length - newCap))
    (happlied : Applied newDef group (newCap, totalNew) inPlace group') :
    ∃ front' old' back', Shape newDef group' front' old' back' ∧
      front'.length + back'.length =
        front.length + back.length + (totalNew - (newCap - group.length)) + (newCap - group.length) ∧
      (front' = [] ↔ front = [] ∧ ¬ ChangedInPlace (group, group')) := by
  have hnames' := happlied.names hpos hnames
  obtain ⟨clock, created, hclock, hcreatedLen, hcreated, -, hperm⟩ := happlied.spec hpos hnames
  obtain ⟨hkept, hchanged⟩ := h.changed totalNew hfront hold
  obtain ⟨now, hnow⟩ : ∃ now, now = (old.drop (group.length - newCap)).take (totalNew - (newCap - group.length)) := ⟨_, rfl⟩
  obtain ⟨later, hlater⟩ : ∃ later, later = (old.drop (group.length - newCap)).drop (totalNew - (newCap - group.length)) :=
    ⟨_, rfl⟩
  have hsplit : old.drop (group.length - newCap) = now ++ later := by
    rw [hnow, hlater, take_append_drop]
  have hnowLen : now.length = totalNew - (newCap - group.length) := by
    rw [hnow, length_take, length_drop]
    omega
  have hnowOld : ∀ r ∈ now, r ∈ old := fun r hr => mem_of_mem_drop (hsplit ▸ mem_append_left _ hr)
  have hlaterOld : ∀ r ∈ later, r ∈ old := fun r hr => mem_of_mem_drop (hsplit ▸ mem_append_right _ hr)
  have hgroup : ∀ r ∈ front ++ (old ++ back), r ∈ group := fun r hr => (getMembers_perm group).mem_iff.mp (h.members ▸ hr)
  have hdisjoint : ∀ r ∈ now, r ∉ later := by
    have hnodup : (now ++ later).Nodup := by
      have hall : (getMembers group).Nodup := (getMembers_perm group).nodup_iff.mpr (Nodup.of_map _ hnames)
      rw [h.members] at hall
      rw [← hsplit]
      exact ((nodup_append.mp (nodup_append.mp hall).2.1).1).sublist (drop_sublist _ _)
    exact fun r hr hr' => (nodup_append.mp hnodup).2.2 r hr r hr' rfl
  rw [hchanged, ← hnow, hkept, hsplit] at hperm
  -- the members that are changed are those of `now`
  have hmap : (front ++ (now ++ later ++ back)).map (fun r => if r ∈ now then change newDef inPlace clock r else r) =
      front ++ (now.map (change newDef inPlace clock) ++ later ++ back) := by
    have hkeep : ∀ l : List (Member N D), (∀ r ∈ l, r ∉ now) →
        l.map (fun r => if r ∈ now then change newDef inPlace clock r else r) = l := fun l hl =>
      (map_congr_left fun r hr => if_neg (hl r hr)).trans (List.map_id l)
    rw [map_append, map_append, map_append,
      hkeep front fun r hr hr' => h.outdated r (hnowOld r hr') (h.frontNew r hr),
      hkeep later fun r hr hr' => hdisjoint r hr' hr, hkeep back fun r hr hr' => h.outdated r (hnowOld r hr') (h.backNew r hr),
      map_congr_left fun r hr => if_pos hr]
  rw [hmap] at hperm
  obtain ⟨inFront, hinFront⟩ : ∃ l, l = (now.filter fun r => inPlace r.name).map fun r => { r with defn := newDef } := ⟨_, rfl⟩
  obtain ⟨inBack, hinBack⟩ : ∃ l, l = (now.filter fun r => !inPlace r.name).map fun r =>
    (⟨clock r.name, r.name, newDef⟩ : Member N D) := ⟨_, rfl⟩
  have hnowPerm : (now.map (change newDef inPlace clock)).Perm (inFront ++ inBack) := by
    refine ((filter_append_perm (fun r => inPlace r.name) now).symm.map _).trans (Perm.of_eq ?_)
    rw [map_append, hinFront, hinBack]
    congr 1
    · refine map_congr_left fun r hr => ?_
      rw [change, if_pos (by simpa using (mem_filter.mp hr).2)]
    · refine map_congr_left fun r hr => ?_
      rw [change, if_neg (by simpa using (mem_filter.mp hr).2)]
  obtain ⟨rest, hrest⟩ : ∃ rest, rest = inBack ++ back ++ created := ⟨_, rfl⟩
  have htotal : (front ++ inFront ++ (later ++ getMembers rest)).Perm group' := by
    refine Perm.trans ?_ hperm.symm
    refine Perm.trans ((List.Perm.refl _).append ((List.Perm.refl later).append (getMembers_perm rest))) ?_
    rw [hrest]
    refine perm_iff_count.mpr fun r => ?_
    have hcount := hnowPerm.count_eq r
    simp only [count_append] at hcount ⊢
    omega
  have hrestMem : ∀ r ∈ rest, r ∈ inBack ∨ r ∈ back ∨ r ∈ created := fun r hr => by
    rw [hrest, mem_append, mem_append, or_assoc] at hr
    exact hr
  have hinBackLate : ∀ r ∈ inBack, ∀ r' ∈ group, r'.created < r.created := fun r hr r' hr' => by
    rw [hinBack] at hr
    obtain ⟨x, -, rfl⟩ := List.mem_map.mp hr
    exact hclock _ r' hr'
  -- the members at the front keep their time and their order
  have hsorted : (front ++ inFront ++ later).Pairwise Member.le := by
    have hbefore : (front ++ (now.filter (fun r => inPlace r.name) ++ later)).Pairwise Member.le := by
      have hall := getMembers_pairwise group
      rw [h.members] at hall
      refine hall.sublist (Sublist.append (Sublist.refl front) ?_)
      refine Sublist.trans ?_ (sublist_append_left old back)
      refine Sublist.trans ?_ (drop_sublist (group.length - newCap) old)
      rw [hsplit]
      exact Sublist.append filter_sublist (Sublist.refl later)
    rw [pairwise_le_iff] at hbefore ⊢
    have hkeys : (front ++ inFront ++ later).map orderKey =
        (front ++ (now.filter (fun r => inPlace r.name) ++ later)).map orderKey := by
      rw [hinFront, append_assoc, map_append, map_append, map_append, map_append, List.map_map]
      rfl
    rw [hkeys]
    exact hbefore
  have horigin : ∀ r ∈ front ++ inFront ++ later, ∃ r₀ ∈ front ++ old, r₀.created = r.created := fun r hr => by
    rcases mem_append.mp hr with hr | hr
    · rcases mem_append.mp hr with hr | hr
      · exact ⟨r, mem_append_left _ hr, rfl⟩
      · rw [hinFront] at hr
        obtain ⟨x, hx, rfl⟩ := List.mem_map.mp hr
        exact ⟨x, mem_append_right _ (hnowOld x (mem_of_mem_filter hx)), rfl⟩
    · exact ⟨r, mem_append_right _ (hlaterOld r hr), rfl⟩
  have hlate : ∀ r ∈ front ++ inFront ++ later, ∀ r' ∈ rest, r.created < r'.created := fun r hr r' hr' => by
    obtain ⟨r₀, hr₀, htime⟩ := horigin r hr
    have hmem : r₀ ∈ group := hgroup r₀ (by
      rw [← append_assoc]
      exact mem_append_left _ hr₀)
    rw [← htime]
    rcases hrestMem r' hr' with hr' | hr' | hr'
    · exact hinBackLate r' hr' r₀ hmem
    · exact h.late r₀ hr₀ r' hr'
    · exact (hcreated r' hr').2.2 r₀ hmem
  have hmembers : getMembers group' = front ++ inFront ++ (later ++ getMembers rest) := by
    refine getMembers_eq hnames' htotal ?_
    rw [← append_assoc]
    refine pairwise_append.mpr ⟨hsorted, getMembers_pairwise rest, fun r hr r' hr' => Or.inl ?_⟩
    exact hlate r hr r' ((getMembers_perm rest).mem_iff.mp hr')
  refine ⟨front ++ inFront, later, getMembers rest, ⟨hmembers, fun r hr => ?_, fun r hr => h.outdated r (hlaterOld r hr),
    fun r hr => ?_, fun r hr r' hr' => ?_⟩, ?_, ?_⟩
  · rcases mem_append.mp hr with hr | hr
    · exact h.frontNew r hr
    · rw [hinFront] at hr
      obtain ⟨x, -, rfl⟩ := List.mem_map.mp hr
      rfl
  · rcases hrestMem r ((getMembers_perm rest).mem_iff.mp hr) with hr | hr | hr
    · rw [hinBack] at hr
      obtain ⟨x, -, rfl⟩ := List.mem_map.mp hr
      rfl
    · exact h.backNew r hr
    · exact (hcreated r hr).1
  · exact hlate r hr r' ((getMembers_perm rest).mem_iff.mp hr')
  · have hlen := hnowPerm.length_eq
    rw [length_map, hnowLen, length_append] at hlen
    rw [length_append, (getMembers_perm rest).length_eq, hrest, length_append, length_append, hcreatedLen]
    omega
  · have hinPlace : ChangedInPlace (group, group') ↔ inFront ≠ [] := by
      constructor
      · rintro ⟨r, hr, r', hr', hname, htime, hne⟩ hnil
        have hsame : r' ∉ group := fun hmem => hne (congrArg Member.defn (eq_of_name hnames hmem hr hname))
        have hmem := htotal.mem_iff.mpr hr'
        rw [hnil, append_nil, mem_append, mem_append, (getMembers_perm rest).mem_iff] at hmem
        rcases hmem with hmem | hmem | hmem
        · exact hsame (hgroup r' (mem_append_left _ hmem))
        · exact hsame (hgroup r' (mem_append_right _ (mem_append_left _ (hlaterOld r' hmem))))
        · rcases hrestMem r' hmem with hmem | hmem | hmem
          · exact absurd (hinBackLate r' hmem r hr) (by rw [htime]; exact lt_irrefl _)
          · exact hsame (hgroup r' (mem_append_right _ (mem_append_right _ hmem)))
          · exact (hcreated r' hmem).2.1 (hname ▸ List.mem_map_of_mem hr)
      · intro hne
        obtain ⟨r', hr'⟩ := exists_mem_of_ne_nil _ hne
        have hr'' := hr'
        rw [hinFront] at hr''
        obtain ⟨x, hx, rfl⟩ := List.mem_map.mp hr''
        have hxOld := hnowOld x (mem_of_mem_filter hx)
        refine ⟨x, hgroup x (mem_append_right _ (mem_append_left _ hxOld)), _,
          htotal.mem_iff.mp (mem_append_left _ (mem_append_right _ hr')), rfl, rfl, ?_⟩
        exact (h.outdated x hxOld).symm
    rw [append_eq_nil_iff, hinPlace, not_not]

/-- **A batch that makes the group smaller loses an updated member**, when there is one at the front. -/
theorem Shape.loss (h : Shape newDef group front old back) (hfront : front ≠ []) (hshrink : newCap < group.length) :
    (keptMembers group newCap).countP (fun r => r.defn = newDef) + 1 ≤ group.countP fun r => r.defn = newDef := by
  obtain ⟨r, front, rfl⟩ := exists_cons_of_ne_nil hfront
  have hcount := (getMembers_perm group).countP_eq fun r => decide (r.defn = newDef)
  have hhead : ∀ l : List (Member N D), (r :: l).countP (fun r => r.defn = newDef) =
      l.countP (fun r => r.defn = newDef) + 1 := fun l => by
    rw [countP_cons, if_pos (decide_eq_true (h.frontNew r mem_cons_self))]
  obtain ⟨k, hk⟩ : ∃ k, group.length - newCap = k + 1 := ⟨group.length - newCap - 1, by omega⟩
  rw [← hcount, keptMembers, h.members, cons_append, hhead, hk, drop_succ_cons]
  exact Nat.add_le_add_right ((drop_sublist k _).countP_le) 1

theorem Shape.counts (h : Shape newDef group front old back) :
    group.length = front.length + old.length + back.length ∧
      group.countP (fun r => r.defn = newDef) = front.length + back.length := by
  have hlen := (getMembers_perm group).length_eq
  have hcount := (getMembers_perm group).countP_eq fun r => decide (r.defn = newDef)
  have hfront : front.countP (fun r => r.defn = newDef) = front.length :=
    countP_eq_length.mpr fun r hr => decide_eq_true (h.frontNew r hr)
  have hback : back.countP (fun r => r.defn = newDef) = back.length :=
    countP_eq_length.mpr fun r hr => decide_eq_true (h.backNew r hr)
  have hold : old.countP (fun r => r.defn = newDef) = 0 :=
    countP_eq_zero.mpr fun r hr he => h.outdated r hr (of_decide_eq_true he)
  rw [h.members] at hlen hcount
  rw [length_append, length_append] at hlen
  rw [countP_append, countP_append, hfront, hback, hold] at hcount
  omega

end Step

/-! ## 6. All batches -/

section Run

variable {capacity c updated batchSize minInService n : ℕ} {newDef : D} {group final : List (Member N D)}
  {batch : ℕ × ℕ} {batches : List (ℕ × ℕ)} {trace : Trace N D}

theorem getBatches_nil (h : getBatches capacity batchSize minInService n c updated = some []) : capacity ≤ updated ∧ c = capacity := by
  have hneeds : needsUpdate capacity c updated = false := by
    cases n with
    | zero =>
      rw [getBatches] at h
      split at h
      case isTrue => cases h
      case isFalse hneeds => exact Bool.not_eq_true _ ▸ hneeds
    | succ n =>
      rw [getBatches] at h
      split at h
      case isTrue =>
        obtain ⟨_, -, hrest⟩ := Option.bind_eq_some_iff.mp h
        obtain ⟨_, -, hcons⟩ := Option.map_eq_some_iff.mp hrest
        cases hcons
      case isFalse hneeds => exact Bool.not_eq_true _ ▸ hneeds
  rw [needsUpdate, Bool.not_eq_false', decide_eq_true_iff] at hneeds
  omega

theorem getBatches_cons (h : getBatches capacity batchSize minInService n c updated = some (batch :: batches)) :
    nextBatch capacity c updated batchSize minInService = some batch ∧
      ∃ n, getBatches capacity batchSize minInService n batch.1 (updated + batch.2) = some batches := by
  cases n with
  | zero =>
    rw [getBatches] at h
    split at h <;> cases h
  | succ n =>
    rw [getBatches] at h
    split at h
    case isTrue =>
      obtain ⟨batch', hbatch, hrest⟩ := Option.bind_eq_some_iff.mp h
      obtain ⟨batches', hbatches, hcons⟩ := Option.map_eq_some_iff.mp hrest
      obtain ⟨rfl, rfl⟩ := List.cons.inj hcons
      exact ⟨hbatch, n, hbatches⟩
    case isFalse => cases h

/-- A bound for the batches that are left. -/
def left (capacity c updated : ℕ) : ℕ := 2 * (capacity - updated) + if c = capacity then 0 else 1

theorem left_next {newCap totalNew : ℕ} (hbatchSize : 1 ≤ batchSize) (hc : capacity ≤ c)
    (hneeds : needsUpdate capacity c updated = true)
    (h : nextBatch capacity c updated batchSize minInService = some (newCap, totalNew)) :
    left capacity newCap (updated + totalNew) < left capacity c updated := by
  obtain ⟨h1, h2⟩ := nextBatch_surplus hc h
  have hleast : min minInService capacity ≤ capacity := Nat.min_le_right _ _
  rw [needsUpdate, Bool.not_eq_true', decide_eq_false_iff_not] at hneeds
  generalize min minInService capacity = least at h2 hleast
  unfold left
  split_ifs <;> omega

/-- **There is an end of the batches, and no assertion before it.** -/
theorem getBatches_some (capacity minInService : ℕ) (hbatchSize : 1 ≤ batchSize) (k : ℕ) :
    ∀ c updated, capacity ≤ c → updated ≤ capacity → left capacity c updated ≤ k →
      ∃ batches, ∀ n ≥ k, getBatches capacity batchSize minInService n c updated = some batches := by
  induction k with
  | zero =>
    intro c updated hc hle hk
    have hneeds : needsUpdate capacity c updated = false := by
      have hend : updated ≥ c ∧ c = capacity := by
        unfold left at hk
        split_ifs at hk <;> omega
      rw [needsUpdate, decide_eq_true hend]
      rfl
    refine ⟨[], fun n _ => ?_⟩
    cases n <;> rw [getBatches, hneeds] <;> rfl
  | succ k ih =>
    intro c updated hc hle hk
    by_cases hneeds : needsUpdate capacity c updated = true
    · obtain ⟨⟨newCap, totalNew⟩, hbatch⟩ : ∃ batch, nextBatch capacity c updated batchSize minInService = some batch := by
        unfold nextBatch
        rw [if_pos (by omega)]
        exact ⟨_, rfl⟩
      have hless := left_next hbatchSize hc hneeds hbatch
      obtain ⟨hc', -, -, hle'⟩ := nextBatch_room hc hle hbatch
      obtain ⟨batches, hrun⟩ := ih newCap _ hc' hle' (by omega)
      refine ⟨(newCap, totalNew) :: batches, fun n hn => ?_⟩
      obtain ⟨n, rfl⟩ : ∃ n', n = n' + 1 := ⟨n - 1, by omega⟩
      rw [getBatches, if_pos hneeds, hbatch, Option.bind_some, hrun n (by omega)]
      rfl
    · refine ⟨[], fun n _ => ?_⟩
      cases n <;> rw [getBatches, if_neg hneeds]

/-- What is planned is done, whatever the choices are: the minimum is left alone, the group has its capacity at the
end, and a batch does not give the new definition to more members than it has. -/
theorem Rolled.counts (hrolled : Rolled newDef group batches trace final) (hpos : 0 < capacity) :
    ∀ n c updated, getBatches capacity batchSize minInService n c updated = some batches → capacity ≤ c →
      updated ≤ capacity → (group.map Member.name).Nodup → group.length = c →
      final.length = capacity ∧ (∀ p ∈ trace, min minInService capacity ≤ (p.1.filter (· ∈ p.2)).length) ∧
        final.countP (fun r => r.defn = newDef) ≤ group.countP (fun r => r.defn = newDef) + (capacity - updated) := by
  induction hrolled with
  | done group =>
    intro n c updated hrun hc hle hnames hlen
    exact ⟨hlen.trans (getBatches_nil hrun).2, nofun, Nat.le_add_right _ _⟩
  | @batch group group' final batch batches inPlace trace happlied _ ih =>
    intro n c updated hrun hc hle hnames hlen
    obtain ⟨newCap, totalNew⟩ := batch
    obtain ⟨hbatch, n', hrest⟩ := getBatches_cons hrun
    obtain ⟨hc', hservice, hroom, hle'⟩ := nextBatch_room hc hle hbatch
    have hpos' : 0 < newCap := Nat.lt_of_lt_of_le hpos hc'
    rw [← hlen] at hroom
    obtain ⟨hfinal, hall, hcount⟩ := ih n' newCap _ hrest hc' hle' (happlied.names hpos' hnames)
      (happlied.length hpos' hnames)
    refine ⟨hfinal, forall_mem_cons.mpr ⟨hservice.trans (happlied.inService hpos' hnames hroom), hall⟩, ?_⟩
    have hstep := happlied.count hpos' hnames hroom
    have hkept : (keptMembers group newCap).countP (fun r => r.defn = newDef) ≤ group.countP fun r => r.defn = newDef :=
      ((drop_sublist _ _).countP_le).trans_eq ((getMembers_perm group).countP_eq _)
    omega

/-- **All members are updated exactly when none that was changed in place is lost**, from any batch on. -/
theorem Shape.complete_iff (hrolled : Rolled newDef group batches trace final) (hpos : 0 < capacity) :
    ∀ n c updated front old back, getBatches capacity batchSize minInService n c updated = some batches → capacity ≤ c →
      updated ≤ capacity → (group.map Member.name).Nodup → group.length = c → Shape newDef group front old back →
      front.length + back.length = updated →
      ((∀ r ∈ final, r.defn = newDef) ↔ (front = [] ∨ ∀ p ∈ trace, ¬ Shrinks p) ∧
        trace.Pairwise fun p q => Shrinks q → ¬ ChangedInPlace p) := by
  induction hrolled with
  | done group =>
    intro n c updated front old back hrun hc hle hnames hlen hshape hupdated
    refine iff_of_true (fun r hr => ?_) ⟨Or.inr nofun, List.Pairwise.nil⟩
    obtain ⟨hend, hcap⟩ := getBatches_nil hrun
    have hold : old = [] := length_eq_zero_iff.mp (by have := hshape.counts.1; omega)
    have hmem := (getMembers_perm group).mem_iff.mpr hr
    rw [hshape.members, hold, nil_append, mem_append] at hmem
    exact hmem.elim (hshape.frontNew r) (hshape.backNew r)
  | @batch group group' final batch batches inPlace trace happlied hrest ih =>
    intro n c updated front old back hrun hc hle hnames hlen hshape hupdated
    obtain ⟨newCap, totalNew⟩ := batch
    obtain ⟨hbatch, n', hrun'⟩ := getBatches_cons hrun
    obtain ⟨hc', -, hroom, hle'⟩ := nextBatch_room hc hle hbatch
    have hpos' : 0 < newCap := Nat.lt_of_lt_of_le hpos hc'
    have hnames' := happlied.names hpos' hnames
    have hlen' := happlied.length hpos' hnames
    obtain ⟨hsize, hnew⟩ := hshape.counts
    have hshrinks : Shrinks (group, group') ↔ newCap < group.length := by rw [← hlen']; rfl
    rw [forall_mem_cons, pairwise_cons, hshrinks]
    by_cases hfront : newCap < group.length → front = []
    · obtain ⟨front', old', back', hshape', hupdated', hfront'⟩ :=
        hshape.next hpos' hnames hfront (by omega) (by omega) happlied
      rw [ih n' newCap _ front' old' back' hrun' hc' hle' hnames' hlen' hshape' (by omega), hfront']
      by_cases hall : ∀ p ∈ trace, ¬ Shrinks p
      · have hbefore : ∀ q ∈ trace, Shrinks q → ¬ ChangedInPlace (group, group') := fun q hq h => absurd h (hall q hq)
        have hempty : front = [] ∨ ¬ newCap < group.length := (Classical.em _).imp_left hfront
        constructor
        · intro h
          exact ⟨hempty.imp_right fun hnot => ⟨hnot, hall⟩, hbefore, h.2⟩
        · intro h
          exact ⟨Or.inr hall, h.2.2⟩
      · have hlater : (∀ q ∈ trace, Shrinks q → ¬ ChangedInPlace (group, group')) ↔ ¬ ChangedInPlace (group, group') := by
          push Not at hall
          obtain ⟨q, hq, hshrinks⟩ := hall
          exact ⟨fun h => h q hq hshrinks, fun h _ _ _ => h⟩
        rw [hlater]
        constructor
        · intro h
          obtain ⟨hempty, hkept⟩ := h.1.resolve_right hall
          exact ⟨Or.inl hempty, hkept, h.2⟩
        · intro h
          have hempty : front = [] := h.1.resolve_right fun hnot => hall hnot.2
          exact ⟨Or.inl ⟨hempty, h.2.1⟩, h.2.2⟩
    · -- one more is lost than the batches that are left can make up for
      obtain ⟨hlt, hne⟩ := Classical.not_imp.mp hfront
      refine iff_of_false (fun hall => ?_) fun h => h.1.elim hne fun h => h.1 hlt
      obtain ⟨hfinal, -, hcount⟩ := hrest.counts hpos n' newCap _ hrun' hc' hle' hnames' hlen'
      have hloss := hshape.loss hne hlt
      have hstep := happlied.count hpos' hnames (by omega)
      rw [countP_eq_length.mpr fun r hr => decide_eq_true (hall r hr)] at hcount
      omega

/-- A plan that has room for a batch within the capacity makes no surplus. -/
theorem Rolled.not_shrinks (hrolled : Rolled newDef group batches trace final) (hpos : 0 < capacity)
    (hroom : min batchSize capacity + min minInService capacity ≤ capacity) :
    ∀ n updated, getBatches capacity batchSize minInService n capacity updated = some batches → updated ≤ capacity →
      (group.map Member.name).Nodup → group.length = capacity → ∀ p ∈ trace, ¬ Shrinks p := by
  induction hrolled with
  | done group => exact fun _ _ _ _ _ _ => nofun
  | @batch group group' final batch batches inPlace trace happlied _ ih =>
    intro n updated hrun hle hnames hlen
    obtain ⟨newCap, totalNew⟩ := batch
    obtain ⟨hbatch, n', hrest⟩ := getBatches_cons hrun
    obtain ⟨-, -, -, hle'⟩ := nextBatch_room le_rfl hle hbatch
    obtain ⟨h1, h2⟩ := nextBatch_surplus le_rfl hbatch
    obtain rfl : newCap = capacity := by omega
    have hlen' := happlied.length hpos hnames
    refine forall_mem_cons.mpr ⟨fun hlt => ?_, ih n' _ hrest hle' (happlied.names hpos hnames) hlen'⟩
    exact absurd (show group'.length < group.length from hlt) (by omega)

/-- **The rolling update of a group of instances.** There is an end of the batches. In every run that follows them the
group has its capacity at the end, the minimum is left alone and all members have the new definition, exactly when no
batch that changes a member in place is followed by one that makes the group smaller. -/
theorem replace_complete_iff (newDef : D) (minInService : ℕ) (hbatchSize : 1 ≤ batchSize) (hnames : (group.map Member.name).Nodup)
    (hold : ∀ r ∈ group, r.defn ≠ newDef) :
    ∃ turns batches,
      (∀ n ≥ turns, getBatches group.length batchSize minInService n group.length 0 = some batches) ∧
      ∀ trace final, Rolled newDef group batches trace final →
        ((final.length = group.length ∧ (∀ r ∈ final, r.defn = newDef) ∧
            ∀ p ∈ trace, min minInService group.length ≤ (p.1.filter (· ∈ p.2)).length) ↔
          trace.Pairwise fun p q => Shrinks q → ¬ ChangedInPlace p) := by
  obtain ⟨batches, hrun⟩ := getBatches_some group.length minInService hbatchSize
    (left group.length group.length 0) group.length 0 le_rfl (Nat.zero_le _) le_rfl
  refine ⟨_, batches, hrun, fun trace final hrolled => ?_⟩
  rcases Nat.eq_zero_or_pos group.length with hzero | hpos
  · obtain rfl := length_eq_zero_iff.mp hzero
    have hnil := hrun 1 (Nat.zero_le 1)
    obtain rfl : [] = batches := by
      have hrun' : getBatches 0 batchSize minInService 1 0 0 = some [] := by
        unfold getBatches
        exact if_neg (by decide)
      exact Option.some.inj (hrun'.symm.trans hnil)
    cases hrolled
    exact iff_of_true ⟨rfl, nofun, nofun⟩ List.Pairwise.nil
  · have hrun := hrun _ le_rfl
    obtain ⟨hfinal, hservice, -⟩ := hrolled.counts hpos _ _ _ hrun le_rfl (Nat.zero_le _) hnames rfl
    have hshape : Shape newDef group [] (getMembers group) [] := by
      refine ⟨by rw [nil_append, append_nil], nofun, fun r hr => ?_, nofun, fun _ _ => nofun⟩
      exact hold r ((getMembers_perm group).mem_iff.mp hr)
    have hiff := Shape.complete_iff hrolled hpos _ _ _ [] _ [] hrun le_rfl (Nat.zero_le _) hnames rfl hshape rfl
    constructor
    · exact fun h => (hiff.mp h.2.1).2
    · exact fun h => ⟨hfinal, hiff.mpr ⟨Or.inl rfl, h⟩, hservice⟩

/-- Two members that are changed one at a time. -/
theorem replace_complete_iff_two :
    ∃ turns batches,
      (∀ n ≥ turns, getBatches 2 1 2 n 2 0 = some batches) ∧
      ∀ trace final, Rolled 1 [(⟨0, 0, 0⟩ : Member ℕ ℕ), ⟨1, 1, 0⟩] batches trace final →
        ((final.length = 2 ∧ (∀ r ∈ final, r.defn = 1) ∧
            ∀ p ∈ trace, min 2 2 ≤ (p.1.filter (· ∈ p.2)).length) ↔
          trace.Pairwise fun p q => Shrinks q → ¬ ChangedInPlace p) := by
  have hnames : ([(⟨0, 0, 0⟩ : Member ℕ ℕ), ⟨1, 1, 0⟩].map Member.name).Nodup := by decide
  exact replace_complete_iff 1 2 le_rfl hnames (by decide)

/-- Both are to stay in service, and so a third is created. The first member is changed in
    place, and goes when the third is one too many. -/
theorem replace_incomplete :
    getBatches 2 1 2 3 2 0 = some [(3, 1), (3, 1), (2, 0)] ∧
      ∃ trace final, Rolled 1 [(⟨0, 0, 0⟩ : Member ℕ ℕ), ⟨1, 1, 0⟩] [(3, 1), (3, 1), (2, 0)] trace final ∧
        ¬ ∀ r ∈ final, r.defn = 1 := by
  refine ⟨by decide, ?_⟩
  have hcreate : Applied 1 [(⟨0, 0, 0⟩ : Member ℕ ℕ), ⟨1, 1, 0⟩] (3, 1) (fun _ => true)
      [⟨0, 0, 0⟩, ⟨1, 1, 0⟩, ⟨2, 2, 1⟩] :=
    ⟨fun _ => 2, [2], by simp, by decide, by decide, by decide, Perm.of_eq (by decide)⟩
  have hchange : Applied 1 [(⟨0, 0, 0⟩ : Member ℕ ℕ), ⟨1, 1, 0⟩, ⟨2, 2, 1⟩] (3, 1) (fun _ => true)
      [⟨0, 0, 1⟩, ⟨1, 1, 0⟩, ⟨2, 2, 1⟩] :=
    ⟨fun _ => 3, [], by simp, by decide, by decide, by decide, Perm.of_eq (by decide)⟩
  have hremove : Applied 1 [(⟨0, 0, 1⟩ : Member ℕ ℕ), ⟨1, 1, 0⟩, ⟨2, 2, 1⟩] (2, 0) (fun _ => true)
      [⟨1, 1, 0⟩, ⟨2, 2, 1⟩] :=
    ⟨fun _ => 3, [], by simp, by decide, by decide, by decide, Perm.of_eq (by decide)⟩
  exact ⟨_, _, .batch hcreate (.batch hchange (.batch hremove (.done _))), by decide⟩

end Run

end Mitaka.Heat.InstanceGroup
