/-
  Subject: heat/engine/resources/openstack/heat/resource_group.py, the batches of a
           rolling update and the templates that are made of them.

  The planner counts sizes and updated members; a template is made by priority, from the
  members that are there. **They stay in step** (`InStep`): the members are always the
  first names, and of those below the target the ones at the end are updated. A member
  beyond the target has any definition, and goes before the end.

  Members have no failures; what the definition of a resource is made of is left out.
-/
import Mitaka.Heat.RollingUpdate
import Mitaka.Lib.Dict
import Mitaka.Lib.Numeral

namespace Mitaka.Heat

open Numeral List

/-! ## 1. Names -/

/-- The name of a member. -/
abbrev Name := List Char

/-- `six.text_type` of a number. -/
def text (i : ℕ) : Name := Nat.toDigits 10 i

/-- `_resource_names`. The blacklist takes away at most as many candidates as it has names. -/
def resourceNames (nameBlacklist : List Name) (size : ℕ) : List Name :=
  (((List.range (size + nameBlacklist.length)).map text).filter (· ∉ nameBlacklist)).take size

/-- The names in their order. -/
def nameAt (nameBlacklist : List Name) (i : ℕ) : Name := (resourceNames nameBlacklist (i + 1))[i]?.getD []

theorem text_injective : Function.Injective text := fun m n h => by
  have hm := readNat_toDigits (b := 10) (by decide) (by decide) m
  rw [show Nat.toDigits 10 m = Nat.toDigits 10 n from h, readNat_toDigits (by decide) (by decide)] at hm
  exact (Option.some.inj hm).symm

section Names

variable (nameBlacklist : List Name)

/-- The candidates that are left of some. -/
def candidates (n : ℕ) : List Name := ((List.range n).map text).filter (· ∉ nameBlacklist)

theorem candidates_nodup (n : ℕ) : (candidates nameBlacklist n).Nodup :=
  (nodup_range.map text_injective).filter _

theorem candidates_prefix {m n : ℕ} (h : m ≤ n) : candidates nameBlacklist m <+: candidates nameBlacklist n := by
  obtain ⟨k, rfl⟩ := Nat.exists_eq_add_of_le h
  refine ⟨(((List.range k).map (m + ·)).map text).filter (· ∉ nameBlacklist), ?_⟩
  rw [candidates, candidates, range_add, map_append, filter_append]

/-- At least as many are left as are not taken away. -/
theorem le_length_candidates (n : ℕ) : n ≤ (candidates nameBlacklist (n + nameBlacklist.length)).length := by
  have hsplit := length_eq_length_filter_add
    (l := (List.range (n + nameBlacklist.length)).map text) (fun name => decide (name ∉ nameBlacklist))
  have htaken : (((List.range (n + nameBlacklist.length)).map text).filter
      fun name => !decide (name ∉ nameBlacklist)).length ≤ nameBlacklist.length := by
    refine (subperm_of_subset ((nodup_range.map text_injective).filter _) fun name hname => ?_).length_le
    simpa using (mem_filter.mp hname).2
  rw [length_map, length_range] at hsplit
  have hlen : (candidates nameBlacklist (n + nameBlacklist.length)).length =
      (((List.range (n + nameBlacklist.length)).map text).filter fun name => decide (name ∉ nameBlacklist)).length := rfl
  omega

theorem getElem?_resourceNames {i size : ℕ} (h : i < size) :
    (resourceNames nameBlacklist size)[i]? = some (nameAt nameBlacklist i) := by
  have hlen := le_length_candidates nameBlacklist (i + 1)
  have hget : ∀ s, i < s → (resourceNames nameBlacklist s)[i]? =
      (candidates nameBlacklist (i + 1 + nameBlacklist.length))[i]? := fun s hs => by
    obtain ⟨rest, hrest⟩ : candidates nameBlacklist (i + 1 + nameBlacklist.length) <+: candidates nameBlacklist (s + nameBlacklist.length) :=
      candidates_prefix nameBlacklist (Nat.add_le_add_right hs nameBlacklist.length)
    have htake : (resourceNames nameBlacklist s)[i]? = (candidates nameBlacklist (s + nameBlacklist.length))[i]? :=
      getElem?_take_of_lt hs
    rw [htake, ← hrest, getElem?_append_left (by omega)]
  rw [nameAt, hget size h, hget (i + 1) (Nat.lt_succ_self i), getElem?_eq_getElem (by omega), Option.getD_some]

/-- **The names of a size are the first names.** -/
theorem resourceNames_eq (size : ℕ) : resourceNames nameBlacklist size = (List.range size).map (nameAt nameBlacklist) := by
  refine ext_getElem? fun i => ?_
  by_cases h : i < size
  · rw [getElem?_resourceNames nameBlacklist h, getElem?_map, getElem?_range h, Option.map_some]
  · have hlen : (resourceNames nameBlacklist size).length ≤ size := length_take_le _ _
    rw [getElem?_eq_none (by omega), getElem?_eq_none (by rw [length_map, length_range]; omega)]

theorem nameAt_notMem (i : ℕ) : nameAt nameBlacklist i ∉ nameBlacklist := by
  have hmem := mem_of_getElem? (getElem?_resourceNames nameBlacklist (Nat.lt_succ_self i))
  simpa using (mem_filter.mp (mem_of_mem_take hmem)).2

theorem nameAt_injective : Function.Injective (nameAt nameBlacklist) := by
  intro i j h
  have hnodup : (resourceNames nameBlacklist (max i j + 1)).Nodup :=
    (candidates_nodup nameBlacklist _).sublist (take_sublist _ _)
  have hi := getElem?_resourceNames nameBlacklist (Nat.lt_succ_of_le (le_max_left i j))
  have hj := getElem?_resourceNames nameBlacklist (Nat.lt_succ_of_le (le_max_right i j))
  rw [h] at hi
  exact (getElem?_inj (List.getElem?_eq_some_iff.mp hi).1 hnodup).mp (hi.trans hj.symm)

theorem idxOf?_resourceNames (i size : ℕ) :
    (resourceNames nameBlacklist size).idxOf? (nameAt nameBlacklist i) = if i < size then some i else none := by
  rw [resourceNames_eq]
  by_cases h : i < size
  · rw [if_pos h, idxOf?_eq_some_iff]
    refine ⟨by rw [length_map, length_range]; exact h, ?_, fun j hj => ?_⟩
    · rw [getElem_map, getElem_range]
    · rw [getElem_map, getElem_range]
      exact fun heq => hj.ne (nameAt_injective nameBlacklist heq)
  · rw [if_neg h, idxOf?_eq_none_iff]
    intro hmem
    obtain ⟨j, hj, heq⟩ := List.mem_map.mp hmem
    rw [nameAt_injective nameBlacklist heq, mem_range] at hj
    exact h hj

end Names

/-! ## 2. Templates -/

section Template

variable {D : Type} [DecidableEq D] (nameBlacklist : List Name) (custom : Name → D)

/-- `replace_priority`; a name that is not among `names` goes first. -/
def replacePriority (names : List Name) (targCap totalCapacity : ℕ) (x : Name × D) : ℕ :=
  match names.idxOf? x.1 with
  | none => 0
  | some index => if index < targCap then targCap - index else totalCapacity

/-- `_assemble_for_rolling_update`, for the members in the order of their creation. -/
def assembleForRollingUpdate (targCap : ℕ) (members : List (Name × D)) (totalCapacity maxUpdates : ℕ) :
    List (Name × D) :=
  let names := resourceNames nameBlacklist totalCapacity
  let validResources := members.filter (·.1 ∉ nameBlacklist)
  let oldResources := validResources.insertionSort fun a b =>
    replacePriority names targCap totalCapacity a ≤ replacePriority names targCap totalCapacity b
  let newNames := names.filter (· ∉ validResources.map Prod.fst)
  memberDefinitions custom oldResources totalCapacity maxUpdates newNames

/-- `_get_batches`, for a number of turns; none is the assertion of `next_batch`, or that
    there are turns left. -/
def getBatches (targCap batchSize minInService : ℕ) : ℕ → ℕ → ℕ → Option (List (ℕ × ℕ))
  | 0, currCap, updated => if needsUpdate targCap currCap updated then none else some []
  | turns + 1, currCap, updated =>
    if needsUpdate targCap currCap updated then
      (nextBatch targCap currCap updated batchSize minInService).bind fun batch =>
        (getBatches targCap batchSize minInService turns batch.1
          (updated + batch.2 - (batch.1 - max currCap targCap))).map (batch :: ·)
    else some []

/-- The batches one after the other, with the members before and after each. Members are
    listed in any order. -/
inductive Rolled (targCap : ℕ) : List (Name × D) → List (ℕ × ℕ) → List (List (Name × D) × List (Name × D)) →
    List (Name × D) → Prop
  | done (members : List (Name × D)) : Rolled targCap members [] [] members
  | batch {members members' final : List (Name × D)} {batch : ℕ × ℕ} {batches : List (ℕ × ℕ)}
      {trace : List (List (Name × D) × List (Name × D))} :
      members'.Perm (assembleForRollingUpdate nameBlacklist custom targCap members batch.1 batch.2) →
      Rolled targCap members' batches trace final →
      Rolled targCap members (batch :: batches) ((members, members') :: trace) final

end Template

/-! ## 3. Sorted lists -/

/-- A list that is sorted is cut where a property ends. -/
theorem eq_filter_append_filter {α : Type} {R : α → α → Prop} {p : α → Bool} {l : List α} (h : l.Pairwise R)
    (hp : ∀ a ∈ l, ∀ b ∈ l, p a = false → p b = true → ¬ R a b) : l = l.filter p ++ l.filter fun a => !p a := by
  induction l with
  | nil => rfl
  | cons a l ih =>
    obtain ⟨ha, hl⟩ := pairwise_cons.mp h
    have ih := ih hl fun x hx y hy => hp x (mem_cons_of_mem _ hx) y (mem_cons_of_mem _ hy)
    cases hpa : p a with
    | true => rw [filter_cons_of_pos hpa, filter_cons_of_neg (by simp [hpa]), cons_append, ← ih]
    | false =>
      have hnil : l.filter p = [] := filter_eq_nil_iff.mpr fun b hb hpb =>
        hp a mem_cons_self b (mem_cons_of_mem _ hb) hpa hpb (ha b hb)
      rw [hnil, nil_append] at ih
      rw [filter_cons_of_neg (by simp [hpa]), filter_cons_of_pos (by simp [hpa]), hnil, nil_append, ← ih]

/-! ## 4. One template -/

section Step

variable {D : Type} [DecidableEq D] {nameBlacklist : List Name} {custom : Name → D}

/-- A member with its definition. -/
def memberAt (nameBlacklist : List Name) (s : ℕ → D) (i : ℕ) : Name × D := (nameAt nameBlacklist i, s i)

omit [DecidableEq D] in
theorem memberAt_injective (s : ℕ → D) : Function.Injective (memberAt nameBlacklist s) := fun _ _ h =>
  nameAt_injective nameBlacklist (Prod.mk.inj h).1

omit [DecidableEq D] in
theorem replacePriority_memberAt (s : ℕ → D) (targ size i : ℕ) :
    replacePriority (resourceNames nameBlacklist size) targ size (memberAt nameBlacklist s i) =
      if i < size then (if i < targ then targ - i else size) else 0 := by
  rw [replacePriority, memberAt, idxOf?_resourceNames]
  by_cases h : i < size
  · rw [if_pos h, if_pos h]
  · rw [if_neg h, if_neg h]

variable {s : ℕ → D}

omit [DecidableEq D] in
/-- What a property of the indices leaves of the first members. -/
theorem filter_members {l : List (Name × D)} {c : ℕ}
    (h : l.Perm ((List.range c).map (memberAt nameBlacklist s))) {p : Name × D → Bool} {q : ℕ → Bool}
    (hpq : ∀ i < c, p (memberAt nameBlacklist s i) = q i) :
    (l.filter p).Perm (((List.range c).filter q).map (memberAt nameBlacklist s)) := by
  refine (h.filter p).trans (Perm.of_eq ?_)
  rw [List.filter_map]
  refine congrArg _ (filter_congr fun i hi => ?_)
  exact hpq i (mem_range.mp hi)

theorem length_filter_le (c size : ℕ) : ((List.range c).filter fun i => size ≤ i).length = c - size := by
  induction c with
  | zero => rw [Nat.zero_sub]; rfl
  | succ c ih =>
    rw [range_succ, filter_append, length_append, ih]
    by_cases h : size ≤ c
    · have hlast : ([c].filter fun i => size ≤ i) = [c] := by simp [h]
      rw [hlast, length_singleton]
      omega
    · have hlast : ([c].filter fun i => size ≤ i) = [] := by simp [h]
      rw [hlast, length_nil]
      omega

omit [DecidableEq D] in
/-- **The order of replacement.** What is beyond the new size goes first, then the members below the target follow
from the last to the first, and the others are at the end. -/
theorem sorted_members {members : List (Name × D)} {targ c size : ℕ} (hsize : min targ c ≤ size)
    (h : members.Perm ((List.range c).map (memberAt nameBlacklist s))) :
    ∃ dropped outer : List (Name × D),
      members.insertionSort (fun a b => replacePriority (resourceNames nameBlacklist size) targ size a ≤
        replacePriority (resourceNames nameBlacklist size) targ size b) =
        dropped ++ ((List.range (min targ c)).reverse.map (memberAt nameBlacklist s) ++ outer) ∧
      dropped.length = c - size ∧
      outer.Perm (((List.range (min c size)).filter fun i => min targ c ≤ i).map (memberAt nameBlacklist s)) := by
  obtain ⟨key, hkey⟩ : ∃ key, key = fun x : Name × D => replacePriority (resourceNames nameBlacklist size) targ size x :=
    ⟨_, rfl⟩
  have hkeyAt : ∀ i, key (memberAt nameBlacklist s i) = if i < size then (if i < targ then targ - i else size) else 0 :=
    fun i => by
      rw [hkey]
      exact replacePriority_memberAt s targ size i
  -- only what is beyond the new size has the priority zero
  have hzero : ∀ i, key (memberAt nameBlacklist s i) = 0 ↔ size ≤ i := fun i => by
    rw [hkeyAt]
    split_ifs <;> omega
  have : Std.Total fun a b : Name × D => key a ≤ key b := ⟨fun a b => le_total (key a) (key b)⟩
  have : IsTrans (Name × D) fun a b => key a ≤ key b := ⟨fun _ _ _ h h' => h.trans h'⟩
  obtain ⟨sorted, hsorted⟩ : ∃ sorted, sorted = members.insertionSort fun a b => key a ≤ key b := ⟨_, rfl⟩
  have hpair : sorted.Pairwise fun a b => key a ≤ key b := by
    rw [hsorted]
    exact pairwise_insertionSort _ _
  have hperm : sorted.Perm ((List.range c).map (memberAt nameBlacklist s)) := by
    rw [hsorted]
    exact (perm_insertionSort _ _).trans h
  have hmem : ∀ x ∈ sorted, ∃ i < c, memberAt nameBlacklist s i = x := fun x hx => by
    obtain ⟨i, hi, rfl⟩ := List.mem_map.mp (hperm.mem_iff.mp hx)
    exact ⟨i, mem_range.mp hi, rfl⟩
  obtain ⟨kept, hkept⟩ : ∃ kept, kept = sorted.filter fun x => !decide (key x = 0) := ⟨_, rfl⟩
  have hcut : sorted = (sorted.filter fun x => key x = 0) ++ kept := by
    rw [hkept]
    refine eq_filter_append_filter hpair fun a _ b _ ha hb hle => ?_
    rw [decide_eq_false_iff_not] at ha
    rw [decide_eq_true_iff] at hb
    omega
  have hkeptMem : ∀ x ∈ kept, ∃ i, i < c ∧ i < size ∧ memberAt nameBlacklist s i = x := fun x hx => by
    rw [hkept, mem_filter, Bool.not_eq_true', decide_eq_false_iff_not] at hx
    obtain ⟨i, hi, rfl⟩ := hmem x hx.1
    exact ⟨i, hi, not_le.mp ((hzero i).not.mp hx.2), rfl⟩
  have hkeptPair : kept.Pairwise fun a b => key a ≤ key b := by
    rw [hkept]
    exact hpair.filter _
  obtain ⟨below, hbelow⟩ : ∃ below : Name × D → Bool, ∀ i < size, below (memberAt nameBlacklist s i) = decide (i < targ) := by
    refine ⟨fun x => ((resourceNames nameBlacklist size).idxOf? x.1).any (· < targ), fun i hi => ?_⟩
    show (((resourceNames nameBlacklist size).idxOf? (nameAt nameBlacklist i)).any fun j => decide (j < targ)) = _
    rw [idxOf?_resourceNames, if_pos hi]
    rfl
  have hcut' : kept = (kept.filter below) ++ kept.filter fun x => !below x := by
    refine eq_filter_append_filter hkeptPair fun a ha b hb hpa hpb hle => ?_
    obtain ⟨i, -, his, rfl⟩ := hkeptMem a ha
    obtain ⟨j, -, hjs, rfl⟩ := hkeptMem b hb
    rw [hbelow i his, decide_eq_false_iff_not] at hpa
    rw [hbelow j hjs, decide_eq_true_iff] at hpb
    rw [hkeyAt, hkeyAt, if_pos his, if_neg hpa, if_pos hjs, if_pos hpb] at hle
    omega
  have hkeptPerm : kept.Perm (((List.range c).filter fun i => !decide (size ≤ i)).map (memberAt nameBlacklist s)) := by
    rw [hkept]
    exact filter_members hperm fun i _ => congrArg (! ·) (decide_eq_decide.mpr (hzero i))
  have hinner : kept.filter below = (List.range (min targ c)).reverse.map (memberAt nameBlacklist s) := by
    refine Perm.eq_of_pairwise ?_ (hkeptPair.filter _) ?_ ?_
    · intro a b ha hb hab hba
      obtain ⟨i, -, his, rfl⟩ := hkeptMem a (mem_of_mem_filter ha)
      rw [List.mem_map] at hb
      obtain ⟨j, hj, rfl⟩ := hb
      rw [mem_reverse, mem_range] at hj
      have hi := (mem_filter.mp ha).2
      rw [hbelow i his, decide_eq_true_iff] at hi
      rw [hkeyAt, hkeyAt, if_pos his, if_pos hi, if_pos (by omega), if_pos (by omega)] at hab hba
      exact congrArg _ (by omega)
    · rw [pairwise_map, pairwise_reverse]
      refine List.Pairwise.imp_of_mem (fun {i j} hi hj hij => ?_) pairwise_lt_range
      rw [mem_range] at hi hj
      rw [hkeyAt, hkeyAt, if_pos (by omega), if_pos (by omega), if_pos (by omega), if_pos (by omega)]
      omega
    · refine (hkeptPerm.filter below).trans ?_
      rw [List.filter_map]
      refine Perm.map _ ((perm_ext_iff_of_nodup ((nodup_range.filter _).filter _)
        (nodup_reverse.mpr nodup_range)).mpr fun i => ?_)
      rw [mem_filter, mem_filter, mem_reverse, mem_range, mem_range]
      by_cases his : i < size
      · simp only [Function.comp_apply, hbelow i his]
        simp only [Bool.not_eq_true', decide_eq_false_iff_not, decide_eq_true_eq]
        omega
      · simp only [Bool.not_eq_true', decide_eq_false_iff_not]
        omega
  refine ⟨sorted.filter fun x => key x = 0, kept.filter fun x => !below x, ?_, ?_, ?_⟩
  · rw [← hinner, ← hcut', ← hcut, hsorted, hkey]
  · have hdropped : (sorted.filter fun x => key x = 0).Perm
        (((List.range c).filter fun i => size ≤ i).map (memberAt nameBlacklist s)) :=
      filter_members hperm fun i _ => decide_eq_decide.mpr (hzero i)
    rw [hdropped.length_eq, length_map, length_filter_le]
  · refine (hkeptPerm.filter _).trans ?_
    rw [List.filter_map]
    refine Perm.map _ ((perm_ext_iff_of_nodup ((nodup_range.filter _).filter _)
      (nodup_range.filter _)).mpr fun i => ?_)
    rw [mem_filter, mem_filter, mem_filter, mem_range, mem_range]
    by_cases his : i < size
    · simp only [Function.comp_apply, hbelow i his]
      simp only [Bool.not_eq_true', decide_eq_false_iff_not, decide_eq_true_eq]
      omega
    · simp only [Bool.not_eq_true', decide_eq_false_iff_not]
      omega

/-- The definitions after a template: the members of an interval are updated, and so are the created ones. -/
def updateAt (nameBlacklist : List Name) (custom : Name → D) (s : ℕ → D) (first last c i : ℕ) : D :=
  if (first ≤ i ∧ i < last) ∨ c ≤ i then custom (nameAt nameBlacklist i) else s i

/-- The members are the first names, and the last of those below the target are updated. -/
structure InStep (nameBlacklist : List Name) (custom : Name → D) (targ c updated : ℕ) (s : ℕ → D)
    (members : List (Name × D)) : Prop where
  perm : members.Perm ((List.range c).map (memberAt nameBlacklist s))
  le : updated ≤ min targ c
  updated : ∀ i < min targ c, (s i = custom (nameAt nameBlacklist i) ↔ min targ c - updated ≤ i)

/-- The loop over the members that are kept, whose last ones below the target are updated. -/
theorem replaceLoop_members {k updated r : ℕ} (hr : r + updated ≤ k)
    (h : ∀ i < k, (s i = custom (nameAt nameBlacklist i) ↔ k - updated ≤ i)) (outer : List (Name × D)) {c : ℕ} (hc : k ≤ c) :
    replaceLoop custom ((List.range k).reverse.map (memberAt nameBlacklist s) ++ outer) r =
      (List.range k).reverse.map
        (memberAt nameBlacklist (updateAt nameBlacklist custom s (k - updated - r) (k - updated) c)) ++ outer := by
  obtain ⟨a, rfl⟩ : ∃ a, k = a + r + updated := ⟨k - updated - r, by omega⟩
  have hrange : (List.range (a + r + updated)).reverse = ((List.range updated).map (a + r + ·)).reverse ++
      (((List.range r).map (a + ·)).reverse ++ (List.range a).reverse) := by
    rw [range_add, range_add, reverse_append, reverse_append]
  have hsub : a + r + updated - updated - r = a ∧ a + r + updated - updated = a + r := by omega
  rw [hrange, hsub.1, hsub.2]
  rw [hsub.2] at h
  simp only [map_append, append_assoc]
  have hupper : ∀ x ∈ ((List.range updated).map (a + r + ·)).reverse.map (memberAt nameBlacklist s), ¬ Outdated custom x := by
    intro x hx
    obtain ⟨i, hi, rfl⟩ := List.mem_map.mp hx
    obtain ⟨j, hj, rfl⟩ := List.mem_map.mp (mem_reverse.mp hi)
    rw [mem_range] at hj
    exact not_not.mpr ((h (a + r + j) (by omega)).mpr (by omega))
  have hmiddle : ∀ x ∈ ((List.range r).map (a + ·)).reverse.map (memberAt nameBlacklist s), Outdated custom x := by
    intro x hx
    obtain ⟨i, hi, rfl⟩ := List.mem_map.mp hx
    obtain ⟨j, hj, rfl⟩ := List.mem_map.mp (mem_reverse.mp hi)
    rw [mem_range] at hj
    exact (h (a + j) (by omega)).not.mpr (by omega)
  have hlen : (((List.range r).map (a + ·)).reverse.map (memberAt nameBlacklist s)).length + 0 = r := by
    rw [length_map, length_reverse, length_map, length_range, Nat.add_zero]
  have hloop := replaceLoop_outdated hmiddle ((List.range a).reverse.map (memberAt nameBlacklist s) ++ outer) 0
  rw [hlen, replaceLoop_zero, List.map_map] at hloop
  rw [replaceLoop_updated hupper, hloop]
  have hsame : ∀ i, i < a ∨ a + r ≤ i → i < c → memberAt nameBlacklist s i =
      memberAt nameBlacklist (updateAt nameBlacklist custom s a (a + r) c) i := fun i hi hic => by
    rw [memberAt, memberAt, updateAt, if_neg (by omega)]
  congr 1
  · refine map_congr_left fun i hi => ?_
    obtain ⟨j, hj, rfl⟩ := List.mem_map.mp (mem_reverse.mp hi)
    rw [mem_range] at hj
    exact hsame _ (Or.inr (by omega)) (by omega)
  congr 1
  · refine map_congr_left fun i hi => ?_
    obtain ⟨j, hj, rfl⟩ := List.mem_map.mp (mem_reverse.mp hi)
    rw [mem_range] at hj
    rw [Function.comp_apply, memberAt, memberAt, updateAt, if_pos (Or.inl (by omega))]
  congr 1
  refine map_congr_left fun i hi => ?_
  rw [mem_reverse, mem_range] at hi
  exact hsame i (Or.inl hi) (by omega)

/-- **What a template makes of the members**, when its replacements do not reach beyond the target. -/
theorem assembleForRollingUpdate_perm {members : List (Name × D)} {targ c updated size maxUpdates : ℕ}
    (h : InStep nameBlacklist custom targ c updated s members) (hsize : min targ c ≤ size)
    (hupdates : maxUpdates - (size - c) + updated ≤ min targ c) :
    (assembleForRollingUpdate nameBlacklist custom targ members size maxUpdates).Perm
      ((List.range size).map (memberAt nameBlacklist
        (updateAt nameBlacklist custom s (min targ c - updated - (maxUpdates - (size - c))) (min targ c - updated) c))) := by
  obtain ⟨s', hs'⟩ : ∃ s', s' =
      updateAt nameBlacklist custom s (min targ c - updated - (maxUpdates - (size - c))) (min targ c - updated) c := ⟨_, rfl⟩
  have hnames : ∀ x ∈ members, ∃ i < c, nameAt nameBlacklist i = x.1 := fun x hx => by
    obtain ⟨i, hi, rfl⟩ := List.mem_map.mp (h.perm.mem_iff.mp hx)
    exact ⟨i, mem_range.mp hi, rfl⟩
  have hvalid : members.filter (fun x => decide (x.1 ∉ nameBlacklist)) = members := by
    refine filter_eq_self.mpr fun x hx => decide_eq_true ?_
    obtain ⟨i, -, hi⟩ := hnames x hx
    exact hi ▸ nameAt_notMem nameBlacklist i
  -- the names that are new
  have hnew : (resourceNames nameBlacklist size).filter (fun name => decide (name ∉ members.map Prod.fst)) =
      ((List.range size).filter fun i => c ≤ i).map (nameAt nameBlacklist) := by
    rw [resourceNames_eq, List.filter_map]
    refine congrArg _ (filter_congr fun i _ => decide_eq_decide.mpr ?_)
    rw [List.mem_map, ← not_lt, not_iff_not]
    constructor
    · rintro ⟨x, hx, hname⟩
      obtain ⟨j, hj, hj'⟩ := hnames x hx
      exact nameAt_injective nameBlacklist (hj'.trans hname) ▸ hj
    · exact fun hi => ⟨_, h.perm.mem_iff.mpr (List.mem_map_of_mem (mem_range.mpr hi)), rfl⟩
  unfold assembleForRollingUpdate
  dsimp only
  rw [hvalid, hnew, ← hs']
  rcases Nat.eq_zero_or_pos size with rfl | hpos
  · rw [memberDefinitions_zero]
    exact List.Perm.refl _
  obtain ⟨dropped, outer, hsorted, hdropped, houter⟩ := sorted_members hsize h.perm
  have hlen : ((List.range (min targ c)).reverse.map (memberAt nameBlacklist s) ++ outer).length = min c size := by
    have hle := houter.length_eq
    rw [length_map, length_filter_le] at hle
    rw [length_append, length_map, length_reverse, length_range, hle]
    omega
  rw [hsorted, memberDefinitions_append hpos (by rw [hlen]; omega) (by rw [hlen]; omega), hlen,
    show size - min c size = size - c by omega, replaceLoop_members hupdates h.updated outer (Nat.min_le_right _ _), ← hs']
  have hcreated : ((((List.range size).filter fun i => c ≤ i).map (nameAt nameBlacklist)).take (size - c)).map
      (fun name => (name, custom name)) = ((List.range size).filter fun i => c ≤ i).map (memberAt nameBlacklist s') := by
    rw [take_of_length_le (by rw [length_map, length_filter_le]), List.map_map]
    refine map_congr_left fun i hi => ?_
    rw [mem_filter, decide_eq_true_iff] at hi
    rw [Function.comp_apply, memberAt, hs', updateAt, if_pos (Or.inr hi.2)]
  have houter' : outer.Perm (((List.range (min c size)).filter fun i => min targ c ≤ i).map (memberAt nameBlacklist s')) := by
    refine houter.trans (Perm.of_eq (map_congr_left fun i hi => ?_))
    rw [mem_filter, mem_range, decide_eq_true_iff] at hi
    rw [memberAt, memberAt, hs', updateAt, if_neg (by omega)]
  rw [hcreated]
  refine ((List.Perm.refl _).append houter').append (List.Perm.refl _) |>.trans ?_
  rw [← map_append, ← map_append]
  refine Perm.map _ ((perm_ext_iff_of_nodup ?_ nodup_range).mpr fun i => ?_)
  · refine nodup_append.mpr ⟨nodup_append.mpr ⟨nodup_reverse.mpr nodup_range,
      nodup_range.filter _, fun a ha b hb => ?_⟩, nodup_range.filter _, fun a ha b hb => ?_⟩
    · rw [mem_reverse, mem_range] at ha
      rw [mem_filter, decide_eq_true_iff] at hb
      omega
    · rw [mem_append, mem_reverse, mem_range, mem_filter, mem_range] at ha
      rw [mem_filter, decide_eq_true_iff] at hb
      omega
  · rw [mem_append, mem_append, mem_reverse, mem_range, mem_filter, mem_range,
      mem_filter, mem_range, decide_eq_true_iff, decide_eq_true_iff]
    omega

end Step

/-! ## 5. One batch -/

section Batch

variable {D : Type} [DecidableEq D] {nameBlacklist : List Name} {custom : Name → D}
  {targ c updated batchSize minInService newCap totalNew : ℕ}

/-- What is asked of a batch: what is changed or created has the new definition, not more than the batch size is, and
the minimum is left alone. -/
structure BatchOk (custom : Name → D) (targ batchSize minInService : ℕ) (before after : List (Name × D)) : Prop where
  new : ∀ x ∈ after, x ∉ before → x.2 = custom x.1
  size : (after.filter (· ∉ before)).length ≤ batchSize
  inService : min (min minInService targ) before.length ≤ (before.filter (· ∈ after)).length

/-- A batch that does not reach the target only creates members; after the others there are at least as many members as
the target, and more only for the minimum in service. -/
theorem nextBatch_cases (h : nextBatch targ c updated batchSize minInService = some (newCap, totalNew)) :
    totalNew ≤ batchSize ∧ totalNew ≤ targ - updated ∧
      ((c + totalNew ≤ targ ∧ newCap = c + totalNew) ∨
        (targ < c + totalNew ∧ targ ≤ newCap ∧ totalNew + min (min minInService targ) c ≤ newCap ∧
          (newCap = targ ∨ newCap = totalNew + min (min minInService targ) c))) := by
  obtain ⟨h1, h2⟩ := nextBatch_spec h
  have hleast : min (min minInService targ) c ≤ c := Nat.min_le_right _ _
  generalize min (min minInService targ) c = least at h2 hleast ⊢
  refine ⟨by omega, by omega, ?_⟩
  rcases Nat.lt_or_ge targ (c + totalNew) with hlt | hge
  · exact Or.inr ⟨hlt, by omega, by omega, by omega⟩
  · exact Or.inl ⟨hge, by omega⟩

/-- What is planned: the members that change, where the updated ones begin afterwards, and what is left alone. -/
theorem nextBatch_counts (hle : updated ≤ min targ c)
    (h : nextBatch targ c updated batchSize minInService = some (newCap, totalNew)) :
    (newCap - c ≤ totalNew ∧ totalNew ≤ batchSize) ∧ updated + totalNew - (newCap - max c targ) ≤ min targ newCap ∧
      min targ newCap - (updated + totalNew - (newCap - max c targ)) = min targ c - updated - (totalNew - (newCap - c)) ∧
      min (min minInService targ) c ≤ min c newCap - (totalNew - (newCap - c)) := by
  obtain ⟨hsize, htotal, hcases⟩ := nextBatch_cases h
  obtain ⟨hleTarg, hleCurr⟩ := le_min_iff.mp hle
  have hleastTarg : min (min minInService targ) c ≤ targ := (Nat.min_le_left _ _).trans (Nat.min_le_right _ _)
  have hleastCurr : min (min minInService targ) c ≤ c := Nat.min_le_right _ _
  generalize min (min minInService targ) c = least at hcases hleastTarg hleastCurr ⊢
  clear hle
  -- each size is compared before the arithmetic
  rcases hcases with ⟨hreach, rfl⟩ | ⟨hreach, htarg, hleastCap, hcap⟩
  · rw [max_eq_right (show c ≤ targ by omega), min_eq_right (show c ≤ targ by omega),
      min_eq_right (show c + totalNew ≤ targ from hreach), min_eq_left (Nat.le_add_right c totalNew),
      Nat.sub_eq_zero_of_le hreach, Nat.add_sub_cancel_left]
    omega
  rw [min_eq_left htarg]
  have hcreated : newCap - c ≤ totalNew := by omega
  rcases Nat.le_total c targ with hle | hle
  · rw [max_eq_right hle, min_eq_right hle, min_eq_left (hle.trans htarg)]
    refine ⟨⟨hcreated, hsize⟩, ?_, ?_, ?_⟩ <;> omega
  · rw [max_eq_left hle, min_eq_left hle]
    refine ⟨⟨hcreated, hsize⟩, ?_, ?_, ?_⟩ <;> omega

/-- The planned replacements do not reach beyond the target. -/
theorem nextBatch_reach (hle : updated ≤ min targ c)
    (h : nextBatch targ c updated batchSize minInService = some (newCap, totalNew)) :
    min targ c ≤ newCap ∧ totalNew - (newCap - c) + updated ≤ min targ c := by
  obtain ⟨-, htotal, hcases⟩ := nextBatch_cases h
  generalize min (min minInService targ) c = least at hcases
  omega

/-- **The planner and the members stay in step.** -/
theorem InStep.next {s : ℕ → D} {members members' : List (Name × D)} (h : InStep nameBlacklist custom targ c updated s members)
    (hbatch : nextBatch targ c updated batchSize minInService = some (newCap, totalNew))
    (hperm : members'.Perm (assembleForRollingUpdate nameBlacklist custom targ members newCap totalNew)) :
    ∃ s', InStep nameBlacklist custom targ newCap (updated + totalNew - (newCap - max c targ)) s' members' ∧
      BatchOk custom targ batchSize minInService members members' := by
  obtain ⟨hsize, hupdates⟩ := nextBatch_reach h.le hbatch
  obtain ⟨⟨hcreated, hbatchSize⟩, hle', hbegin, hservice⟩ := nextBatch_counts h.le hbatch
  have hperm' := hperm.trans (assembleForRollingUpdate_perm h hsize hupdates)
  obtain ⟨last, hlast⟩ : ∃ last, last = min targ c - updated := ⟨_, rfl⟩
  obtain ⟨first, hfirst⟩ : ∃ first, first = last - (totalNew - (newCap - c)) := ⟨_, rfl⟩
  rw [← hlast, ← hfirst] at hperm' hbegin
  have hupdated := h.updated
  rw [← hlast] at hupdated
  have hfirstLast : first ≤ last := hfirst ▸ Nat.sub_le _ _
  have hlastCurr : last ≤ c := hlast ▸ (Nat.sub_le _ _).trans (Nat.min_le_right _ _)
  have hwidth : last - first ≤ totalNew - (newCap - c) := by
    rw [hfirst]
    exact tsub_tsub_le
  clear hbatch hsize hupdates hlast hfirst
  -- a member is as it was outside of the interval
  have hsame : ∀ i < c, ¬ (first ≤ i ∧ i < last) → memberAt nameBlacklist (updateAt nameBlacklist custom s first last c) i =
      memberAt nameBlacklist s i := fun i hi hout => by
    rw [memberAt, memberAt, updateAt, if_neg (by omega)]
  have hmem : ∀ x, x ∈ members ↔ ∃ i < c, memberAt nameBlacklist s i = x := fun x => by
    rw [h.perm.mem_iff, List.mem_map]
    simp only [mem_range]
  have hmem' : ∀ x, x ∈ members' ↔
      ∃ i < newCap, memberAt nameBlacklist (updateAt nameBlacklist custom s first last c) i = x := fun x => by
    rw [hperm'.mem_iff, List.mem_map]
    simp only [mem_range]
  have hchanged : ∀ x ∈ members', x ∉ members → ∃ i < newCap, ((first ≤ i ∧ i < last) ∨ c ≤ i) ∧
      memberAt nameBlacklist (updateAt nameBlacklist custom s first last c) i = x := fun x hx hx' => by
    obtain ⟨i, hi, rfl⟩ := (hmem' x).mp hx
    refine ⟨i, hi, ?_, rfl⟩
    by_contra hout
    rw [not_or, not_le] at hout
    exact hx' ((hmem _).mpr ⟨i, hout.2, (hsame i hout.2 hout.1).symm⟩)
  refine ⟨_, ⟨hperm', hle', fun i hi => ?_⟩, fun x hx hx' => ?_, ?_, ?_⟩
  · rw [hbegin]
    unfold updateAt
    by_cases hin : (first ≤ i ∧ i < last) ∨ c ≤ i
    · rw [if_pos hin]
      exact iff_of_true rfl (hin.elim And.left fun hic => (hfirstLast.trans hlastCurr).trans hic)
    · rw [not_or, not_le] at hin
      rw [if_neg (not_or.mpr ⟨hin.1, not_le.mpr hin.2⟩), hupdated i (lt_min (hi.trans_le (Nat.min_le_left _ _)) hin.2)]
      exact ⟨hfirstLast.trans, fun hle => not_lt.mp fun hlt => hin.1 ⟨hle, hlt⟩⟩
  · obtain ⟨i, -, hin, rfl⟩ := hchanged x hx hx'
    rw [memberAt, updateAt, if_pos hin]
  · have hnodup : members'.Nodup := hperm'.nodup_iff.mpr (nodup_range.map (memberAt_injective _))
    have hsub : members'.filter (fun x => decide (x ∉ members)) ⊆
        ((range' first (last - first) ++ range' c (newCap - c)).map
          (memberAt nameBlacklist (updateAt nameBlacklist custom s first last c))) := fun x hx => by
      rw [mem_filter, decide_eq_true_iff] at hx
      obtain ⟨i, hi, hin, rfl⟩ := hchanged x hx.1 hx.2
      refine List.mem_map_of_mem (mem_append.mpr ?_)
      rw [mem_range'_1, mem_range'_1, Nat.add_sub_cancel' hfirstLast]
      exact hin.imp id fun hic => ⟨hic, by rwa [Nat.add_sub_cancel' (hic.trans hi.le)]⟩
    have hlen := (subperm_of_subset (hnodup.filter _) hsub).length_le
    rw [length_map, length_append, length_range', length_range'] at hlen
    calc (members'.filter (fun x => decide (x ∉ members))).length
      _ ≤ (last - first) + (newCap - c) := hlen
      _ ≤ (totalNew - (newCap - c)) + (newCap - c) := Nat.add_le_add_right hwidth _
      _ = totalNew := Nat.sub_add_cancel hcreated
      _ ≤ batchSize := hbatchSize
  · have hlength : members.length = c := by rw [h.perm.length_eq, length_map, length_range]
    have hleast : min c newCap ≤ c ∧ min c newCap ≤ newCap := ⟨Nat.min_le_left _ _, Nat.min_le_right _ _⟩
    have hfirstCap : first ≤ newCap := hbegin ▸ (Nat.sub_le _ _).trans (Nat.min_le_right _ _)
    rw [hlength]
    clear hle' hbegin hcreated hbatchSize hlength
    generalize min (min minInService targ) c = least at hservice ⊢
    generalize min c newCap = common at hservice hleast
    have hnodup : ((range' 0 first ++ range' last (common - last)).map (memberAt nameBlacklist s)).Nodup := by
      refine List.Nodup.map (memberAt_injective s) (nodup_append.mpr ⟨nodup_range', nodup_range', ?_⟩)
      intro a ha b hb
      rw [mem_range'_1] at ha hb
      omega
    have hsub : ((range' 0 first ++ range' last (common - last)).map (memberAt nameBlacklist s)) ⊆
        members.filter (fun x => decide (x ∈ members')) := fun x hx => by
      obtain ⟨i, hi, rfl⟩ := List.mem_map.mp hx
      rw [mem_append, mem_range'_1, mem_range'_1] at hi
      rw [mem_filter, decide_eq_true_iff]
      exact ⟨(hmem _).mpr ⟨i, by omega, rfl⟩, (hmem' _).mpr ⟨i, by omega, hsame i (by omega) (by omega)⟩⟩
    have hlen := (subperm_of_subset hnodup hsub).length_le
    rw [length_map, length_append, length_range', length_range'] at hlen
    omega

/-! ## 6. All batches -/

/-- A bound for the batches that are left. -/
def remaining (targ c updated : ℕ) : ℕ :=
  if updated = targ then (if c = targ then 0 else 1) else 2 * (targ - updated) + 2 + if c ≤ targ then 1 else 0

theorem remaining_le (targ c updated : ℕ) : remaining targ c updated ≤ 2 * (targ - updated) + 3 := by
  unfold remaining
  split_ifs <;> omega

/-- With more members than the target there is one batch less. -/
theorem remaining_le_of_lt (hlt : targ < c) (updated : ℕ) : remaining targ c updated ≤ 2 * (targ - updated) + 2 := by
  unfold remaining
  rw [if_neg (show ¬ c ≤ targ by omega)]
  split_ifs <;> omega

theorem remaining_of_lt (hlt : updated < targ) (c : ℕ) :
    remaining targ c updated = 2 * (targ - updated) + 2 + if c ≤ targ then 1 else 0 := by
  unfold remaining
  rw [if_neg hlt.ne]

theorem remaining_next (hbatchSize : 1 ≤ batchSize) (hle : updated ≤ min targ c)
    (hneeds : needsUpdate targ c updated = true)
    (h : nextBatch targ c updated batchSize minInService = some (newCap, totalNew)) :
    remaining targ newCap (updated + totalNew - (newCap - max c targ)) < remaining targ c updated := by
  have hneeds : ¬ (updated ≥ c ∧ c = targ) := by
    rw [needsUpdate, Bool.not_eq_true', decide_eq_false_iff_not] at hneeds
    exact hneeds
  obtain ⟨hleTarg, hleCurr⟩ := le_min_iff.mp hle
  obtain ⟨-, htotal, hcases⟩ := nextBatch_cases h
  have hleastTarg : min (min minInService targ) c ≤ targ := (Nat.min_le_left _ _).trans (Nat.min_le_right _ _)
  have hleastCurr : min (min minInService targ) c ≤ c := Nat.min_le_right _ _
  generalize min (min minInService targ) c = least at hcases hleastTarg hleastCurr
  rcases hleTarg.lt_or_eq with hlt | rfl
  · -- some members are not updated
    have hpos : 1 ≤ totalNew := (nextBatch_spec h).1 ▸ le_min hbatchSize (Nat.sub_pos_of_lt hlt)
    clear h hle hneeds
    rw [remaining_of_lt hlt c]
    have hless := remaining_le targ newCap (updated + totalNew - (newCap - max c targ))
    rcases hcases with ⟨hreach, rfl⟩ | ⟨hreach, htarg, -, rfl | rfl⟩
    · rw [max_eq_right (show c ≤ targ by omega), Nat.sub_eq_zero_of_le hreach] at hless ⊢
      omega
    · rw [Nat.sub_eq_zero_of_le (Nat.le_max_right c newCap)] at hless ⊢
      omega
    · rcases htarg.lt_or_eq with hover | heq
      · have hless := remaining_le_of_lt hover (updated + totalNew - (totalNew + least - max c targ))
        rcases Nat.lt_trichotomy c targ with hct | rfl | hct
        · rw [max_eq_right hct.le] at hless ⊢
          omega
        · rw [max_self] at hless ⊢
          rw [if_pos le_rfl]
          omega
        · rw [max_eq_left hct.le] at hless ⊢
          omega
      · rw [← heq, Nat.sub_eq_zero_of_le (Nat.le_max_right c targ)] at hless ⊢
        omega
  · -- all are updated, and the size is another one
    obtain ⟨rfl, rfl⟩ : totalNew = 0 ∧ newCap = updated := by omega
    unfold remaining
    rw [Nat.sub_eq_zero_of_le (Nat.le_max_right c newCap), Nat.add_zero, Nat.sub_zero, if_pos rfl, if_pos rfl, if_pos rfl,
      if_neg (show c ≠ newCap from fun heq => hneeds ⟨heq.le, heq⟩)]
    exact Nat.one_pos

theorem getBatches_rolled (hbatchSize : 1 ≤ batchSize) (k : ℕ) :
    ∀ c updated, updated ≤ min targ c → remaining targ c updated ≤ k →
      ∃ batches, (∀ n ≥ k, getBatches targ batchSize minInService n c updated = some batches) ∧
        ∀ (s : ℕ → D) (members : List (Name × D)), InStep nameBlacklist custom targ c updated s members →
          ∀ trace final, Rolled nameBlacklist custom targ members batches trace final →
            (∀ p ∈ trace, BatchOk custom targ batchSize minInService p.1 p.2) ∧
              ∃ s', InStep nameBlacklist custom targ targ targ s' final := by
  induction k with
  | zero =>
    intro c updated hle hk
    have hend : updated = targ ∧ c = targ := by
      unfold remaining at hk
      split_ifs at hk <;> omega
    have hneeds : needsUpdate targ c updated = false := by
      rw [hend.1, hend.2]
      simp [needsUpdate]
    refine ⟨[], fun n _ => ?_, fun s members h trace final hrolled => ?_⟩
    · cases n <;> rw [getBatches, hneeds] <;> rfl
    · cases hrolled
      rw [hend.1, hend.2] at h
      exact ⟨nofun, s, h⟩
  | succ k ih =>
    intro c updated hle hk
    by_cases hneeds : needsUpdate targ c updated = true
    · obtain ⟨⟨newCap, totalNew⟩, hbatch⟩ : ∃ batch, nextBatch targ c updated batchSize minInService = some batch := by
        unfold nextBatch
        rw [if_pos (by omega)]
        exact ⟨_, rfl⟩
      have hless := remaining_next hbatchSize hle hneeds hbatch
      have hle' := (nextBatch_counts hle hbatch).2.1
      obtain ⟨batches, hrun, hrolled⟩ := ih newCap _ hle' (by omega)
      refine ⟨(newCap, totalNew) :: batches, fun n hn => ?_, fun s members h trace final hr => ?_⟩
      · obtain ⟨n, rfl⟩ : ∃ n', n = n' + 1 := ⟨n - 1, by omega⟩
        rw [getBatches, if_pos hneeds, hbatch, Option.bind_some, hrun n (by omega)]
        rfl
      · cases hr with
        | batch hperm hr =>
          obtain ⟨s', h', hok⟩ := h.next hbatch hperm
          obtain ⟨hall, hfinal⟩ := hrolled s' _ h' _ _ hr
          exact ⟨forall_mem_cons.mpr ⟨hok, hall⟩, hfinal⟩
    · have hend : updated = targ ∧ c = targ := by
        rw [needsUpdate, Bool.not_eq_true, Bool.not_eq_false', decide_eq_true_iff] at hneeds
        omega
      refine ⟨[], fun n _ => ?_, fun s members h trace final hr => ?_⟩
      · cases n <;> rw [getBatches, if_neg hneeds]
      · cases hr
        rw [hend.1, hend.2] at h
        exact ⟨nofun, s, h⟩

omit [DecidableEq D] in
/-- Members with the first names, none of which has the new definition, are in step. -/
theorem InStep.start {members : List (Name × D)} {current : ℕ} (targ : ℕ)
    (hnames : (members.map Prod.fst).Perm (resourceNames nameBlacklist current)) (hold : ∀ x ∈ members, x.2 ≠ custom x.1) :
    ∃ s, InStep nameBlacklist custom targ current 0 s members := by
  rw [resourceNames_eq] at hnames
  have hnodup : (members.map Prod.fst).Nodup :=
    hnames.nodup_iff.mpr (nodup_range.map (nameAt_injective nameBlacklist))
  have hex : ∀ i, ∃ d, i < current → (nameAt nameBlacklist i, d) ∈ members := fun i => by
    by_cases hi : i < current
    · obtain ⟨x, hx, hname⟩ := List.mem_map.mp (hnames.mem_iff.mpr (List.mem_map_of_mem (mem_range.mpr hi)))
      exact ⟨x.2, fun _ => hname ▸ hx⟩
    · exact ⟨custom (nameAt nameBlacklist i), fun h => absurd h hi⟩
  choose s hs using hex
  refine ⟨s, ?_, Nat.zero_le _, fun i hi => iff_of_false ?_ (by omega)⟩
  · refine (perm_ext_iff_of_nodup (Nodup.of_map _ hnodup) (nodup_range.map (memberAt_injective s))).mpr ?_
    intro x
    constructor
    · intro hx
      obtain ⟨i, hi, hname⟩ := List.mem_map.mp (hnames.mem_iff.mp (List.mem_map_of_mem hx))
      have heq : memberAt nameBlacklist s i = x :=
        inj_on_of_nodup_map hnodup (hs i (mem_range.mp hi)) hx hname
      exact heq ▸ List.mem_map_of_mem hi
    · intro hx
      obtain ⟨i, hi, rfl⟩ := List.mem_map.mp hx
      exact hs i (mem_range.mp hi)
  · exact hold _ (hs i (by omega))

/-- **The rolling update of a group.** It ends without an assertion, each batch keeps to its
    size and to the minimum in service, and the members are at last the first names with the
    new definition. -/
theorem rollingUpdate_spec {members : List (Name × D)} {current : ℕ} (targ minInService : ℕ) (hbatchSize : 1 ≤ batchSize)
    (hnames : (members.map Prod.fst).Perm (resourceNames nameBlacklist current)) (hold : ∀ x ∈ members, x.2 ≠ custom x.1) :
    ∃ turns batches, (∀ n ≥ turns, getBatches targ batchSize minInService n current 0 = some batches) ∧
      (∃ trace final, Rolled nameBlacklist custom targ members batches trace final) ∧
      ∀ trace final, Rolled nameBlacklist custom targ members batches trace final →
        (∀ p ∈ trace, BatchOk custom targ batchSize minInService p.1 p.2) ∧
          final.Perm ((resourceNames nameBlacklist targ).map fun name => (name, custom name)) := by
  obtain ⟨s, hstart⟩ := InStep.start targ hnames hold
  obtain ⟨batches, hrun, hrolled⟩ := @getBatches_rolled D _ nameBlacklist custom targ batchSize minInService hbatchSize
    (remaining targ current 0) current 0 (Nat.zero_le _) le_rfl
  refine ⟨_, batches, hrun, ?_, fun trace final hr => ?_⟩
  · clear hrun hrolled hstart hold hnames
    induction batches generalizing members with
    | nil => exact ⟨[], members, .done members⟩
    | cons batch batches ih =>
      obtain ⟨trace, final, hr⟩ := @ih (assembleForRollingUpdate nameBlacklist custom targ members batch.1 batch.2)
      exact ⟨_, final, .batch (List.Perm.refl _) hr⟩
  · obtain ⟨hall, s', hfinal⟩ := hrolled s members hstart trace final hr
    refine ⟨hall, hfinal.perm.trans (Perm.of_eq ?_)⟩
    rw [resourceNames_eq, List.map_map]
    refine map_congr_left fun i hi => ?_
    rw [mem_range] at hi
    exact Prod.ext rfl ((hfinal.updated i (by omega)).mpr (by omega))

/-- A group that grows from two members to three, with `1` on the blacklist. -/
theorem rollingUpdate_spec_grow :
    ∃ turns batches, (∀ n ≥ turns, getBatches 3 1 2 n 2 0 = some batches) ∧
      (∃ trace final, Rolled [['1']] (fun _ => 1) 3 [(['0'], 0), (['2'], 0)] batches trace final) ∧
      ∀ trace final, Rolled [['1']] (fun _ => 1) 3 [(['0'], 0), (['2'], 0)] batches trace final →
        (∀ p ∈ trace, BatchOk (fun _ => 1) 3 1 2 p.1 p.2) ∧
          final.Perm ((resourceNames [['1']] 3).map fun name => (name, 1)) :=
  rollingUpdate_spec 3 2 le_rfl (Perm.of_eq (by decide)) (by decide)

end Batch

end Mitaka.Heat
