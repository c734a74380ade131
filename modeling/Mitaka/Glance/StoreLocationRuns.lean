/-
  Subject: The runs of StoreLocations that keep list and data in step.

  Two facts carry the case analysis: a location put into the list leaves it in step, and one
  taken out does exactly if its data belongs to no other (**`inStep_removed_iff`**).
-/
import Mathlib
import Mitaka.Glance.StoreLocations

namespace Mitaka.Glance

open List Option

/-! ## 1. Items of a list -/

theorem position_natCast {n p : ℕ} (h : p < n) : position n p = some p := by
  dsimp only [position]
  rw [if_neg (Int.natCast_nonneg p).not_gt, if_pos ⟨Int.natCast_nonneg p, Int.ofNat_lt.mpr h⟩, Int.toNat_natCast]

/-- An item cuts its list in two; put back at its index, a negative one counts from a list shorter by one. -/
theorem item_cases {α : Type} (xs : List α) (i : ℤ) :
    (position xs.length i = none ∧ item xs i = none) ∨
      ∃ pre x post, xs = pre ++ x :: post ∧ position xs.length i = some pre.length ∧
        item xs i = some (pre.length, x) ∧
        insertPosition (pre ++ post).length i = if 0 ≤ i then pre.length else pre.length - 1 := by
  rcases hp : position xs.length i with _ | p
  · left
    refine ⟨rfl, ?_⟩
    rw [item, hp, bind_none]
  · right
    have hrange : (p : ℤ) = (if i < 0 then xs.length + i else i) ∧ p < xs.length := by
      dsimp only [position] at hp
      rw [ite_none_right_eq_some, Option.some.injEq] at hp
      omega
    have hcut : xs = xs.take p ++ xs[p] :: xs.drop (p + 1) := by
      rw [getElem_cons_drop, take_append_drop]
    have hlen : (xs.take p).length = p := length_take_of_le hrange.2.le
    refine ⟨xs.take p, xs[p], xs.drop (p + 1), hcut, ?_, ?_, ?_⟩
    · rw [hlen]
    · rw [item, hp, bind_some, getElem?_eq_getElem hrange.2, hlen]
      rfl
    · rw [insertPosition, length_append, length_drop, hlen]
      obtain ⟨hi, hlt⟩ := hrange
      split_ifs at * <;> omega

section Cut

variable {α : Type} (pre post : List α) (x y : α)

theorem eraseIdx_cut : (pre ++ x :: post).eraseIdx pre.length = pre ++ post := by
  rw [eraseIdx_append_of_length_le le_rfl, Nat.sub_self, eraseIdx_cons_zero]

theorem set_cut : (pre ++ x :: post).set pre.length y = pre ++ y :: post := by
  rw [set_append_right _ _ le_rfl, Nat.sub_self, set_cons_zero]

theorem insertIdx_cut : (pre ++ post).insertIdx pre.length x = pre ++ x :: post := by
  induction pre with
  | nil => rw [nil_append, length_nil, insertIdx_zero, nil_append]
  | cons y pre ih => rw [cons_append, length_cons, insertIdx_succ_cons, ih, cons_append]

end Cut

variable {υ μ : Type} [DecidableEq υ] [DecidableEq μ]

theorem countDuplicatedLocations_pos {locations : List (Location υ μ)} {new : Location υ μ} :
    countDuplicatedLocations locations new > 0 ↔ new.key ∈ locations.map Location.key := by
  unfold countDuplicatedLocations
  rw [gt_iff_lt, countP_pos_iff, List.mem_map]
  refine exists_congr fun loc => and_congr_right fun _ => ?_
  rw [decide_eq_true_eq, Location.key, Location.key, Prod.mk.injEq]

namespace StoreLocations

variable {s s' : StoreLocations υ μ} {location old : Location υ μ} {a : Answer} {i : ℤ}
  {pre post gone rest : List (Location υ μ)}

/-! ## 2. Lists in step -/

omit [DecidableEq μ] in
theorem InStep.unchanged (h : s.InStep) : Unchanged s s := by
  unfold Unchanged
  exact (filter_eq_self.mpr fun location hl => decide_eq_true (h.stored location hl)).symm

omit [DecidableEq μ] in
theorem InStep.keeps (h : s.InStep) (e : Option (Error υ)) : Keeps s (s, e) := ⟨h, fun _ => h.unchanged⟩

omit [DecidableEq υ] [DecidableEq μ] in
theorem InStep.size (h : s.InStep) (size : ℕ) : InStep { s with size } := ⟨h.nodup, h.stored, h.left, h.held⟩

omit [DecidableEq υ] [DecidableEq μ] in
/-- The locations of a list in step differ. -/
theorem InStep.value_nodup (h : s.InStep) : s.value.Nodup := Nodup.of_map Location.key h.nodup

omit [DecidableEq υ] [DecidableEq μ] in
/-- **A location taken out** together with its data leaves the list in step exactly if the data is no other's. -/
theorem inStep_removed_iff (h : s.InStep) (hs : s.value = pre ++ gone ++ post) (hs' : s'.value = pre ++ post)
    (hd : ∀ u, u ∈ s'.deleted ↔ u ∈ gone.map Location.url ∨ u ∈ s.deleted) (hh : s'.held = s.held) :
    s'.InStep ↔ ∀ g ∈ gone, ∀ l ∈ pre ++ post, l.url ≠ g.url := by
  have hsub : (pre ++ post).Sublist s.value := by
    rw [hs, append_assoc]
    exact (sublist_append_right gone post).append_left pre
  have hkeys : s'.keys = (pre ++ post).map Location.key := congrArg _ hs'
  constructor
  · intro h' g hg l hl heq
    exact h'.stored l (hs' ▸ hl) ((hd _).mpr (Or.inl (heq ▸ List.mem_map_of_mem hg)))
  · intro hown
    refine ⟨?_, fun l hl hdel => ?_, fun key hkey => ?_, fun key hkey => ?_⟩
    · rw [hkeys]
      exact h.nodup.sublist (hsub.map _)
    · rw [hs'] at hl
      rcases (hd _).mp hdel with hgone | hdel
      · obtain ⟨g, hg, heq⟩ := List.mem_map.mp hgone
        exact hown g hg l hl heq.symm
      · exact h.stored l (hsub.mem hl) hdel
    · rw [hd, hkeys]
      rcases h.left key (hh ▸ hkey) with hin | hdel
      · obtain ⟨l, hl, rfl⟩ := List.mem_map.mp hin
        rw [hs, append_assoc, mem_append, mem_append] at hl
        rcases hl with hl | hl | hl
        · exact Or.inl (List.mem_map_of_mem (mem_append_left _ hl))
        · exact Or.inr (Or.inl (List.mem_map_of_mem hl))
        · exact Or.inl (List.mem_map_of_mem (mem_append_right _ hl))
      · exact Or.inr (Or.inr hdel)
    · rw [hkeys] at hkey
      rw [hh]
      exact h.held ((hsub.map _).mem hkey)

omit [DecidableEq μ] in
/-- What is taken out with its data does not count as a change. -/
theorem InStep.unchanged_removed (h' : s'.InStep) (hs : s.value = pre ++ gone ++ post) (hs' : s'.value = pre ++ post)
    (hd : ∀ g ∈ gone, g.url ∈ s'.deleted) : Unchanged s s' := by
  have hstay : ∀ l ∈ pre ++ post, l.url ∉ s'.deleted := fun l hl => h'.stored l (hs' ▸ hl)
  have hpre : pre.filter (fun l => l.url ∉ s'.deleted) = pre :=
    filter_eq_self.mpr fun l hl => decide_eq_true (hstay l (mem_append_left _ hl))
  have hpost : post.filter (fun l => l.url ∉ s'.deleted) = post :=
    filter_eq_self.mpr fun l hl => decide_eq_true (hstay l (mem_append_right _ hl))
  have hgone : gone.filter (fun l => l.url ∉ s'.deleted) = [] :=
    filter_eq_nil_iff.mpr fun g hg h => (of_decide_eq_true h) (hd g hg)
  unfold Unchanged
  rw [hs, hs', filter_append, filter_append, hpre, hgone, hpost, append_nil]

omit [DecidableEq υ] [DecidableEq μ] in
/-- Among locations that differ, only those before and after it are others. -/
theorem InStep.alone_iff (h : s.InStep) (hs : s.value = pre ++ location :: post) :
    s.Alone location ↔ ∀ g ∈ [location], ∀ l ∈ pre ++ post, l.url ≠ g.url := by
  have hnot : location ∉ pre ++ post := by
    have hnodup := h.value_nodup
    rw [hs] at hnodup
    exact (nodup_cons.mp (nodup_middle.mp hnodup)).1
  have hmem : ∀ l, l ∈ s.value ↔ l = location ∨ l ∈ pre ++ post := by
    intro l
    rw [hs, mem_append, mem_cons, mem_append]
    tauto
  unfold Alone
  constructor
  · intro halone g hg l hl heq
    rw [mem_singleton.mp hg] at heq
    exact hnot (halone l ((hmem l).mpr (Or.inr hl)) heq ▸ hl)
  · intro hown other hother heq
    rcases (hmem other).mp hother with rfl | hl
    · rfl
    · exact absurd heq (hown location (mem_singleton.mpr rfl) other hl)

/-! ## 3. Locations put in -/

/-- The list with the new location at place `p`. -/
def inserted (s : StoreLocations υ μ) (p : ℕ) (location : Location υ μ) : StoreLocations υ μ :=
  { s with
    value := s.value.insertIdx p { location with status := .active }
    held := location.key :: s.held }

omit [DecidableEq υ] [DecidableEq μ] in
/-- What the size is read as does not depend on the list. -/
theorem setImageSize_cases (s : StoreLocations υ μ) (a : Answer) :
    (s.SizeRaises a ∧ s.setImageSize a = (s, some .backend)) ∨
      (¬ s.SizeRaises a ∧ ∃ size, s.setImageSize a = ({ s with size }, none) ∧
        ∀ as, SizesRead s.size (a :: as) ↔ SizesRead size as) := by
  unfold SizeRaises setImageSize
  by_cases hsize : s.size = 0
  · rw [if_pos hsize]
    rcases ha : a.size with _ | size
    · exact Or.inl ⟨⟨hsize, rfl⟩, rfl⟩
    · refine Or.inr ⟨nofun, size, rfl, fun as => ?_⟩
      simp [SizesRead, hsize, ha]
  · rw [if_neg hsize]
    refine Or.inr ⟨fun h => hsize h.1, s.size, rfl, fun as => ?_⟩
    cases as with
    | nil => simp [SizesRead, hsize]
    | cons b as => simp [SizesRead, hsize]

omit [DecidableEq υ] [DecidableEq μ] in
theorem keys_insertIdx {p : ℕ} (hp : p ≤ s.value.length) :
    (s.inserted p location).keys.Perm (location.key :: s.keys) :=
  (perm_insertIdx _ s.value hp).map Location.key

omit [DecidableEq μ] in
theorem url_notMem_of_check (hc : s.checkImageLocation location a = none) : location.url ∉ s.deleted := by
  unfold checkImageLocation at hc
  split at hc
  · next h => exact h.2
  · cases hc

omit [DecidableEq μ] in
/-- **A location put in** leaves the list in step. -/
theorem InStep.inserted (h : s.InStep) (hr : ¬ s.Refused location a) {p : ℕ} (hp : p ≤ s.value.length) :
    (s.inserted p location).InStep := by
  obtain ⟨hc, hkey⟩ := not_or.mp hr
  have hperm : (s.inserted p location).keys.Perm (location.key :: s.keys) := keys_insertIdx hp
  refine ⟨?_, fun l hl => ?_, fun key hk => ?_, fun key hk => ?_⟩
  · exact hperm.nodup_iff.mpr (nodup_cons.mpr ⟨hkey, h.nodup⟩)
  · rcases eq_or_mem_of_mem_insertIdx hl with rfl | hl
    · exact url_notMem_of_check (not_not.mp hc)
    · exact h.stored l hl
  · rw [hperm.mem_iff]
    rcases mem_cons.mp hk with rfl | hk
    · exact Or.inl mem_cons_self
    · exact (h.left key hk).imp_left (mem_cons_of_mem _)
  · rcases mem_cons.mp (hperm.mem_iff.mp hk) with rfl | hk
    · exact mem_cons_self
    · exact mem_cons_of_mem _ (h.held hk)

/-- **`insert`** leaves the list when the location is refused, and else puts it in before it asks for the size. -/
theorem insert_cases (s : StoreLocations υ μ) (i : ℤ) (location : Location υ μ) (a : Answer) :
    (s.Refused location a ∧ ∃ e, s.insert i location a = (s, some e)) ∨
      (¬ s.Refused location a ∧ ∃ p ≤ s.value.length,
        s.insert i location a = (s.inserted p location).setImageSize a) := by
  unfold Refused insert
  rcases hc : s.checkImageLocation location a with _ | e
  · by_cases hkey : location.key ∈ s.keys
    · refine Or.inl ⟨Or.inr hkey, .duplicateLocation location.url, ?_⟩
      exact if_pos (countDuplicatedLocations_pos.mpr hkey)
    · refine Or.inr ⟨fun h => h.elim (fun h => h rfl) hkey, insertPosition s.value.length i, min_le_left _ _, ?_⟩
      exact if_neg fun h => hkey (countDuplicatedLocations_pos.mp h)
  · exact Or.inl ⟨Or.inl (some_ne_none e), e, rfl⟩

omit [DecidableEq μ] in
/-- A list that grew is not as it was. -/
theorem not_unchanged_of_length (h : s.value.length < s'.value.length) : ¬ Unchanged s s' := by
  intro hu
  have hle := List.length_filter_le (fun l : Location υ μ => decide (l.url ∉ s'.deleted)) s.value
  rw [← hu] at hle
  omega

theorem keeps_insert_iff (h : s.InStep) (i : ℤ) (location : Location υ μ) (a : Answer) :
    Keeps s (s.insert i location a) ↔ s.Refused location a ∨ ¬ s.SizeRaises a := by
  rcases insert_cases s i location a with ⟨hr, e, heq⟩ | ⟨hr, p, hp, heq⟩
  · rw [heq]
    exact iff_of_true (h.keeps _) (Or.inl hr)
  · have hin := h.inserted hr hp
    rw [heq, or_iff_right hr]
    rcases setImageSize_cases (s.inserted p location) a with ⟨hsize, hset⟩ | ⟨hsize, size, hset, -⟩
    · rw [hset]
      refine iff_of_false (fun hk => ?_) (not_not.mpr hsize)
      refine not_unchanged_of_length ?_ (hk.2 (some_ne_none _))
      change s.value.length < (s.value.insertIdx p _).length
      rw [length_insertIdx_of_le_length hp]
      exact Nat.lt_succ_self _
    · rw [hset]
      exact iff_of_true ⟨hin.size size, fun hne => absurd rfl hne⟩ hsize

/-- **`extend`** keeps the list in step; it raises unless all can be appended. -/
theorem InStep.extend (h : s.InStep) (other : List (Location υ μ × Answer)) :
    (s.extend other).1.InStep ∧ s.value.length ≤ (s.extend other).1.value.length ∧
      ((s.extend other).2 = none ↔ s.AllTaken other) := by
  induction other generalizing s with
  | nil =>
    refine ⟨h, le_rfl, iff_of_true rfl ⟨nofun, ?_, trivial⟩⟩
    rw [map_nil, append_nil]
    exact h.nodup
  | cons p other ih =>
    obtain ⟨location, a⟩ := p
    rw [StoreLocations.extend, append]
    rcases insert_cases s s.value.length location a with ⟨hr, e, heq⟩ | ⟨hr, p, hp, heq⟩
    · rw [heq]
      refine ⟨h, le_rfl, iff_of_false (some_ne_none e) fun ht => ?_⟩
      rcases hr with hc | hkey
      · exact hc (ht.1 _ mem_cons_self)
      · exact disjoint_of_nodup_append ht.2.1 hkey mem_cons_self
    · have hin := h.inserted hr hp
      have hlen : s.value.length ≤ (s.inserted p location).value.length := by
        refine le_trans (Nat.le_succ _) (le_of_eq ?_)
        exact (length_insertIdx_of_le_length hp _).symm
      rw [heq]
      rcases setImageSize_cases (s.inserted p location) a with ⟨hsize, hset⟩ | ⟨-, size, hset, hread⟩
      · rw [hset]
        refine ⟨hin, hlen, iff_of_false (some_ne_none _) fun ht => ?_⟩
        rcases ht.2.2 with hne | ⟨n, hn, -⟩
        · exact hne hsize.1
        · exact some_ne_none n (hn.symm.trans hsize.2)
      · rw [hset]
        obtain ⟨hin', hlen', hnone⟩ := ih (hin.size size)
        refine ⟨hin', hlen.trans hlen', hnone.trans ?_⟩
        have hperm : ((s.inserted p location).keys ++ other.map fun p => p.1.key).Perm
            (s.keys ++ location.key :: other.map fun p => p.1.key) :=
          ((keys_insertIdx hp).append_right _).trans perm_middle.symm
        have hc : s.checkImageLocation location a = none := not_not.mp (not_or.mp hr).1
        unfold AllTaken
        rw [forall_mem_cons, map_cons, map_cons, ← hperm.nodup_iff]
        constructor
        · intro ht
          exact ⟨⟨hc, ht.1⟩, ht.2.1, (hread _).mpr ht.2.2⟩
        · intro ht
          exact ⟨ht.1.2, ht.2.1, (hread _).mp ht.2.2⟩

theorem keeps_extend_iff (h : s.InStep) (other : List (Location υ μ × Answer)) :
    Keeps s (s.extend other) ↔ s.AllTaken other ∨ ∃ p ∈ other.head?, s.Refused p.1 p.2 := by
  obtain ⟨hin, -, hnone⟩ := h.extend other
  by_cases ht : s.AllTaken other
  · exact iff_of_true ⟨hin, fun hne => absurd (hnone.mpr ht) hne⟩ (Or.inl ht)
  · rw [or_iff_right ht]
    have hraise : (s.extend other).2 ≠ none := fun hn => ht (hnone.mp hn)
    cases other with
    | nil => exact absurd rfl hraise
    | cons p other =>
      obtain ⟨location, a⟩ := p
      have hhead : (∃ p ∈ ((location, a) :: other).head?, s.Refused p.1 p.2) ↔ s.Refused location a := by simp
      rw [hhead]
      rw [StoreLocations.extend, append] at hraise hin ⊢
      rcases insert_cases s s.value.length location a with ⟨hr, e, heq⟩ | ⟨hr, p, hp, heq⟩
      · rw [heq]
        exact iff_of_true (h.keeps _) hr
      · -- The first location is in the list, whatever is raised afterwards.
        refine iff_of_false (fun hk => ?_) hr
        refine not_unchanged_of_length ?_ (hk.2 hraise)
        have hlen : s.value.length < (s.inserted p location).value.length := by
          refine lt_of_lt_of_eq (Nat.lt_succ_self _) ?_
          exact (length_insertIdx_of_le_length hp _).symm
        rw [heq]
        rcases setImageSize_cases (s.inserted p location) a with ⟨-, hset⟩ | ⟨-, size, hset, -⟩
        · rw [hset]
          exact hlen
        · rw [hset]
          exact hlen.trans_le (((h.inserted hr hp).size size).extend other).2.1

/-! ## 4. An item assigned -/

omit [DecidableEq υ] [DecidableEq μ] in
/-- **An item assigned** over another location keeps the data of that one. -/
theorem inStep_replaced_iff (h : s.InStep) (hs : s.value = pre ++ old :: post) (hs' : s'.value = pre ++ location :: post)
    (hd : s'.deleted = s.deleted) (hh : s'.held = location.key :: s.held) :
    s'.InStep ↔ location.key = old.key := by
  have hkeys : s.keys = pre.map Location.key ++ old.key :: post.map Location.key := by
    rw [keys, hs, map_append, map_cons]
  have hkeys' : s'.keys = pre.map Location.key ++ location.key :: post.map Location.key := by
    rw [keys, hs', map_append, map_cons]
  have hold : old ∈ s.value := by
    rw [hs]
    exact mem_append_right _ mem_cons_self
  constructor
  · intro h'
    have hheld : old.key ∈ s'.held := by
      rw [hh]
      exact mem_cons_of_mem _ (h.held (List.mem_map_of_mem hold))
    rcases h'.left _ hheld with hin | hdel
    · have hnodup := h.nodup
      rw [hkeys] at hnodup
      have hnot := (nodup_cons.mp (nodup_middle.mp hnodup)).1
      rw [hkeys', mem_append, mem_cons] at hin
      rcases hin with hin | heq | hin
      · exact absurd (mem_append_left _ hin) hnot
      · exact heq.symm
      · exact absurd (mem_append_right _ hin) hnot
    · exact absurd (hd ▸ hdel) (h.stored old hold)
  · intro heq
    have hsame : s'.keys = s.keys := by rw [hkeys', hkeys, heq]
    refine ⟨hsame ▸ h.nodup, fun l hl => ?_, fun key hk => ?_, fun key hk => ?_⟩
    · rw [hd]
      rw [hs', mem_append, mem_cons] at hl
      rcases hl with hl | rfl | hl
      · exact h.stored l (hs ▸ mem_append_left _ hl)
      · exact (Prod.mk.inj heq).1 ▸ h.stored old hold
      · exact h.stored l (hs ▸ mem_append_right _ (mem_cons_of_mem _ hl))
    · rw [hsame, hd]
      rw [hh] at hk
      rcases mem_cons.mp hk with rfl | hk
      · exact Or.inl (heq ▸ List.mem_map_of_mem hold)
      · exact h.left key hk
    · rw [hh]
      exact mem_cons_of_mem _ (h.held (hsame ▸ hk))

omit [DecidableEq μ] in
theorem keeps_setItem_iff (h : s.InStep) (i : ℤ) (location : Location υ μ) (a : Answer) :
    Keeps s (s.setItem i location a) ↔ s.Safe (.setItem i location a) := by
  rw [setItem, Safe]
  rcases hc : s.checkImageLocation location a with _ | e
  · rw [or_iff_right (not_not.mpr rfl)]
    rcases item_cases s.value i with ⟨hpos, hitem⟩ | ⟨pre, old, post, hs, hpos, hitem, -⟩
    · simp only [hpos, hitem]
      exact iff_of_true (h.keeps _) trivial
    · simp only [hpos, hitem]
      set new : Location υ μ := { location with status := .active } with hnew
      set s' : StoreLocations υ μ :=
        { s with value := s.value.set pre.length new, held := new.key :: s.held } with hs'
      have hvalue : s'.value = pre ++ new :: post := by
        change s.value.set pre.length new = _
        rw [hs, set_cut]
      have hin : s'.InStep ↔ new.key = old.key := inStep_replaced_iff h hs hvalue rfl rfl
      change _ ↔ new.key = old.key ∧ _
      rcases setImageSize_cases s' a with ⟨hsize, hset⟩ | ⟨hsize, size, hset, -⟩
      · have hraise : s.SizeRaises a := hsize
        rw [hset, or_iff_right (not_not.mpr hraise), ← hin]
        refine and_congr_right fun hin' => ?_
        have hback : Unchanged s s' ↔ s'.value = s.value := by
          unfold Unchanged
          rw [show s.value.filter (fun l => l.url ∉ s'.deleted) = s.value from h.unchanged.symm]
        rw [imp_iff_right (some_ne_none _), hback, hvalue, hs, append_cancel_left_eq,
          List.cons.injEq, and_iff_left rfl]
        exact eq_comm
      · rw [hset, ← hin]
        have hright : ¬ s.SizeRaises a ∨ old = new := Or.inl hsize
        rw [and_iff_left hright]
        constructor
        · intro hk
          exact ⟨hk.1.nodup, hk.1.stored, hk.1.left, hk.1.held⟩
        · intro hin'
          exact ⟨hin'.size size, fun hne => absurd rfl hne⟩
  · exact iff_of_true (h.keeps _) (Or.inl (some_ne_none e))

/-! ## 5. Locations deleted -/

omit [DecidableEq υ] [DecidableEq μ] in
/-- A failure that comes after the data is gone leaves a location without data. -/
theorem not_inStep_of_deleted (location : Location υ μ) (hl : location ∈ s.value) (hd : location.url ∈ s.deleted) : ¬ s.InStep :=
  fun h => h.stored location hl hd

omit [DecidableEq μ] in
/-- **A location deleted.** -/
theorem keeps_deleted_iff (h : s.InStep) (hs : s.value = pre ++ location :: post) :
    Keeps s ({ s with value := pre ++ post, deleted := location.url :: s.deleted }, none) ↔ s.Alone location := by
  rw [h.alone_iff hs]
  rw [append_cons pre location post] at hs
  have hdeleted : ∀ u, u ∈ location.url :: s.deleted ↔ u ∈ [location].map Location.url ∨ u ∈ s.deleted := fun u => by
    rw [map_singleton, mem_singleton]
    exact mem_cons
  have hin : InStep { s with value := pre ++ post, deleted := location.url :: s.deleted } ↔ _ :=
    inStep_removed_iff h hs rfl hdeleted rfl
  rw [← hin]
  exact ⟨fun hk => hk.1, fun h' => ⟨h', fun hne => absurd rfl hne⟩⟩

omit [DecidableEq μ] in
theorem keeps_delItem_iff (h : s.InStep) (i : ℤ) (d : Deletion) :
    Keeps s (s.delItem i d) ↔ s.Safe (.delItem i d) := by
  rw [delItem, Safe]
  rcases item_cases s.value i with ⟨-, hitem⟩ | ⟨pre, location, post, hs, -, hitem, -⟩
  · simp only [hitem]
    exact iff_of_true (h.keeps _) trivial
  · simp only [hitem]
    cases d with
    | done =>
      change Keeps s ({ s with value := s.value.eraseIdx _, deleted := location.url :: s.deleted }, none) ↔ s.Alone location
      rw [← keeps_deleted_iff h hs, hs, eraseIdx_cut]
    | failed =>
      change Keeps s ({ s with value := s.value.set _ location }, some .backend) ↔ True
      have hsame : s.value.set pre.length location = s.value := by rw [hs, set_cut]
      rw [hsame]
      exact iff_of_true (h.keeps _) trivial
    | unrecorded =>
      refine iff_of_false (fun hk => ?_) id
      refine not_inStep_of_deleted { location with status := .deleted } ?_ mem_cons_self hk.1
      change _ ∈ s.value.set _ _
      rw [hs, set_cut]
      exact mem_append_right _ mem_cons_self

omit [DecidableEq μ] in
/-- **A location put back** at a negative index comes one place too early. -/
theorem keeps_reinserted_iff (h : s.InStep) (hs : s.value = pre ++ location :: post) (i : ℤ) (e : Error υ) :
    Keeps s ({ s with value := (pre ++ post).insertIdx (if 0 ≤ i then pre.length else pre.length - 1) location }, some e) ↔
      0 ≤ i ∨ pre.length = 0 := by
  by_cases hsame : 0 ≤ i ∨ pre.length = 0
  · have hplace : (if 0 ≤ i then pre.length else pre.length - 1) = pre.length := by
      split_ifs with hi
      · rfl
      · have hnil := hsame.resolve_left hi
        omega
    rw [hplace, insertIdx_cut, ← hs]
    exact iff_of_true (h.keeps _) hsame
  · obtain ⟨hi, hne⟩ := not_or.mp hsame
    refine iff_of_false (fun hk => ?_) hsame
    obtain ⟨front, x, rfl⟩ := (eq_nil_or_concat' pre).resolve_left fun hnil => hne (congrArg List.length hnil)
    have hmoved : (front ++ [x] ++ post).insertIdx (front ++ [x]).length.pred location = front ++ location :: x :: post := by
      rw [length_append, length_singleton, append_assoc, singleton_append]
      exact insertIdx_cut front (x :: post) location
    have hback := hk.2 (some_ne_none e)
    have hvalue : front ++ location :: x :: post = s.value := by
      refine hmoved.symm.trans (Eq.trans ?_ (hback.trans h.unchanged.symm))
      rw [if_neg hi]
      rfl
    have hnodup := h.value_nodup
    rw [hs, append_assoc, singleton_append] at hvalue
    rw [hs, append_assoc] at hnodup
    have heq : location = x := (List.cons.inj (append_cancel_left hvalue)).1
    rw [heq] at hnodup
    exact (nodup_cons.mp hnodup.of_append_right).1 mem_cons_self

theorem keeps_pop_iff (h : s.InStep) (i : ℤ) (d : Deletion) : Keeps s (s.step (.pop i d)) ↔ s.Safe (.pop i d) := by
  rw [step, pop, Safe]
  rcases item_cases s.value i with ⟨-, hitem⟩ | ⟨pre, location, post, hs, -, hitem, hplace⟩
  · simp only [hitem]
    exact iff_of_true (h.keeps _) trivial
  · simp only [hitem]
    have herase : s.value.eraseIdx pre.length = pre ++ post := by rw [hs, eraseIdx_cut]
    rw [herase]
    cases d with
    | done =>
      rw [and_iff_left nofun]
      exact keeps_deleted_iff h hs
    | failed =>
      have hiff := keeps_reinserted_iff h hs i .backend
      rw [← hplace] at hiff
      refine hiff.trans ?_
      rw [imp_iff_right rfl]
      exact (iff_of_eq (true_and _)).symm
    | unrecorded =>
      refine iff_of_false (fun hk => ?_) fun hsafe => hsafe.1
      refine not_inStep_of_deleted { location with status := .deleted } ?_ mem_cons_self hk.1
      exact (mem_insertIdx (min_le_left _ _)).mpr (Or.inl rfl)

theorem keeps_remove_iff (h : s.InStep) (location : Location υ μ) (d : Deletion) :
    Keeps s (s.remove location d) ↔ s.Safe (.remove location d) := by
  rw [remove, Safe]
  by_cases hl : location ∈ s.value
  · rw [if_pos (count_pos_iff.mpr hl).ne', imp_iff_right hl]
    have hlt : s.value.idxOf location < s.value.length := idxOf_lt_length_of_mem hl
    have hitem : item s.value (s.value.idxOf location) = some (s.value.idxOf location, location) := by
      rw [item, position_natCast hlt, bind_some, getElem?_eq_getElem hlt, getElem_idxOf]
      rfl
    have hiff := keeps_pop_iff h (s.value.idxOf location) d
    rw [step, Safe] at hiff
    simp only [hitem] at hiff
    rw [hiff]
    exact and_iff_left fun _ => Or.inl (Int.natCast_nonneg _)
  · rw [if_neg (not_not.mpr (count_eq_zero.mpr hl))]
    exact iff_of_true (h.keeps _) fun hin => absurd hin hl

/-! ## 6. Slices deleted -/

theorem deletedBefore_le (n : ℕ) (d : ℕ → Deletion) : deletedBefore n d ≤ n := by
  induction n generalizing d with
  | zero => exact le_rfl
  | succ n ih =>
    rw [deletedBefore]
    split_ifs
    · exact Nat.succ_le_succ (ih _)
    · exact Nat.zero_le _

omit [DecidableEq υ] [DecidableEq μ] in
/-- **The loop of `__delslice__`** takes out the locations before the first failure, and no other. -/
theorem delLoop_cases (locations : List (Location υ μ)) (d : ℕ → Deletion) (hs : s.value = pre ++ locations ++ post)
    (n : ℕ) (hn : locations ≠ [] → n = pre.length) :
    (deletedBefore locations.length d < locations.length → d (deletedBefore locations.length d) = .failed) ∧
        (delLoop n locations d s).1.value = pre ++ (locations.drop (deletedBefore locations.length d) ++ post) ∧
        (∀ u, u ∈ (delLoop n locations d s).1.deleted ↔
          u ∈ (locations.take (deletedBefore locations.length d)).map Location.url ∨ u ∈ s.deleted) ∧
        (delLoop n locations d s).1.held = s.held ∨
      ¬ (deletedBefore locations.length d < locations.length → d (deletedBefore locations.length d) = .failed) ∧
        ¬ (delLoop n locations d s).1.InStep := by
  induction locations generalizing s d with
  | nil =>
    left
    rw [append_nil] at hs
    exact ⟨fun h => absurd h (Nat.lt_irrefl _), hs, fun u => by simp [delLoop, deletedBefore], rfl⟩
  | cons location locations ih =>
    have hplace : n = pre.length := hn (cons_ne_nil _ _)
    have hs' : s.value = pre ++ location :: (locations ++ post) := by rw [hs, append_assoc, cons_append]
    rw [length_cons, deletedBefore]
    rcases hd : d 0 with _ | _ | _
    · have hloop : delLoop n (location :: locations) d s = delLoop n locations (fun n => d (n + 1))
          { s with value := s.value.eraseIdx n, deleted := location.url :: s.deleted } := by
        rw [delLoop, hd]
        rfl
      have herase : s.value.eraseIdx n = pre ++ locations ++ post := by
        rw [hplace, hs', eraseIdx_cut, append_assoc]
      rw [hloop, if_pos rfl]
      specialize ih (s := { s with value := s.value.eraseIdx n, deleted := location.url :: s.deleted })
        (fun n => d (n + 1)) herase fun _ => hplace
      rw [Nat.add_lt_add_iff_right]
      refine ih.imp_left fun hgood => ⟨hgood.1, hgood.2.1, fun u => ?_, hgood.2.2.2⟩
      rw [hgood.2.2.1 u, take_succ_cons, map_cons, mem_cons, mem_cons]
      tauto
    · left
      have hloop : delLoop n (location :: locations) d s = (s, some .backend) := by
        have hsame : s.value.set n location = s.value := by rw [hplace, hs', set_cut]
        rw [delLoop, hd]
        change ({ s with value := s.value.set n location }, some Error.backend) = _
        rw [hsame]
      rw [hloop, if_neg nofun]
      refine ⟨fun _ => hd, ?_, fun u => by simp, rfl⟩
      rw [drop_zero, hs, append_assoc]
    · right
      rw [if_neg nofun]
      refine ⟨fun h => ?_, ?_⟩
      · have hfail := hd.symm.trans (h (Nat.succ_pos _))
        cases hfail
      · rw [delLoop, hd]
        refine not_inStep_of_deleted { location with status := .deleted } ?_ mem_cons_self
        change _ ∈ s.value.set n _
        rw [hplace, hs', set_cut]
        exact mem_append_right _ mem_cons_self

omit [DecidableEq μ] in
theorem keeps_delLoop_iff (h : s.InStep) (i j : ℕ) (d : ℕ → Deletion) :
    Keeps s (delLoop i ((s.value.drop i).take (j - i)) d s) ↔ s.SliceDeletesOwn i j d := by
  set slice := (s.value.drop i).take (j - i) with hslice
  set post := (s.value.drop i).drop (j - i) with hpost
  set k := deletedBefore slice.length d with hk
  have hs : s.value = s.value.take i ++ slice ++ post := by
    rw [append_assoc, hslice, hpost, take_append_drop, take_append_drop]
  have hi : slice ≠ [] → i = (s.value.take i).length := by
    intro hne
    have hlt : i < s.value.length := by
      by_contra hle
      rw [hslice, drop_eq_nil_of_le (not_lt.mp hle), take_nil] at hne
      exact hne rfl
    exact (length_take_of_le hlt.le).symm
  have hrest : s.value.drop (i + k) = slice.drop k ++ post := by
    rw [← drop_drop, ← take_append_drop (j - i) (s.value.drop i)]
    exact drop_append_of_le_length (deletedBefore_le _ d)
  have hcut : s.value = s.value.take i ++ slice.take k ++ (slice.drop k ++ post) := by
    rw [append_assoc, ← append_assoc _ _ post, take_append_drop, ← append_assoc]
    exact hs
  have hdef : s.SliceDeletesOwn i j d ↔
      (∀ gone ∈ slice.take k, ∀ location ∈ s.value.take i ++ (slice.drop k ++ post), location.url ≠ gone.url) ∧
        (k < slice.length → d k = .failed) := by
    rw [← hrest]
    exact Iff.rfl
  rw [hdef]
  rcases delLoop_cases slice d hs i hi with ⟨hfail, hvalue, hdeleted, hheld⟩ | ⟨hfail, hout⟩
  · rw [and_iff_left hfail, ← inStep_removed_iff h hcut hvalue hdeleted hheld]
    refine and_iff_left_of_imp fun hin _ => hin.unchanged_removed hcut hvalue fun gone hgone => ?_
    exact (hdeleted _).mpr (Or.inl (List.mem_map_of_mem hgone))
  · exact iff_of_false (fun hkeeps => hout hkeeps.1) fun hsafe => hfail hsafe.2

omit [DecidableEq μ] in
theorem keeps_delSlice_iff (h : s.InStep) (i j : Option ℤ) (d : ℕ → Deletion) :
    Keeps s (s.delSlice i j d) ↔
      s.SliceDeletesOwn (i.getD 0).toNat ((j.map Int.toNat).getD s.value.length) d := by
  have hmax : ∀ x : ℤ, (max x 0).toNat = x.toNat := fun x => by omega
  rw [← keeps_delLoop_iff h]
  unfold delSlice
  simp only [hmax]

/-! ## 7. Runs -/

/-- **One operation** leaves a list in step so, and unchanged if it raises, exactly if it is safe. -/
theorem keeps_step_iff (h : s.InStep) (op : Op υ μ) : Keeps s (s.step op) ↔ s.Safe op := by
  cases op with
  | append location a => exact keeps_insert_iff h s.value.length location a
  | insert i location a => exact keeps_insert_iff h i location a
  | extend other => exact keeps_extend_iff h other
  | iadd other => exact keeps_extend_iff h other
  | setItem i location a => exact keeps_setItem_iff h i location a
  | pop i d => exact keeps_pop_iff h i d
  | remove location d => exact keeps_remove_iff h location d
  | delItem i d => exact keeps_delItem_iff h i d
  | delItemSlice start stop step d =>
    rw [StoreLocations.step, delItemSlice, Safe]
    by_cases hstep : step = none ∨ step = some 1
    · rw [if_pos hstep, imp_iff_right hstep]
      exact keeps_delSlice_iff h start stop d
    · rw [if_neg hstep]
      exact iff_of_true (h.keeps _) fun hyes => absurd hyes hstep
  | delSlice i j d => exact keeps_delSlice_iff h (some i) (some j) d

/-- **A run works** exactly if each of its operations is safe where it comes. -/
theorem works_iff (h : s.InStep) (ops : List (Op υ μ)) : s.Works ops ↔ s.AllSafe ops := by
  induction ops generalizing s with
  | nil => exact iff_of_true h trivial
  | cons op ops ih =>
    rw [Works, AllSafe, and_iff_right h, ← keeps_step_iff h op]
    constructor
    · intro hw
      have hin : (s.step op).1.InStep := by
        have hrest := hw.2
        cases ops with
        | nil => exact hrest
        | cons op' ops => exact hrest.1
      exact ⟨⟨hin, hw.1⟩, (ih hin).mp hw.2⟩
    · intro hsafe
      exact ⟨hsafe.1.2, (ih hsafe.1.1).mpr hsafe.2⟩

end StoreLocations

/-- The locations of an image, no two of them equal, and its size. -/
structure ImageLocations (υ μ : Type) where
  locations : List (Location υ μ)
  size : ℕ
  distinct : (locations.map Location.key).Nodup

/-- The list when the image is loaded. -/
def ImageLocations.proxy (image : ImageLocations υ μ) : StoreLocations υ μ where
  value := image.locations
  size := image.size
  deleted := []
  held := image.locations.map Location.key

omit [DecidableEq υ] [DecidableEq μ] in
theorem ImageLocations.proxy_inStep (image : ImageLocations υ μ) : image.proxy.InStep where
  nodup := image.distinct
  stored := fun _ _ => not_mem_nil
  left := fun _ hk => Or.inl hk
  held := Subset.refl _

end Mitaka.Glance
