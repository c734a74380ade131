/-
  Subject: swift/container/reconciler.py, `cmp_policy_info` to `best_policy_index`;
           swift/container/backend.py, `set_storage_policy_index`;
           swift/container/replicator.py, `_handle_sync_response`.

  Timestamps are compared as strings, which is their order
  (`Timestamp.internal_lt_iff`). A replica tells its counts to another replica, but
  its headers do not reach `best_policy_index` with them: a container that was
  deleted and still has rows counts as deleted only there.

  `cmp_policy_info` compares scores (`cmpPolicyInfo_le_iff`), so the first of a sorted
  list is the one with the lowest score. Adopting an index changes the score of one
  replica only; `best_policy_index_adopt` says when this changes the best index.
-/
import Mitaka.Swift.Timestamp

namespace Mitaka.Swift

open List

/-! ## 1. The comparison -/

/-- What the comparison reads of a container's info. -/
structure ContainerInfo where
  storagePolicyIndex : Nat
  putTimestamp : Timestamp
  deleteTimestamp : Timestamp
  statusChangedAt : Timestamp
  count : Nat
  deriving DecidableEq

/-- `Timestamp(0)`. -/
def Timestamp.zero : Timestamp := ⟨0, 0, by decide, Nat.zero_le _⟩

/-- `cmp` of two strings that hold timestamps. -/
def cmp (a b : Timestamp) : Int := if a < b then -1 else if b < a then 1 else 0

/-- `is_deleted`. -/
def isDeleted (info : ContainerInfo) : Bool :=
  decide (info.putTimestamp < info.deleteTimestamp) && decide (info.count = 0)

/-- `has_been_recreated`. -/
def hasBeenRecreated (info : ContainerInfo) : Bool :=
  decide (info.deleteTimestamp < info.putTimestamp) && decide (Timestamp.zero < info.deleteTimestamp)

def cmpPolicyInfo (info remoteInfo : ContainerInfo) : Int :=
  let deleted := isDeleted info
  let remoteDeleted := isDeleted remoteInfo
  if deleted || remoteDeleted then
    if !deleted then -1
    else if !remoteDeleted then 1
    else cmp remoteInfo.statusChangedAt info.statusChangedAt
  else
    let remoteRecreated := hasBeenRecreated remoteInfo
    let recreated := hasBeenRecreated info
    if remoteRecreated || recreated then
      if !recreated then 1
      else if !remoteRecreated then -1
      else cmp remoteInfo.statusChangedAt info.statusChangedAt
    else cmp info.statusChangedAt remoteInfo.statusChangedAt

/-- `sorted` and `list.sort` with `cmp_policy_info`. -/
def sortPolicyInfo (infos : List ContainerInfo) : List ContainerInfo :=
  infos.insertionSort fun a b => cmpPolicyInfo a b ≤ 0

/-- `incorrect_policy_index`, for a remote info with a policy index. -/
def incorrectPolicyIndex (info remoteInfo : ContainerInfo) : Bool :=
  if remoteInfo.storagePolicyIndex = info.storagePolicyIndex then false
  else
    decide (some info.storagePolicyIndex ≠
      (sortPolicyInfo [info, remoteInfo]).head?.map ContainerInfo.storagePolicyIndex)

/-! ## 2. Headers -/

/-- The backend headers of a container's response that are read. -/
structure ContainerHeaders where
  storagePolicyIndex : Nat
  putTimestamp : Option Timestamp
  deleteTimestamp : Option Timestamp
  statusChangedAt : Option Timestamp

/-- `gen_resp_headers`: the backend headers are always included. -/
def genRespHeaders (info : ContainerInfo) : ContainerHeaders :=
  ⟨info.storagePolicyIndex, some info.putTimestamp, some info.deleteTimestamp, some info.statusChangedAt⟩

/-- `translate_container_headers_to_info`. There is no count, which reads as 0. -/
def translateContainerHeadersToInfo (headers : ContainerHeaders) : ContainerInfo where
  storagePolicyIndex := headers.storagePolicyIndex
  putTimestamp := headers.putTimestamp.getD Timestamp.zero
  deleteTimestamp := headers.deleteTimestamp.getD Timestamp.zero
  statusChangedAt := headers.statusChangedAt.getD Timestamp.zero
  count := 0

/-- `best_policy_index`; `none` is the `IndexError` of an empty list. -/
def bestPolicyIndex (headers : List ContainerHeaders) : Option Nat :=
  (sortPolicyInfo (headers.map translateContainerHeadersToInfo)).head?.map ContainerInfo.storagePolicyIndex

/-! ## 3. Adoption -/

/-- `set_storage_policy_index`. -/
def setStoragePolicyIndex (info : ContainerInfo) (policyIndex : Nat) (timestamp : Timestamp) : ContainerInfo :=
  if info.storagePolicyIndex ≠ policyIndex then
    { info with storagePolicyIndex := policyIndex, statusChangedAt := max timestamp info.statusChangedAt }
  else info

/-- The policy index in `_handle_sync_response`, at the time `now`. -/
def handleSyncResponse (info remoteInfo : ContainerInfo) (now : Timestamp) : ContainerInfo :=
  if incorrectPolicyIndex info remoteInfo then setStoragePolicyIndex info remoteInfo.storagePolicyIndex now
  else info

/-! ## 4. Scores -/

/-- The number of a timestamp. -/
def Timestamp.number (t : Timestamp) : ℤ := t.raw * 16 ^ 16 + t.offset

theorem Timestamp.number_lt_iff {a b : Timestamp} : a.number < b.number ↔ a < b := by
  have ha := a.offset_lt
  have hb := b.offset_lt
  rw [Timestamp.lt_iff, Timestamp.number, Timestamp.number]
  omega

/-- Recreated containers come first, deleted ones last. -/
def classOf (info : ContainerInfo) : ℕ :=
  if isDeleted info then 2 else if hasBeenRecreated info then 0 else 1

/-- The lower, the better. -/
def score (info : ContainerInfo) : ℕ ×ₗ ℤ :=
  toLex (classOf info, if classOf info = 1 then info.statusChangedAt.number else -info.statusChangedAt.number)

variable {a b : ContainerInfo}

theorem score_lt_iff :
    score a < score b ↔ classOf a < classOf b ∨ (classOf a = classOf b ∧
      if classOf a = 1 then a.statusChangedAt < b.statusChangedAt else b.statusChangedAt < a.statusChangedAt) := by
  rw [score, score, Prod.Lex.toLex_lt_toLex]
  refine or_congr Iff.rfl (and_congr_right fun hclass => ?_)
  dsimp only at hclass ⊢
  rw [← hclass]
  split
  · exact Timestamp.number_lt_iff
  · exact neg_lt_neg_iff.trans Timestamp.number_lt_iff

theorem cmp_le_zero_iff {a b : Timestamp} : cmp a b ≤ 0 ↔ ¬ b < a := by
  unfold cmp
  rcases lt_trichotomy a b with h | rfl | h
  · simp [h, h.le]
  · simp
  · simp [h, not_lt.mpr h.le]

/-- **The comparison is that of the scores.** -/
theorem cmpPolicyInfo_le_iff : cmpPolicyInfo a b ≤ 0 ↔ score a ≤ score b := by
  rw [← not_lt, ← not_lt, score_lt_iff, not_lt]
  unfold cmpPolicyInfo classOf
  cases hda : isDeleted a <;> cases hdb : isDeleted b <;> cases hra : hasBeenRecreated a <;>
    cases hrb : hasBeenRecreated b <;> simp [cmp_le_zero_iff]

instance : Std.Total fun a b : ContainerInfo => cmpPolicyInfo a b ≤ 0 :=
  ⟨fun _ _ => (le_total _ _).imp cmpPolicyInfo_le_iff.mpr cmpPolicyInfo_le_iff.mpr⟩

instance : IsTrans ContainerInfo fun a b => cmpPolicyInfo a b ≤ 0 :=
  ⟨fun _ _ _ hab hbc => cmpPolicyInfo_le_iff.mpr
    ((cmpPolicyInfo_le_iff.mp hab).trans (cmpPolicyInfo_le_iff.mp hbc))⟩

variable {m : ContainerInfo}

/-- The first of a sorted list is the one with the lowest score. -/
theorem head_sortPolicyInfo {infos : List ContainerInfo} (hm : m ∈ infos)
    (hlow : ∀ x ∈ infos, x ≠ m → score m < score x) : (sortPolicyInfo infos).head? = some m := by
  have hsorted : (sortPolicyInfo infos).Pairwise fun a b => cmpPolicyInfo a b ≤ 0 :=
    pairwise_insertionSort _ infos
  have hperm : (sortPolicyInfo infos).Perm infos := perm_insertionSort _ infos
  cases hs : sortPolicyInfo infos with
  | nil => exact absurd (hperm.symm.subset hm) (by rw [hs]; exact not_mem_nil)
  | cons x xs =>
    rw [head?_cons]
    by_contra hx
    have hxm : x ≠ m := fun e => hx (congrArg some e)
    have hlt := hlow x (hperm.subset (hs ▸ mem_cons_self)) hxm
    have hmem : m ∈ xs := by
      have hmem := hperm.symm.subset hm
      rw [hs] at hmem
      exact (mem_cons.mp hmem).resolve_left fun e => hxm e.symm
    rw [hs] at hsorted
    exact absurd hlt (not_lt.mpr (cmpPolicyInfo_le_iff.mp ((pairwise_cons.mp hsorted).1 m hmem)))

/-! ## 5. The best index before and after -/

/-- An info as `best_policy_index` sees it. -/
def ContainerInfo.uncounted (info : ContainerInfo) : ContainerInfo := { info with count := 0 }

/-- No replica compares better. -/
def IsBest (replicas : List ContainerInfo) (m : ContainerInfo) : Prop :=
  m ∈ replicas ∧ ∀ r ∈ replicas, cmpPolicyInfo m.uncounted r.uncounted ≤ 0

/-- One replica is synced with another one. -/
def adopt (replicas : List ContainerInfo) (info remoteInfo : ContainerInfo) (now : Timestamp) : List ContainerInfo :=
  replicas.map fun r => if r = info then handleSyncResponse info remoteInfo now else r

/-- When the adoption leaves the best index as it is. A recreated replica becomes the
    newest of its class, and so does a deleted one when there is no other class; then
    the index it adopts has to be the best one. Any other replica falls behind, and
    only matters when it was the best itself. -/
def AdoptionKeeps (replicas : List ContainerInfo) (info remoteInfo : ContainerInfo) : Prop :=
  if hasBeenRecreated info = true ∨ ∀ r ∈ replicas, r.putTimestamp < r.deleteTimestamp then
    ∃ m, IsBest replicas m ∧ m.storagePolicyIndex = remoteInfo.storagePolicyIndex
  else
    IsBest replicas info → ∃ s, IsBest (replicas.filter (· ≠ info)) s ∧
      ¬ s.putTimestamp < s.deleteTimestamp ∧ s.storagePolicyIndex = info.storagePolicyIndex

/-- The one with the lowest score. -/
def Lowest (replicas : List ContainerInfo) (m : ContainerInfo) : Prop :=
  m ∈ replicas ∧ ∀ r ∈ replicas, r ≠ m → score m.uncounted < score r.uncounted

variable {replicas : List ContainerInfo}

theorem bestPolicyIndex_of_lowest (h : Lowest replicas m) :
    bestPolicyIndex (replicas.map genRespHeaders) = some m.storagePolicyIndex := by
  have hhead : (sortPolicyInfo ((replicas.map genRespHeaders).map translateContainerHeadersToInfo)).head? =
      some m.uncounted := by
    rw [List.map_map]
    refine head_sortPolicyInfo (List.mem_map.mpr ⟨m, h.1, rfl⟩) fun x hx hne => ?_
    obtain ⟨r, hr, rfl⟩ := List.mem_map.mp hx
    exact h.2 r hr fun e => hne (e ▸ rfl)
  rw [bestPolicyIndex, hhead]
  rfl

theorem Lowest.unique {m m' : ContainerInfo} (h : Lowest replicas m)
    (h' : Lowest replicas m') : m = m' := by
  by_contra hne
  exact lt_asymm (h.2 m' h'.1 fun e => hne e.symm) (h'.2 m h.1 hne)

/-- Every status change is another time. -/
def Distinct (replicas : List ContainerInfo) : Prop := (replicas.map ContainerInfo.statusChangedAt).Nodup

theorem Distinct.ne (h : Distinct replicas) {r r' : ContainerInfo}
    (hr : r ∈ replicas) (hr' : r' ∈ replicas) (hne : r ≠ r') : r.statusChangedAt ≠ r'.statusChangedAt :=
  fun e => hne (inj_on_of_nodup_map h hr hr' e)

theorem Distinct.filter (h : Distinct replicas) (p : ContainerInfo → Bool) :
    Distinct (replicas.filter p) := h.sublist (filter_sublist.map _)

theorem isBest_iff_lowest (h : Distinct replicas) :
    IsBest replicas m ↔ Lowest replicas m := by
  refine and_congr_right fun hm => forall₂_congr fun r hr => ?_
  rw [cmpPolicyInfo_le_iff]
  constructor
  · intro hle hne
    refine lt_of_le_of_ne hle fun e => h.ne hr hm hne ?_
    have hsecond := congrArg (fun s : ℕ ×ₗ ℤ => (ofLex s).2) e
    have hclass : classOf m.uncounted = classOf r.uncounted := congrArg (fun s : ℕ ×ₗ ℤ => (ofLex s).1) e
    have hnumber : m.statusChangedAt.number = r.statusChangedAt.number := by
      simp only [score, hclass, ofLex_toLex] at hsecond
      split at hsecond
      · exact hsecond
      · exact neg_injective hsecond
    refine le_antisymm (not_lt.mp fun hlt => ?_) (not_lt.mp fun hlt => ?_)
    · exact (Timestamp.number_lt_iff.mpr hlt).ne hnumber
    · exact (Timestamp.number_lt_iff.mpr hlt).ne hnumber.symm
  · intro hlt
    by_cases hne : r = m
    · rw [hne]
    · exact (hlt hne).le

theorem exists_lowest (h : Distinct replicas) (hne : replicas ≠ []) :
    ∃ m, Lowest replicas m := by
  obtain ⟨r, hr⟩ := exists_mem_of_ne_nil replicas hne
  obtain ⟨m, hm, hlow⟩ := Finset.exists_min_image replicas.toFinset (fun r => score r.uncounted)
    ⟨r, List.mem_toFinset.mpr hr⟩
  refine ⟨m, (isBest_iff_lowest h).mp ⟨List.mem_toFinset.mp hm, fun x hx => ?_⟩⟩
  exact cmpPolicyInfo_le_iff.mpr (hlow x (List.mem_toFinset.mpr hx))

/-! ### The classes without counts -/

theorem classOf_uncounted (info : ContainerInfo) : classOf info.uncounted =
    if info.putTimestamp < info.deleteTimestamp then 2 else if hasBeenRecreated info then 0 else 1 := by
  have hdel : isDeleted info.uncounted = decide (info.putTimestamp < info.deleteTimestamp) :=
    Bool.and_true _
  have hrec : hasBeenRecreated info.uncounted = hasBeenRecreated info := rfl
  rw [classOf, hdel, hrec]
  exact if_congr decide_eq_true_iff rfl rfl

theorem not_deleted_of_recreated {info : ContainerInfo} (h : hasBeenRecreated info = true) :
    ¬ info.putTimestamp < info.deleteTimestamp := by
  rw [hasBeenRecreated, Bool.and_eq_true, decide_eq_true_iff] at h
  exact h.1.asymm

section

variable {replicas : List ContainerInfo} {info remoteInfo : ContainerInfo} {now : Timestamp}

/-- The replica after the adoption. -/
theorem handleSyncResponse_of_incorrect (hworse : incorrectPolicyIndex info remoteInfo = true)
    (hnow : info.statusChangedAt < now) : handleSyncResponse info remoteInfo now =
      { info with storagePolicyIndex := remoteInfo.storagePolicyIndex, statusChangedAt := now } := by
  have hne : info.storagePolicyIndex ≠ remoteInfo.storagePolicyIndex := fun e => by
    rw [incorrectPolicyIndex, if_pos e.symm] at hworse
    exact absurd hworse (by decide)
  rw [handleSyncResponse, if_pos hworse, setStoragePolicyIndex, if_pos hne, max_eq_left hnow.le]

theorem mem_adopt {r : ContainerInfo} (hinfo : info ∈ replicas) :
    r ∈ adopt replicas info remoteInfo now ↔
      r = handleSyncResponse info remoteInfo now ∨ (r ∈ replicas ∧ r ≠ info) := by
  constructor
  · intro h
    obtain ⟨r, hr, rfl⟩ := List.mem_map.mp h
    by_cases hri : r = info
    · exact Or.inl (if_pos hri)
    · rw [if_neg hri]
      exact Or.inr ⟨hr, hri⟩
  · rintro (rfl | ⟨hr, hri⟩)
    · exact List.mem_map.mpr ⟨info, hinfo, if_pos rfl⟩
    · exact List.mem_map.mpr ⟨r, hr, if_neg hri⟩

/-- The adopter is the best one afterwards. -/
theorem best_adopter (hinfo : info ∈ replicas) (hworse : incorrectPolicyIndex info remoteInfo = true)
    (hnow : ∀ r ∈ replicas, r.statusChangedAt < now)
    (hlow : ∀ r ∈ replicas, r ≠ info → classOf info.uncounted < classOf r.uncounted ∨
      (classOf info.uncounted = classOf r.uncounted ∧ classOf info.uncounted ≠ 1)) :
    bestPolicyIndex ((adopt replicas info remoteInfo now).map genRespHeaders) =
      some remoteInfo.storagePolicyIndex := by
  have hdef := handleSyncResponse_of_incorrect hworse (hnow info hinfo)
  have hbest : Lowest (adopt replicas info remoteInfo now) (handleSyncResponse info remoteInfo now) := by
    refine ⟨(mem_adopt hinfo).mpr (Or.inl rfl), fun r hr hne => ?_⟩
    obtain ⟨hr, hri⟩ := ((mem_adopt hinfo).mp hr).resolve_left hne
    rw [hdef]
    refine score_lt_iff.mpr ((hlow r hr hri).imp id fun ⟨hclass, h1⟩ => ⟨hclass, ?_⟩)
    exact (if_neg h1).symm ▸ hnow r hr
  rw [bestPolicyIndex_of_lowest hbest, hdef]

/-- A replica that is better than the others, and not changed, stays the best one. -/
theorem best_other (hinfo : info ∈ replicas) (hworse : incorrectPolicyIndex info remoteInfo = true)
    (hnow : ∀ r ∈ replicas, r.statusChangedAt < now) {s : ContainerInfo}
    (hs : Lowest (replicas.filter (· ≠ info)) s)
    (hclass : classOf s.uncounted < classOf info.uncounted ∨
      (classOf s.uncounted = classOf info.uncounted ∧ classOf s.uncounted = 1)) :
    bestPolicyIndex ((adopt replicas info remoteInfo now).map genRespHeaders) = some s.storagePolicyIndex := by
  have hdef := handleSyncResponse_of_incorrect hworse (hnow info hinfo)
  obtain ⟨hmem, hsi⟩ := mem_filter.mp hs.1
  refine bestPolicyIndex_of_lowest ⟨(mem_adopt hinfo).mpr (Or.inr ⟨hmem, of_decide_eq_true hsi⟩), ?_⟩
  intro r hr hne
  rcases (mem_adopt hinfo).mp hr with rfl | ⟨hr, hri⟩
  · rw [hdef]
    refine score_lt_iff.mpr (hclass.imp id fun ⟨hclass, h1⟩ => ⟨hclass, ?_⟩)
    exact (if_pos h1).symm ▸ hnow s hmem
  · exact hs.2 r (mem_filter.mpr ⟨hr, decide_eq_true hri⟩) hne

theorem Lowest.filter_ne {m : ContainerInfo} (hm : Lowest replicas m) (hne : m ≠ info) :
    Lowest (replicas.filter (· ≠ info)) m :=
  ⟨mem_filter.mpr ⟨hm.1, decide_eq_true hne⟩, fun r hr => hm.2 r (mem_of_mem_filter hr)⟩

/-- The first case of `AdoptionKeeps`. -/
theorem adopt_of_newest (hdistinct : Distinct replicas) (hinfo : info ∈ replicas)
    (hworse : incorrectPolicyIndex info remoteInfo = true) (hnow : ∀ r ∈ replicas, r.statusChangedAt < now)
    (hnewest : hasBeenRecreated info = true ∨ ∀ r ∈ replicas, r.putTimestamp < r.deleteTimestamp) :
    bestPolicyIndex ((adopt replicas info remoteInfo now).map genRespHeaders) =
        bestPolicyIndex (replicas.map genRespHeaders) ↔
      ∃ m, IsBest replicas m ∧ m.storagePolicyIndex = remoteInfo.storagePolicyIndex := by
  have hafter := best_adopter hinfo hworse hnow fun r hr _ => by
    rcases hnewest with hrec | hall
    · rw [classOf_uncounted info, if_neg (not_deleted_of_recreated hrec), if_pos hrec]
      rcases Nat.eq_zero_or_pos (classOf r.uncounted) with h0 | hpos
      · exact Or.inr ⟨h0.symm, by decide⟩
      · exact Or.inl hpos
    · rw [classOf_uncounted, classOf_uncounted, if_pos (hall info hinfo), if_pos (hall r hr)]
      exact Or.inr ⟨rfl, by decide⟩
  obtain ⟨m, hm⟩ := exists_lowest hdistinct (ne_nil_of_mem hinfo)
  rw [hafter, bestPolicyIndex_of_lowest hm]
  constructor
  · intro h
    exact ⟨m, (isBest_iff_lowest hdistinct).mpr hm, (Option.some.inj h).symm⟩
  · rintro ⟨m', hm', hpolicy⟩
    rw [hm.unique ((isBest_iff_lowest hdistinct).mp hm'), hpolicy]

/-- The second case of `AdoptionKeeps`, for a replica that was the best one. -/
theorem adopt_of_best (hdistinct : Distinct replicas) (hremote : remoteInfo ∈ replicas)
    (hworse : incorrectPolicyIndex info remoteInfo = true) (hnow : ∀ r ∈ replicas, r.statusChangedAt < now)
    (hbest : Lowest replicas info) (hclass : classOf info.uncounted = 1) :
    bestPolicyIndex ((adopt replicas info remoteInfo now).map genRespHeaders) =
        bestPolicyIndex (replicas.map genRespHeaders) ↔
      ∃ s, IsBest (replicas.filter (· ≠ info)) s ∧ ¬ s.putTimestamp < s.deleteTimestamp ∧
        s.storagePolicyIndex = info.storagePolicyIndex := by
  have hpolicy : remoteInfo.storagePolicyIndex ≠ info.storagePolicyIndex := fun e => by
    rw [incorrectPolicyIndex, if_pos e] at hworse
    exact absurd hworse (by decide)
  have hremote' : remoteInfo ∈ replicas.filter (· ≠ info) :=
    mem_filter.mpr ⟨hremote, decide_eq_true fun e => hpolicy (e ▸ rfl)⟩
  have hdistinct' := hdistinct.filter fun r => decide (r ≠ info)
  obtain ⟨s, hs⟩ := exists_lowest hdistinct' (ne_nil_of_mem hremote')
  have hunique : ∀ s', IsBest (replicas.filter (· ≠ info)) s' → s' = s := fun s' hs' =>
    ((isBest_iff_lowest hdistinct').mp hs').unique hs
  have hother : ∀ r ∈ replicas, r ≠ info → 1 ≤ classOf r.uncounted := fun r hr hri => by
    rcases score_lt_iff.mp (hbest.2 r hr hri) with hlt | ⟨heq, _⟩
    · omega
    · omega
  obtain ⟨hmem, hsi⟩ := mem_filter.mp hs.1
  rw [bestPolicyIndex_of_lowest hbest]
  by_cases hdel : s.putTimestamp < s.deleteTimestamp
  · have hs2 : classOf s.uncounted = 2 := by rw [classOf_uncounted, if_pos hdel]
    have hafter := best_adopter hbest.1 hworse hnow fun r hr hri => by
      left
      by_cases hrs : r = s
      · rw [hrs, hs2, hclass]
        decide
      · rcases score_lt_iff.mp (hs.2 r (mem_filter.mpr ⟨hr, decide_eq_true hri⟩) hrs) with h | ⟨h, _⟩
        · omega
        · omega
    rw [hafter]
    constructor
    · intro h
      exact absurd (Option.some.inj h) hpolicy
    · rintro ⟨s', hs', hndel, _⟩
      exact absurd (hunique s' hs' ▸ hdel) hndel
  · have hs1 : classOf s.uncounted = 1 := by
      have hle := hother s hmem (of_decide_eq_true hsi)
      rw [classOf_uncounted, if_neg hdel] at hle ⊢
      split at hle
      · exact absurd hle (by decide)
      · exact if_neg ‹_›
    rw [best_other hbest.1 hworse hnow hs (Or.inr ⟨hs1.trans hclass.symm, hs1⟩)]
    constructor
    · intro h
      exact ⟨s, (isBest_iff_lowest hdistinct').mpr hs, hdel, Option.some.inj h⟩
    · rintro ⟨s', hs', _, heq⟩
      rw [← heq, hunique s' hs']

/-- **When adopting an index leaves the best one as it is.** -/
theorem best_policy_index_adopt (hdistinct : Distinct replicas) (hinfo : info ∈ replicas)
    (hremote : remoteInfo ∈ replicas) (hworse : incorrectPolicyIndex info remoteInfo = true)
    (hnow : ∀ r ∈ replicas, r.statusChangedAt < now) :
    bestPolicyIndex ((adopt replicas info remoteInfo now).map genRespHeaders) =
        bestPolicyIndex (replicas.map genRespHeaders) ↔ AdoptionKeeps replicas info remoteInfo := by
  rw [AdoptionKeeps]
  split
  case isTrue hnewest => exact adopt_of_newest hdistinct hinfo hworse hnow hnewest
  case isFalse hnot =>
    rw [not_or, not_forall] at hnot
    obtain ⟨hrec, r, hr⟩ := hnot
    obtain ⟨hr, hrdel⟩ := Classical.not_imp.mp hr
    obtain ⟨m, hm⟩ := exists_lowest hdistinct (ne_nil_of_mem hinfo)
    have hmclass : classOf m.uncounted ≠ 2 := fun h2 => by
      by_cases hrm : r = m
      · rw [← hrm, classOf_uncounted, if_neg hrdel] at h2
        split at h2
        · exact absurd h2 (by decide)
        · exact absurd h2 (by decide)
      · have hlt := score_lt_iff.mp (hm.2 r hr hrm)
        rw [h2, classOf_uncounted, if_neg hrdel] at hlt
        split at hlt
        · simp at hlt
        · simp at hlt
    by_cases hmi : m = info
    · subst hmi
      have hclass : classOf m.uncounted = 1 := by
        rw [classOf_uncounted] at hmclass ⊢
        split at hmclass
        · exact absurd rfl hmclass
        · rw [if_neg ‹_›, if_neg hrec]
      rw [adopt_of_best hdistinct hremote hworse hnow hm hclass]
      exact ⟨fun h _ => h, fun h => h ((isBest_iff_lowest hdistinct).mpr hm)⟩
    · have hlt : classOf m.uncounted < classOf info.uncounted ∨
          (classOf m.uncounted = classOf info.uncounted ∧ classOf m.uncounted = 1) := by
        rcases score_lt_iff.mp (hm.2 info hinfo fun e => hmi e.symm) with h | ⟨h, _⟩
        · exact Or.inl h
        · refine Or.inr ⟨h, ?_⟩
          rw [h] at hmclass ⊢
          rw [classOf_uncounted] at hmclass ⊢
          split at hmclass
          · exact absurd rfl hmclass
          · rw [if_neg ‹_›, if_neg hrec]
      rw [best_other hinfo hworse hnow (hm.filter_ne hmi) hlt, bestPolicyIndex_of_lowest hm]
      exact ⟨fun _ hbest => absurd (hm.unique ((isBest_iff_lowest hdistinct).mp hbest)) hmi, fun _ => rfl⟩

end

/-! ### Three recreated replicas -/

/-- A replica of a container that was recreated, with the time of its last change. -/
def recreatedReplica (storagePolicyIndex raw : Nat) (h : raw < 10 ^ 15) : ContainerInfo where
  storagePolicyIndex := storagePolicyIndex
  putTimestamp := ⟨3, 0, by decide, Nat.zero_le _⟩
  deleteTimestamp := ⟨2, 0, by decide, Nat.zero_le _⟩
  statusChangedAt := ⟨raw, 0, h, Nat.zero_le _⟩
  count := 0

def recreatedReplicas : List ContainerInfo :=
  [recreatedReplica 0 4 (by decide), recreatedReplica 1 5 (by decide), recreatedReplica 2 6 (by decide)]

/-- The oldest one adopts the index of the newest one. -/
theorem best_policy_index_adopt_newest :
    bestPolicyIndex ((adopt recreatedReplicas (recreatedReplica 0 4 (by decide)) (recreatedReplica 2 6 (by decide))
        ⟨7, 0, by decide, Nat.zero_le _⟩).map genRespHeaders) =
      bestPolicyIndex (recreatedReplicas.map genRespHeaders) :=
  (best_policy_index_adopt (by unfold Distinct; decide) (by decide) (by decide) (by decide)
    (by decide)).mpr (by
      rw [AdoptionKeeps, if_pos (Or.inl (by decide))]
      exact ⟨recreatedReplica 2 6 (by decide), ⟨by decide, by decide⟩, rfl⟩)

/-- The oldest one adopts the index of the one in the middle, and is then the newest. -/
theorem best_policy_index_changes :
    Distinct recreatedReplicas ∧
      incorrectPolicyIndex (recreatedReplica 0 4 (by decide)) (recreatedReplica 1 5 (by decide)) = true ∧
      bestPolicyIndex (recreatedReplicas.map genRespHeaders) = some 2 ∧
      bestPolicyIndex ((adopt recreatedReplicas (recreatedReplica 0 4 (by decide))
        (recreatedReplica 1 5 (by decide)) ⟨7, 0, by decide, Nat.zero_le _⟩).map genRespHeaders) = some 1 := by
  refine ⟨?_, ?_, ?_, ?_⟩
  · unfold Distinct
    decide
  · decide
  · decide
  · decide

/-! ## 6. The order of the infos -/

theorem cmp_swap (a b : Timestamp) : cmp b a = -cmp a b := by
  unfold cmp
  rcases lt_trichotomy a b with h | rfl | h
  · rw [if_neg h.not_gt, if_pos h, if_pos h]
    rfl
  · rw [if_neg (lt_irrefl _), if_neg (lt_irrefl _), neg_zero]
  · rw [if_pos h, if_neg h.not_gt, if_pos h]

/-- **Antisymmetry in sign.** -/
theorem cmpPolicyInfo_swap (a b : ContainerInfo) : cmpPolicyInfo b a = -cmpPolicyInfo a b := by
  unfold cmpPolicyInfo
  cases hda : isDeleted a <;> cases hdb : isDeleted b <;> cases hra : hasBeenRecreated a <;>
    cases hrb : hasBeenRecreated b <;> simp [cmp_swap a.statusChangedAt b.statusChangedAt]

theorem cmpPolicyInfo_eq_zero (hab : cmpPolicyInfo a b ≤ 0) (hba : cmpPolicyInfo b a ≤ 0) :
    cmpPolicyInfo a b = 0 := by
  have hswap := cmpPolicyInfo_swap a b
  omega

/-- Infos with different policy indexes never compare equal. -/
def PoliciesApart (infos : List ContainerInfo) : Prop :=
  ∀ a ∈ infos, ∀ b ∈ infos, a.storagePolicyIndex ≠ b.storagePolicyIndex → cmpPolicyInfo a b ≠ 0

/-- The first of a sorted list comes before all others. -/
theorem head_sortPolicyInfo_le {infos : List ContainerInfo}
    (h : (sortPolicyInfo infos).head? = some m) : m ∈ infos ∧ ∀ x ∈ infos, cmpPolicyInfo m x ≤ 0 := by
  have hsorted : (sortPolicyInfo infos).Pairwise fun a b => cmpPolicyInfo a b ≤ 0 :=
    pairwise_insertionSort _ infos
  have hperm : (sortPolicyInfo infos).Perm infos := perm_insertionSort _ infos
  obtain ⟨xs, hs⟩ := head?_eq_some_iff.mp h
  rw [hs] at hsorted hperm
  refine ⟨hperm.subset mem_cons_self, fun x hx => ?_⟩
  rcases mem_cons.mp (hperm.symm.subset hx) with rfl | hx
  · exact cmpPolicyInfo_le_iff.mpr le_rfl
  · exact (pairwise_cons.mp hsorted).1 x hx

theorem sortPolicyInfo_perm {infos infos' : List ContainerInfo} (hperm : infos.Perm infos')
    (hapart : PoliciesApart infos) :
    (sortPolicyInfo infos).head?.map ContainerInfo.storagePolicyIndex =
      (sortPolicyInfo infos').head?.map ContainerInfo.storagePolicyIndex := by
  have hsort (l : List ContainerInfo) : (sortPolicyInfo l).Perm l := perm_insertionSort _ l
  cases hm : (sortPolicyInfo infos).head? with
  | none =>
    have hnil : infos = [] := (head?_eq_none_iff.mp hm ▸ hsort infos).symm.eq_nil
    subst hnil
    rw [hperm.symm.eq_nil]
    rfl
  | some m =>
    obtain ⟨hmem, hle⟩ := head_sortPolicyInfo_le hm
    cases hm' : (sortPolicyInfo infos').head? with
    | none =>
      have hnil : infos' = [] := (head?_eq_none_iff.mp hm' ▸ hsort infos').symm.eq_nil
      subst hnil
      exact absurd (hperm.subset hmem) not_mem_nil
    | some m' =>
      obtain ⟨hmem', hle'⟩ := head_sortPolicyInfo_le hm'
      have hzero := cmpPolicyInfo_eq_zero (hle m' (hperm.symm.subset hmem')) (hle' m (hperm.subset hmem))
      refine congrArg some ?_
      by_contra hne
      exact hapart m hmem m' (hperm.symm.subset hmem') hne hzero

/-- The remote index is to be used when the remote info is better. -/
theorem incorrectPolicyIndex_iff (h : a.storagePolicyIndex ≠ b.storagePolicyIndex) :
    incorrectPolicyIndex a b = true ↔ 0 < cmpPolicyInfo a b := by
  rw [incorrectPolicyIndex, if_neg h.symm, decide_eq_true_eq]
  by_cases hab : cmpPolicyInfo a b ≤ 0
  · have hs : sortPolicyInfo [a, b] = [a, b] := by simp [sortPolicyInfo, hab]
    rw [hs]
    exact ⟨fun hne => absurd rfl hne, fun hlt => absurd hab hlt.not_ge⟩
  · have hs : sortPolicyInfo [a, b] = [b, a] := by simp [sortPolicyInfo, orderedInsert, hab]
    rw [hs]
    exact ⟨fun _ => not_le.mp hab, fun _ he => h (Option.some.inj he)⟩

/-- **A total preorder**: the sign of the comparison turns round with its arguments, and it is transitive; so the best
index of infos of which those with different indexes never compare equal does not depend on their order, and of two
replicas with different indexes exactly one is to adopt the other's, unless they compare equal. -/
theorem policy_info_preorder :
    (∀ a b, cmpPolicyInfo b a = -cmpPolicyInfo a b) ∧
      (∀ a b c, cmpPolicyInfo a b ≤ 0 → cmpPolicyInfo b c ≤ 0 → cmpPolicyInfo a c ≤ 0) ∧
      (∀ headers headers' : List ContainerHeaders, PoliciesApart (headers.map translateContainerHeadersToInfo) →
        headers.Perm headers' → bestPolicyIndex headers = bestPolicyIndex headers') ∧
      ∀ a b : ContainerInfo, a.storagePolicyIndex ≠ b.storagePolicyIndex →
        if cmpPolicyInfo a b = 0 then incorrectPolicyIndex a b = false ∧ incorrectPolicyIndex b a = false
        else incorrectPolicyIndex a b = !incorrectPolicyIndex b a := by
  refine ⟨cmpPolicyInfo_swap, fun a b c hab hbc => ?_, fun headers headers' hapart hperm => ?_, fun a b hne => ?_⟩
  · exact cmpPolicyInfo_le_iff.mpr ((cmpPolicyInfo_le_iff.mp hab).trans (cmpPolicyInfo_le_iff.mp hbc))
  · exact sortPolicyInfo_perm (hperm.map translateContainerHeadersToInfo) hapart
  · have hab := incorrectPolicyIndex_iff hne
    have hba := incorrectPolicyIndex_iff hne.symm
    rw [cmpPolicyInfo_swap a b] at hba
    split_ifs with hzero
    · rw [hzero] at hab hba
      exact ⟨Bool.eq_false_iff.mpr fun h => absurd (hab.mp h) (by decide),
        Bool.eq_false_iff.mpr fun h => absurd (hba.mp h) (by decide)⟩
    · rcases lt_or_gt_of_ne hzero with hlt | hgt
      · have htrue : incorrectPolicyIndex b a = true := hba.mpr (by omega)
        have hfalse : incorrectPolicyIndex a b = false := Bool.eq_false_iff.mpr fun h => absurd (hab.mp h) (by omega)
        rw [htrue, hfalse]
        rfl
      · have htrue : incorrectPolicyIndex a b = true := hab.mpr hgt
        have hfalse : incorrectPolicyIndex b a = false := Bool.eq_false_iff.mpr fun h => absurd (hba.mp h) (by omega)
        rw [htrue, hfalse]
        rfl

/-- A recreated replica of another policy, changed at the same time. -/
theorem tied_replicas_keep :
    (recreatedReplica 0 4 (by decide)).storagePolicyIndex ≠ (recreatedReplica 1 4 (by decide)).storagePolicyIndex ∧
      cmpPolicyInfo (recreatedReplica 0 4 (by decide)) (recreatedReplica 1 4 (by decide)) = 0 ∧
      incorrectPolicyIndex (recreatedReplica 0 4 (by decide)) (recreatedReplica 1 4 (by decide)) = false ∧
      incorrectPolicyIndex (recreatedReplica 1 4 (by decide)) (recreatedReplica 0 4 (by decide)) = false := by
  decide

end Mitaka.Swift
