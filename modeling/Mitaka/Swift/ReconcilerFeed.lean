/-
  Subject: _post_replicate_hook and dump_to_reconciler of swift/container/replicator.py,
           get_misplaced_since and has_multiple_policies of swift/container/backend.py.

  Every read or write of the database is a step of its own, and what a hook has in its hands
  between two of them is a `Stage`; the stages reached stay for good, so a hook may stop
  anywhere, any number run side by side, and merges come between any two steps. A point is
  `Covered` when each misplaced row up to it was fed or replaced; new rows have new ROWIDs, so
  that it stays covered, and every value a hook can write is (**`feed_skips_nothing`**). A
  `per_diff` of 0 makes the query return nothing, which a hook takes for nothing misplaced
  (`perDiff_zero_skips`).
-/
import Mitaka.Lib.Run
import Mitaka.Swift.ContainerConvergence

namespace Mitaka.Swift.Reconciler

open List

/-! ## 1. The queue -/

def MISPLACED_OBJECTS_ACCOUNT : Str := ".misplaced_objects".toList

def MISPLACED_OBJECTS_CONTAINER_DIVISOR : ℕ := 3600

/-- `get_reconciler_container_name`, as a number; `none` is the `ValueError`. -/
def reconcilerContainerName (objTimestamp : Str) : Option ℕ :=
  (decodeAll objTimestamp).map fun t =>
    t.2.2.raw / 100000 / MISPLACED_OBJECTS_CONTAINER_DIVISOR * MISPLACED_OBJECTS_CONTAINER_DIVISOR

/-- What the translator makes of a row, without the two fields that are always 0. -/
structure QueueEntry where
  name : Str
  createdAt : Str
  etag : Str
  contentType : Str
deriving DecidableEq

/-- `get_row_to_q_entry_translator`. -/
def translator (account container : Str) (objInfo : ObjectRecord) : QueueEntry where
  name := Nat.toDigits 10 objInfo.storagePolicyIndex ++ [':', '/'] ++ account ++ ['/'] ++ container ++ ['/'] ++ objInfo.name
  createdAt := objInfo.createdAt
  etag := objInfo.createdAt
  contentType := if objInfo.deleted then "application/x-delete".toList else "application/x-put".toList

/-- The batches of a round: the rows by the container they go to. -/
def batchesOf (misplaced : List ObjectRow) : Option (Dict ℕ (List ObjectRow)) :=
  misplaced.foldlM (fun (batches : Dict ℕ (List ObjectRow)) item =>
    (reconcilerContainerName item.createdAt).map fun container =>
      batches.set container ((batches.get container).getD [] ++ [item])) []

/-- `quorum_size`. -/
def quorumSize (n : ℕ) : ℕ := n / 2 + 1

/-! ## 2. A replica and its hooks -/

/-- Where a `_post_replicate_hook` stands. -/
inductive Stage
  /-- before the replication: `get_replication_info` -/
  | info (maxRow : ℤ)
  /-- `get_reconciler_sync` -/
  | point (maxRow point : ℤ)
  /-- not `has_multiple_policies` -/
  | single (maxRow : ℤ)
  /-- `dump_to_reconciler` starts -/
  | dump (point : ℤ)
  /-- `get_max_row` -/
  | maxSync (point maxSync : ℤ)
  /-- in a round: the batches to come, and the ROWID of its last row -/
  | feeding (start lowSync : ℤ) (errors : Bool) (batches : Dict ℕ (List ObjectRow)) (last : ℤ)
  /-- between two rounds -/
  | query (start lowSync : ℤ) (errors : Bool) (point : ℤ)
  /-- `dump_to_reconciler` has returned -/
  | dumped (point maxSync : ℤ)
deriving DecidableEq

structure Replica where
  account : Str
  container : Str
  storagePolicyIndex : ℕ
  db : ContainerDb
  reconcilerSyncPoint : ℤ
  stages : List Stage
  /-- The entries that `feed_reconciler` returned True for. -/
  fed : List (ℕ × QueueEntry)
  /-- Every row that was ever in the table. -/
  inserted : List ObjectRow

namespace Replica

/-- A new container. -/
def new (account container id : Str) (storagePolicyIndex : ℕ) : Replica :=
  ⟨account, container, storagePolicyIndex, ContainerDb.fresh id storagePolicyIndex, -1, [], [], []⟩

/-- `get_misplaced_since`; a LIMIT below 0 is none. -/
def getMisplacedSince (s : Replica) (start count : ℤ) : List ObjectRow :=
  let rows := s.db.rows.filter fun r => start < r.rowid ∧ r.storagePolicyIndex ≠ s.storagePolicyIndex
  if count < 0 then rows else rows.take count.toNat

/-- `has_multiple_policies`. -/
def hasMultiplePolicies (s : Replica) : Prop := 1 < s.db.policyStat.length

instance (s : Replica) : Decidable s.hasMultiplePolicies := Nat.decLt _ _

def reach (s : Replica) (stage : Stage) : Replica := { s with stages := stage :: s.stages }

/-- The next round, or the end of the rounds with `lowSync`. -/
def round (s : Replica) (perDiff start lowSync : ℤ) (errors : Bool) (point result : ℤ) : Option Replica :=
  let misplaced := s.getMisplacedSince point perDiff
  match misplaced.getLast? with
  | none => some (s.reach (.dumped start result))
  | some last => (batchesOf misplaced).map fun batches => s.reach (.feeding start lowSync errors batches last.rowid)

/-- What a hook does next at a stage. -/
def next (s : Replica) (perDiff : ℤ) : Stage → Option Replica
  | .info maxRow =>
    if s.account = MISPLACED_OBJECTS_ACCOUNT then none else some (s.reach (.point maxRow s.reconcilerSyncPoint))
  | .point maxRow point =>
    if ¬ s.hasMultiplePolicies ∧ maxRow ≠ point then some (s.reach (.single maxRow)) else some (s.reach (.dump point))
  | .single maxRow => some { s with reconcilerSyncPoint := maxRow }
  | .dump point => some (s.reach (.maxSync point s.db.maxRow))
  | .maxSync point maxSync => s.round perDiff point point false point maxSync
  | .feeding start lowSync errors [] last => some (s.reach (.query start (if errors then lowSync else last) errors last))
  | .feeding _ _ _ (_ :: _) _ => none
  | .query start lowSync errors point => s.round perDiff start lowSync errors point lowSync
  | .dumped _ _ => none

/-- One batch goes to `feed_reconciler`. -/
def feed (s : Replica) (i : ℕ) (success : Bool) : Stage → Option Replica
  | .feeding start lowSync errors batches last =>
    match batches[i]? with
    | none => none
    | some batch =>
      let entries := batch.2.map fun item => (batch.1, translator s.account s.container item.toObjectRecord)
      some ({ s with fed := if success then s.fed ++ entries else s.fed }.reach
        (.feeding start lowSync (errors || !success) (batches.eraseIdx i) last))
  | _ => none

/-- The end of a hook, with the answers of the replication. -/
def finish (s : Replica) (responses : List Bool) : Stage → Option Replica
  | .dumped point maxSync =>
    if maxSync > point ∧ responses.count true ≥ quorumSize responses.length then
      some { s with reconcilerSyncPoint := maxSync }
    else some s
  | _ => none

end Replica

inductive Act
  | mergeItems (order : DictOrder) (items : List Item) (source : Option Str)
  | replicationInfo
  | next (stage : Stage)
  | feed (stage : Stage) (i : ℕ) (success : Bool)
  | finish (stage : Stage) (responses : List Bool)

/-- One step: a merge, the start of a hook, or what a hook does at a stage. -/
def Replica.step (md5 : Str → BitVec 128) (perDiff : ℤ) (s : Replica) : Act → Option Replica
  | .mergeItems order items source =>
    (Swift.mergeItems md5 order s.db items source).map fun db => { s with db, inserted := s.inserted ++ db.rows }
  | .replicationInfo => some (s.reach (.info s.db.maxRow))
  | .next stage => if stage ∈ s.stages then s.next perDiff stage else none
  | .feed stage i success => if stage ∈ s.stages then s.feed i success stage else none
  | .finish stage responses => if stage ∈ s.stages then s.finish responses stage else none

/-- The row was fed, or a row of its name and policy with a larger ROWID is in the table. -/
def Answered (s : Replica) (r : ObjectRow) : Prop :=
  (∃ name, reconcilerContainerName r.createdAt = some name ∧
      (name, translator s.account s.container r.toObjectRecord) ∈ s.fed) ∨
    ∃ r' ∈ s.db.rows, r'.ident = r.ident ∧ r.rowid < r'.rowid

/-! ## 3. Covered points -/

section Covered

variable {s s' : Replica} {v : ℤ}

def Misplaced (s : Replica) (r : ObjectRow) : Prop := r.storagePolicyIndex ≠ s.storagePolicyIndex

/-- Every misplaced row up to `v` is answered for, and no other row gets such a ROWID. -/
def Covered (s : Replica) (v : ℤ) : Prop :=
  v ≤ s.db.seq ∧ ∀ r ∈ s.inserted, (r.rowid : ℤ) ≤ v → Misplaced s r → Answered s r

/-- `s'` is `s` some steps later. -/
structure Later (s s' : Replica) : Prop where
  policy : s'.storagePolicyIndex = s.storagePolicyIndex
  seq : s.db.seq ≤ s'.db.seq
  inserted : ∀ r ∈ s'.inserted, r ∈ s.inserted ∨ s.db.seq < r.rowid
  answered : ∀ r, Answered s r → Answered s' r

/-- A row up to the sequence was there before. -/
theorem Later.old (h : Later s s') {r : ObjectRow} (hr : r ∈ s'.inserted) (hle : (r.rowid : ℤ) ≤ s.db.seq) :
    r ∈ s.inserted :=
  (h.inserted r hr).resolve_right fun hlt => by omega

theorem Later.misplaced (h : Later s s') {r : ObjectRow} (hm : Misplaced s' r) : Misplaced s r :=
  fun he => hm (he.trans h.policy.symm)

/-- **A covered point stays covered.** -/
theorem Covered.later (hc : Covered s v) (h : Later s s') : Covered s' v := by
  refine ⟨hc.1.trans (by exact_mod_cast h.seq), fun r hr hle hm => h.answered r ?_⟩
  exact hc.2 r (h.old hr (hle.trans hc.1)) hle (h.misplaced hm)

/-- What holds of the stages reached. -/
def StageSound (s : Replica) : Stage → Prop
  | .info maxRow => maxRow ≤ s.db.seq
  | .point maxRow point => maxRow ≤ s.db.seq ∧ Covered s point
  | .single maxRow => Covered s maxRow
  | .dump point => Covered s point
  | .maxSync point maxSync => Covered s point ∧ maxSync ≤ s.db.seq
  | .feeding _ lowSync errors batches last => Covered s lowSync ∧ last ≤ s.db.seq ∧
      (errors = false → ∀ r ∈ s.inserted, (r.rowid : ℤ) ≤ last → Misplaced s r → Answered s r ∨
        ∃ batch ∈ batches, r ∈ batch.2 ∧ reconcilerContainerName r.createdAt = some batch.1)
  | .query _ lowSync errors point => Covered s lowSync ∧ point ≤ s.db.seq ∧ (errors = false → Covered s point)
  | .dumped _ maxSync => Covered s maxSync

theorem StageSound.later {stage : Stage} (hg : StageSound s stage) (h : Later s s') : StageSound s' stage := by
  have hseq : (s.db.seq : ℤ) ≤ s'.db.seq := by exact_mod_cast h.seq
  cases stage with
  | info maxRow => exact le_trans hg hseq
  | point maxRow point => exact ⟨hg.1.trans hseq, hg.2.later h⟩
  | single maxRow => exact Covered.later hg h
  | dump point => exact Covered.later hg h
  | maxSync point maxSync => exact ⟨hg.1.later h, hg.2.trans hseq⟩
  | feeding start lowSync errors batches last =>
    refine ⟨hg.1.later h, hg.2.1.trans hseq, fun he r hr hle hm => ?_⟩
    exact (hg.2.2 he r (h.old hr (hle.trans hg.2.1)) hle (h.misplaced hm)).imp_left (h.answered r)
  | query start lowSync errors point => exact ⟨hg.1.later h, hg.2.1.trans hseq, fun he => (hg.2.2 he).later h⟩
  | dumped point maxSync => exact Covered.later hg h

/-- What every step keeps. -/
structure Sound (md5 : Str → BitVec 128) (s : Replica) : Prop where
  wellFormed : s.db.WellFormed
  audited : Audited md5 s.db
  rows : ∀ r ∈ s.db.rows, r ∈ s.inserted
  bound : ∀ r ∈ s.inserted, r.rowid ≤ s.db.seq
  current : ∀ r ∈ s.inserted, r ∈ s.db.rows ∨ ∃ r' ∈ s.db.rows, r'.ident = r.ident ∧ r.rowid < r'.rowid
  own : (s.db.policyStat.get s.storagePolicyIndex).isSome = true
  policies : ∀ r ∈ s.inserted, (s.db.policyStat.get r.storagePolicyIndex).isSome = true
  point : Covered s s.reconcilerSyncPoint
  stages : ∀ stage ∈ s.stages, StageSound s stage

theorem sound_new (md5 : Str → BitVec 128) (account container id : Str) (p : ℕ) :
    Sound md5 (Replica.new account container id p) where
  wellFormed := wellFormed_fresh id p
  audited := audited_fresh id p
  rows := nofun
  bound := nofun
  current := nofun
  own := by
    change (Dict.get [(p, ((0 : ℤ), (0 : ℤ)))] p).isSome = true
    rw [Dict.get_cons, if_pos rfl]
    rfl
  policies := nofun
  point := ⟨by change (-1 : ℤ) ≤ 0; omega, nofun⟩
  stages := nofun

theorem maxRow_le (db : ContainerDb) : db.maxRow ≤ db.seq := by
  unfold ContainerDb.maxRow
  split <;> omega

/-- A step that only reaches a stage. -/
theorem Sound.reach {md5 : Str → BitVec 128} (h : Sound md5 s) {stage : Stage} (hg : StageSound s stage) :
    Sound md5 (s.reach stage) where
  wellFormed := h.wellFormed
  audited := h.audited
  rows := h.rows
  bound := h.bound
  current := h.current
  own := h.own
  policies := h.policies
  point := h.point.later ⟨rfl, le_rfl, fun _ hr => Or.inl hr, fun _ ha => ha⟩
  stages := by
    have hl : Later s (s.reach stage) := ⟨rfl, le_rfl, fun _ hr => Or.inl hr, fun _ ha => ha⟩
    intro stage' hs
    rcases mem_cons.mp hs with rfl | hs
    · exact hg.later hl
    · exact (h.stages stage' hs).later hl

/-- A step that writes a covered point. -/
theorem Sound.write {md5 : Str → BitVec 128} (h : Sound md5 s) (hv : Covered s v) :
    Sound md5 { s with reconcilerSyncPoint := v } where
  wellFormed := h.wellFormed
  audited := h.audited
  rows := h.rows
  bound := h.bound
  current := h.current
  own := h.own
  policies := h.policies
  point := hv.later ⟨rfl, le_rfl, fun _ hr => Or.inl hr, fun _ ha => ha⟩
  stages := fun stage hs => (h.stages stage hs).later ⟨rfl, le_rfl, fun _ hr => Or.inl hr, fun _ ha => ha⟩

end Covered

/-! ## 4. Merges -/

section Merges

variable {md5 : Str → BitVec 128} {s : Replica} {order : DictOrder} {items : List Item} {source : Option Str} {db : ContainerDb}

/-- **A row goes only for one of its name and policy with a larger ROWID.** -/
theorem row_kept {adds : List Item} {old : ContainerDb} (hwf : old.WellFormed) (hm : Merged old items source db adds)
    {r : ObjectRow} (hr : r ∈ old.rows) : r ∈ db.rows ∨ ∃ r' ∈ db.rows, r'.ident = r.ident ∧ r.rowid < r'.rowid := by
  by_cases h : ∃ a ∈ adds, r.ident = a.ident
  · obtain ⟨a, ha, he⟩ := h
    obtain ⟨r', hr', hra⟩ := exists_numbered old.seq ha
    refine Or.inr ⟨r', hm.mem_rows.mpr (Or.inr hr'), ?_, (hwf.bound r hr).2.trans_lt (mem_numbered hr').1⟩
    exact (congrArg ObjectRecord.ident hra).trans he.symm
  · push Not at h
    exact Or.inl (hm.mem_rows.mpr (Or.inl ⟨hr, h⟩))

/-- **A merge keeps everything covered.** -/
theorem Sound.merge (h : Sound md5 s) (hmerge : mergeItems md5 order s.db items source = some db) :
    Sound md5 { s with db, inserted := s.inserted ++ db.rows } := by
  obtain ⟨adds, hm⟩ := merged_mergeItems h.wellFormed hmerge
  obtain ⟨haudited, hkeys⟩ := audited_mergeItems h.audited hmerge
  have hwf := hm.wellFormed h.wellFormed
  have hseq : s.db.seq ≤ db.seq := hm.seq ▸ Nat.le_add_right _ _
  have hrows : ∀ r ∈ db.rows, r ∈ s.inserted ∨ s.db.seq < r.rowid := fun r hr => (hm.rowid hr).imp_left (h.rows r)
  have hreplaced : ∀ r : ObjectRow, (∃ r' ∈ s.db.rows, r'.ident = r.ident ∧ r.rowid < r'.rowid) →
      ∃ r' ∈ db.rows, r'.ident = r.ident ∧ r.rowid < r'.rowid := by
    intro r hr
    obtain ⟨r', hr', he, hlt⟩ := hr
    rcases row_kept h.wellFormed hm hr' with hk | hk
    · exact ⟨r', hk, he, hlt⟩
    · obtain ⟨r'', hr'', he', hlt'⟩ := hk
      exact ⟨r'', hr'', he'.trans he, hlt.trans hlt'⟩
  have hl : Later s { s with db, inserted := s.inserted ++ db.rows } := by
    refine ⟨rfl, hseq, fun r hr => ?_, fun r ha => ha.imp_right (hreplaced r)⟩
    exact (mem_append.mp hr).elim Or.inl (hrows r)
  refine ⟨hwf, haudited, fun r hr => mem_append_right _ hr, fun r hr => ?_, fun r hr => ?_,
    (hkeys _).mpr (Or.inl h.own), fun r hr => ?_, h.point.later hl, fun stage hs => (h.stages stage hs).later hl⟩
  · rcases mem_append.mp hr with hr | hr
    · exact (h.bound r hr).trans hseq
    · exact (hwf.bound r hr).2
  · rcases mem_append.mp hr with hr | hr
    · rcases h.current r hr with hc | hc
      · exact row_kept h.wellFormed hm hc
      · exact Or.inr (hreplaced r hc)
    · exact Or.inl hr
  · rcases mem_append.mp hr with hr | hr
    · exact (hkeys _).mpr (Or.inl (h.policies r hr))
    · exact (hkeys _).mpr (Or.inr ⟨r, hr, rfl⟩)

end Merges

/-! ## 5. Rounds -/

section Rounds

variable {md5 : Str → BitVec 128} {s s' : Replica} {perDiff start lowSync point result : ℤ} {errors : Bool}

/-- Every row of a round is in its batch. -/
theorem mem_batchesOf {misplaced : List ObjectRow} {batches : Dict ℕ (List ObjectRow)}
    (h : batchesOf misplaced = some batches) {r : ObjectRow} (hr : r ∈ misplaced) :
    ∃ batch ∈ batches, r ∈ batch.2 ∧ reconcilerContainerName r.createdAt = some batch.1 := by
  have hfold : ∀ (l : List ObjectRow) (acc : Dict ℕ (List ObjectRow)),
      l.foldlM (fun (batches : Dict ℕ (List ObjectRow)) item =>
        (reconcilerContainerName item.createdAt).map fun container =>
          batches.set container ((batches.get container).getD [] ++ [item])) acc = some batches →
      (∀ r c, r ∈ (acc.get c).getD [] → r ∈ (batches.get c).getD []) ∧
        ∀ r ∈ l, ∃ c, reconcilerContainerName r.createdAt = some c ∧ r ∈ (batches.get c).getD [] := by
    intro l
    induction l with
    | nil =>
      intro acc hacc
      obtain rfl : acc = batches := Option.some.inj hacc
      exact ⟨fun _ _ h => h, nofun⟩
    | cons item l ih =>
      intro acc hacc
      rw [foldlM_cons] at hacc
      obtain ⟨mid, hmid, hacc⟩ := Option.bind_eq_some_iff.mp hacc
      obtain ⟨name, hname, rfl⟩ := Option.map_eq_some_iff.mp hmid
      obtain ⟨hkeep, hall⟩ := ih _ hacc
      refine ⟨fun r c hr => hkeep r c ?_, fun r hr => ?_⟩
      · rw [Dict.get_set]
        split_ifs with hc
        · rw [← hc] at hr
          exact mem_append_left _ hr
        · exact hr
      · rcases mem_cons.mp hr with rfl | hr
        · refine ⟨name, hname, hkeep r name ?_⟩
          rw [Dict.get_set, if_pos rfl]
          exact mem_append_right _ (mem_singleton_self r)
        · exact hall r hr
  obtain ⟨c, hname, hmem⟩ := (hfold misplaced [] h).2 r hr
  cases hget : batches.get c with
  | none =>
    rw [hget] at hmem
    cases hmem
  | some items =>
    rw [hget] at hmem
    exact ⟨(c, items), Dict.mem_of_get hget, hmem, hname⟩

/-- No misplaced row behind the point, where the query is not limited to none. -/
theorem none_misplaced (hper : perDiff ≠ 0) (h : s.getMisplacedSince point perDiff = []) {r : ObjectRow}
    (hr : r ∈ s.db.rows) (hlt : point < r.rowid) : ¬ Misplaced s r := by
  intro hm
  have hmem : r ∈ s.db.rows.filter fun r => point < r.rowid ∧ r.storagePolicyIndex ≠ s.storagePolicyIndex :=
    mem_filter.mpr ⟨hr, decide_eq_true ⟨hlt, hm⟩⟩
  unfold Replica.getMisplacedSince at h
  simp only at h
  split_ifs at h with hneg
  · rw [h] at hmem
    cases hmem
  · rcases take_eq_nil_iff.mp h with h | h
    · omega
    · rw [h] at hmem
      cases hmem

/-- A round has every misplaced row up to its last one. -/
theorem mem_misplaced (hwf : s.db.WellFormed) {last r : ObjectRow}
    (h : last ∈ s.getMisplacedSince point perDiff) (hr : r ∈ s.db.rows) (hlt : point < r.rowid) (hle : r.rowid ≤ last.rowid)
    (hm : Misplaced s r) : r ∈ s.getMisplacedSince point perDiff := by
  have hmem : r ∈ s.db.rows.filter fun r => point < r.rowid ∧ r.storagePolicyIndex ≠ s.storagePolicyIndex :=
    mem_filter.mpr ⟨hr, decide_eq_true ⟨hlt, hm⟩⟩
  have hsorted := hwf.sorted.filter fun r => decide (point < r.rowid ∧ r.storagePolicyIndex ≠ s.storagePolicyIndex)
  unfold Replica.getMisplacedSince at h ⊢
  simp only at h ⊢
  split_ifs at h ⊢
  · exact hmem
  · rw [← take_append_drop perDiff.toNat (List.filter _ _)] at hmem hsorted
    refine (mem_append.mp hmem).resolve_right fun hdrop => ?_
    have := (pairwise_append.mp hsorted).2.2 last h r hdrop
    omega

theorem rows_of_misplaced {r : ObjectRow} (h : r ∈ s.getMisplacedSince point perDiff) : r ∈ s.db.rows := by
  unfold Replica.getMisplacedSince at h
  simp only at h
  split_ifs at h
  · exact mem_of_mem_filter h
  · exact mem_of_mem_filter (mem_of_mem_take h)

/-- **Nothing misplaced behind a covered point**: every point is covered. -/
theorem Sound.covered_of_none (h : Sound md5 s) (hper : perDiff ≠ 0) (hnone : s.getMisplacedSince point perDiff = [])
    (hp : Covered s point) (hle : result ≤ s.db.seq) : Covered s result := by
  refine ⟨hle, fun r hr _ hm => ?_⟩
  by_cases hrp : (r.rowid : ℤ) ≤ point
  · exact hp.2 r hr hrp hm
  · refine Or.inr ((h.current r hr).resolve_left fun hrow => ?_)
    exact none_misplaced hper hnone hrow (not_le.mp hrp) hm

/-- **A round** starts with every row up to its last one answered for or in a batch. -/
theorem Sound.round (h : Sound md5 s) (hlow : Covered s lowSync) (hpoint : errors = false → Covered s point)
    (hresult : s.getMisplacedSince point perDiff = [] → Covered s result)
    (hs : s.round perDiff start lowSync errors point result = some s') : Sound md5 s' := by
  unfold Replica.round at hs
  simp only at hs
  cases hlast : (s.getMisplacedSince point perDiff).getLast? with
  | none =>
    rw [hlast] at hs
    obtain rfl := Option.some.inj hs
    exact h.reach (hresult (getLast?_eq_none_iff.mp hlast))
  | some last =>
    rw [hlast] at hs
    obtain ⟨batches, hbatches, rfl⟩ := Option.map_eq_some_iff.mp hs
    have hmem := mem_of_getLast? hlast
    have hrow := rows_of_misplaced hmem
    refine h.reach ⟨hlow, by exact_mod_cast (h.wellFormed.bound last hrow).2, fun he r hr hle hm => ?_⟩
    by_cases hrp : (r.rowid : ℤ) ≤ point
    · exact Or.inl ((hpoint he).2 r hr hrp hm)
    · rcases h.current r hr with hcur | hrep
      · refine Or.inr (mem_batchesOf hbatches ?_)
        exact mem_misplaced h.wellFormed hmem hcur (not_le.mp hrp) (by exact_mod_cast hle) hm
      · exact Or.inl (Or.inr hrep)

/-- **A hook's step.** -/
theorem Sound.next (h : Sound md5 s) (hper : perDiff ≠ 0) {stage : Stage} (hg : StageSound s stage)
    (hs : s.next perDiff stage = some s') : Sound md5 s' := by
  cases stage with
  | info maxRow =>
    unfold Replica.next at hs
    simp only at hs
    split_ifs at hs
    obtain rfl := Option.some.inj hs
    exact h.reach ⟨hg, h.point⟩
  | point maxRow point =>
    unfold Replica.next at hs
    simp only at hs
    split_ifs at hs with hsingle
    · obtain rfl := Option.some.inj hs
      refine h.reach ⟨hg.1, fun r hr _ hm => absurd ?_ hm⟩
      -- With one row in `policy_stat`, its policy is that of the container and of every row.
      have hone : ∀ p q, (s.db.policyStat.get p).isSome = true → (s.db.policyStat.get q).isSome = true → p = q := by
        intro p q hp hq
        obtain ⟨a, ha⟩ := Option.isSome_iff_exists.mp hp
        obtain ⟨b, hb⟩ := Option.isSome_iff_exists.mp hq
        have hlen : s.db.policyStat.length ≤ 1 := Nat.not_lt.mp hsingle.1
        have ha' := Dict.mem_of_get ha
        have hb' := Dict.mem_of_get hb
        generalize s.db.policyStat = stat at hlen ha' hb'
        match stat with
        | [] => cases ha'
        | [e] => exact congrArg Prod.fst ((mem_singleton.mp ha').trans (mem_singleton.mp hb').symm)
        | _ :: _ :: _ => exact absurd hlen (by simp)
      exact hone _ _ (h.policies r hr) h.own
    · obtain rfl := Option.some.inj hs
      exact h.reach hg.2
  | single maxRow =>
    obtain rfl := Option.some.inj hs
    exact h.write hg
  | dump point =>
    obtain rfl := Option.some.inj hs
    exact h.reach ⟨hg, maxRow_le s.db⟩
  | maxSync point maxSync =>
    exact h.round hg.1 (fun _ => hg.1) (fun hnone => h.covered_of_none hper hnone hg.1 hg.2) hs
  | feeding start lowSync errors batches last =>
    cases batches with
    | nil =>
      obtain rfl := Option.some.inj hs
      have hlast : errors = false → Covered s last := fun he =>
        ⟨hg.2.1, fun r hr hle hm => (hg.2.2 he r hr hle hm).resolve_right (by simp)⟩
      refine h.reach ⟨?_, hg.2.1, hlast⟩
      cases errors with
      | true => exact hg.1
      | false => exact hlast rfl
    | cons batch batches => cases hs
  | query start lowSync errors point => exact h.round hg.1 hg.2.2 (fun _ => hg.1) hs
  | dumped point maxSync => cases hs

/-- **A batch**: its rows are fed, or an error is noted. -/
theorem Sound.feed (h : Sound md5 s) {i : ℕ} {success : Bool} {stage : Stage} (hg : StageSound s stage)
    (hs : s.feed i success stage = some s') : Sound md5 s' := by
  cases stage with
  | feeding start lowSync errors batches last =>
    unfold Replica.feed at hs
    simp only at hs
    cases hbatch : batches[i]? with
    | none =>
      rw [hbatch] at hs
      cases hs
    | some batch =>
      rw [hbatch] at hs
      obtain rfl := Option.some.inj hs
      set fed := if success then s.fed ++ batch.2.map fun item =>
        (batch.1, translator s.account s.container item.toObjectRecord) else s.fed with hfed
      have hsub : ∀ e ∈ s.fed, e ∈ fed := by
        intro e he
        rw [hfed]
        split
        · exact mem_append_left _ he
        · exact he
      have hl : Later s { s with fed } :=
        ⟨rfl, le_rfl, fun _ hr => Or.inl hr, fun r ha => ha.imp_left fun hex =>
          hex.imp fun name hn => ⟨hn.1, hsub _ hn.2⟩⟩
      have hsound : Sound md5 { s with fed } :=
        ⟨h.wellFormed, h.audited, h.rows, h.bound, h.current, h.own, h.policies, h.point.later hl,
          fun stage hs => (h.stages stage hs).later hl⟩
      refine hsound.reach ⟨hg.1.later hl, hg.2.1, fun he r hr hle hm => ?_⟩
      obtain ⟨rfl, hsucc⟩ : errors = false ∧ success = true := by
        cases errors <;> cases success <;> simp_all
      rcases hg.2.2 rfl r hr hle hm with ha | hb
      · exact Or.inl (hl.answered r ha)
      · obtain ⟨b, hb, hrb, hname⟩ := hb
        -- The batch of the row is the one fed, or still to come.
        obtain ⟨j, hj⟩ := mem_iff_getElem?.mp hb
        by_cases hij : j = i
        · subst hij
          obtain rfl : batch = b := Option.some.inj (hbatch.symm.trans hj)
          refine Or.inl (Or.inl ⟨batch.1, hname, ?_⟩)
          rw [hfed, if_pos hsucc]
          exact mem_append_right _ (List.mem_map.mpr ⟨r, hrb, rfl⟩)
        · exact Or.inr ⟨b, mem_eraseIdx_iff_getElem?.mpr ⟨j, hij, hj⟩, hrb, hname⟩
  | _ => cases hs

/-- **The end of a hook.** -/
theorem Sound.finish (h : Sound md5 s) {responses : List Bool} {stage : Stage} (hg : StageSound s stage)
    (hs : s.finish responses stage = some s') : Sound md5 s' := by
  cases stage with
  | dumped point maxSync =>
    unfold Replica.finish at hs
    simp only at hs
    split_ifs at hs
    · obtain rfl := Option.some.inj hs
      exact h.write hg
    · exact Option.some.inj hs ▸ h
  | _ => cases hs

/-- **One step.** -/
theorem Sound.step (h : Sound md5 s) (hper : perDiff ≠ 0) {a : Act} (hs : s.step md5 perDiff a = some s') : Sound md5 s' := by
  cases a with
  | mergeItems order items source =>
    obtain ⟨db, hdb, rfl⟩ := Option.map_eq_some_iff.mp hs
    exact h.merge hdb
  | replicationInfo =>
    obtain rfl := Option.some.inj hs
    exact h.reach (maxRow_le s.db)
  | next stage =>
    unfold Replica.step at hs
    simp only at hs
    split_ifs at hs with hmem
    exact h.next hper (h.stages stage hmem) hs
  | feed stage i success =>
    unfold Replica.step at hs
    simp only at hs
    split_ifs at hs with hmem
    exact h.feed (h.stages stage hmem) hs
  | finish stage responses =>
    unfold Replica.step at hs
    simp only at hs
    split_ifs at hs with hmem
    exact h.finish (h.stages stage hmem) hs

end Rounds

/-- **No misplaced row is skipped**: up to the sync point, each was fed or has been replaced. -/
theorem feed_skips_nothing (md5 : Str → BitVec 128) {perDiff : ℤ} (hper : perDiff ≠ 0) (account container id : Str) (p : ℕ)
    {s : Replica} (h : Reach (Replica.step md5 perDiff) (fun _ _ => True) (Replica.new account container id p) s) :
    (∀ r ∈ s.db.rows, r ∈ s.inserted) ∧
      ∀ r ∈ s.inserted, (r.rowid : ℤ) ≤ s.reconcilerSyncPoint → r.storagePolicyIndex ≠ s.storagePolicyIndex → Answered s r := by
  have hsound : Sound md5 s := h.invariant (sound_new md5 account container id p) fun _ _ _ hi _ hs => hi.step hper hs
  exact ⟨hsound.rows, hsound.point.2⟩

/-! ## 6. One misplaced row -/

/-- A row of policy 1, and the container of policy 0 it is put to. -/
def misplacedRow : ObjectRow := ⟨⟨['o'], "0000000001.00000".toList, 5, [], ['e'], false, 1⟩, 1⟩

def policyZero : Replica := Replica.new ['a'] ['c'] ['i'] 0

/-- A merge, and a hook up to its first query. -/
def upToQuery : List Act :=
  [.mergeItems DictOrder.insertion [misplacedRow.toItem] none, .replicationInfo, .next (.info 1), .next (.point 1 (-1)),
    .next (.dump (-1)), .next (.maxSync (-1) 1)]

/-- The row is fed, and the point is 1. -/
def fedRun : List Act :=
  upToQuery ++ [.feed (.feeding (-1) (-1) false [(0, [misplacedRow])] 1) 0 true, .next (.feeding (-1) (-1) false [] 1),
    .next (.query (-1) 1 false 1), .finish (.dumped (-1) 1) [true, true, false]]

/-- The same with a `per_diff` of 1000. -/
theorem feed_skips_nothing_fed : (1000 : ℤ) ≠ 0 ∧ ∃ s, s.reconcilerSyncPoint = 1 ∧ s.db.rows = [misplacedRow] ∧
    s.storagePolicyIndex = 0 ∧ Answered s misplacedRow := by
  have hrun : (replay (Replica.step (fun _ => 0) 1000) (fun _ _ => True) policyZero fedRun).map (fun s =>
      decide (s.reconcilerSyncPoint = 1 ∧ s.db.rows = [misplacedRow] ∧ s.storagePolicyIndex = 0)) = some true := by
    decide +kernel
  obtain ⟨s, hs, hfacts⟩ := Option.map_eq_some_iff.mp hrun
  obtain ⟨hpoint, hrows, hpolicy⟩ := of_decide_eq_true hfacts
  obtain ⟨hinserted, hanswered⟩ := feed_skips_nothing (fun _ => 0) (by decide) ['a'] ['c'] ['i'] 0 (Reach.of_replay hs)
  have hmem : misplacedRow ∈ s.db.rows := hrows ▸ mem_singleton_self _
  refine ⟨by decide, s, hpoint, hrows, hpolicy, hanswered misplacedRow (hinserted _ hmem) ?_ ?_⟩
  · rw [hpoint]
    decide
  · rw [hpolicy]
    decide

/-- **With a `per_diff` of 0** the query finds nothing, and the point passes the row. -/
theorem perDiff_zero_skips : ∃ s, Reach (Replica.step (fun _ => 0) 0) (fun _ _ => True) policyZero s ∧
    misplacedRow ∈ s.db.rows ∧ misplacedRow ∈ s.inserted ∧ (misplacedRow.rowid : ℤ) ≤ s.reconcilerSyncPoint ∧
    misplacedRow.storagePolicyIndex ≠ s.storagePolicyIndex ∧ ¬ Answered s misplacedRow := by
  have hrun : (replay (Replica.step (fun _ => 0) 0) (fun _ _ => True) policyZero
      (upToQuery ++ [.finish (.dumped (-1) 1) [true, true, true]])).map (fun s =>
        decide (s.reconcilerSyncPoint = 1 ∧ s.db.rows = [misplacedRow] ∧ s.inserted = [misplacedRow] ∧
          s.storagePolicyIndex = 0 ∧ s.fed = [])) = some true := by
    decide +kernel
  obtain ⟨s, hs, hfacts⟩ := Option.map_eq_some_iff.mp hrun
  obtain ⟨hpoint, hrows, hinserted, hpolicy, hfed⟩ := of_decide_eq_true hfacts
  refine ⟨s, Reach.of_replay hs, hrows ▸ mem_singleton_self _, hinserted ▸ mem_singleton_self _, ?_, ?_, ?_⟩
  · rw [hpoint]
    decide
  · rw [hpolicy]
    decide
  · rintro (⟨name, -, hmem⟩ | ⟨r', hr', -, hlt⟩)
    · rw [hfed] at hmem
      cases hmem
    · rw [hrows] at hr'
      rw [mem_singleton.mp hr'] at hlt
      exact lt_irrefl _ hlt

end Mitaka.Swift.Reconciler
