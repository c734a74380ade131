/-
  Subject: swift/common/db_replicator.py, `ReplicatorRpc.rsync_then_merge`, with
           `newid`, and the sync point it leaves.

  The sender's database A is copied, the rows of the receiver's database B are
  merged into the copy, and the copy replaces B. Its sync point for A is the highest
  ROWID of the merged table. That is a ROWID of A's own only when nothing was merged
  (`loses_nothing_iff`): a row that was takes a ROWID that A hands out again.

  `Extends` is what the batches keep of the copy: it is as it was, or its highest
  ROWID is beyond A's sequence.
-/
import Mitaka.Swift.ContainerMerge

namespace Mitaka.Swift

open List

/-! ## 1. The code -/

/-- The `while` loop: the batches of the existing database behind `point`, merged
    into the new one. Every batch has its own dict order. -/
def mergeBatches (md5 : Str → BitVec 128) (orders : Nat → DictOrder) (existing : ContainerDb) :
    Nat → Int → ContainerDb → Option ContainerDb
  | 0, _, _ => none
  | fuel + 1, point, new =>
    let objects := existing.getItemsSince point 1000
    match objects.getLast? with
    | none => some new
    | some last =>
      (mergeItems md5 (orders fuel) new (objects.map ObjectRow.toItem) none).bind fun new =>
        mergeBatches md5 orders existing fuel last.rowid new

/-- `rsync_then_merge` on a copy of A. Every batch takes rows of `existing`, so there
    are no more of them than rows. -/
def rsyncThenMerge (md5 : Str → BitVec 128) (orders : Nat → DictOrder) (uuid : Str)
    (a existing : ContainerDb) : Option ContainerDb :=
  (mergeBatches md5 orders existing (existing.rows.length + 1) (-1) a).map
    fun new => new.newid uuid a.id

/-! ## 2. What the batches keep -/

/-- The table is as before, or its highest ROWID is a new one. -/
structure Extends (db db' : ContainerDb) : Prop where
  wellFormed : db'.WellFormed
  grown : (db'.rows = db.rows ∧ db'.seq = db.seq) ∨
    (db.seq < db'.seq ∧ ∃ r ∈ db'.rows, r.rowid = db'.seq)

variable {md5 : Str → BitVec 128} {order : DictOrder} {orders : Nat → DictOrder}
  {db db' db'' a b : ContainerDb} {items adds : List Item} {source : Option Str}

theorem Extends.refl (h : db.WellFormed) : Extends db db := ⟨h, Or.inl ⟨rfl, rfl⟩⟩

theorem Extends.trans (h : Extends db db') (h' : Extends db' db'') : Extends db db'' := by
  refine ⟨h'.wellFormed, ?_⟩
  rcases h.grown with ⟨h1, h2⟩ | ⟨h1, h2⟩
  · rw [← h1, ← h2]
    exact h'.grown
  · rcases h'.grown with ⟨g1, g2⟩ | ⟨g1, g2⟩
    · rw [g1, g2]
      exact Or.inr ⟨h1, h2⟩
    · exact Or.inr ⟨h1.trans g1, g2⟩

theorem mem_numbered_last (seq : Nat) {xs : List Item} (h : xs ≠ []) :
    ∃ r ∈ numbered seq xs, r.rowid = seq + xs.length := by
  induction xs generalizing seq with
  | nil => exact absurd rfl h
  | cons x xs ih =>
    cases xs with
    | nil => exact ⟨_, mem_cons_self, rfl⟩
    | cons y ys =>
      obtain ⟨r, hr, he⟩ := ih (seq + 1) (cons_ne_nil _ _)
      refine ⟨r, mem_cons_of_mem _ hr, he.trans ?_⟩
      simp only [length_cons]
      omega

theorem Merged.rows_of_nil (hm : Merged db items source db' []) :
    db'.rows = db.rows ∧ db'.seq = db.seq := by
  refine ⟨?_, hm.seq⟩
  rw [hm.rows]
  simp [numbered]

/-- **One batch extends the table.** -/
theorem Merged.extends (hm : Merged db items source db' adds) (hwf : db.WellFormed) :
    Extends db db' := by
  refine ⟨hm.wellFormed hwf, ?_⟩
  rcases adds.eq_nil_or_concat with rfl | ⟨l, x, hl⟩
  · exact Or.inl hm.rows_of_nil
  · have hne : adds ≠ [] := by simp [hl]
    obtain ⟨r, hr, he⟩ := mem_numbered_last db.seq hne
    refine Or.inr ⟨?_, r, hm.mem_rows.mpr (Or.inr hr), he.trans hm.seq.symm⟩
    rw [hm.seq]
    exact Nat.lt_add_of_pos_right (length_pos_of_ne_nil hne)

/-- The database answers for a row of another one: its own row of that name and
    policy has no older timestamp. -/
def Answers (db : ContainerDb) (r : ObjectRow) : Prop :=
  ∃ r' ∈ db.rows, r'.ident = r.ident ∧ Covers r'.toObjectRecord r.toItem

theorem Answers.congr (h : db'.rows = db.rows) {r : ObjectRow} : Answers db' r ↔ Answers db r := by
  rw [Answers, h, Answers]

theorem Answers.of_same (h : db.WellFormed) {r r' : ObjectRow} (hr : r' ∈ db.rows)
    (hi : r'.ident = r.ident) (hc : r'.createdAt = r.createdAt) : Answers db r := by
  obtain ⟨s, hs⟩ := (h.canonical r' hr).stamps
  obtain ⟨t, ht, -⟩ := Option.map_eq_some_iff.mp hs
  refine ⟨r', hr, hi, t, t, ht, ?_, le_rfl, le_rfl, le_rfl⟩
  rw [timestamps_plain rfl rfl rfl, ← ht, hc]
  rfl

/-- **A batch adds nothing exactly when the table answers for all of it.** -/
theorem Merged.seq_eq_iff {l : List ObjectRow}
    (hm : Merged db (l.map ObjectRow.toItem) source db' adds) :
    db'.seq = db.seq ↔ ∀ r ∈ l, Answers db r := by
  refine ⟨fun h r hr => ?_, fun h => ?_⟩
  · have hnil : adds = [] := eq_nil_of_length_eq_zero (by have := hm.seq; omega)
    subst hnil
    exact hm.covered r.toItem (List.mem_map_of_mem hr) (by simp)
  · rcases adds.eq_nil_or_concat with rfl | ⟨l', x, hl⟩
    · exact hm.seq
    · obtain ⟨y, hy, hyx, hnot⟩ := hm.origin x (by simp [hl])
      obtain ⟨r, hr, rfl⟩ := List.mem_map.mp hy
      obtain ⟨r', hr', he, hc⟩ := h r hr
      exact absurd hc (hnot r' hr' he)

/-- The rows of B behind a point. -/
def behind (b : ContainerDb) (point : Int) : List ObjectRow := b.rows.filter fun r => point < r.rowid

theorem behind_lt {point : Int} {last : ObjectRow} (hl : last ∈ b.rows) (hp : point < last.rowid) :
    (behind b last.rowid).length < (behind b point).length := by
  have hsub : behind b last.rowid = (behind b point).filter fun r => (last.rowid : Int) < r.rowid := by
    rw [behind, behind, List.filter_filter]
    refine filter_congr fun r _ => ?_
    rw [Bool.eq_iff_iff]
    simp only [decide_eq_true_eq, Bool.and_eq_true]
    exact ⟨fun h => ⟨h, hp.trans h⟩, fun h => h.1⟩
  rw [hsub]
  refine length_filter_lt_length_iff_exists.mpr ⟨last, ?_, by simp⟩
  exact mem_filter.mpr ⟨hl, decide_eq_true hp⟩

/-- **The loop ends**, and adds nothing exactly when the copy answers for every row
    behind the point. -/
theorem mergeBatches_spec (md5 : Str → BitVec 128) (orders : Nat → DictOrder) (hb : b.WellFormed)
    {fuel : Nat} {point : Int} (hf : (behind b point).length < fuel) (ha : a.WellFormed) :
    ∃ n, mergeBatches md5 orders b fuel point a = some n ∧ Extends a n ∧ n.id = a.id ∧
      (n.seq = a.seq ↔ ∀ r ∈ b.rows, point < r.rowid → Answers a r) := by
  induction fuel generalizing point a with
  | zero => exact absurd hf (Nat.not_lt_zero _)
  | succ fuel ih =>
    rw [mergeBatches]
    cases hlast : (b.getItemsSince point 1000).getLast? with
    | none =>
      refine ⟨a, rfl, Extends.refl ha, rfl, fun _ r hr hp => ?_, fun _ => rfl⟩
      exact absurd (getItemsSince_none (by decide) hlast r hr) (not_le.mpr hp)
    | some last =>
      obtain ⟨hmem, hgap⟩ := getItemsSince_last hb hlast
      obtain ⟨hl, hp⟩ := mem_getItemsSince hmem
      have hparse : ∀ x ∈ (b.getItemsSince point 1000).map ObjectRow.toItem,
          x.stamps.isSome = true := by
        intro x hx
        obtain ⟨r, hr, rfl⟩ := List.mem_map.mp hx
        obtain ⟨h1, s, h2⟩ := stamps_toItem hb (mem_getItemsSince hr).1
        rw [h1, h2]
        rfl
      obtain ⟨a1, h1⟩ := mergeItems_isSome md5 (orders fuel) ha hparse
      obtain ⟨adds, hm⟩ := merged_mergeItems ha h1
      have hext := hm.extends ha
      obtain ⟨n, hn, hext', hid, hseq⟩ := ih (Nat.lt_of_lt_of_le (behind_lt hl hp)
        (Nat.lt_succ_iff.mp hf)) hext.wellFormed
      refine ⟨n, by dsimp only; rw [h1]; exact hn, hext.trans hext', hid.trans hm.id, ?_⟩
      have hsplit : n.seq = a.seq ↔ n.seq = a1.seq ∧ a1.seq = a.seq := by
        have g1 : a.seq ≤ a1.seq := hext.grown.elim (fun h => h.2.ge) fun h => h.1.le
        have g2 : a1.seq ≤ n.seq := hext'.grown.elim (fun h => h.2.ge) fun h => h.1.le
        omega
      rw [hsplit, hseq, hm.seq_eq_iff]
      refine ⟨fun ⟨hrest, hbatch⟩ r hr hpr => ?_, fun h => ?_⟩
      · have hsame : a1.seq = a.seq := hm.seq_eq_iff.mpr hbatch
        have hrows : a1.rows = a.rows :=
          hext.grown.elim And.left fun h => absurd hsame h.1.ne'
        by_cases hle : r.rowid ≤ last.rowid
        · exact hbatch r ((hgap r hr).mpr ⟨hpr, hle⟩)
        · exact (Answers.congr hrows).mp (hrest r hr (by exact_mod_cast not_le.mp hle))
      · have hbatch : ∀ r ∈ b.getItemsSince point 1000, Answers a r := fun r hr =>
          h r (mem_getItemsSince hr).1 (mem_getItemsSince hr).2
        have hsame : a1.seq = a.seq := hm.seq_eq_iff.mpr hbatch
        have hrows : a1.rows = a.rows :=
          hext.grown.elim And.left fun h => absurd hsame h.1.ne'
        exact ⟨fun r hr hpr => (Answers.congr hrows).mpr (h r hr (hp.trans hpr)), hbatch⟩

/-! ## 3. The sync point -/

/-- The databases A may become: any `merge_items` calls. -/
inductive Writes (md5 : Str → BitVec 128) (a : ContainerDb) : ContainerDb → Prop
  | refl : Writes md5 a a
  | step {db db' : ContainerDb} {order : DictOrder} {items : List Item} {source : Option Str} :
      Writes md5 a db → mergeItems md5 order db items source = some db' → Writes md5 a db'

/-- Every row A inserts later is dominated in the receiver's database, or lies
    behind the sync point the receiver has for A. -/
def LosesNothing (md5 : Str → BitVec 128) (a n : ContainerDb) : Prop :=
  ∀ a', Writes md5 a a' → ∀ r ∈ a'.rows, r ∉ a.rows →
    (∃ s, stamps r.createdAt = some s ∧ Dominated r.ident s n) ∨
      getSync n.incomingSync a.id < r.rowid

/-- What A inserts later has new ROWIDs. -/
theorem Writes.rowid (h : Writes md5 a db) (ha : a.WellFormed) :
    db.WellFormed ∧ a.seq ≤ db.seq ∧ ∀ r ∈ db.rows, r ∈ a.rows ∨ a.seq < r.rowid := by
  induction h with
  | refl => exact ⟨ha, le_rfl, fun r hr => Or.inl hr⟩
  | step _ hstep ih =>
    obtain ⟨hwf, hseq, hrows⟩ := ih
    obtain ⟨adds, hm⟩ := merged_mergeItems hwf hstep
    refine ⟨hm.wellFormed hwf, hseq.trans (hm.seq ▸ Nat.le_add_right _ _), fun r hr => ?_⟩
    rcases hm.rowid hr with hr | hr
    · exact hrows r hr
    · exact Or.inr (hseq.trans_lt hr)

theorem getSync_newid (db : ContainerDb) (uuid remoteId : Str) :
    getSync (db.newid uuid remoteId).incomingSync remoteId =
      (db.rows.getLast?.map fun r => (r.rowid : Int)).getD (-1) := by
  rw [ContainerDb.newid, getSync, Dict.get_set, if_pos rfl]
  cases db.rows.getLast? <;> rfl

/-- The sync point is the ROWID of a row, and no row has a greater one. -/
theorem rowid_le_newid (h : db.WellFormed) (uuid remoteId : Str) {r : ObjectRow} (hr : r ∈ db.rows) :
    (r.rowid : Int) ≤ getSync (db.newid uuid remoteId).incomingSync remoteId := by
  rw [getSync_newid]
  obtain ⟨before, last, hl⟩ := db.rows.eq_nil_or_concat.resolve_left (ne_nil_of_mem hr)
  have hsorted := h.sorted
  rw [concat_eq_append] at hl
  rw [hl] at hr hsorted ⊢
  rw [getLast?_concat]
  rcases mem_append.mp hr with hr | hr
  · have := (pairwise_append.mp hsorted).2.2 r hr last (mem_singleton_self _)
    exact Int.ofNat_le.mpr this.le
  · rw [mem_singleton.mp hr]
    exact le_rfl

theorem newid_le_seq (h : db.WellFormed) (uuid remoteId : Str) :
    getSync (db.newid uuid remoteId).incomingSync remoteId ≤ db.seq := by
  rw [getSync_newid]
  cases hl : db.rows.getLast? with
  | none => exact (by decide : (-1 : Int) ≤ 0).trans (Int.natCast_nonneg _)
  | some r => exact Int.ofNat_le.mpr (h.bound r (mem_of_getLast? hl)).2

/-- **A name that no database has is inserted behind A's sequence.** -/
theorem exists_later_row (md5 : Str → BitVec 128) (ha : a.WellFormed) (n : ContainerDb) :
    ∃ a', Writes md5 a a' ∧ ∃ r ∈ a'.rows, r.rowid = a.seq + 1 ∧ r ∉ a.rows ∧
      ∀ s, ¬ Dominated r.ident s n := by
  obtain ⟨name, hname⟩ := Infinite.exists_notMem_finset
    ((a.rows ++ n.rows).map fun r => r.name).toFinset
  have hfree : ∀ r ∈ a.rows ++ n.rows, r.name ≠ name := fun r hr he =>
    hname (List.mem_toFinset.mpr (he ▸ List.mem_map_of_mem hr))
  let x : Item := ⟨⟨name, "0000000000.00000".toList, 0, [], [], false, 0⟩, none, none, none, none⟩
  have hx : ∀ y ∈ [x], y.stamps.isSome = true := fun y hy => by
    rw [mem_singleton.mp hy, stamps_plain rfl rfl rfl]
    exact (by decide +kernel : (stamps "0000000000.00000".toList).isSome = true)
  obtain ⟨a', ha'⟩ := mergeItems_isSome md5 DictOrder.insertion ha hx
  obtain ⟨adds, hm⟩ := merged_mergeItems ha ha'
  obtain ⟨r, hr, hrx⟩ := hm.idents_iff.mpr (Or.inr ⟨x, mem_singleton_self x, rfl⟩)
  have hrn : r.name = name := congrArg Prod.fst hrx
  have hnew : r ∉ a.rows := fun h => hfree r (mem_append_left _ h) hrn
  have hone : adds.length ≤ 1 := by
    have hall : ∀ k ∈ adds.map fun y => y.ident, k = x.ident := fun k hk => by
      obtain ⟨y, hy, rfl⟩ := List.mem_map.mp hk
      obtain ⟨z, hz, he, -⟩ := hm.origin y hy
      rw [← he, mem_singleton.mp hz]
    have := (nodup_iff_count_le_one.mp hm.nodup) x.ident
    rw [count_eq_length.mpr fun k hk => (hall k hk).symm, length_map] at this
    exact this
  have hbound := ((hm.wellFormed ha).bound r hr).2
  refine ⟨a', Writes.refl.step ha', r, hr, ?_, hnew, fun s ⟨r', hr', he, _⟩ => ?_⟩
  · have h1 := (hm.rowid hr).resolve_left hnew
    rw [hm.seq] at hbound
    omega
  · exact hfree r' (mem_append_right _ hr') ((congrArg Prod.fst he).trans hrn)

/-- **`rsync_then_merge` loses no later update exactly when it merges nothing**: when
    A already answers for every row of B. -/
theorem rsync_then_merge_loses_nothing_iff (md5 : Str → BitVec 128) (orders : Nat → DictOrder)
    (uuid : Str) (ha : a.WellFormed) (hb : b.WellFormed) :
    ∃ n, rsyncThenMerge md5 orders uuid a b = some n ∧
      (LosesNothing md5 a n ↔ ∀ r ∈ b.rows, Answers a r) := by
  have hfuel : (behind b (-1)).length < b.rows.length + 1 :=
    Nat.lt_succ_of_le (List.length_filter_le _ _)
  obtain ⟨n, hn, hext, -, hseq⟩ := mergeBatches_spec md5 orders hb hfuel ha
  have hall : n.seq = a.seq ↔ ∀ r ∈ b.rows, Answers a r := by
    rw [hseq]
    exact forall₂_congr fun r _ => ⟨fun h => h (by omega), fun h _ => h⟩
  refine ⟨n.newid uuid a.id, by rw [rsyncThenMerge, hn]; rfl, ?_⟩
  rw [← hall]
  refine ⟨fun h => ?_, fun h a' ha' r hr hnew => Or.inr ?_⟩
  · -- a merged row has the ROWID that A's next row gets
    by_contra hne
    obtain ⟨hlt, top, htop, hrow⟩ := hext.grown.resolve_left fun h => hne h.2
    obtain ⟨a', ha', r, hr, hrow', hnew, hnot⟩ := exists_later_row md5 ha (n.newid uuid a.id)
    rcases h a' ha' r hr hnew with ⟨s, -, hs⟩ | hlater
    · exact hnot s hs
    · have := rowid_le_newid hext.wellFormed uuid a.id htop
      omega
  · obtain ⟨-, -, hrows⟩ := ha'.rowid ha
    have hlater := (hrows r hr).resolve_left hnew
    have := newid_le_seq hext.wellFormed uuid a.id
    omega

/-- A holds object o, B holds object p, and object q is put to A after the rsync; the
    md5 sums of the three. -/
def rsyncO : Item :=
  ⟨⟨"o".toList, "0000000001.00000".toList, 5, [], "e1".toList, false, 0⟩, none, none, none, none⟩

def rsyncP : Item :=
  ⟨⟨"p".toList, "0000000003.00000".toList, 7, [], "e3".toList, false, 0⟩, none, none, none, none⟩

def rsyncQ : Item :=
  ⟨⟨"q".toList, "0000000004.00000".toList, 9, [], "e4".toList, false, 0⟩, none, none, none, none⟩

def rsyncMd5 (s : Str) : BitVec 128 :=
  if s = "o-0000000001.00000".toList then 0x74930d4241dd50160de5da0a94a90443#128
  else if s = "p-0000000003.00000".toList then 0x838e8c7bc5de2ca3ec8e375635e4047b#128
  else if s = "q-0000000004.00000".toList then 0x1e62082da638c373e2c2a89d2d6c13ca#128
  else 0

/-- A new database with one object put to it. -/
def rsyncDb (id : Str) (x : Item) : Option ContainerDb :=
  mergeItems rsyncMd5 DictOrder.insertion (ContainerDb.fresh id 0) [x] none

theorem wellFormed_rsyncDb {id : Str} {x : Item} (h : rsyncDb id x = some a) : a.WellFormed := by
  obtain ⟨adds, hm⟩ := merged_mergeItems (wellFormed_fresh id 0) h
  exact hm.wellFormed (wellFormed_fresh id 0)

/-- **Object q is lost**: it has ROWID 2 in A, the sync point for A is 2, and the
    receiver has no such object. -/
theorem rsync_then_merge_loses_update : ∃ a b n, rsyncDb "a".toList rsyncO = some a ∧
    rsyncDb "b".toList rsyncP = some b ∧ a.WellFormed ∧ b.WellFormed ∧
    rsyncThenMerge rsyncMd5 (fun _ => DictOrder.insertion) "n".toList a b = some n ∧
    ¬ LosesNothing rsyncMd5 a n := by
  have hlost : (do
      let a ← rsyncDb "a".toList rsyncO
      let b ← rsyncDb "b".toList rsyncP
      let n ← rsyncThenMerge rsyncMd5 (fun _ => DictOrder.insertion) "n".toList a b
      let a' ← mergeItems rsyncMd5 DictOrder.insertion a [rsyncQ] none
      some (decide (∃ r ∈ a'.rows, r ∉ a.rows ∧ (∀ r' ∈ n.rows, r'.ident ≠ r.ident) ∧
        (r.rowid : Int) ≤ getSync n.incomingSync a.id))) = some true := by decide +kernel
  obtain ⟨a, ha, hlost⟩ := Option.bind_eq_some_iff.mp hlost
  obtain ⟨b, hb, hlost⟩ := Option.bind_eq_some_iff.mp hlost
  obtain ⟨n, hn, hlost⟩ := Option.bind_eq_some_iff.mp hlost
  obtain ⟨a', ha', hlost⟩ := Option.bind_eq_some_iff.mp hlost
  obtain ⟨r, hr, hnew, hnone, hpoint⟩ := of_decide_eq_true (Option.some.inj hlost)
  refine ⟨a, b, n, ha, hb, wellFormed_rsyncDb ha, wellFormed_rsyncDb hb, hn, fun h => ?_⟩
  rcases h a' (Writes.refl.step ha') r hr hnew with ⟨s, -, r', hr', he, -⟩ | hlater
  · exact hnone r' hr' he
  · exact absurd hlater (not_lt.mpr hpoint)

/-- Two copies of one object: nothing is merged, and nothing is lost. -/
theorem rsync_then_merge_loses_nothing_same : ∃ a b n, rsyncDb "a".toList rsyncO = some a ∧
    rsyncDb "b".toList rsyncO = some b ∧
    rsyncThenMerge rsyncMd5 (fun _ => DictOrder.insertion) "n".toList a b = some n ∧
    LosesNothing rsyncMd5 a n := by
  have hsame : (do
      let a ← rsyncDb "a".toList rsyncO
      let b ← rsyncDb "b".toList rsyncO
      some (decide (∀ r ∈ b.rows, ∃ r' ∈ a.rows, r'.ident = r.ident ∧ r'.createdAt = r.createdAt))) =
        some true := by decide +kernel
  obtain ⟨a, ha, hsame⟩ := Option.bind_eq_some_iff.mp hsame
  obtain ⟨b, hb, hsame⟩ := Option.bind_eq_some_iff.mp hsame
  obtain ⟨n, hn, hiff⟩ := rsync_then_merge_loses_nothing_iff rsyncMd5
    (fun _ => DictOrder.insertion) "n".toList (wellFormed_rsyncDb ha) (wellFormed_rsyncDb hb)
  refine ⟨a, b, n, ha, hb, hn, hiff.mpr fun r hr => ?_⟩
  obtain ⟨r', hr', hi, hc⟩ := of_decide_eq_true (Option.some.inj hsame) r hr
  exact Answers.of_same (wellFormed_rsyncDb ha) hr' hi hc

end Mitaka.Swift
