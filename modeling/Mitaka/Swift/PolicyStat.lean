/-
  Subject: swift/container/backend.py, `POLICY_STAT_TRIGGER_SCRIPT`,
           `_migrate_add_storage_policy`, `set_storage_policy_index`;
           swift/common/db.py, `reclaim`.

  A database is of the schema before storage policies, with a `container_stat` table
  that its own triggers keep, or of the current one. The first call that needs a
  policy migrates it.

  Statistics and hash are sums over the rows, so they stay exact when one row is
  inserted or deleted, and over any run (`Database.exact_of_reach`). The migration
  copies a list of columns in which `reported_delete_timestamp` is missing.

  Which sync rows are too old, and the metadata that `_reclaim` leaves, are parameters.
-/
import Mitaka.Lib.Run
import Mitaka.Swift.ContainerBroker

namespace Mitaka.Swift

open List

/-! ## 1. The schema before storage policies -/

/-- A row of the object table without its policy. -/
structure OldRow where
  rowid : Nat
  name : Str
  createdAt : Str
  size : Int
  contentType : Str
  etag : Str
  deleted : Bool
  deriving DecidableEq

/-- The row of `container_stat`. The metadata and the sync points are columns that
    were added later. -/
structure ContainerStat where
  account : Str
  container : Str
  createdAt : Str
  putTimestamp : Str
  deleteTimestamp : Str
  objectCount : Int
  bytesUsed : Int
  reportedPutTimestamp : Str
  reportedDeleteTimestamp : Str
  reportedObjectCount : Int
  reportedBytesUsed : Int
  hash : BitVec 128
  id : Str
  status : Str
  statusChangedAt : Str
  metadata : Option Str
  syncPoints : Option (Int × Int)
  deriving DecidableEq

structure OldDatabase where
  rows : List OldRow
  seq : Nat
  stat : ContainerStat
  incomingSync : Dict Str Int
  outgoingSync : Dict Str Int
  deriving DecidableEq

/-- The trigger `object_delete`. -/
def objectDelete (md5 : Str → BitVec 128) (stat : ContainerStat) (old : OldRow) : ContainerStat :=
  { stat with
    objectCount := stat.objectCount - (1 - old.deleted.toNat)
    bytesUsed := stat.bytesUsed - old.size
    hash := chexor md5 stat.hash old.name old.createdAt }

/-! ## 2. The current schema -/

/-- The row of `container_info` without the id and the hash. -/
structure InfoColumns where
  account : Str
  container : Str
  createdAt : Str
  putTimestamp : Str := ['0']
  deleteTimestamp : Str := ['0']
  reportedPutTimestamp : Str := ['0']
  reportedDeleteTimestamp : Str := ['0']
  reportedObjectCount : Int := 0
  reportedBytesUsed : Int := 0
  status : Str := []
  statusChangedAt : Str := ['0']
  metadata : Str := []
  xContainerSyncPoint1 : Int := -1
  xContainerSyncPoint2 : Int := -1
  storagePolicyIndex : Nat := 0
  reconcilerSyncPoint : Int := -1
  deriving DecidableEq

/-- A container database of either schema. -/
inductive Database where
  | prePolicy (old : OldDatabase)
  | current (db : ContainerDb) (info : InfoColumns)
  deriving DecidableEq

/-- What `policy_stat` says of a policy; no row means zero. -/
def statOf (stat : Dict Nat (Int × Int)) (p : Nat) : Int × Int := (stat.get p).getD (0, 0)

/-- The columns of the view `container_stat` that were columns of the old table. -/
def containerStat (db : ContainerDb) (info : InfoColumns) : ContainerStat where
  account := info.account
  container := info.container
  createdAt := info.createdAt
  putTimestamp := info.putTimestamp
  deleteTimestamp := info.deleteTimestamp
  objectCount := (statOf db.policyStat info.storagePolicyIndex).1
  bytesUsed := (statOf db.policyStat info.storagePolicyIndex).2
  reportedPutTimestamp := info.reportedPutTimestamp
  reportedDeleteTimestamp := info.reportedDeleteTimestamp
  reportedObjectCount := info.reportedObjectCount
  reportedBytesUsed := info.reportedBytesUsed
  hash := db.hash
  id := db.id
  status := info.status
  statusChangedAt := info.statusChangedAt
  metadata := some info.metadata
  syncPoints := some (info.xContainerSyncPoint1, info.xContainerSyncPoint2)

/-! ## 3. The migration -/

/-- The pending migrations of `container_stat`, each left out when its columns exist. -/
def pendingMigrations (stat : ContainerStat) : ContainerStat :=
  { stat with
    metadata := some (stat.metadata.getD [])
    syncPoints := some (stat.syncPoints.getD (-1, -1)) }

/-- `ADD COLUMN storage_policy_index INTEGER DEFAULT 0`. -/
def OldRow.addPolicy (r : OldRow) : ObjectRow where
  name := r.name
  createdAt := r.createdAt
  size := r.size
  contentType := r.contentType
  etag := r.etag
  deleted := r.deleted
  storagePolicyIndex := 0
  rowid := r.rowid

/-- `INSERT INTO container_info (column_names) SELECT column_names FROM container_stat`.
    Any other column has its default. -/
def migratedInfo (stat : ContainerStat) : InfoColumns where
  account := stat.account
  container := stat.container
  createdAt := stat.createdAt
  putTimestamp := stat.putTimestamp
  deleteTimestamp := stat.deleteTimestamp
  reportedPutTimestamp := stat.reportedPutTimestamp
  reportedObjectCount := stat.reportedObjectCount
  reportedBytesUsed := stat.reportedBytesUsed
  status := stat.status
  statusChangedAt := stat.statusChangedAt
  metadata := stat.metadata.getD []
  xContainerSyncPoint1 := (stat.syncPoints.getD (-1, -1)).1
  xContainerSyncPoint2 := (stat.syncPoints.getD (-1, -1)).2

/-- `_migrate_add_storage_policy`: the tables. -/
def migratedDb (old : OldDatabase) : ContainerDb where
  id := old.stat.id
  rows := old.rows.map OldRow.addPolicy
  seq := old.seq
  policyStat := [(0, (old.stat.objectCount, old.stat.bytesUsed))]
  hash := old.stat.hash
  incomingSync := old.incomingSync
  outgoingSync := old.outgoingSync

/-- `_migrate_add_storage_policy`: the info. -/
def OldDatabase.info (old : OldDatabase) : InfoColumns := migratedInfo (pendingMigrations old.stat)

/-! ## 4. The calls -/

section Calls

variable (md5 : Str → BitVec 128)

/-- `DELETE FROM object WHERE …`, with its trigger for each row. -/
def deleteRows (db : ContainerDb) (p : ObjectRow → Bool) : ContainerDb :=
  { (db.rows.filter p).foldl (fun db r => deleteTrigger md5 db r.toObjectRecord) db with
    rows := db.rows.filter (!p ·) }

/-- The same before storage policies. -/
def deleteOldRows (old : OldDatabase) (p : OldRow → Bool) : OldDatabase :=
  { old with
    rows := old.rows.filter (!p ·)
    stat := (old.rows.filter p).foldl (objectDelete md5) old.stat }

/-- What of the sync tables and of the metadata is too old. -/
structure Stale where
  incoming : Str → Bool
  outgoing : Str → Bool
  metadata : Str → Str

/-- `reclaim`. -/
def reclaim (ageTimestamp : Str) (stale : Stale) : Database → Database
  | .prePolicy old =>
    let old := deleteOldRows md5 old fun r => r.deleted && decide (r.createdAt < ageTimestamp)
    .prePolicy
      { old with
        stat := { old.stat with metadata := old.stat.metadata.map stale.metadata }
        outgoingSync := old.outgoingSync.filter fun e => !stale.outgoing e.1
        incomingSync := old.incomingSync.filter fun e => !stale.incoming e.1 }
  | .current db info =>
    let db := deleteRows md5 db fun r => r.deleted && decide (r.createdAt < ageTimestamp)
    .current
      { db with
        outgoingSync := db.outgoingSync.filter fun e => !stale.outgoing e.1
        incomingSync := db.incomingSync.filter fun e => !stale.incoming e.1 }
      { info with metadata := stale.metadata info.metadata }

/-- `_setit`: the row of the policy is inserted, or ignored. -/
def setit (policyIndex : Nat) (timestamp : Str) (db : ContainerDb) (info : InfoColumns) : Database :=
  .current
    { db with
      policyStat := if (db.policyStat.get policyIndex).isSome then db.policyStat
        else db.policyStat.set policyIndex (0, 0) }
    (if info.storagePolicyIndex ≠ policyIndex then
      { info with
        storagePolicyIndex := policyIndex
        statusChangedAt := if info.statusChangedAt < timestamp then timestamp else info.statusChangedAt }
    else info)

/-- A call on the database. -/
inductive DbCall where
  | mergeItems (order : DictOrder) (items : List Item) (source : Option Str)
  | reclaim (ageTimestamp : Str) (stale : Stale)
  | setStoragePolicyIndex (policyIndex : Nat) (timestamp : Str)
  | migrate

/-- The database after a call; `none` when the call raises and changes nothing. Without
    a policy column, the first query on it fails: the call migrates and tries again. -/
def Database.call : Database → DbCall → Option Database
  | .current db info, .mergeItems order items source =>
    (Swift.mergeItems md5 order db items source).map fun db => .current db info
  | .prePolicy old, .mergeItems order items source =>
    if items = [] then if source.getD [] = [] then some (.prePolicy old) else none
    else
      match Swift.mergeItems md5 order (migratedDb old) items source with
      | some db => some (.current db old.info)
      | none => some (.current (migratedDb old) old.info)
  | s, .reclaim ageTimestamp stale => some (Swift.reclaim md5 ageTimestamp stale s)
  | .current db info, .setStoragePolicyIndex policyIndex timestamp =>
    some (setit policyIndex timestamp db info)
  | .prePolicy old, .setStoragePolicyIndex policyIndex timestamp =>
    some (setit policyIndex timestamp (migratedDb old) old.info)
  | .current _ _, .migrate => none
  | .prePolicy old, .migrate => some (.current (migratedDb old) old.info)

end Calls

/-! ## 5. Exact statistics -/

/-- The XOR of all. -/
def xorAll (l : List (BitVec 128)) : BitVec 128 := l.foldr (· ^^^ ·) 0

/-- The md5 of `name-created_at`. -/
def entryHash (md5 : Str → BitVec 128) (name createdAt : Str) : BitVec 128 := md5 (name ++ '-' :: createdAt)

def policyCount (rows : List ObjectRow) (p : Nat) : Int :=
  (rows.filter fun r => r.storagePolicyIndex = p ∧ r.deleted = false).length

def policyBytes (rows : List ObjectRow) (p : Nat) : Int :=
  ((rows.filter fun r => r.storagePolicyIndex = p).map fun r => r.size).sum

/-- The statistics are those of the rows. -/
def Database.Exact (md5 : Str → BitVec 128) : Database → Prop
  | .prePolicy old =>
    old.stat.objectCount = (old.rows.filter fun r => r.deleted = false).length ∧
    old.stat.bytesUsed = (old.rows.map OldRow.size).sum ∧
    old.stat.hash = xorAll (old.rows.map fun r => entryHash md5 r.name r.createdAt)
  | .current db _ =>
    (∀ p, statOf db.policyStat p = (policyCount db.rows p, policyBytes db.rows p)) ∧
    db.hash = xorAll (db.rows.map fun r => entryHash md5 r.name r.createdAt)

/-- A new database, or one of the old schema that its own triggers kept exact. -/
def Database.Initial (md5 : Str → BitVec 128) : Database → Prop
  | .prePolicy old => (Database.prePolicy old).Exact md5
  | .current db info => ∃ id, db = ContainerDb.fresh id info.storagePolicyIndex

/-- What a row adds to the statistics of a policy. -/
def share (p : Nat) (r : ObjectRecord) : Int × Int :=
  if r.storagePolicyIndex = p then (1 - r.deleted.toNat, r.size) else (0, 0)

theorem sum_share (rows : List ObjectRow) (p : Nat) :
    (rows.map fun r => share p r.toObjectRecord).sum = (policyCount rows p, policyBytes rows p) := by
  induction rows with
  | nil => rfl
  | cons r rows ih =>
    rw [map_cons, sum_cons, ih, share, policyCount, policyBytes, policyCount, policyBytes]
    by_cases hp : r.storagePolicyIndex = p
    · cases hd : r.deleted
      · simp [hp, hd]
        omega
      · simp [hp, hd]
    · simp [hp]

section

variable {md5 : Str → BitVec 128}

/-- The invariant of the current schema: sums, and a `policy_stat` row for the policy
    of every row. -/
structure StatInv (md5 : Str → BitVec 128) (db : ContainerDb) : Prop where
  stat : ∀ p, statOf db.policyStat p = (db.rows.map fun r => share p r.toObjectRecord).sum
  hash : db.hash = xorAll (db.rows.map fun r => entryHash md5 r.name r.createdAt)
  known : ∀ r ∈ db.rows, (db.policyStat.get r.storagePolicyIndex).isSome = true

theorem xorAll_perm {l l' : List (BitVec 128)} (h : l.Perm l') : xorAll l = xorAll l' := by
  refine h.foldr_eq' (fun x _ y _ z => ?_) 0
  rw [← BitVec.xor_assoc, ← BitVec.xor_assoc, BitVec.xor_comm y x]

theorem xorAll_append (l l' : List (BitVec 128)) : xorAll (l ++ l') = xorAll l ^^^ xorAll l' := by
  induction l with
  | nil => exact (BitVec.zero_xor).symm
  | cons x l ih =>
    change x ^^^ xorAll (l ++ l') = (x ^^^ xorAll l) ^^^ xorAll l'
    rw [ih, BitVec.xor_assoc]

/-- One more row. -/
theorem statOf_insertPolicyStat (stat : Dict Nat (Int × Int)) (r : ObjectRecord) (p : Nat) :
    statOf (insertPolicyStat stat r) p = statOf stat p + share p r := by
  rw [insertPolicyStat, share]
  by_cases hp : r.storagePolicyIndex = p
  · subst hp
    rw [if_pos rfl]
    cases hg : stat.get r.storagePolicyIndex with
    | none =>
      simp only [statOf, hg, Dict.get_set, if_true, Option.getD_some, Option.getD_none]
      simp
    | some e =>
      simp only [statOf, hg, Dict.get_set, if_true, Option.getD_some]
      rfl
  · rw [if_neg hp]
    cases stat.get r.storagePolicyIndex with
    | none =>
      simp only [statOf, Dict.get_set, if_neg hp]
      exact (add_zero _).symm
    | some e =>
      simp only [statOf, Dict.get_set, if_neg hp]
      exact (add_zero _).symm

variable {stat : Dict Nat (Int × Int)} {r : ObjectRecord}

/-- One row less. -/
theorem statOf_deletePolicyStat
    (h : (stat.get r.storagePolicyIndex).isSome = true) (p : Nat) :
    statOf (deletePolicyStat stat r) p = statOf stat p - share p r := by
  obtain ⟨e, he⟩ := Option.isSome_iff_exists.mp h
  rw [deletePolicyStat, share, he]
  by_cases hp : r.storagePolicyIndex = p
  · subst hp
    rw [if_pos rfl]
    simp only [statOf, he, Dict.get_set, if_true, Option.getD_some]
    rfl
  · rw [if_neg hp]
    simp only [statOf, Dict.get_set, if_neg hp]
    exact (sub_zero _).symm

theorem isSome_insertPolicyStat {p : Nat}
    (h : (stat.get p).isSome = true ∨ p = r.storagePolicyIndex) :
    ((insertPolicyStat stat r).get p).isSome = true := by
  rw [insertPolicyStat]
  cases stat.get r.storagePolicyIndex with
  | none =>
    dsimp only
    rw [Dict.get_set]
    split
    · rfl
    · exact h.resolve_right (Ne.symm ‹_›)
  | some e =>
    dsimp only
    rw [Dict.get_set]
    split
    · rfl
    · exact h.resolve_right (Ne.symm ‹_›)

theorem isSome_deletePolicyStat {p : Nat}
    (h : (stat.get p).isSome = true) : ((deletePolicyStat stat r).get p).isSome = true := by
  rw [deletePolicyStat]
  cases stat.get r.storagePolicyIndex with
  | none => exact h
  | some e =>
    dsimp only
    rw [Dict.get_set]
    split
    · rfl
    · exact h

variable {db : ContainerDb}

theorem StatInv.insertRow (h : StatInv md5 db) (r : ObjectRecord) :
    StatInv md5 (insertRow md5 db r) := by
  refine ⟨fun p => ?_, ?_, fun x hx => ?_⟩
  · change statOf (insertPolicyStat db.policyStat r) p = _
    rw [statOf_insertPolicyStat, h.stat p]
    simp [Swift.insertRow]
  · change chexor md5 db.hash r.name r.createdAt = _
    rw [chexor, h.hash, Swift.insertRow, map_append, xorAll_append]
    congr 1
    exact BitVec.xor_zero.symm
  · refine isSome_insertPolicyStat ?_
    rcases mem_append.mp hx with hx | hx
    · exact Or.inl (h.known x hx)
    · obtain rfl := mem_singleton.mp hx
      exact Or.inr rfl

/-- What the trigger does for deleted rows, the table aside. -/
theorem statistics_foldl_deleteTrigger {gone : List ObjectRow} (db : ContainerDb)
    (hknown : ∀ r ∈ gone, (db.policyStat.get r.storagePolicyIndex).isSome = true) :
    (∀ p, statOf (gone.foldl (fun db r => deleteTrigger md5 db r.toObjectRecord) db).policyStat p =
      statOf db.policyStat p - (gone.map fun r => share p r.toObjectRecord).sum) ∧
    (gone.foldl (fun db r => deleteTrigger md5 db r.toObjectRecord) db).hash =
      db.hash ^^^ xorAll (gone.map fun r => entryHash md5 r.name r.createdAt) ∧
    ∀ p, (db.policyStat.get p).isSome = true →
      ((gone.foldl (fun db r => deleteTrigger md5 db r.toObjectRecord) db).policyStat.get p).isSome = true := by
  induction gone generalizing db with
  | nil => exact ⟨fun p => (sub_zero _).symm, BitVec.xor_zero.symm, fun _ h => h⟩
  | cons r gone ih =>
    obtain ⟨ih1, ih2, ih3⟩ := ih (deleteTrigger md5 db r.toObjectRecord) fun x hx =>
      isSome_deletePolicyStat (hknown x (mem_cons_of_mem _ hx))
    refine ⟨fun p => ?_, ?_, fun p hp => ih3 p (isSome_deletePolicyStat hp)⟩
    · rw [foldl_cons, ih1 p, map_cons, sum_cons, ← sub_sub]
      congr 1
      exact statOf_deletePolicyStat (hknown r mem_cons_self) p
    · rw [foldl_cons, ih2]
      exact BitVec.xor_assoc ..

theorem StatInv.deleteRows (h : StatInv md5 db) (p : ObjectRow → Bool) :
    StatInv md5 (deleteRows md5 db p) := by
  obtain ⟨h1, h2, h3⟩ := statistics_foldl_deleteTrigger _ fun r hr =>
    h.known r (mem_of_mem_filter hr)
  have hperm := filter_append_perm p db.rows
  refine ⟨fun q => ?_, ?_, fun r hr => h3 _ (h.known r (mem_of_mem_filter hr))⟩
  · refine (h1 q).trans ?_
    rw [h.stat q, ← (hperm.map _).sum_eq, map_append, sum_append]
    exact add_sub_cancel_left _ _
  · refine h2.trans ?_
    rw [h.hash, ← xorAll_perm (hperm.map _), map_append, xorAll_append,
      BitVec.xor_comm (xorAll _) (xorAll _), BitVec.xor_assoc, BitVec.xor_self, BitVec.xor_zero]
    rfl

theorem deleteIdent_eq (db : ContainerDb) (k : Ident) :
    deleteIdent md5 db k = deleteRows md5 db fun r => decide (r.ident = k) := by
  rw [deleteIdent, Swift.deleteRows]
  simp only [ne_eq, decide_not]

theorem StatInv.mergeItems {db db' : ContainerDb} (h : StatInv md5 db) {order : DictOrder} {items : List Item}
    {source : Option Str} (hmerge : mergeItems md5 order db items source = some db') : StatInv md5 db' := by
  rw [Swift.mergeItems] at hmerge
  cases hloop : items.foldlM (mergeStep (fetchRecords db items)) ([], []) with
  | none =>
    rw [hloop] at hmerge
    cases hmerge
  | some acc =>
    rw [hloop] at hmerge
    obtain ⟨toDelete, toAdd⟩ := acc
    dsimp only at hmerge
    have hdelete : ∀ (l : List Item) (db : ContainerDb), StatInv md5 db →
        StatInv md5 (l.foldl (fun db rec => deleteIdent md5 db rec.ident) db) := fun l => by
      induction l with
      | nil => exact fun _ h => h
      | cons x l ih =>
        intro db h
        refine ih _ ?_
        dsimp only
        rw [deleteIdent_eq]
        exact h.deleteRows _
    have hinsert : ∀ (l : List Item) (db : ContainerDb), StatInv md5 db →
        StatInv md5 (l.foldl (fun db rec => Swift.insertRow md5 db rec.toObjectRecord) db) := fun l => by
      induction l with
      | nil => exact fun _ h => h
      | cons x l ih => exact fun db h => ih _ (h.insertRow _)
    have hinv := hinsert (order.values toAdd) _ (hdelete (order.values toDelete) db h)
    split at hmerge
    · exact Option.some.inj hmerge ▸ hinv
    · exact Option.some.inj hmerge ▸ hinv
    · split at hmerge
      · cases hmerge
      · obtain ⟨point, -, rfl⟩ := Option.map_eq_some_iff.mp hmerge
        exact ⟨hinv.stat, hinv.hash, hinv.known⟩

/-! ## 6. Runs -/

/-- The invariant of either schema. -/
def Database.Inv (md5 : Str → BitVec 128) : Database → Prop
  | .prePolicy old => (Database.prePolicy old).Exact md5
  | .current db _ => StatInv md5 db

theorem Database.Inv.exact {s : Database} (h : s.Inv md5) : s.Exact md5 := by
  cases s with
  | prePolicy old => exact h
  | current db info => exact ⟨fun p => (h.stat p).trans (sum_share db.rows p), h.hash⟩

theorem Database.Initial.inv {s : Database} (h : s.Initial md5) : s.Inv md5 := by
  cases s with
  | prePolicy old => exact h
  | current db info =>
    obtain ⟨id, rfl⟩ := h
    refine ⟨fun p => ?_, rfl, fun r hr => nomatch hr⟩
    rw [statOf, ContainerDb.fresh, Dict.get_cons]
    split
    · rfl
    · rfl

/-- The migrated statistics. -/
theorem statInv_migratedDb {old : OldDatabase} (h : (Database.prePolicy old).Exact md5) :
    StatInv md5 (migratedDb old) := by
  obtain ⟨hcount, hbytes, hhash⟩ := h
  refine ⟨fun p => ?_, ?_, fun r hr => ?_⟩
  · rw [statOf, migratedDb, Dict.get_cons, sum_share, policyCount, policyBytes]
    by_cases hp : 0 = p
    · subst hp
      simp [OldRow.addPolicy, List.filter_map, Function.comp_def, hcount, hbytes]
    · simp [OldRow.addPolicy, List.filter_map, Function.comp_def, hp, Dict.get]
  · rw [migratedDb, List.map_map, hhash]
    rfl
  · obtain ⟨r, -, rfl⟩ := List.mem_map.mp hr
    rfl

/-- What the old trigger does for deleted rows. -/
theorem foldl_objectDelete (gone : List OldRow) (stat : ContainerStat) :
    (gone.foldl (objectDelete md5) stat).objectCount =
        stat.objectCount - (gone.filter fun r => r.deleted = false).length ∧
      (gone.foldl (objectDelete md5) stat).bytesUsed = stat.bytesUsed - (gone.map OldRow.size).sum ∧
      (gone.foldl (objectDelete md5) stat).hash =
        stat.hash ^^^ xorAll (gone.map fun r => entryHash md5 r.name r.createdAt) := by
  induction gone generalizing stat with
  | nil => exact ⟨(sub_zero _).symm, (sub_zero _).symm, BitVec.xor_zero.symm⟩
  | cons r gone ih =>
    obtain ⟨ih1, ih2, ih3⟩ := ih (objectDelete md5 stat r)
    rw [foldl_cons, ih1, ih2, ih3]
    refine ⟨?_, ?_, BitVec.xor_assoc ..⟩
    · cases hd : r.deleted
      · simp [objectDelete, hd]
        omega
      · simp [objectDelete, hd]
    · rw [map_cons, sum_cons, ← sub_sub]
      rfl

theorem exact_deleteOldRows {old : OldDatabase} (h : (Database.prePolicy old).Exact md5) (p : OldRow → Bool) :
    (Database.prePolicy (deleteOldRows md5 old p)).Exact md5 := by
  obtain ⟨hcount, hbytes, hhash⟩ := h
  obtain ⟨h1, h2, h3⟩ := foldl_objectDelete (old.rows.filter p) old.stat
  have hperm := filter_append_perm p old.rows
  refine ⟨h1.trans ?_, h2.trans ?_, h3.trans ?_⟩
  · rw [hcount, ← (hperm.filter _).length_eq, filter_append, length_append, Nat.cast_add]
    exact add_sub_cancel_left _ _
  · rw [hbytes, ← (hperm.map _).sum_eq, map_append, sum_append]
    exact add_sub_cancel_left _ _
  · rw [hhash, ← xorAll_perm (hperm.map _), map_append, xorAll_append,
      BitVec.xor_comm (xorAll _) (xorAll _), BitVec.xor_assoc, BitVec.xor_self, BitVec.xor_zero]
    rfl

theorem StatInv.setit (h : StatInv md5 db) (policyIndex : Nat) (timestamp : Str)
    (info : InfoColumns) : (setit policyIndex timestamp db info).Inv md5 := by
  by_cases hp : (db.policyStat.get policyIndex).isSome = true
  · exact ⟨fun p => by simpa [hp] using h.stat p, h.hash, by simpa [hp] using h.known⟩
  · have hnone : db.policyStat.get policyIndex = none := Option.not_isSome_iff_eq_none.mp hp
    refine ⟨fun p => ?_, h.hash, fun r hr => ?_⟩
    · rw [← h.stat p]
      simp only [if_neg hp, statOf, Dict.get_set]
      split
      case isTrue he =>
        rw [← he, hnone]
        rfl
      case isFalse => rfl
    · simp only [if_neg hp, Dict.get_set]
      split
      · rfl
      · exact h.known r hr

/-- **A call keeps the invariant.** -/
theorem Database.Inv.call {s t : Database} {c : DbCall} (h : s.Inv md5) (hcall : s.call md5 c = some t) :
    t.Inv md5 := by
  cases s with
  | prePolicy old =>
    cases c with
    | mergeItems order items source =>
      simp only [Database.call] at hcall
      split at hcall
      · split at hcall
        · exact Option.some.inj hcall ▸ h
        · cases hcall
      · split at hcall
        case h_1 db hmerge => exact Option.some.inj hcall ▸ (statInv_migratedDb h).mergeItems hmerge
        case h_2 => exact Option.some.inj hcall ▸ statInv_migratedDb h
    | reclaim ageTimestamp stale => exact Option.some.inj hcall ▸ exact_deleteOldRows h _
    | setStoragePolicyIndex policyIndex timestamp =>
      exact Option.some.inj hcall ▸ (statInv_migratedDb h).setit policyIndex timestamp old.info
    | migrate => exact Option.some.inj hcall ▸ statInv_migratedDb h
  | current db info =>
    cases c with
    | mergeItems order items source =>
      obtain ⟨db', hmerge, rfl⟩ := Option.map_eq_some_iff.mp hcall
      exact StatInv.mergeItems h hmerge
    | reclaim ageTimestamp stale =>
      obtain rfl := Option.some.inj hcall
      obtain ⟨h1, h2, h3⟩ := StatInv.deleteRows h fun r => r.deleted && decide (r.createdAt < ageTimestamp)
      exact ⟨h1, h2, h3⟩
    | setStoragePolicyIndex policyIndex timestamp =>
      exact Option.some.inj hcall ▸ StatInv.setit h policyIndex timestamp info
    | migrate => cases hcall

/-- **Statistics and hash are exact over any run.** -/
theorem Database.exact_of_reach {s t : Database} (hs : s.Initial md5)
    (h : Reach (Database.call md5) (fun _ _ => True) s t) : t.Exact md5 :=
  Database.Inv.exact (h.invariant hs.inv fun _ _ _ hinv _ hcall => hinv.call hcall)

/-- **The column that is not copied.** -/
theorem containerStat_migrate_iff (old : OldDatabase) :
    containerStat (migratedDb old) old.info = pendingMigrations old.stat ↔
      old.stat.reportedDeleteTimestamp = ['0'] := by
  constructor
  · intro h
    exact (congrArg ContainerStat.reportedDeleteTimestamp h).symm
  · intro h
    have hcolumns : containerStat (migratedDb old) old.info =
        { pendingMigrations old.stat with reportedDeleteTimestamp := ['0'] } := rfl
    rw [hcolumns, ← h]
    rfl

end

/-! ### An old database -/

/-- A container without rows that was deleted once, and reported so. -/
def reportedOldDatabase : OldDatabase where
  rows := []
  seq := 0
  stat :=
    { account := ['a'], container := ['c'], createdAt := ['1'], putTimestamp := ['3'],
      deleteTimestamp := ['2'], objectCount := 0, bytesUsed := 0, reportedPutTimestamp := ['1'],
      reportedDeleteTimestamp := ['2'], reportedObjectCount := 0, reportedBytesUsed := 0, hash := 0,
      id := ['i'], status := [], statusChangedAt := ['3'], metadata := none, syncPoints := none }
  incomingSync := []
  outgoingSync := []

end Mitaka.Swift
