/-
  Subject: swift/container/backend.py, the object table with its triggers, and
           `ContainerBroker.merge_items`; swift/common/db.py, `chexor`,
           `merge_syncs`, `get_sync`, `get_items_since`, `get_max_row`, `newid`.

  A database is its object table in ROWID order with AUTOINCREMENT's sequence, the
  statistics and the hash the triggers keep, and the two sync tables. Of
  `container_info` only the id and the hash are read here.

  An item of `merge_items` is a value: every caller builds one dict for an entry, so
  no two entries of a batch are the same dict.

  md5 is a parameter, from the text `chexor` hashes to 128 bits. The order a dict
  hands out its values is one too (`DictOrder`), a new one for every call.
-/
import Mitaka.Lib.Dict
import Mitaka.Lib.Latest
import Mitaka.Swift.ContainerRow

namespace Mitaka.Swift

/-! ## 1. The database -/

/-- A row of the object table. -/
structure ObjectRow extends ObjectRecord where
  rowid : Nat
  deriving DecidableEq

/-- A container database. -/
structure ContainerDb where
  id : Str
  rows : List ObjectRow
  seq : Nat
  /-- `policy_stat`: object count and bytes used by policy -/
  policyStat : Dict Nat (Int × Int)
  hash : BitVec 128
  incomingSync : Dict Str Int
  outgoingSync : Dict Str Int
  deriving DecidableEq

/-- A new database: one `policy_stat` row for the container's policy. -/
def ContainerDb.fresh (id : Str) (storagePolicyIndex : Nat) : ContainerDb :=
  { id := id, rows := [], seq := 0, policyStat := [(storagePolicyIndex, (0, 0))], hash := 0,
    incomingSync := [], outgoingSync := [] }

section Triggers

variable (md5 : Str → BitVec 128)

/-- `chexor`. -/
def chexor (old : BitVec 128) (name timestamp : Str) : BitVec 128 :=
  old ^^^ md5 (name ++ '-' :: timestamp)

/-- `object_insert_policy_stat`: the row's policy is updated, or inserted when the
    update changed nothing. -/
def insertPolicyStat (stat : Dict Nat (Int × Int)) (r : ObjectRecord) : Dict Nat (Int × Int) :=
  match stat.get r.storagePolicyIndex with
  | some (count, bytes) =>
    stat.set r.storagePolicyIndex (count + (1 - r.deleted.toNat), bytes + r.size)
  | none => stat.set r.storagePolicyIndex (1 - r.deleted.toNat, r.size)

/-- `object_delete_policy_stat`. -/
def deletePolicyStat (stat : Dict Nat (Int × Int)) (r : ObjectRecord) : Dict Nat (Int × Int) :=
  match stat.get r.storagePolicyIndex with
  | some (count, bytes) =>
    stat.set r.storagePolicyIndex (count - (1 - r.deleted.toNat), bytes - r.size)
  | none => stat

/-- `INSERT INTO object`, with its trigger. -/
def insertRow (db : ContainerDb) (r : ObjectRecord) : ContainerDb :=
  { db with
    rows := db.rows ++ [{ r with rowid := db.seq + 1 }]
    seq := db.seq + 1
    policyStat := insertPolicyStat db.policyStat r
    hash := chexor md5 db.hash r.name r.createdAt }

/-- The `AFTER DELETE` trigger. -/
def deleteTrigger (db : ContainerDb) (r : ObjectRecord) : ContainerDb :=
  { db with
    policyStat := deletePolicyStat db.policyStat r
    hash := chexor md5 db.hash r.name r.createdAt }

/-- `DELETE FROM object WHERE name=? AND storage_policy_index=?`, with its trigger
    for each row. -/
def deleteIdent (db : ContainerDb) (k : Ident) : ContainerDb :=
  let gone := db.rows.filter (·.ident = k)
  { gone.foldl (fun db r => deleteTrigger md5 db r.toObjectRecord) db with
    rows := db.rows.filter (·.ident ≠ k) }

end Triggers

/-! ## 2. Sync tables and reads -/

/-- `merge_syncs`: insert, or keep the greater point. -/
def mergeSync (table : Dict Str Int) (remoteId : Str) (point : Int) : Dict Str Int :=
  match table.get remoteId with
  | some old => table.set remoteId (max point old)
  | none => table.set remoteId point

/-- `get_sync`: -1 when the id does not exist. -/
def getSync (table : Dict Str Int) (remoteId : Str) : Int := (table.get remoteId).getD (-1)

/-- `get_max_row`: -1 before the first insert. -/
def ContainerDb.maxRow (db : ContainerDb) : Int := if db.seq = 0 then -1 else db.seq

/-- `get_items_since`; the table is in ROWID order. -/
def ContainerDb.getItemsSince (db : ContainerDb) (start : Int) (count : Nat) : List ObjectRow :=
  (db.rows.filter fun r => start < r.rowid).take count

/-- A row as an item of `merge_items`. -/
def ObjectRow.toItem (r : ObjectRow) : Item :=
  { r.toObjectRecord with
    ctypeTimestamp := none, metaTimestamp := none, dataTimestamp := none, rowid := some r.rowid }

/-- `newid`: the sync point is the highest ROWID of the table. -/
def ContainerDb.newid (db : ContainerDb) (uuid remoteId : Str) : ContainerDb :=
  let syncPoint : Int := match db.rows.getLast? with
    | some r => r.rowid
    | none => -1
  { db with id := uuid, incomingSync := db.incomingSync.set remoteId syncPoint }

/-! ## 3. `merge_items` -/

def SQLITE_ARG_LIMIT : Nat := 999

/-- `item_list[offset:offset + SQLITE_ARG_LIMIT]` for every offset. -/
def argChunks (l : List Item) : List (List Item) :=
  (List.range ((l.length + SQLITE_ARG_LIMIT - 1) / SQLITE_ARG_LIMIT)).map fun i =>
    (l.drop (SQLITE_ARG_LIMIT * i)).take SQLITE_ARG_LIMIT

/-- The records of the items that exist already. -/
def fetchRecords (db : ContainerDb) (items : List Item) : Dict Ident ObjectRecord :=
  (argChunks items).foldl (fun records chunk =>
    (db.rows.filter fun r => r.name ∈ chunk.map (·.name)).foldl
      (fun records r => records.set r.ident r.toObjectRecord) records) []

/-- The order in which `itervalues` hands out a dict. -/
structure DictOrder where
  values : Dict Ident Item → List Item
  perm : ∀ d, (values d).Perm (d.map Prod.snd)

/-- Insertion order. -/
def DictOrder.insertion : DictOrder := ⟨fun d => d.map Prod.snd, fun _ => List.Perm.refl _⟩

/-- One item of the loop over `to_delete` and `to_add`. -/
def mergeStep (records : Dict Ident ObjectRecord) (acc : Dict Ident Item × Dict Ident Item)
    (item : Item) : Option (Dict Ident Item × Dict Ident Item) :=
  let k := item.ident
  match updateNewItemFromExisting item (records.get k) with
  | none => none
  | some (_, false) => some acc
  | some (item, true) =>
    let toDelete := if (records.get k).isSome then acc.1.set k item else acc.1
    match acc.2.get k with
    | none => some (toDelete, acc.2.set k item)
    | some prev =>
      -- duplicate entries in item_list
      (updateNewItemFromExisting item (some prev.toObjectRecord)).map fun (item, _) =>
        (toDelete, acc.2.set k item)

/-- `merge_items`; `none` when it raises, which leaves the database as it was. -/
def mergeItems (md5 : Str → BitVec 128) (order : DictOrder) (db : ContainerDb) (items : List Item)
    (source : Option Str) : Option ContainerDb :=
  match items.foldlM (mergeStep (fetchRecords db items)) ([], []) with
  | none => none
  | some (toDelete, toAdd) =>
    let db := (order.values toDelete).foldl (fun db rec => deleteIdent md5 db rec.ident) db
    let db := (order.values toAdd).foldl (fun db rec => insertRow md5 db rec.toObjectRecord) db
    match source with
    | none | some [] => some db
    | some source =>
      match items.getLast? with
      | none => none
      | some last => last.rowid.map fun (point : Nat) =>
        { db with incomingSync := mergeSync db.incomingSync source point }

end Mitaka.Swift
