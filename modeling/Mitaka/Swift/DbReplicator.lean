/-
  Subject: swift/common/db_replicator.py: a pass of `_repl_to_node` (`_in_sync`,
           `_usync_db`) with the RPC side of it (`_handle_sync_request`,
           `merge_items`, `merge_syncs`).

  Databases are shared, and every read or write of one is a step of its own. What a
  pass has in its hands between two of them is a `Stage`; the stages reached stay for
  good, so a pass may stop anywhere, a request may arrive late or twice, and any
  number of passes run side by side.

  Left out are rsync, timestamps, metadata and policy indexes of containers, and
  `max_row` of the remote side, which only chooses rsync.
-/
import Mitaka.Lib.Run
import Mitaka.Swift.ContainerMerge

namespace Mitaka.Swift

/-! ## 1. Stages of a pass -/

/-- What `sync` sends of `get_replication_info`, and what it answers with beside the
    id and the hash. -/
structure SyncInfo where
  hash : BitVec 128
  maxRow : Int
  deriving DecidableEq

/-- Where a pass from database `a` to database `b` stands. -/
inductive Stage (ι : Type) where
  /-- `get_info` is done -/
  | hashRead (a : ι) (hash : BitVec 128)
  /-- `get_max_row` is done, with it `get_replication_info` -/
  | infoRead (a : ι) (info : SyncInfo)
  /-- `_handle_sync_request` has the remote hash -/
  | remoteInfo (a b : ι) (info : SyncInfo) (rhash : BitVec 128)
  /-- and the sync point of the sender -/
  | remotePoint (a b : ι) (info : SyncInfo) (rhash : BitVec 128) (point : Int)
  /-- the response: hash and point -/
  | response (a b : ι) (info : SyncInfo) (rhash : BitVec 128) (point : Int)
  /-- `_handle_sync_response` has its own outgoing point -/
  | compare (a b : ι) (info : SyncInfo) (rhash : BitVec 128) (point localSync : Int)
  /-- `_in_sync` returned True -/
  | inSync (a b : ι) (info : SyncInfo)
  /-- `_usync_db` starts -/
  | usync (a b : ι) (point : Int)
  /-- the head of its loop: the sync table, the point and the diffs so far -/
  | diff (a b : ι) (syncTable : Dict Str Int) (point : Int) (diffs : Nat)
  /-- the objects of the next diff -/
  | batch (a b : ι) (syncTable : Dict Str Int) (point : Int) (diffs : Nat) (objects : List ObjectRow)
  /-- `merge_syncs` is answered -/
  | shipped (a b : ι) (point : Int)
  deriving DecidableEq

/-- The databases, and the stages reached. -/
structure Cluster (ι : Type) where
  dbs : ι → ContainerDb
  stages : List (Stage ι)

/-! ## 2. Steps -/

/-- One step: a local `merge_items`, the first read of a pass, or what a pass does
    next at a stage, with the database it goes to, the limits of the replicator and
    the dict order of a merge. -/
inductive Act (ι : Type) where
  | write (a : ι) (order : DictOrder) (items : List Item)
  | start (a : ι)
  | next (stage : Stage ι) (node : ι) (perDiff maxDiffs : Nat) (order : DictOrder)

/-- `merge_syncs`: all records of a table. -/
def mergeSyncs (table records : Dict Str Int) : Dict Str Int :=
  records.foldl (fun table rec => mergeSync table rec.1 rec.2) table

variable {ι : Type} [DecidableEq ι]

/-- A step that ends in a stage, and may write one database. -/
def Cluster.reach (s : Cluster ι) (stage : Stage ι) : Cluster ι := { s with stages := stage :: s.stages }

def Cluster.put (s : Cluster ι) (a : ι) (db : ContainerDb) : Cluster ι :=
  { s with dbs := Function.update s.dbs a db }

/-- What a pass does next. -/
def Stage.next (md5 : Str → BitVec 128) (s : Cluster ι) (stage : Stage ι) (node : ι)
    (perDiff maxDiffs : Nat) (order : DictOrder) : Option (Cluster ι) :=
  match stage with
  | .hashRead a hash => some (s.reach (.infoRead a ⟨hash, (s.dbs a).maxRow⟩))
  | .infoRead a info => some (s.reach (.remoteInfo a node info (s.dbs node).hash))
  | .remoteInfo a b info rhash =>
    some (s.reach (.remotePoint a b info rhash (getSync (s.dbs b).incomingSync (s.dbs a).id)))
  | .remotePoint a b info rhash point =>
    if info.hash = rhash ∧ point < info.maxRow then
      let db := s.dbs b
      some ((s.put b { db with
        incomingSync := mergeSyncs db.incomingSync [((s.dbs a).id, info.maxRow)] }).reach
          (.response a b info rhash info.maxRow))
    else some (s.reach (.response a b info rhash point))
  | .response a b info rhash point =>
    some (s.reach (.compare a b info rhash point (getSync (s.dbs a).outgoingSync (s.dbs b).id)))
  | .compare a b info rhash point localSync =>
    -- `_in_sync`
    if max point localSync ≥ info.maxRow then some (s.reach (.inSync a b info))
    else if rhash = info.hash then
      let db := s.dbs a
      some ((s.put a { db with
        outgoingSync := mergeSyncs db.outgoingSync [((s.dbs b).id, point)] }).reach
          (.inSync a b info))
    else some (s.reach (.usync a b (max point localSync)))
  | .inSync _ _ _ => none
  | .usync a b point => some (s.reach (.diff a b (s.dbs a).incomingSync point 0))
  | .diff a b syncTable point diffs =>
    some (s.reach (.batch a b syncTable point diffs ((s.dbs a).getItemsSince point perDiff)))
  | .batch a b syncTable point diffs objects =>
    match objects.getLast? with
    | some last =>
      if diffs < maxDiffs then
        (mergeItems md5 order (s.dbs b) (objects.map ObjectRow.toItem) (some (s.dbs a).id)).map
          fun db => (s.put b db).reach (.diff a b syncTable last.rowid (diffs + 1))
      else none
    | none =>
      let db := s.dbs b
      some ((s.put b { db with incomingSync := mergeSyncs db.incomingSync syncTable }).reach
        (.shipped a b point))
  | .shipped a b point =>
    let db := s.dbs a
    some (s.put a { db with outgoingSync := mergeSyncs db.outgoingSync [((s.dbs b).id, point)] })

/-- One step of the cluster. -/
def Cluster.step (md5 : Str → BitVec 128) (s : Cluster ι) : Act ι → Option (Cluster ι)
  | .write a order items => (mergeItems md5 order (s.dbs a) items none).map (s.put a)
  | .start a => some (s.reach (.hashRead a (s.dbs a).hash))
  | .next stage node perDiff maxDiffs order =>
    if stage ∈ s.stages then stage.next md5 s node perDiff maxDiffs order else none

end Mitaka.Swift
