/-
  Subject: Backups in chunks (cinder/backup/chunkeddriver.py).

  `backup` reads the volume in chunks and hashes their blocks; a full backup stores every
  chunk, an incremental one the runs of blocks (`findExtents`) whose hashes differ from the
  parent's. `restore` writes the objects of the chain's backups over the target, the full
  backup first. What is stored as JSON is kept as a value.
-/
import Mitaka.Lib.Chunk
import Mitaka.Lib.Dict
import Mitaka.Lib.Overlay

namespace Mitaka.Cinder

abbrev Bytes := List UInt8

/-- Names of containers and of objects. -/
abbrev Name := List Char

/-! ## 1. The object store -/

inductive Compressor
  | zlib
  | bz2
  deriving DecidableEq, Repr

/-- `zlib` and `bz2`. -/
structure Codecs where
  compress : Compressor → Bytes → Bytes
  decompress : Compressor → Bytes → Bytes

/-- An entry of the metadata's `objects`. -/
structure MetadataObject where
  name : Name
  offset : ℕ
  length : ℕ
  compression : String
  deriving DecidableEq, Repr

variable {Digest : Type}

inductive StoredObject (Digest : Type)
  | chunk (body : Bytes)
  | metadata (version : String) (objects : List MetadataObject)
  | sha256file (chunkSize : ℕ) (sha256s : List Digest)

/-- The objects by container and name. -/
abbrev Store (Digest : Type) := Dict (Name × Name) (StoredObject Digest)

/-- A row of `backups`; the container and the prefix of its objects are set. -/
structure Backup where
  id : ℕ
  parentId : Option ℕ
  size : ℕ
  container : Name
  serviceMetadata : Name
  deriving DecidableEq, Repr

inductive Error
  | unsupportedCompression
  | backupNotFound
  | objectNotFound
  | indexError
  | endless
  | invalidBackup (reason : String)
  deriving DecidableEq, Repr

def getContainerEntries (store : Store Digest) (container objectPrefix : Name) : List Name :=
  (store.filter fun e => e.1.1 = container ∧ objectPrefix <+: e.1.2).map fun e => e.1.2

def Backup.metadataFilename (b : Backup) : Name := b.serviceMetadata ++ "_metadata".toList

def Backup.sha256Filename (b : Backup) : Name := b.serviceMetadata ++ "_sha256file".toList

/-- `'%05d'` -/
def pad05 (n : ℕ) : Name := List.replicate (5 - (Nat.toDigits 10 n).length) '0' ++ Nat.toDigits 10 n

/-- `'%s-%05d'` -/
def objectName (objectPrefix : Name) (id : ℕ) : Name := objectPrefix ++ '-' :: pad05 id

/-- `_get_compressor`, by the name in lower case. -/
def getCompressor (algorithm : String) : Except Error (Option Compressor) :=
  let algorithm := algorithm.toLower
  if algorithm ∈ ["none", "off", "no"] then .ok none
  else if algorithm ∈ ["zlib", "gzip"] then .ok (some .zlib)
  else if algorithm ∈ ["bz2", "bzip2"] then .ok (some .bz2)
  else .error .unsupportedCompression

def readSha256file (store : Store Digest) (b : Backup) : Except Error (ℕ × List Digest) :=
  match store.get (b.container, b.sha256Filename) with
  | some (.sha256file chunkSize sha256s) => .ok (chunkSize, sha256s)
  | _ => .error .objectNotFound

def readMetadata (store : Store Digest) (b : Backup) : Except Error (String × List MetadataObject) :=
  match store.get (b.container, b.metadataFilename) with
  | some (.metadata version objects) => .ok (version, objects)
  | _ => .error .objectNotFound

/-! ## 2. Backup -/

/-- The configuration of the driver that makes a backup. -/
structure Driver where
  chunkSizeBytes : ℕ
  shaBlockSizeBytes : ℕ
  backupCompressionAlgorithm : String

variable [DecidableEq Digest] (sha256 : Bytes → Digest) (codecs : Codecs)

/-- The reads of the volume until one is empty. -/
def reads (chunkSize : ℕ) (volume : Bytes) : List Bytes := if chunkSize = 0 then [] else chunks chunkSize volume

/-- The store and `object_meta`. -/
structure Upload (Digest : Type) where
  store : Store Digest
  id : ℕ
  objects : List MetadataObject

/-- With the name of the algorithm. -/
def prepareOutputData (driver : Driver) (compressor : Option Compressor) (data : Bytes) : String × Bytes :=
  match compressor with
  | none => ("none", data)
  | some a =>
    let compressed := codecs.compress a data
    if data.length ≤ compressed.length then ("none", data)
    else (driver.backupCompressionAlgorithm.toLower, compressed)

def backupChunk (driver : Driver) (compressor : Option Compressor) (b : Backup) (u : Upload Digest)
    (segment : ℕ × Bytes) : Upload Digest :=
  let name := objectName b.serviceMetadata u.id
  let (algorithm, outputData) := prepareOutputData codecs driver compressor segment.2
  ⟨u.store.set (b.container, name) (.chunk outputData), u.id + 1,
    u.objects ++ [⟨name, segment.1, segment.2.length, algorithm⟩]⟩

/-- The extents of a chunk that differ from the parent, with the open one. -/
def findExtents (block datalen : ℕ) (parent : List Digest) : ℕ → ℕ → Option ℕ → List Digest →
    Except Error (List (ℕ × ℕ))
  | _, _, none, [] => .ok []
  | _, _, some extentOff, [] => .ok [(extentOff, datalen)]
  | idx, shaindex, extentOff, sha :: shalist =>
    match parent[shaindex]? with
    | none => .error .indexError
    | some p =>
      if sha ≠ p then findExtents block datalen parent (idx + 1) (shaindex + 1) (some (extentOff.getD (idx * block))) shalist
      else do
        let rest ← findExtents block datalen parent (idx + 1) (shaindex + 1) none shalist
        match extentOff with
        | some o => .ok ((o, idx * block) :: rest)
        | none => .ok rest

/-- The state of the loop over the volume. -/
structure Progress (Digest : Type) where
  upload : Upload Digest
  dataOffset : ℕ
  sha256List : List Digest
  shaindex : ℕ

/-- What of a chunk is stored, with its offset: all of it or the extents. -/
def segments (driver : Driver) (parent : Option (List Digest)) (p : Progress Digest) (data : Bytes) (shalist : List Digest) :
    Except Error (List (ℕ × Bytes)) :=
  match parent with
  | none => .ok [(p.dataOffset, data)]
  | some parentShas => do
    let extents ← findExtents driver.shaBlockSizeBytes data.length parentShas 0 p.shaindex none shalist
    .ok (extents.map fun e => (p.dataOffset + e.1, (data.take e.2).drop e.1))

/-- One chunk. -/
def backupData (driver : Driver) (compressor : Option Compressor) (b : Backup) (parent : Option (List Digest))
    (p : Progress Digest) (data : Bytes) : Except Error (Progress Digest) := do
  let shalist := (chunks driver.shaBlockSizeBytes data).map sha256
  let segments ← segments driver parent p data shalist
  .ok ⟨segments.foldl (backupChunk codecs driver compressor b) p.upload, p.dataOffset + data.length,
    p.sha256List ++ shalist, if parent.isSome then p.shaindex + shalist.length else p.shaindex⟩

/-- The hashes of the parent of an incremental backup. -/
def parentShas (driver : Driver) (getById : ℕ → Option Backup) (b : Backup) (store : Store Digest) :
    Except Error (Option (List Digest)) :=
  match b.parentId with
  | none => .ok none
  | some parentId =>
    match getById parentId with
    | none => .error .backupNotFound
    | some parent => do
      let (chunkSize, sha256s) ← readSha256file store parent
      if chunkSize ≠ driver.shaBlockSizeBytes then
        .error (.invalidBackup "Hash block size has changed since the last backup.")
      else if parent.size < b.size then
        .error (.invalidBackup "Volume size increased since the last backup. Do a full backup.")
      else .ok (some sha256s)

def DRIVER_VERSION : String := "1.0.0"

/-- The hashes and the list of the objects. -/
def finalizeBackup (driver : Driver) (b : Backup) (p : Progress Digest) : Store Digest :=
  (p.upload.store.set (b.container, b.sha256Filename) (.sha256file driver.shaBlockSizeBytes p.sha256List)).set
    (b.container, b.metadataFilename) (.metadata DRIVER_VERSION p.upload.objects)

def backup (driver : Driver) (getById : ℕ → Option Backup) (b : Backup) (volume : Bytes) (store : Store Digest) :
    Except Error (Store Digest) := do
  let compressor ← getCompressor driver.backupCompressionAlgorithm
  if driver.chunkSizeBytes % driver.shaBlockSizeBytes ≠ 0 then
    .error (.invalidBackup "Chunk size is not multiple of block size for creating hash.")
  else do
    let parent ← parentShas driver getById b store
    let p ← (reads driver.chunkSizeBytes volume).foldlM (backupData sha256 codecs driver compressor b parent)
      ⟨⟨store, 1, []⟩, 0, [], 0⟩
    .ok (finalizeBackup driver b p)

/-! ## 3. Restore -/

/-- The body of an object, decompressed. -/
def readObject (store : Store Digest) (container : Name) (o : MetadataObject) : Except Error Bytes :=
  match store.get (container, o.name) with
  | some (.chunk body) => do
    match ← getCompressor o.compression with
    | some a => .ok (codecs.decompress a body)
    | none => .ok body
  | _ => .error .objectNotFound

def restoreV1 (store : Store Digest) (b : Backup) (objects : List MetadataObject) (target : Bytes) : Except Error Bytes :=
  let objectNames := (getContainerEntries store b.container b.serviceMetadata).filter
    fun name => name ∉ [b.metadataFilename, b.sha256Filename]
  -- the sorted lists are compared
  if ¬ objectNames.Perm (objects.map MetadataObject.name) then
    .error (.invalidBackup
      "restore_backup aborted, actual object list does not match object list stored in metadata.")
  else objects.foldlM (fun target o => do
    let body ← readObject codecs store b.container o
    .ok (Overlay.writeAt 0 target o.offset body)) target

/-- The chain from a backup to its full backup, of at most `fuel` backups. -/
def backupList (getById : ℕ → Option Backup) : ℕ → Backup → Except Error (List Backup)
  | 0, _ => .error .endless
  | fuel + 1, b =>
    match b.parentId with
    | none => .ok [b]
    | some parentId =>
      match getById parentId with
      | none => .error .backupNotFound
      | some parent => do
        let rest ← backupList getById fuel parent
        .ok (b :: rest)

/-- One backup of the list. -/
def restoreOne (store : Store Digest) (b : Backup) (target : Bytes) : Except Error Bytes := do
  let (_, objects) ← readMetadata store b
  restoreV1 codecs store b objects target

def restore (getById : ℕ → Option Backup) (fuel : ℕ) (store : Store Digest) (b : Backup) (target : Bytes) :
    Except Error Bytes := do
  let (version, _) ← readMetadata store b
  if version ≠ DRIVER_VERSION then .error (.invalidBackup "No support to restore backup version")
  else do
    let list ← backupList getById fuel b
    list.reverse.foldlM (fun target b => restoreOne codecs store b target) target

end Mitaka.Cinder
