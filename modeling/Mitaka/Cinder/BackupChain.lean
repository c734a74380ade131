/-
  Subject: Chains of backups: restoring any of them gives the volume back.

  `Holds`: the store has the objects of a backup, one for each of its pieces, and its list
  of hashes. A backup reaches it and changes nothing outside its own names (`backup_spec`);
  restoring it writes its pieces over the target (`restoreV1_spec`).
  * **`restore_chain`** -- after a full backup and any number of incremental ones, each of
    them restores to the volume it was made from.
-/
import Mitaka.Cinder.BackupObjects

namespace Mitaka.Cinder

open Overlay List

variable {Digest : Type} {codecs : Codecs} {b : Backup} {store store' : Store Digest}

/-! ## 1. One backup in the store -/

/-- The key is one of the backup's. -/
def Backup.Own (b : Backup) (k : Name × Name) : Prop := k.1 = b.container ∧ b.serviceMetadata <+: k.2

/-- The store has the backup with these objects and hashes. -/
structure Holds (codecs : Codecs) (store : Store Digest) (b : Backup) (block : ℕ) (objects : List MetadataObject)
    (shas : List Digest) (ps : List (ℕ × Bytes)) : Prop where
  metadata : store.get (b.container, b.metadataFilename) = some (.metadata DRIVER_VERSION objects)
  sha256file : store.get (b.container, b.sha256Filename) = some (.sha256file block shas)
  reads : Forall₂ (Reads codecs store b) objects ps
  nodup : (objects.map MetadataObject.name).Nodup
  own : ∀ o ∈ objects, b.serviceMetadata <+: o.name ∧ o.name ≠ b.metadataFilename ∧ o.name ≠ b.sha256Filename
  entries : ∀ name, b.serviceMetadata <+: name → (store.get (b.container, name)).isSome →
    name ∈ objects.map MetadataObject.name ∨ name = b.metadataFilename ∨ name = b.sha256Filename

theorem prefix_metadataFilename (b : Backup) : b.serviceMetadata <+: b.metadataFilename := prefix_append _ _

theorem prefix_sha256Filename (b : Backup) : b.serviceMetadata <+: b.sha256Filename := prefix_append _ _

variable {block : ℕ} {objects : List MetadataObject} {shas : List Digest} {ps : List (ℕ × Bytes)}

/-- What the store has elsewhere does not matter. -/
theorem Holds.congr (h : Holds codecs store b block objects shas ps)
    (hget : ∀ k, b.Own k → store'.get k = store.get k) : Holds codecs store' b block objects shas ps where
  metadata := (hget _ ⟨rfl, prefix_metadataFilename b⟩).trans h.metadata
  sha256file := (hget _ ⟨rfl, prefix_sha256Filename b⟩).trans h.sha256file
  reads := reads_congr h.reads fun o ho => hget _ ⟨rfl, (h.own o ho).1⟩
  nodup := h.nodup
  own := h.own
  entries name hname hsome := h.entries name hname (hget (b.container, name) ⟨rfl, hname⟩ ▸ hsome)

theorem Holds.readSha256file (h : Holds codecs store b block objects shas ps) :
    readSha256file store b = .ok (block, shas) := by
  rw [Cinder.readSha256file, h.sha256file]

theorem Holds.readMetadata (h : Holds codecs store b block objects shas ps) :
    readMetadata store b = .ok (DRIVER_VERSION, objects) := by
  rw [Cinder.readMetadata, h.metadata]

theorem readObject_isSome {o : MetadataObject} {data : Bytes} (h : readObject codecs store b.container o = .ok data) :
    (store.get (b.container, o.name)).isSome := by
  rw [readObject] at h
  split at h
  next hget => rw [hget]; rfl
  next => cases h

theorem reads_isSome (h : Forall₂ (Reads codecs store b) objects ps) {name : Name}
    (hname : name ∈ objects.map MetadataObject.name) : (store.get (b.container, name)).isSome := by
  obtain ⟨o, ho, rfl⟩ := List.mem_map.mp hname
  induction h with
  | nil => cases ho
  | cons hread _ ih =>
    rcases mem_cons.mp ho with rfl | ho
    · exact readObject_isSome hread.2
    · exact ih ho (List.mem_map_of_mem ho)

/-! ## 2. Restoring it -/

theorem mem_getContainerEntries {container objectPrefix name : Name} :
    name ∈ getContainerEntries store container objectPrefix ↔
      objectPrefix <+: name ∧ (store.get (container, name)).isSome := by
  rw [getContainerEntries, List.mem_map, ← Dict.mem_keys_iff, List.mem_map]
  constructor
  · rintro ⟨e, he, rfl⟩
    obtain ⟨hin, hp⟩ := mem_filter.mp he
    obtain ⟨hcontainer, hpre⟩ := of_decide_eq_true hp
    exact ⟨hpre, e, hin, Prod.ext hcontainer rfl⟩
  · rintro ⟨hpre, e, hin, hkey⟩
    refine ⟨e, mem_filter.mpr ⟨hin, decide_eq_true ⟨congrArg Prod.fst hkey, ?_⟩⟩, congrArg Prod.snd hkey⟩
    rw [hkey]
    exact hpre

theorem nodup_getContainerEntries (hkeys : store.KeysNodup) (container objectPrefix : Name) :
    (getContainerEntries store container objectPrefix).Nodup := by
  have hnodup : ((store.filter fun e => e.1.1 = container ∧ objectPrefix <+: e.1.2).map Prod.fst).Nodup :=
    hkeys.sublist (filter_sublist.map _)
  have hmap : getContainerEntries store container objectPrefix =
      ((store.filter fun e => e.1.1 = container ∧ objectPrefix <+: e.1.2).map Prod.fst).map Prod.snd := by
    rw [getContainerEntries, List.map_map]
    rfl
  rw [hmap]
  refine Nodup.map_on (fun k hk k' hk' heq => ?_) hnodup
  have hcontainer : ∀ k ∈ (store.filter fun e => e.1.1 = container ∧ objectPrefix <+: e.1.2).map Prod.fst,
      k.1 = container := fun k hk => by
    obtain ⟨e, he, rfl⟩ := List.mem_map.mp hk
    exact (of_decide_eq_true (mem_filter.mp he).2).1
  exact Prod.ext ((hcontainer k hk).trans (hcontainer k' hk').symm) heq

theorem foldlM_readObject (h : Forall₂ (Reads codecs store b) objects ps) (target : Bytes) :
    objects.foldlM (fun target o => do
      let body ← readObject codecs store b.container o
      .ok (writeAt 0 target o.offset body)) target = .ok (overlay 0 target ps) := by
  induction h generalizing target with
  | nil => rfl
  | cons hread _ ih =>
    rw [foldlM_cons, hread.2, hread.1]
    exact ih _

/-- **Restoring writes the pieces.** -/
theorem restoreV1_spec (hkeys : store.KeysNodup) (h : Holds codecs store b block objects shas ps) (target : Bytes) :
    restoreV1 codecs store b objects target = .ok (overlay 0 target ps) := by
  have hperm : ((getContainerEntries store b.container b.serviceMetadata).filter
      fun name => name ∉ [b.metadataFilename, b.sha256Filename]).Perm (objects.map MetadataObject.name) := by
    refine (perm_ext_iff_of_nodup ((nodup_getContainerEntries hkeys _ _).filter _) h.nodup).mpr fun name => ?_
    rw [mem_filter, mem_getContainerEntries, decide_eq_true_iff, mem_cons, mem_singleton]
    constructor
    · rintro ⟨⟨hpre, hsome⟩, hno⟩
      exact (h.entries name hpre hsome).resolve_right hno
    · intro hin
      obtain ⟨o, ho, rfl⟩ := List.mem_map.mp hin
      obtain ⟨hpre, hmeta, hsha⟩ := h.own o ho
      exact ⟨⟨hpre, reads_isSome h.reads hin⟩, not_or.mpr ⟨hmeta, hsha⟩⟩
  rw [restoreV1]
  exact (if_neg (not_not.mpr hperm)).trans (foldlM_readObject h.reads target)

/-! ## 3. Making it -/

variable [DecidableEq Digest] {sha256 : Bytes → Digest} {driver : Driver} {getById : ℕ → Option Backup} {volume : Bytes}

/-- What a backup needs of its driver. -/
structure Driver.Valid (driver : Driver) : Prop where
  block_pos : 0 < driver.shaBlockSizeBytes
  chunk_pos : 0 < driver.chunkSizeBytes
  dvd : driver.shaBlockSizeBytes ∣ driver.chunkSizeBytes
  compressor : ∃ compressor, getCompressor driver.backupCompressionAlgorithm = .ok compressor

theorem Driver.Valid.reads_eq (h : driver.Valid) (volume : Bytes) :
    reads driver.chunkSizeBytes volume = chunks driver.chunkSizeBytes volume := if_neg h.chunk_pos.ne'

omit [DecidableEq Digest] in
theorem get_finalizeBackup (driver : Driver) (b : Backup) (p : Progress Digest) (k : Name × Name) :
    (finalizeBackup driver b p).get k =
      if (b.container, b.metadataFilename) = k then some (.metadata DRIVER_VERSION p.upload.objects)
      else if (b.container, b.sha256Filename) = k then some (.sha256file driver.shaBlockSizeBytes p.sha256List)
      else p.upload.store.get k := by
  rw [finalizeBackup, Dict.get_set, Dict.get_set]

variable (sha256) in
/-- **A backup.** -/
theorem backup_spec (hcodecs : codecs.Inverts) (hdriver : driver.Valid) (hkeys : store.KeysNodup)
    (hfresh : ∀ k, b.Own k → store.get k = none) {parent : Option (List Digest)}
    (hparent : parentShas driver getById b store = .ok parent)
    (hlen : ∀ shas, parent = some shas → (chunks driver.shaBlockSizeBytes volume).length ≤ shas.length) :
    ∃ store' objects ps, backup sha256 codecs driver getById b volume store = .ok store' ∧ store'.KeysNodup ∧
      Holds codecs store' b driver.shaBlockSizeBytes objects ((chunks driver.shaBlockSizeBytes volume).map sha256) ps ∧
      (∀ q ∈ ps, Piece volume q) ∧ Leaves sha256 driver.shaBlockSizeBytes parent volume ps volume.length ∧
      ∀ k, ¬ b.Own k → store'.get k = store.get k := by
  obtain ⟨compressor, hcompressor⟩ := hdriver.compressor
  obtain ⟨p, ps, hp, hscan⟩ := @foldlM_backupData _ codecs driver compressor b _ sha256 parent store volume
    driver.chunkSizeBytes hdriver.block_pos hdriver.dvd hlen _ (records_chunks hdriver.chunk_pos volume) []
    ⟨⟨store, 1, []⟩, 0, [], 0⟩ [] (dvd_zero _) (by rw [flatten_chunks hdriver.chunk_pos, nil_append])
    ⟨rfl, rfl, rfl, fun _ => rfl, nofun, fun j hj => absurd hj (Nat.not_lt_zero j)⟩
  have hup := @foldl_backupChunk _ codecs driver compressor b hcodecs hcompressor store hkeys ps
  rw [← hscan.upload] at hup
  have hnames : ∀ name ∈ p.upload.objects.map MetadataObject.name,
      b.serviceMetadata <+: name ∧ name ≠ b.metadataFilename ∧ name ≠ b.sha256Filename := fun name hname => by
    rw [hup.names] at hname
    obtain ⟨i, -, rfl⟩ := List.mem_map.mp hname
    exact ⟨prefix_objectName _ _, objectName_ne b _⟩
  have hget := get_finalizeBackup driver b p
  refine ⟨finalizeBackup driver b p, p.upload.objects, ps, ?_, (hup.keys.set _ _).set _ _, ?_, hscan.pieces, hscan.leaves, fun k hk => ?_⟩
  · rw [backup, hcompressor, hparent]
    have hmod : ¬ driver.chunkSizeBytes % driver.shaBlockSizeBytes ≠ 0 := not_not.mpr (Nat.mod_eq_zero_of_dvd hdriver.dvd)
    show (if _ then _ else _) = _
    rw [if_neg hmod, hdriver.reads_eq]
    show ((chunks driver.chunkSizeBytes volume).foldlM (backupData sha256 codecs driver compressor b parent)
      ⟨⟨store, 1, []⟩, 0, [], 0⟩ >>= fun p => Except.ok (finalizeBackup driver b p)) = _
    rw [hp]
    rfl
  · constructor
    · rw [hget, if_pos rfl]
    · rw [hget, if_neg, if_pos rfl, hscan.shas]
      exact fun heq => metadataFilename_ne b (congrArg Prod.snd heq)
    · refine reads_congr hup.reads fun o ho => ?_
      obtain ⟨-, hmeta, hsha⟩ := hnames _ (List.mem_map_of_mem ho)
      rw [hget, if_neg fun heq => hmeta (congrArg Prod.snd heq).symm, if_neg fun heq => hsha (congrArg Prod.snd heq).symm]
    · rw [hup.names]
      exact nodup_range.map fun i j hij => Nat.succ_injective (objectName_injective _ hij)
    · exact fun o ho => hnames _ (List.mem_map_of_mem ho)
    · intro name hpre hsome
      rw [hget] at hsome
      split at hsome
      next heq => exact .inr (.inl (congrArg Prod.snd heq).symm)
      next =>
        split at hsome
        next heq => exact .inr (.inr (congrArg Prod.snd heq).symm)
        next =>
          refine .inl (((hup.inside name).mp hsome).resolve_right fun hold => ?_)
          rw [hfresh _ ⟨rfl, hpre⟩] at hold
          cases hold
  · rw [hget, if_neg, if_neg, hup.outside]
    · exact fun hin => hk ⟨hin.1, (hnames _ hin.2).1⟩
    · rintro rfl
      exact hk ⟨rfl, prefix_sha256Filename b⟩
    · rintro rfl
      exact hk ⟨rfl, prefix_metadataFilename b⟩

/-! ## 4. Chains -/

/-- A backup to be made: its driver, its row and the volume at the time. -/
structure Item where
  driver : Driver
  b : Backup
  volume : Bytes

/-- The first `n` backups, one after the other. -/
def backupAll (sha256 : Bytes → Digest) (codecs : Codecs) (getById : ℕ → Option Backup) (items : ℕ → Item) :
    ℕ → Store Digest → Except Error (Store Digest)
  | 0, store => .ok store
  | n + 1, store => do
    let store ← backupAll sha256 codecs getById items n store
    backup sha256 codecs (items n).driver getById (items n).b (items n).volume store

/-- A full backup and incremental ones on it, of a volume of fixed size. -/
structure Chain (sha256 : Bytes → Digest) (getById : ℕ → Option Backup) (items : ℕ → Item) (block n : ℕ) : Prop where
  driver : ∀ i ≤ n, (items i).driver.Valid
  block_eq : ∀ i ≤ n, (items i).driver.shaBlockSizeBytes = block
  length : ∀ i ≤ n, (items i).volume.length = (items 0).volume.length
  size : ∀ i ≤ n, (items i).b.size = (items 0).b.size
  full : (items 0).b.parentId = none
  incremental : ∀ i < n, (items (i + 1)).b.parentId = some (items i).b.id
  rows : ∀ i ≤ n, getById (items i).b.id = some (items i).b
  apart : ∀ i ≤ n, ∀ j ≤ n, i ≠ j → ∀ k, (items i).b.Own k → ¬ (items j).b.Own k
  collision_free : ∀ i ≤ n, ∀ j ≤ n, ∀ x ∈ chunks block (items i).volume, ∀ y ∈ chunks block (items j).volume,
    sha256 x = sha256 y → x = y

/-- The hashes an item's backup is compared with. -/
def parentHashes (sha256 : Bytes → Digest) (block : ℕ) (items : ℕ → Item) : ℕ → Option (List Digest)
  | 0 => none
  | i + 1 => some ((chunks block (items i).volume).map sha256)

/-- The store has the first `k` backups and none of the others. -/
structure Made (sha256 : Bytes → Digest) (codecs : Codecs) (items : ℕ → Item) (block n k : ℕ) (store : Store Digest) :
    Prop where
  keys : store.KeysNodup
  fresh : ∀ i ≤ n, k ≤ i → ∀ key, (items i).b.Own key → store.get key = none
  holds : ∀ i < k, ∃ objects ps,
    Holds codecs store (items i).b block objects ((chunks block (items i).volume).map sha256) ps ∧
    (∀ q ∈ ps, Piece (items i).volume q) ∧
    Leaves sha256 block (parentHashes sha256 block items i) (items i).volume ps (items i).volume.length

variable {items : ℕ → Item} {n k : ℕ}

omit [DecidableEq Digest] in
theorem Chain.block_pos (h : Chain sha256 getById items block n) : 0 < block :=
  h.block_eq 0 (Nat.zero_le n) ▸ (h.driver 0 (Nat.zero_le n)).block_pos

omit [DecidableEq Digest] in
theorem Chain.parentShas_eq (h : Chain sha256 getById items block n) (hk : k ≤ n)
    (hmade : Made sha256 codecs items block n k store) :
    parentShas (items k).driver getById (items k).b store = .ok (parentHashes sha256 block items k) := by
  cases k with
  | zero => rw [parentShas, h.full]; rfl
  | succ i =>
    obtain ⟨objects, ps, hholds, -⟩ := hmade.holds i (Nat.lt_succ_self i)
    have hsize : ¬ (items i).b.size < (items (i + 1)).b.size := by
      rw [h.size _ hk, h.size i (Nat.le_of_succ_le hk)]
      exact lt_irrefl _
    rw [parentShas, h.incremental i hk]
    dsimp only
    rw [h.rows i (Nat.le_of_succ_le hk)]
    dsimp only
    rw [hholds.readSha256file]
    show (if _ then _ else if _ then _ else _) = _
    rw [if_neg (not_not.mpr (h.block_eq _ hk).symm), if_neg hsize]
    rfl

omit [DecidableEq Digest] in
theorem Chain.parentHashes_length (h : Chain sha256 getById items block n) (hk : k ≤ n) :
    ∀ shas, parentHashes sha256 block items k = some shas → (chunks block (items k).volume).length ≤ shas.length := by
  intro shas hshas
  cases k with
  | zero => cases hshas
  | succ i =>
    cases hshas
    rw [length_map]
    exact (length_chunks_eq h.block_pos ((h.length _ hk).trans (h.length i (Nat.le_of_succ_le hk)).symm)).le

/-- **One backup of the chain.** -/
theorem Chain.step (hcodecs : codecs.Inverts) (h : Chain sha256 getById items block n) (hk : k ≤ n)
    (hmade : Made sha256 codecs items block n k store) :
    ∃ store', backup sha256 codecs (items k).driver getById (items k).b (items k).volume store = .ok store' ∧
      Made sha256 codecs items block n (k + 1) store' := by
  have hblock := h.block_eq k hk
  obtain ⟨store', objects, ps, hbackup, hkeys, hholds, hpieces, hleaves, hout⟩ := backup_spec sha256 hcodecs
    (h.driver k hk) hmade.keys (hmade.fresh k hk le_rfl) (h.parentShas_eq hk hmade)
    (by rw [hblock]; exact h.parentHashes_length hk)
  rw [hblock] at hholds hleaves
  have hsame : ∀ i ≤ n, i ≠ k → ∀ key, (items i).b.Own key → store'.get key = store.get key := fun i hi hne key hown =>
    hout key (h.apart i hi k hk hne key hown)
  refine ⟨store', hbackup, hkeys, fun i hi hki key hown => ?_, fun i hi => ?_⟩
  · rw [hsame i hi (Nat.ne_of_gt hki) key hown]
    exact hmade.fresh i hi (Nat.le_of_succ_le hki) key hown
  · rcases Nat.lt_succ_iff_lt_or_eq.mp hi with hi | rfl
    · obtain ⟨objects', ps', hholds', hrest⟩ := hmade.holds i hi
      exact ⟨objects', ps', hholds'.congr (hsame i (hi.le.trans hk) hi.ne), hrest⟩
    · exact ⟨objects, ps, hholds, hpieces, hleaves⟩

/-- **The chain is made.** -/
theorem Chain.made (hcodecs : codecs.Inverts) (h : Chain sha256 getById items block n)
    (hstart : Made sha256 codecs items block n 0 store) (hk : k ≤ n + 1) :
    ∃ store', backupAll sha256 codecs getById items k store = .ok store' ∧ Made sha256 codecs items block n k store' := by
  induction k with
  | zero => exact ⟨store, rfl, hstart⟩
  | succ k ih =>
    obtain ⟨store', hall, hmade⟩ := ih (Nat.le_of_succ_le hk)
    obtain ⟨store'', hbackup, hmade'⟩ := h.step hcodecs (Nat.le_of_succ_le_succ hk) hmade
    refine ⟨store'', ?_, hmade'⟩
    rw [backupAll, hall]
    exact hbackup

/-! ## 5. Restoring -/

omit [DecidableEq Digest] in
theorem Chain.backupList_eq (h : Chain sha256 getById items block n) (hk : k ≤ n) {fuel : ℕ} (hfuel : k < fuel) :
    backupList getById fuel (items k).b = .ok ((List.range (k + 1)).map fun i => (items i).b).reverse := by
  induction k generalizing fuel with
  | zero =>
    obtain ⟨fuel, rfl⟩ := Nat.exists_eq_succ_of_ne_zero (Nat.ne_of_gt hfuel)
    rw [backupList, h.full]
    rfl
  | succ k ih =>
    obtain ⟨fuel, rfl⟩ := Nat.exists_eq_succ_of_ne_zero (Nat.ne_of_gt (Nat.lt_of_le_of_lt (Nat.zero_le _) hfuel))
    rw [backupList, h.incremental k hk]
    dsimp only
    rw [h.rows k (Nat.le_of_succ_le hk)]
    dsimp only
    rw [ih (Nat.le_of_succ_le hk) (Nat.lt_of_succ_lt_succ hfuel), @range_succ (k + 1), map_append,
      reverse_append]
    rfl

omit [DecidableEq Digest] in
/-- Where a backup stored nothing, the volume is as it was. -/
theorem Chain.unchanged (h : Chain sha256 getById items block n) (hk : k + 1 ≤ n) {j : ℕ}
    (hj : j < (items (k + 1)).volume.length)
    (hsha : ((chunks block (items (k + 1)).volume).map sha256)[j / block]? =
      ((chunks block (items k).volume).map sha256)[j / block]?) :
    (items (k + 1)).volume[j]? = (items k).volume[j]? := by
  have hB := h.block_pos
  have hlen := (h.length _ hk).trans (h.length k (Nat.le_of_succ_le hk)).symm
  refine getElem?_eq_of_chunks hB hlen hj ?_
  have hin : j / block * block < (items (k + 1)).volume.length := Nat.lt_of_le_of_lt (Nat.div_mul_le_self _ _) hj
  have hlt := (lt_length_chunks hB).mpr hin
  have hlt' := (lt_length_chunks hB).mpr (hlen ▸ hin)
  rw [getElem?_map, getElem?_map, getElem?_eq_getElem hlt, getElem?_eq_getElem hlt'] at hsha
  rw [getElem?_eq_getElem hlt, getElem?_eq_getElem hlt', h.collision_free _ hk _ (Nat.le_of_succ_le hk) _
    (getElem_mem hlt) _ (getElem_mem hlt') (Option.some.inj hsha)]

omit [DecidableEq Digest] in
theorem Holds.restoreOne (hkeys : store.KeysNodup) (h : Holds codecs store b block objects shas ps) (target : Bytes) :
    restoreOne codecs store b target = .ok (overlay 0 target ps) := by
  rw [Cinder.restoreOne, h.readMetadata]
  exact restoreV1_spec hkeys h target

omit [DecidableEq Digest] in
/-- **Restoring the first backups.** -/
theorem Chain.restored (h : Chain sha256 getById items block n) (hk : k ≤ n)
    (hmade : Made sha256 codecs items block n (n + 1) store) {target : Bytes}
    (htarget : (items 0).volume.length ≤ target.length) :
    ∃ out, ((List.range (k + 1)).map fun i => (items i).b).foldlM (fun target b => Cinder.restoreOne codecs store b target)
        target = .ok out ∧ out.length = target.length ∧ out.take (items 0).volume.length = (items k).volume ∧
      ∀ j, (items 0).volume.length ≤ j → out[j]? = target[j]? := by
  -- one backup over what the earlier ones restored
  have hstep : ∀ i ≤ n, ∀ out : Bytes, out.length = target.length → (∀ j, (items 0).volume.length ≤ j → out[j]? = target[j]?) →
      (∀ shas, parentHashes sha256 block items i = some shas → ∀ j < (items i).volume.length,
        ((chunks block (items i).volume).map sha256)[j / block]? = shas[j / block]? → out[j]? = (items i).volume[j]?) →
      ∃ out', Cinder.restoreOne codecs store (items i).b out = .ok out' ∧ out'.length = target.length ∧
        out'.take (items 0).volume.length = (items i).volume ∧
        ∀ j, (items 0).volume.length ≤ j → out'[j]? = target[j]? := by
    intro i hi out hlen htail hsame
    obtain ⟨objects, ps, hholds, hpieces, hleaves⟩ := hmade.holds i (Nat.lt_succ_of_le hi)
    have hle : (items i).volume.length ≤ out.length := by rw [h.length i hi, hlen]; exact htarget
    refine ⟨_, hholds.restoreOne hmade.keys out, (length_overlay hpieces hle).trans hlen, ?_, fun j hj => ?_⟩
    · rw [← h.length i hi]
      refine take_overlay hpieces hle fun j hj hun => ?_
      obtain ⟨shas, hshas, heq⟩ := hleaves j hj hun
      exact hsame shas hshas j hj heq
    · refine ((getElem?_overlay hpieces hle j).2 fun hcov => ?_).trans (htail j hj)
      obtain ⟨q, hq, -, hhigh⟩ := hcov
      have hend := (hpieces q hq).le
      rw [h.length i hi] at hend
      omega
  induction k with
  | zero =>
    obtain ⟨out, hout, hrest⟩ := hstep 0 hk target rfl (fun _ _ => rfl) nofun
    refine ⟨out, ?_, hrest⟩
    show Cinder.restoreOne codecs store (items 0).b target >>= pure = _
    rw [hout]
    rfl
  | succ k ih =>
    obtain ⟨out, hout, hlen, htake, htail⟩ := ih (Nat.le_of_succ_le hk)
    obtain ⟨out', hout', hrest⟩ := hstep (k + 1) hk out hlen htail fun shas hshas j hj heq => by
      cases hshas
      have hj' : j < (items 0).volume.length := h.length _ hk ▸ hj
      rw [h.unchanged hk hj heq, ← htake, getElem?_take_of_lt hj']
    refine ⟨out', ?_, hrest⟩
    rw [range_succ, map_append, foldlM_append, hout]
    show Cinder.restoreOne codecs store (items (k + 1)).b out >>= pure = _
    rw [hout']
    rfl

/-- **Every backup of a chain restores to the volume it was made from.** -/
theorem restore_chain (hcodecs : codecs.Inverts) (h : Chain sha256 getById items block n) (hkeys : store.KeysNodup)
    (hfresh : ∀ i ≤ n, ∀ key, (items i).b.Own key → store.get key = none) :
    ∃ store', backupAll sha256 codecs getById items (n + 1) store = .ok store' ∧
      ∀ k ≤ n, ∀ (target : Bytes) (fuel : ℕ), (items k).volume.length ≤ target.length → k < fuel →
        ∃ out, restore codecs getById fuel store' (items k).b target = .ok out ∧
          out.take (items k).volume.length = (items k).volume ∧
          out.drop (items k).volume.length = target.drop (items k).volume.length := by
  obtain ⟨store', hall, hmade⟩ := h.made hcodecs ⟨hkeys, fun i hi _ => hfresh i hi, fun i hi => absurd hi (Nat.not_lt_zero i)⟩ le_rfl
  refine ⟨store', hall, fun k hk target fuel htarget hfuel => ?_⟩
  rw [h.length k hk] at htarget ⊢
  obtain ⟨out, hout, hlen, htake, htail⟩ := h.restored hk hmade htarget
  obtain ⟨objects, ps, hholds, -⟩ := hmade.holds k (Nat.lt_succ_of_le hk)
  refine ⟨out, ?_, htake, ext_getElem? fun j => ?_⟩
  · rw [restore, hholds.readMetadata]
    show (backupList getById fuel (items k).b >>= fun list =>
      list.reverse.foldlM (fun target b => Cinder.restoreOne codecs store' b target) target) = _
    rw [h.backupList_eq hk hfuel]
    show List.foldlM _ target (reverse (reverse _)) = _
    rw [reverse_reverse]
    exact hout
  · rw [getElem?_drop, getElem?_drop]
    exact htail _ (Nat.le_add_right _ _)

/-- A codec that shortens one chunk. -/
def shortCodecs : Codecs where
  compress _ data := if data = [1, 2, 3, 4] then [0] else 1 :: data
  decompress _ body := match body with
    | [0] => [1, 2, 3, 4]
    | _ :: data => data
    | [] => []

/-- A backup with `zlib` and an incremental one without compression and with smaller chunks. -/
def twoBackups : ℕ → Item
  | 0 => ⟨⟨4, 2, "zlib"⟩, ⟨0, none, 1, "volumes".toList, "backup_0".toList⟩, [1, 2, 3, 4, 5]⟩
  | _ => ⟨⟨2, 2, "none"⟩, ⟨1, some 0, 1, "volumes".toList, "backup_1".toList⟩, [1, 2, 3, 9, 5]⟩

/-- **The two backups restore.** -/
theorem restore_chain_twoBackups :
    ∃ store', backupAll id shortCodecs (fun i => some (twoBackups i).b) twoBackups 2 [] = .ok store' ∧
      ∀ k ≤ 1, ∀ (target : Bytes) (fuel : ℕ), (twoBackups k).volume.length ≤ target.length → k < fuel →
        ∃ out, restore shortCodecs (fun i => some (twoBackups i).b) fuel store' (twoBackups k).b target = .ok out ∧
          out.take (twoBackups k).volume.length = (twoBackups k).volume ∧
          out.drop (twoBackups k).volume.length = target.drop (twoBackups k).volume.length := by
  have htwo : ∀ i ≤ 1, i = 0 ∨ i = 1 := by decide
  refine @restore_chain _ shortCodecs [] 2 _ id (fun i => some (twoBackups i).b) twoBackups 1 ?_ ?_ nodup_nil
    fun _ _ _ _ => rfl
  · intro a data
    show shortCodecs.decompress a (if data = [1, 2, 3, 4] then [0] else 1 :: data) = data
    split
    next h => exact h.symm
    next => rfl
  · constructor
    · intro i hi
      rcases htwo i hi with rfl | rfl
      · exact ⟨by decide, by decide, by decide, some .zlib, by decide +kernel⟩
      · exact ⟨by decide, by decide, by decide, none, getCompressor_none⟩
    · decide
    · decide
    · decide
    · rfl
    · decide
    · intro i hi
      rcases htwo i hi with rfl | rfl <;> rfl
    · intro i hi j hj hne k hown hown'
      have hlen : ∀ i ≤ 1, (twoBackups i).b.serviceMetadata.length = 8 := by decide +kernel
      have hsame := (prefix_of_prefix_length_le hown.2 hown'.2 (by rw [hlen i hi, hlen j hj])).eq_of_length
        (by rw [hlen i hi, hlen j hj])
      have hdiff : ∀ i ≤ 1, ∀ j ≤ 1, i ≠ j → (twoBackups i).b.serviceMetadata ≠ (twoBackups j).b.serviceMetadata := by
        decide +kernel
      exact hdiff i hi j hj hne hsame
    · exact fun _ _ _ _ _ _ _ _ heq => heq

end Mitaka.Cinder
