/-
  Subject: What a backup stores, and what restoring it writes.

  `Holds`: the store has the objects of a backup, one for each of its pieces, and its list
  of hashes. A backup reaches it (`backup_spec`), changes nothing outside its own names, and
  restoring it writes its pieces over the target (`restoreV1_spec`).
  The pieces of a full backup cover the volume; those of an incremental one leave only
  blocks with the parent's hash (`Leaves`).
-/
import Mitaka.Lib.Numeral
import Mitaka.Cinder.ChunkedBackup

namespace Mitaka.Cinder

open Numeral Overlay List

/-! ## 1. Names -/

theorem foldlM_zeros (k : ℕ) : (replicate k '0').foldlM (pushDigit 10) 0 = some 0 := by
  induction k with
  | zero => rfl
  | succ k ih =>
    rw [replicate_succ, foldlM_cons]
    exact ih

theorem readNat_pad05 (n : ℕ) : readNat 10 (pad05 n) = some n := by
  have hread := readNat_toDigits (b := 10) (by decide) (by decide) n
  have hne : pad05 n ≠ [] := by
    rw [pad05]
    exact append_ne_nil_of_right_ne_nil _ (Nat.toDigits_ne_nil)
  rw [readNat, if_neg hne, pad05, foldlM_append, foldlM_zeros]
  rw [readNat, if_neg Nat.toDigits_ne_nil] at hread
  exact hread

theorem objectName_injective (p : Name) : Function.Injective (objectName p) := by
  intro i j h
  have hpad : pad05 i = pad05 j := (List.cons.inj (append_cancel_left h)).2
  have := readNat_pad05 i
  rw [hpad, readNat_pad05] at this
  exact (Option.some.inj this).symm

theorem prefix_objectName (p : Name) (i : ℕ) : p <+: objectName p i := prefix_append _ _

theorem objectName_ne (b : Backup) (i : ℕ) :
    objectName b.serviceMetadata i ≠ b.metadataFilename ∧ objectName b.serviceMetadata i ≠ b.sha256Filename := by
  have hmeta : "_metadata".toList = '_' :: "metadata".toList := by decide +kernel
  have hsha : "_sha256file".toList = '_' :: "sha256file".toList := by decide +kernel
  constructor
  · intro h
    have := append_cancel_left h
    rw [hmeta] at this
    exact absurd (List.cons.inj this).1 (by decide)
  · intro h
    have := append_cancel_left h
    rw [hsha] at this
    exact absurd (List.cons.inj this).1 (by decide)

theorem metadataFilename_ne (b : Backup) : b.metadataFilename ≠ b.sha256Filename := by
  intro h
  exact absurd (append_cancel_left h) (by decide +kernel)

/-! ## 2. Compression -/

theorem getCompressor_none : getCompressor "none" = .ok none := by
  have hlower : "none".toLower = "none" := by decide +kernel
  rw [getCompressor, hlower]
  rfl

/-- The recorded name gives the compressor that was used. -/
theorem getCompressor_lower {algorithm : String} {a : Compressor} (h : getCompressor algorithm = .ok (some a)) :
    getCompressor algorithm.toLower = .ok (some a) := by
  have hlower : ∀ x ∈ ["zlib", "gzip", "bz2", "bzip2"], x.toLower = x := by decide +kernel
  have hin : algorithm.toLower ∈ ["zlib", "gzip", "bz2", "bzip2"] := by
    rw [getCompressor] at h
    split at h
    · cases h
    · split at h
      next hin => exact mem_append_left ["bz2", "bzip2"] hin
      next =>
        split at h
        next hin => exact mem_append_right ["zlib", "gzip"] hin
        next => cases h
  rw [getCompressor, hlower _ hin]
  exact h

variable {Digest : Type} {codecs : Codecs} {driver : Driver} {compressor : Option Compressor} {b : Backup}

/-- The codecs invert each other. -/
def Codecs.Inverts (codecs : Codecs) : Prop := ∀ a data, codecs.decompress a (codecs.compress a data) = data

/-- What is written for a segment reads back as the segment. -/
theorem readObject_prepare (hcodecs : codecs.Inverts) (hcompressor : getCompressor driver.backupCompressionAlgorithm = .ok compressor)
    {store : Store Digest} {o : MetadataObject} {data : Bytes}
    (halgorithm : o.compression = (prepareOutputData codecs driver compressor data).1)
    (hget : store.get (b.container, o.name) = some (.chunk (prepareOutputData codecs driver compressor data).2)) :
    readObject codecs store b.container o = .ok data := by
  rw [readObject, hget, halgorithm]
  unfold prepareOutputData
  cases compressor with
  | none =>
    dsimp only
    rw [getCompressor_none]
    rfl
  | some a =>
    dsimp only
    split
    · dsimp only
      rw [getCompressor_none]
      rfl
    · dsimp only
      rw [getCompressor_lower hcompressor]
      exact congrArg Except.ok (hcodecs a data)

/-! ## 3. Objects -/

/-- The object reads as the piece. -/
def Reads (codecs : Codecs) (store : Store Digest) (b : Backup) (o : MetadataObject) (p : ℕ × Bytes) : Prop :=
  o.offset = p.1 ∧ readObject codecs store b.container o = .ok p.2

/-- The upload after the pieces. -/
structure Uploaded (codecs : Codecs) (b : Backup) (store : Store Digest) (ps : List (ℕ × Bytes)) (u : Upload Digest) : Prop where
  id : u.id = ps.length + 1
  names : u.objects.map MetadataObject.name = (List.range ps.length).map fun i => objectName b.serviceMetadata (i + 1)
  reads : Forall₂ (Reads codecs u.store b) u.objects ps
  keys : u.store.KeysNodup
  inside : ∀ name, (u.store.get (b.container, name)).isSome ↔
    name ∈ u.objects.map MetadataObject.name ∨ (store.get (b.container, name)).isSome
  outside : ∀ k, ¬ (k.1 = b.container ∧ k.2 ∈ u.objects.map MetadataObject.name) → u.store.get k = store.get k

theorem readObject_congr {store store' : Store Digest} {o : MetadataObject}
    (h : store'.get (b.container, o.name) = store.get (b.container, o.name)) :
    readObject codecs store' b.container o = readObject codecs store b.container o := by
  rw [readObject, readObject, h]

theorem reads_congr {store store' : Store Digest} {objects : List MetadataObject} {ps : List (ℕ × Bytes)}
    (h : Forall₂ (Reads codecs store b) objects ps)
    (hget : ∀ o ∈ objects, store'.get (b.container, o.name) = store.get (b.container, o.name)) :
    Forall₂ (Reads codecs store' b) objects ps := by
  induction h with
  | nil => exact .nil
  | cons hread _ ih =>
    refine .cons ⟨hread.1, ?_⟩ (ih fun o ho => hget o (mem_cons_of_mem _ ho))
    rw [readObject_congr (hget _ mem_cons_self)]
    exact hread.2

/-- **Uploading pieces.** -/
theorem foldl_backupChunk (hcodecs : codecs.Inverts)
    (hcompressor : getCompressor driver.backupCompressionAlgorithm = .ok compressor) {store : Store Digest}
    (hkeys : store.KeysNodup) (ps : List (ℕ × Bytes)) :
    Uploaded codecs b store ps (ps.foldl (backupChunk codecs driver compressor b) ⟨store, 1, []⟩) := by
  induction ps using reverseRecOn with
  | nil => exact ⟨rfl, rfl, .nil, hkeys, fun _ => (or_iff_right not_mem_nil).symm, fun _ _ => rfl⟩
  | append_singleton ps p ih =>
    rw [foldl_append, foldl_cons, foldl_nil]
    generalize ps.foldl (backupChunk codecs driver compressor b) ⟨store, 1, []⟩ = u at ih
    have hname : objectName b.serviceMetadata u.id ∉ u.objects.map MetadataObject.name := by
      rw [ih.names, ih.id]
      intro hin
      obtain ⟨i, hi, heq⟩ := List.mem_map.mp hin
      have := objectName_injective _ heq
      have := mem_range.mp hi
      omega
    have hnames : (backupChunk codecs driver compressor b u p).objects.map MetadataObject.name =
        u.objects.map MetadataObject.name ++ [objectName b.serviceMetadata u.id] := by
      rw [backupChunk, map_append]
      rfl
    have hstore : (backupChunk codecs driver compressor b u p).store =
        u.store.set (b.container, objectName b.serviceMetadata u.id)
          (.chunk (prepareOutputData codecs driver compressor p.2).2) := rfl
    constructor
    · rw [length_append, length_singleton, ← ih.id]
      rfl
    · rw [hnames, ih.names, ih.id, length_append, length_singleton, range_succ, map_append]
      rfl
    · refine rel_append (reads_congr ih.reads fun o ho => ?_) (.cons ⟨rfl, ?_⟩ .nil)
      · rw [hstore, Dict.get_set, if_neg]
        intro heq
        have hsame : objectName b.serviceMetadata u.id = o.name := congrArg Prod.snd heq
        exact hname (hsame ▸ List.mem_map_of_mem ho)
      · refine readObject_prepare hcodecs hcompressor rfl ?_
        rw [hstore, Dict.get_set]
        exact if_pos rfl
    · rw [hstore]
      exact ih.keys.set _ _
    · intro name
      rw [hnames, hstore, Dict.get_set, mem_append, mem_singleton]
      by_cases hn : (b.container, objectName b.serviceMetadata u.id) = (b.container, name)
      · rw [if_pos hn]
        exact iff_of_true rfl (.inl (.inr (congrArg Prod.snd hn).symm))
      · have hne : name ≠ objectName b.serviceMetadata u.id := fun heq => hn (heq ▸ rfl)
        rw [if_neg hn, ih.inside, or_iff_left hne]
    · intro k hk
      rw [hnames, mem_append, mem_singleton] at hk
      rw [hstore, Dict.get_set, if_neg, ih.outside]
      · exact fun hc => hk ⟨hc.1, .inl hc.2⟩
      · intro heq
        exact hk ⟨(congrArg Prod.fst heq).symm, .inr (congrArg Prod.snd heq).symm⟩

/-! ## 4. Extents -/

variable [DecidableEq Digest]

/-- **The extents leave only blocks with the parent's hash.** -/
theorem findExtents_spec {block datalen : ℕ} {parent : List Digest} (shalist : List Digest) (idx shaindex : ℕ)
    (extentOff : Option ℕ) (hparent : shaindex + shalist.length ≤ parent.length)
    (hstart : ∀ i < shalist.length, (idx + i) * block < datalen)
    (hoff : ∀ o, extentOff = some o → o ≤ idx * block ∧ o ≤ datalen) :
    ∃ l, findExtents block datalen parent idx shaindex extentOff shalist = .ok l ∧
      (∀ e ∈ l, e.1 ≤ e.2 ∧ e.2 ≤ datalen) ∧
      ∀ j < datalen, (∀ e ∈ l, ¬ (e.1 ≤ j ∧ j < e.2)) →
        (∀ o, extentOff = some o → j < o ∨ idx * block ≤ j) ∧
        ∀ i < shalist.length, (idx + i) * block ≤ j → j < (idx + i + 1) * block →
          shalist[i]? = parent[shaindex + i]? := by
  induction shalist generalizing idx shaindex extentOff with
  | nil =>
    cases extentOff with
    | none => exact ⟨[], rfl, nofun, fun j _ _ => ⟨nofun, nofun⟩⟩
    | some o =>
      refine ⟨[(o, datalen)], rfl, fun e he => ?_, fun j hj hun => ⟨fun o' ho => ?_, nofun⟩⟩
      · rw [mem_singleton.mp he]
        exact ⟨(hoff o rfl).2, le_rfl⟩
      · cases ho
        exact .inl (Nat.lt_of_not_le fun hle => hun _ (mem_singleton_self _) ⟨hle, hj⟩)
  | cons sha shalist ih =>
    rw [length_cons] at hparent hstart
    have hlt : shaindex < parent.length := by omega
    have hidx : idx * block < datalen := hstart 0 (Nat.succ_pos _)
    have hstep : idx * block ≤ (idx + 1) * block := Nat.mul_le_mul_right _ (Nat.le_succ _)
    have hparent' : shaindex + 1 + shalist.length ≤ parent.length := by omega
    have hstart' : ∀ i < shalist.length, (idx + 1 + i) * block < datalen := fun i hi => by
      have := hstart (i + 1) (Nat.succ_lt_succ hi)
      rwa [Nat.add_assoc, Nat.add_comm 1 i]
    have hget : parent[shaindex]? = some parent[shaindex] := getElem?_eq_getElem hlt
    rw [findExtents, hget]
    dsimp only
    split
    next hne =>
      -- the block differs: the extent stays open
      have hopen : extentOff.getD (idx * block) ≤ idx * block ∧ extentOff.getD (idx * block) ≤ datalen := by
        cases extentOff with
        | none => exact ⟨le_rfl, hidx.le⟩
        | some o => exact hoff o rfl
      obtain ⟨l, hl, hbound, hun⟩ := ih (idx + 1) (shaindex + 1) (some (extentOff.getD (idx * block))) hparent' hstart'
        fun o ho => by
          cases ho
          exact ⟨hopen.1.trans hstep, hopen.2⟩
      refine ⟨l, hl, hbound, fun j hj hno => ?_⟩
      obtain ⟨hout, hrest⟩ := hun j hj hno
      have hout := hout _ rfl
      refine ⟨fun o ho => ?_, fun i hi hlow hhigh => ?_⟩
      · subst ho
        exact hout.imp id hstep.trans
      · cases i with
        | zero =>
          rw [Nat.add_zero] at hlow hhigh
          omega
        | succ i =>
          rw [getElem?_cons_succ, ← Nat.add_assoc, Nat.add_right_comm]
          exact hrest i (Nat.lt_of_succ_lt_succ hi) (by rwa [Nat.add_assoc, Nat.add_comm 1 i])
            (by rwa [Nat.add_assoc idx, Nat.add_comm 1 i])
    next heq =>
      -- the block is the parent's: an open extent ends before it
      obtain ⟨l, hl, hbound, hun⟩ := ih (idx + 1) (shaindex + 1) none hparent' hstart' nofun
      rw [hl]
      have htail : ∀ j < datalen, (∀ e ∈ l, ¬ (e.1 ≤ j ∧ j < e.2)) → ∀ i < shalist.length + 1, (idx + i) * block ≤ j →
          j < (idx + i + 1) * block → (sha :: shalist)[i]? = parent[shaindex + i]? := fun j hj hno i hi hlow hhigh => by
        cases i with
        | zero =>
          rw [Nat.add_zero, hget, not_not.mp heq]
          rfl
        | succ i =>
          rw [getElem?_cons_succ, ← Nat.add_assoc, Nat.add_right_comm]
          exact (hun j hj hno).2 i (Nat.lt_of_succ_lt_succ hi) (by rwa [Nat.add_assoc, Nat.add_comm 1 i])
            (by rwa [Nat.add_assoc idx, Nat.add_comm 1 i])
      cases extentOff with
      | none => exact ⟨l, rfl, hbound, fun j hj hno => ⟨nofun, htail j hj hno⟩⟩
      | some o =>
        refine ⟨(o, idx * block) :: l, rfl, fun e he => ?_, fun j hj hno => ⟨fun o' ho => ?_, ?_⟩⟩
        · rcases mem_cons.mp he with rfl | he
          · exact ⟨(hoff o rfl).1, hidx.le⟩
          · exact hbound e he
        · cases ho
          have := hno _ mem_cons_self
          dsimp only at this
          omega
        · exact htail j hj fun e he => hno e (mem_cons_of_mem _ he)

/-! ## 5. Pieces -/

variable {sha256 : Bytes → Digest} {parent : Option (List Digest)} {store : Store Digest} {volume : Bytes}
  {ps : List (ℕ × Bytes)}

/-- Up to `n`, the pieces leave only blocks with the parent's hash. -/
def Leaves (sha256 : Bytes → Digest) (block : ℕ) (parent : Option (List Digest)) (volume : Bytes) (ps : List (ℕ × Bytes))
    (n : ℕ) : Prop :=
  ∀ j < n, ¬ Covered ps j →
    ∃ shas, parent = some shas ∧ ((chunks block volume).map sha256)[j / block]? = shas[j / block]?

/-- The loop has read `done` of the volume. -/
structure Scanned (sha256 : Bytes → Digest) (codecs : Codecs) (driver : Driver) (compressor : Option Compressor) (b : Backup)
    (parent : Option (List Digest)) (store : Store Digest) (volume done : Bytes) (p : Progress Digest)
    (ps : List (ℕ × Bytes)) : Prop where
  upload : p.upload = ps.foldl (backupChunk codecs driver compressor b) ⟨store, 1, []⟩
  offset : p.dataOffset = done.length
  shas : p.sha256List = (chunks driver.shaBlockSizeBytes done).map sha256
  index : parent.isSome → p.shaindex = (chunks driver.shaBlockSizeBytes done).length
  pieces : ∀ q ∈ ps, Piece volume q
  leaves : Leaves sha256 driver.shaBlockSizeBytes parent volume ps done.length

theorem covered_append {ps qs : List (ℕ × Bytes)} {j : ℕ} : Covered (ps ++ qs) j ↔ Covered ps j ∨ Covered qs j := by
  constructor
  · rintro ⟨q, hq, hj⟩
    exact (mem_append.mp hq).imp (fun hq => ⟨q, hq, hj⟩) fun hq => ⟨q, hq, hj⟩
  · rintro (⟨q, hq, hj⟩ | ⟨q, hq, hj⟩)
    · exact ⟨q, mem_append_left _ hq, hj⟩
    · exact ⟨q, mem_append_right _ hq, hj⟩

/-- A part of a chunk is a piece of the volume. -/
theorem piece_of_chunk {done data rest : Bytes} {i k : ℕ} (hik : i ≤ k) (hk : k ≤ data.length) :
    Piece (done ++ data ++ rest) (done.length + i, (data.take k).drop i) := by
  have hlen : ((data.take k).drop i).length = k - i := by
    rw [length_drop, length_take_of_le hk]
  constructor
  · rw [hlen, length_append, length_append]
    omega
  · rw [hlen, append_assoc, ← drop_drop, drop_left, drop_append_of_le_length (hik.trans hk),
      take_append_of_le_length (by rw [length_drop]; omega), drop_take]

theorem covered_singleton {q : ℕ × Bytes} {j : ℕ} : Covered [q] j ↔ q.1 ≤ j ∧ j < q.1 + q.2.length := by
  constructor
  · rintro ⟨q', hq, hj⟩
    rwa [mem_singleton.mp hq] at hj
  · exact fun hj => ⟨q, mem_singleton_self q, hj⟩

variable (sha256) in
/-- The segments of a chunk. -/
theorem segments_spec {done data rest : Bytes} {p : Progress Digest} (hB : 0 < driver.shaBlockSizeBytes)
    (hdvd : driver.shaBlockSizeBytes ∣ done.length) (hvolume : volume = done ++ data ++ rest)
    (hrest : rest = [] ∨ driver.shaBlockSizeBytes ∣ data.length) (hoffset : p.dataOffset = done.length)
    (hindex : parent.isSome → p.shaindex = (chunks driver.shaBlockSizeBytes done).length)
    (hparent : ∀ shas, parent = some shas → (chunks driver.shaBlockSizeBytes volume).length ≤ shas.length) :
    ∃ qs, segments driver parent p data ((chunks driver.shaBlockSizeBytes data).map sha256) = .ok qs ∧
      (∀ q ∈ qs, Piece volume q) ∧
      ∀ j < data.length, ¬ Covered qs (done.length + j) → ∃ shas, parent = some shas ∧
        ((chunks driver.shaBlockSizeBytes volume).map sha256)[(done.length + j) / driver.shaBlockSizeBytes]? =
          shas[(done.length + j) / driver.shaBlockSizeBytes]? := by
  have hchunks : chunks driver.shaBlockSizeBytes volume = chunks driver.shaBlockSizeBytes done ++
      (chunks driver.shaBlockSizeBytes data ++ chunks driver.shaBlockSizeBytes rest) := by
    rw [hvolume, append_assoc, chunks_append hB hdvd]
    rcases hrest with rfl | hrest
    · rw [append_nil]
      exact congrArg _ (append_nil _).symm
    · rw [chunks_append hB hrest]
  rw [segments.eq_def, hoffset]
  cases parent with
  | none =>
    refine ⟨_, rfl, fun q hq => ?_, fun j hj hun => absurd ?_ hun⟩
    · rw [mem_singleton.mp hq, hvolume]
      have := @piece_of_chunk done data rest 0 data.length (Nat.zero_le _) le_rfl
      rwa [take_length, drop_zero, Nat.add_zero] at this
    · exact covered_singleton.mpr ⟨Nat.le_add_right _ _, Nat.add_lt_add_left hj _⟩
  | some shas =>
    have hlen : ((chunks driver.shaBlockSizeBytes data).map sha256).length = (chunks driver.shaBlockSizeBytes data).length :=
      length_map _
    have hle := hparent shas rfl
    rw [hchunks, length_append, length_append] at hle
    obtain ⟨l, hl, hbound, hleaves⟩ := @findExtents_spec Digest _ driver.shaBlockSizeBytes data.length shas
      ((chunks driver.shaBlockSizeBytes data).map sha256) 0 p.shaindex none (by rw [hindex rfl]; omega) (fun i hi => by
        rw [Nat.zero_add]
        exact (lt_length_chunks hB).mp (hlen ▸ hi)) nofun
    dsimp only
    rw [hl]
    refine ⟨_, rfl, fun q hq => ?_, fun j hj hun => ⟨shas, rfl, ?_⟩⟩
    · obtain ⟨e, he, rfl⟩ := List.mem_map.mp hq
      obtain ⟨hle, hhigh⟩ := hbound e he
      rw [hvolume]
      exact piece_of_chunk hle hhigh
    · have hno : ∀ e ∈ l, ¬ (e.1 ≤ j ∧ j < e.2) := fun e he hin =>
        hun ⟨_, List.mem_map_of_mem he, by
          rw [length_drop, length_take_of_le (hbound e he).2]
          dsimp only
          omega⟩
      -- the block of the offset, in the chunk and in the volume
      have hblock : j / driver.shaBlockSizeBytes < ((chunks driver.shaBlockSizeBytes data).map sha256).length := by
        rw [hlen]
        exact (lt_length_chunks hB).mpr (Nat.lt_of_le_of_lt (Nat.div_mul_le_self _ _) hj)
      have hdiv : (done.length + j) / driver.shaBlockSizeBytes =
          (chunks driver.shaBlockSizeBytes done).length + j / driver.shaBlockSizeBytes := by
        rw [← length_chunks_mul hB hdvd, Nat.add_comm, Nat.add_mul_div_right _ _ hB, Nat.add_comm]
      have := (hleaves j hj hno).2 (j / driver.shaBlockSizeBytes) hblock
        (by rw [Nat.zero_add]; exact Nat.div_mul_le_self _ _)
        (by rw [Nat.zero_add, Nat.succ_mul]; exact Nat.lt_div_mul_add hB)
      rw [hdiv, ← hindex rfl, ← this, hindex rfl, hchunks, map_append, map_append,
        getElem?_append_right (by rw [length_map]; exact Nat.le_add_right _ _), length_map,
        Nat.add_sub_cancel_left, getElem?_append_left hblock]

/-- **Reading a chunk.** -/
theorem backupData_spec {done data rest : Bytes} {p : Progress Digest} (hB : 0 < driver.shaBlockSizeBytes)
    (hdvd : driver.shaBlockSizeBytes ∣ done.length) (hvolume : volume = done ++ data ++ rest)
    (hrest : rest = [] ∨ driver.shaBlockSizeBytes ∣ data.length)
    (hparent : ∀ shas, parent = some shas → (chunks driver.shaBlockSizeBytes volume).length ≤ shas.length)
    (h : Scanned sha256 codecs driver compressor b parent store volume done p ps) :
    ∃ p' ps', backupData sha256 codecs driver compressor b parent p data = .ok p' ∧
      Scanned sha256 codecs driver compressor b parent store volume (done ++ data) p' ps' := by
  obtain ⟨qs, hqs, hpieces, hleaves⟩ := segments_spec sha256 hB hdvd hvolume hrest h.offset h.index hparent
  refine ⟨_, ps ++ qs, by rw [backupData, hqs]; rfl, ?_, ?_, ?_, fun hp => ?_, fun q hq => ?_, fun j hj hun => ?_⟩
  · rw [foldl_append, h.upload]
  · rw [length_append, h.offset]
  · rw [chunks_append hB hdvd, map_append, h.shas]
  · rw [if_pos hp, h.index hp, chunks_append hB hdvd, length_append, length_map]
  · exact (mem_append.mp hq).elim (h.pieces q) (hpieces q)
  · rw [covered_append, not_or] at hun
    by_cases hlow : j < done.length
    · exact h.leaves j hlow hun.1
    · rw [length_append] at hj
      obtain ⟨i, rfl⟩ := Nat.exists_eq_add_of_le (Nat.le_of_not_lt hlow)
      exact hleaves i (by omega) hun.2

/-- **Reading the volume**, from where the loop is. -/
theorem foldlM_backupData {chunkSize : ℕ} (hB : 0 < driver.shaBlockSizeBytes) (hchunk : driver.shaBlockSizeBytes ∣ chunkSize)
    (hparent : ∀ shas, parent = some shas → (chunks driver.shaBlockSizeBytes volume).length ≤ shas.length)
    {ds : List Bytes} (hds : Records chunkSize ds) {done : Bytes} {p : Progress Digest} {ps : List (ℕ × Bytes)}
    (hdvd : driver.shaBlockSizeBytes ∣ done.length) (hvolume : volume = done ++ ds.flatten)
    (h : Scanned sha256 codecs driver compressor b parent store volume done p ps) :
    ∃ p' ps', ds.foldlM (backupData sha256 codecs driver compressor b parent) p = .ok p' ∧
      Scanned sha256 codecs driver compressor b parent store volume volume p' ps' := by
  induction hds generalizing done p ps with
  | nil =>
    rw [flatten_nil, append_nil] at hvolume
    subst hvolume
    exact ⟨p, ps, rfl, h⟩
  | last hne hle =>
    rw [flatten_singleton] at hvolume
    obtain ⟨p', ps', hp, h'⟩ := @backupData_spec _ codecs driver compressor b _ sha256 parent store volume ps done _ [] p hB
      hdvd (hvolume.trans (append_nil _).symm) (.inl rfl) hparent h
    refine ⟨p', ps', ?_, hvolume ▸ h'⟩
    rw [foldlM_cons, hp]
    rfl
  | @cons data ds hlen hds ih =>
    rw [flatten_cons, ← append_assoc] at hvolume
    have hdata : driver.shaBlockSizeBytes ∣ data.length := hlen ▸ hchunk
    obtain ⟨p', ps', hp, h'⟩ := backupData_spec hB hdvd hvolume (.inr hdata) hparent h
    obtain ⟨p'', ps'', hps, h''⟩ := ih (length_append ▸ (Nat.dvd_add hdvd hdata)) hvolume h'
    refine ⟨p'', ps'', ?_, h''⟩
    rw [foldlM_cons, hp]
    exact hps

end Mitaka.Cinder
