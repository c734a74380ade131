/-
  Subject: swift/obj/diskfile.py, `BaseDiskFileManager.parse_on_disk_filename`,
           `get_ondisk_files`, `cleanup_ondisk_files` and the replication
           policy's `DiskFileManager._process_ondisk_files`.

  The files of an object directory are sorted out in three passes: tombstones,
  metadata, data. Each pass keeps some files of an extension and retires the
  others as obsolete.

  * `Sound` holds after every pass: a file is obsolete exactly when it is not kept.
  * `mem_tombstonePass`, `metaPass_spec`, `processOndiskFiles_spec`: what each pass
    leaves.

  `datadir` is only put before the reported names, and is left out. The order of
  `exts.keys()` and so of `obsolete` is that of a dict, here of first appearance.
-/
import Mitaka.Lib.Dict
import Mitaka.Lib.Sorting
import Mitaka.Swift.Timestamp

namespace Mitaka.Swift

open Sorting List

/-! ## 1. File names -/

/-- `os.path.splitext` of a name without a slash: leading dots do not count. -/
def splitext (p : Str) : Str × Str :=
  match p.reverse.span (· ≠ '.') with
  | (_, []) => (p, [])
  | (tail, _ :: root) => if root.all (· = '.') then (p, []) else (root.reverse, '.' :: tail.reverse)

def DATA : Str := ".data".toList

def META : Str := ".meta".toList

def TS : Str := ".ts".toList

/-- A file info dict. `⊥` is Python's `None`: `Timestamp.__lt__` answers false for
    it, so every timestamp is greater. -/
structure FileInfo where
  filename : Str
  timestamp : Timestamp
  ext : Str
  ctypeTimestamp : WithBot Timestamp
  deriving DecidableEq

/-- `parse_on_disk_filename`; `none` is the `DiskFileError`. -/
def parseOnDiskFilename (filename : Str) : Option FileInfo :=
  match splitext filename with
  | (fname, ext) =>
    if ext = META then
      (decodeTimestamps fname true).map fun t =>
        ⟨filename, t.1, ext, match t.2.1 with | some c => c | none => ⊥⟩
    else (Timestamp.ofStr fname).map fun t => ⟨filename, t, ext, ⊥⟩

variable {x : FileInfo}

theorem parse_filename {f : Str} (h : parseOnDiskFilename f = some x) :
    x.filename = f := by
  unfold parseOnDiskFilename at h
  split at h
  split at h <;> obtain ⟨_, _, rfl⟩ := Option.map_eq_some_iff.mp h <;> rfl

/-! ## 2. The three passes -/

/-- The extension table and the files found obsolete so far. -/
structure Scan where
  exts : Str → List FileInfo
  obsolete : List FileInfo

/-- `exts[ext], older = kept, dropped`, and `older` is obsolete. -/
def Scan.retire (s : Scan) (ext : Str) (cut : List FileInfo × List FileInfo) : Scan :=
  { exts := Function.update s.exts ext cut.1, obsolete := s.obsolete ++ cut.2 }

/-- A loop over the extensions, each list cut in two. -/
def Scan.retireAll (cut : Str → List FileInfo → List FileInfo × List FileInfo) (keys : List Str)
    (s : Scan) : Scan :=
  keys.foldl (fun s ext => s.retire ext (cut ext (s.exts ext))) s

/-- `_split_list`. -/
def splitList (l : List FileInfo) (condition : FileInfo → Bool) : List FileInfo × List FileInfo :=
  (l.takeWhile condition, l.dropWhile condition)

/-- `_split_gt_timestamp`. -/
def splitGtTimestamp (l : List FileInfo) (t : Timestamp) : List FileInfo × List FileInfo :=
  splitList l fun x => x.timestamp.pyGt t

/-- `_split_gte_timestamp`. -/
def splitGteTimestamp (l : List FileInfo) (t : Timestamp) : List FileInfo × List FileInfo :=
  splitList l fun x => x.timestamp.pyGe t

/-- Non-tombstones not newer than the latest tombstone are obsolete, and every
    other tombstone. -/
def tombstonePass (keys : List Str) (s : Scan) : Scan :=
  match s.exts TS with
  | [] => s
  | newest :: older =>
    (s.retireAll (fun _ l => splitGtTimestamp l newest.timestamp) (keys.filter (· ≠ TS))).retire TS
      ([newest], older)

/-- The order `.meta` files are retained in, and how many: the newest, and the
    one with the newest content type when that is another file. -/
def retainMetas (newest : FileInfo) (rest : List FileInfo) : List FileInfo × Nat :=
  match sortDesc FileInfo.ctypeTimestamp rest with
  | [] => ([newest], 1)
  | second :: others =>
    if newest.ctypeTimestamp < second.ctypeTimestamp then
      if second.timestamp.pyEq newest.timestamp then (second :: newest :: others, 1)
      else (newest :: second :: others, 2)
    else (newest :: second :: others, 1)

def metaPass (s : Scan) : Scan :=
  match s.exts META with
  | [] => s
  | newest :: rest =>
    match retainMetas newest rest with
    | (metas, retain) => s.retire META (metas.take retain, metas.drop retain)

/-- `_process_ondisk_files` of the replication policy, with `data_info`. -/
def processOndiskFiles (keys : List Str) (s : Scan) : Scan × Option FileInfo :=
  match s.exts DATA with
  | [] => (s, none)
  | newest :: _ =>
    let s := s.retireAll (fun ext l =>
      if ext = DATA then splitGteTimestamp l newest.timestamp
      else splitGtTimestamp l newest.timestamp) keys
    (s, (s.exts DATA).head?)

/-- The results dict: info dicts, obsolete files, and names that do not parse. -/
structure OndiskResults where
  tsInfo : Option FileInfo
  dataInfo : Option FileInfo
  metaInfo : Option FileInfo
  ctypeInfo : Option FileInfo
  obsolete : List FileInfo
  unexpected : List Str

/-- `exts`, each list sorted newest first. -/
def initialScan (infos : List FileInfo) : Scan :=
  { exts := fun ext => sortDesc FileInfo.timestamp (infos.filter (·.ext = ext)), obsolete := [] }

/-- `exts.keys()`. -/
def extKeys (infos : List FileInfo) : List Str := (infos.map (·.ext)).dedup

/-- The table after the three passes. -/
def finalScan (infos : List FileInfo) : Scan × Option FileInfo :=
  processOndiskFiles (extKeys infos)
    (metaPass (tombstonePass (extKeys infos) (initialScan infos)))

/-- `get_ondisk_files` up to the verification. -/
def selectOndiskFiles (files : List Str) : OndiskResults :=
  match finalScan (files.filterMap parseOnDiskFilename) with
  | (s, dataInfo) =>
    { tsInfo := (s.exts TS).head?
      dataInfo := dataInfo
      metaInfo := dataInfo.bind fun _ => (s.exts META).head?
      ctypeInfo := dataInfo.bind fun d =>
        (s.exts META).getLast?.filter fun m => (d.timestamp : WithBot Timestamp) < m.ctypeTimestamp
      obsolete := s.obsolete
      unexpected := files.filter fun f => (parseOnDiskFilename f).isNone }

/-- `_verify_ondisk_files`. -/
def verifyOndiskFiles (r : OndiskResults) : Bool :=
  (r.dataInfo.isNone && r.metaInfo.isNone && r.tsInfo.isNone) ||
    (r.tsInfo.isSome && r.dataInfo.isNone && r.metaInfo.isNone) ||
    (r.dataInfo.isSome && r.tsInfo.isNone)

/-- `get_ondisk_files`; `none` is the failed assertion. -/
def getOndiskFiles (files : List Str) (verify : Bool) : Option OndiskResults :=
  let r := selectOndiskFiles files
  if verify && !verifyOndiskFiles r then none else some r

/-- `cleanup_ondisk_files` of a directory listing: the files left, and the results. -/
def cleanupOndiskFiles (isReclaimable : Timestamp → Bool) (listing : List Str) :
    List Str × OndiskResults :=
  let files := sortDesc id listing
  let r := selectOndiskFiles files
  let reclaimed := r.tsInfo.filter fun t => isReclaimable t.timestamp
  let files := match reclaimed with
    | some t => files.erase t.filename
    | none => files
  (r.obsolete.foldl (fun fs x => fs.erase x.filename) files,
    { r with tsInfo := r.tsInfo.filter fun t => !isReclaimable t.timestamp })

/-! ## 3. What every pass keeps -/

/-- Each list holds files of its extension, newest first, and **a file is obsolete
    exactly when it is not kept**. -/
structure Sound (infos : List FileInfo) (s : Scan) : Prop where
  mem : ∀ {e x}, x ∈ s.exts e → x ∈ infos ∧ x.ext = e
  nodup : ∀ e, (s.exts e).Nodup
  desc : ∀ e, Desc FileInfo.timestamp (s.exts e)
  obsolete_iff : ∀ x, x ∈ s.obsolete ↔ x ∈ infos ∧ x ∉ s.exts x.ext

variable {infos : List FileInfo} {s : Scan}

theorem sound_initialScan (hn : infos.Nodup) : Sound infos (initialScan infos) := by
  have hmem : ∀ {e x}, x ∈ (initialScan infos).exts e ↔ x ∈ infos ∧ x.ext = e := by
    intro e x
    simp [initialScan]
  refine ⟨hmem.mp, fun e => ?_, fun e => desc_sortDesc _ _, fun x => ?_⟩
  · exact (sortDesc_perm _ _).nodup_iff.mpr (hn.filter _)
  · rw [hmem]
    simp [initialScan]

@[simp] theorem retire_exts_self (s : Scan) (e : Str) (cut : List FileInfo × List FileInfo) :
    (s.retire e cut).exts e = cut.1 := Function.update_self ..

theorem retire_exts_of_ne (s : Scan) {e e' : Str} (cut : List FileInfo × List FileInfo)
    (h : e' ≠ e) : (s.retire e cut).exts e' = s.exts e' := Function.update_of_ne h ..

/-- Cutting one list in two keeps the table sound. -/
theorem Sound.retire (h : Sound infos s) {e : Str} {cut : List FileInfo × List FileInfo}
    (hp : (cut.1 ++ cut.2).Perm (s.exts e)) (hd : Desc FileInfo.timestamp cut.1) :
    Sound infos (s.retire e cut) := by
  have hnd := nodup_append.mp (hp.nodup_iff.mpr (h.nodup e))
  have hin : ∀ x, x ∈ cut.1 ∨ x ∈ cut.2 ↔ x ∈ s.exts e := fun x => by
    rw [← hp.mem_iff, mem_append]
  refine ⟨fun {e' x} hx => ?_, fun e' => ?_, fun e' => ?_, fun x => ?_⟩
  · by_cases he : e' = e
    · subst he
      rw [retire_exts_self] at hx
      exact h.mem ((hin x).mp (Or.inl hx))
    · rw [retire_exts_of_ne s cut he] at hx
      exact h.mem hx
  · by_cases he : e' = e
    · subst he
      rw [retire_exts_self]
      exact hnd.1
    · rw [retire_exts_of_ne s cut he]
      exact h.nodup e'
  · by_cases he : e' = e
    · subst he
      rw [retire_exts_self]
      exact hd
    · rw [retire_exts_of_ne s cut he]
      exact h.desc e'
  · have hobs : x ∈ (s.retire e cut).obsolete ↔ x ∈ s.obsolete ∨ x ∈ cut.2 := mem_append
    rw [hobs, h.obsolete_iff]
    by_cases he : x.ext = e
    · subst he
      rw [retire_exts_self, ← hin x]
      refine ⟨fun hx => ?_, fun hx => ?_⟩
      · rcases hx with ⟨hi, hx⟩ | hx
        · exact ⟨hi, fun h1 => hx (Or.inl h1)⟩
        · exact ⟨(h.mem ((hin x).mp (Or.inr hx))).1, fun h1 => hnd.2.2 x h1 x hx rfl⟩
      · by_cases h2 : x ∈ cut.2
        · exact Or.inr h2
        · exact Or.inl ⟨hx.1, fun h1 => h1.elim hx.2 h2⟩
    · rw [retire_exts_of_ne s cut he]
      refine ⟨fun hx => hx.elim id fun hx => ?_, Or.inl⟩
      exact absurd (h.mem ((hin x).mp (Or.inr hx))).2 he

/-- Every list of the loop is cut from what it was before the loop. -/
theorem retireAll_exts (cut : Str → List FileInfo → List FileInfo × List FileInfo)
    {keys : List Str} (hk : keys.Nodup) (s : Scan) (e : Str) :
    (s.retireAll cut keys).exts e = if e ∈ keys then (cut e (s.exts e)).1 else s.exts e := by
  induction keys generalizing s with
  | nil => simp [Scan.retireAll]
  | cons k keys ih =>
    obtain ⟨hkk, hk⟩ := nodup_cons.mp hk
    have hstep : s.retireAll cut (k :: keys) = (s.retire k (cut k (s.exts k))).retireAll cut keys := rfl
    rw [hstep, ih hk]
    by_cases he : e = k
    · subst he
      simp [hkk]
    · rw [retire_exts_of_ne s _ he]
      simp [he]

theorem Sound.retireAll {cut : Str → List FileInfo → List FileInfo × List FileInfo}
    (hcut : ∀ e l, Desc FileInfo.timestamp l →
      ((cut e l).1 ++ (cut e l).2).Perm l ∧ Desc FileInfo.timestamp (cut e l).1)
    (keys : List Str) (h : Sound infos s) : Sound infos (s.retireAll cut keys) := by
  induction keys generalizing s with
  | nil => exact h
  | cons k keys ih =>
    obtain ⟨hp, hd⟩ := hcut k _ (h.desc k)
    exact ih (h.retire hp hd)

variable {l : List FileInfo}

/-- Cutting at a threshold is a cut. -/
theorem splitList_cut (hl : Desc FileInfo.timestamp l) (p : FileInfo → Bool) :
    ((splitList l p).1 ++ (splitList l p).2).Perm l ∧ Desc FileInfo.timestamp (splitList l p).1 :=
  ⟨by rw [splitList, takeWhile_append_dropWhile], hl.sublist (takeWhile_sublist p)⟩

theorem mem_splitGt (hl : Desc FileInfo.timestamp l) {t : Timestamp}
    : x ∈ (splitGtTimestamp l t).1 ↔ x ∈ l ∧ t < x.timestamp := by
  have hup : ∀ a b : FileInfo, b.timestamp ≤ a.timestamp → b.timestamp.pyGt t = true →
      a.timestamp.pyGt t = true := by
    intro a b hab hb
    rw [Timestamp.pyGt_iff] at hb ⊢
    exact hb.trans_le hab
  rw [splitGtTimestamp, splitList, hl.mem_takeWhile hup, Timestamp.pyGt_iff]

theorem mem_splitGte (hl : Desc FileInfo.timestamp l) {t : Timestamp}
    : x ∈ (splitGteTimestamp l t).1 ↔ x ∈ l ∧ t ≤ x.timestamp := by
  have hup : ∀ a b : FileInfo, b.timestamp ≤ a.timestamp → b.timestamp.pyGe t = true →
      a.timestamp.pyGe t = true := by
    intro a b hab hb
    rw [Timestamp.pyGe_iff] at hb ⊢
    exact hb.trans hab
  rw [splitGteTimestamp, splitList, hl.mem_takeWhile hup, Timestamp.pyGe_iff]

/-! ## 4. What each pass does -/

/-- The timestamp of a chosen file; `⊥` for none. -/
def stamp : Option FileInfo → WithBot Timestamp
  | none => ⊥
  | some x => x.timestamp

theorem ext_ne : META ≠ TS ∧ DATA ≠ TS ∧ META ≠ DATA := by decide

theorem nodup_extKeys (infos : List FileInfo) : (extKeys infos).Nodup := nodup_dedup _

theorem Sound.mem_extKeys (h : Sound infos s) {e : Str} (hx : x ∈ s.exts e) :
    e ∈ extKeys infos := by
  obtain ⟨hi, rfl⟩ := h.mem hx
  exact mem_dedup.mpr (List.mem_map_of_mem hi)

theorem Sound.exts_eq_nil (h : Sound infos s) {e : Str} (he : e ∉ extKeys infos) : s.exts e = [] :=
  eq_nil_iff_forall_not_mem.mpr fun _ hx => he (h.mem_extKeys hx)

/-- The loop over the other extensions leaves the tombstones alone. -/
theorem retireAll_ts (cut : Str → List FileInfo → List FileInfo × List FileInfo) (s : Scan) :
    (s.retireAll cut ((extKeys infos).filter (· ≠ TS))).exts TS = s.exts TS := by
  rw [retireAll_exts cut ((nodup_extKeys infos).filter _), if_neg]
  simp

theorem Sound.tombstonePass (h : Sound infos s) : Sound infos (tombstonePass (extKeys infos) s) := by
  unfold Swift.tombstonePass
  split
  · exact h
  · next newest older heq =>
    refine (h.retireAll (fun e l hl => splitList_cut hl _) _).retire ?_ (pairwise_singleton _ _)
    rw [retireAll_ts, heq]
    exact List.Perm.refl _

theorem tombstonePass_ts (keys : List Str) (s : Scan) :
    (tombstonePass keys s).exts TS = (s.exts TS).take 1 := by
  unfold Swift.tombstonePass
  split
  · next heq => rw [heq]; rfl
  · next newest older heq => rw [retire_exts_self, heq]; rfl

/-- Past the first pass, only what is newer than the latest tombstone is left. -/
theorem mem_tombstonePass (h : Sound infos s) {e : Str} (he : e ≠ TS) :
    x ∈ (tombstonePass (extKeys infos) s).exts e ↔
      x ∈ s.exts e ∧ stamp (s.exts TS).head? < x.timestamp := by
  unfold Swift.tombstonePass
  split
  · next heq => simp [heq, stamp]
  · next newest older heq =>
    rw [retire_exts_of_ne _ _ he, retireAll_exts _ ((nodup_extKeys infos).filter _), heq]
    have hstamp : stamp (newest :: older).head? < x.timestamp ↔ newest.timestamp < x.timestamp :=
      WithBot.coe_lt_coe
    by_cases hmem : e ∈ extKeys infos
    · rw [if_pos (mem_filter.mpr ⟨hmem, by simpa using he⟩), mem_splitGt (h.desc e), hstamp]
    · rw [if_neg (fun hf => hmem (mem_filter.mp hf).1), h.exts_eq_nil hmem]
      simp

/-- What the second pass may leave of the metadata files `l`. -/
inductive Retained (l : List FileInfo) : List FileInfo → Prop
  | nil : l = [] → Retained l []
  | one {m} : m ∈ l →
      (∀ y ∈ l, y.timestamp ≤ m.timestamp ∧ y.ctypeTimestamp ≤ m.ctypeTimestamp) → Retained l [m]
  | two {m m'} : m ∈ l → m' ∈ l → m'.timestamp < m.timestamp →
      m.ctypeTimestamp < m'.ctypeTimestamp →
      (∀ y ∈ l, y.timestamp ≤ m.timestamp ∧ y.ctypeTimestamp ≤ m'.ctypeTimestamp) →
      Retained l [m, m']

/-- **The two-file rule**: the retained files hold the newest metadata and the
    newest content type. -/
theorem retained_retainMetas {newest : FileInfo} {rest : List FileInfo}
    (hd : Desc FileInfo.timestamp (newest :: rest)) :
    Retained (newest :: rest) ((retainMetas newest rest).1.take (retainMetas newest rest).2) ∧
      (retainMetas newest rest).1.Perm (newest :: rest) := by
  have hts := hd.le_head
  unfold retainMetas
  have hperm := sortDesc_perm FileInfo.ctypeTimestamp rest
  have hdesc := desc_sortDesc FileInfo.ctypeTimestamp rest
  cases hs : sortDesc FileInfo.ctypeTimestamp rest with
  | nil =>
    rw [hs] at hperm
    obtain rfl := nil_perm.mp hperm
    refine ⟨Retained.one (mem_singleton_self _) fun y hy => ⟨hts y hy, ?_⟩, List.Perm.refl _⟩
    rw [mem_singleton.mp hy]
  | cons second others =>
    rw [hs] at hperm hdesc
    have hsecond : second ∈ newest :: rest :=
      mem_cons_of_mem _ (hperm.mem_iff.mp mem_cons_self)
    have hctype : ∀ y ∈ rest, y.ctypeTimestamp ≤ second.ctypeTimestamp := fun y hy =>
      hdesc.le_head y (hperm.mem_iff.mpr hy)
    by_cases hc : newest.ctypeTimestamp < second.ctypeTimestamp
    · have hall : ∀ y ∈ newest :: rest, y.ctypeTimestamp ≤ second.ctypeTimestamp := by
        intro y hy
        rcases mem_cons.mp hy with rfl | hy
        · exact hc.le
        · exact hctype y hy
      by_cases he : second.timestamp = newest.timestamp
      · simp only [hc, if_true, Timestamp.pyEq_iff.mpr he]
        refine ⟨Retained.one hsecond fun y hy => ⟨he ▸ hts y hy, hall y hy⟩, ?_⟩
        exact (Perm.swap _ _ _).trans (hperm.cons newest)
      · simp only [hc, if_true, mt Timestamp.pyEq_iff.mp he, Bool.false_eq_true, if_false]
        refine ⟨Retained.two mem_cons_self hsecond
          (lt_of_le_of_ne (hts second hsecond) he) hc fun y hy => ⟨hts y hy, hall y hy⟩, ?_⟩
        exact hperm.cons newest
    · simp only [hc, if_false]
      refine ⟨Retained.one mem_cons_self fun y hy => ⟨hts y hy, ?_⟩, hperm.cons newest⟩
      rcases mem_cons.mp hy with rfl | hy
      · exact le_rfl
      · exact (hctype y hy).trans (not_lt.mp hc)

theorem Retained.desc {l r : List FileInfo} (h : Retained l r) : Desc FileInfo.timestamp r := by
  cases h with
  | nil => exact List.Pairwise.nil
  | one => exact pairwise_singleton _ _
  | two _ _ hlt => exact pairwise_pair.mpr hlt.le

theorem Retained.mem {l r : List FileInfo} (h : Retained l r) (hx : x ∈ r) :
    x ∈ l := by
  cases h with
  | nil => exact absurd hx not_mem_nil
  | one hm => exact mem_singleton.mp hx ▸ hm
  | two hm hm' =>
    rcases mem_cons.mp hx with rfl | hx
    · exact hm
    · exact mem_singleton.mp hx ▸ hm'

/-- The second pass touches the metadata files only. -/
theorem metaPass_spec (h : Sound infos s) :
    Sound infos (metaPass s) ∧ Retained (s.exts META) ((metaPass s).exts META) ∧
      ∀ e, e ≠ META → (metaPass s).exts e = s.exts e := by
  unfold metaPass
  split
  · next heq => exact ⟨h, by rw [heq]; exact Retained.nil rfl, fun _ _ => rfl⟩
  · next newest rest heq =>
    have hd := h.desc META
    rw [heq] at hd
    obtain ⟨hret, hperm⟩ := retained_retainMetas hd
    split
    next metas retain hm =>
    rw [hm] at hret hperm
    refine ⟨h.retire ?_ hret.desc, ?_, fun e he => retire_exts_of_ne s _ he⟩
    · rw [take_append_drop, heq]
      exact hperm
    · rw [retire_exts_self, heq]
      exact hret

/-- Past the third pass with a data file, only data files as new and other
    files newer are left. -/
theorem processOndiskFiles_spec (h : Sound infos s) {newest : FileInfo} {older : List FileInfo}
    (hdata : s.exts DATA = newest :: older) :
    Sound infos (processOndiskFiles (extKeys infos) s).1 ∧
      (processOndiskFiles (extKeys infos) s).2 = some newest ∧
      ((processOndiskFiles (extKeys infos) s).1.exts DATA).head? = some newest ∧
      (∀ x, x ∈ (processOndiskFiles (extKeys infos) s).1.exts DATA ↔
        x ∈ s.exts DATA ∧ newest.timestamp ≤ x.timestamp) ∧
      ∀ e, e ≠ DATA → (processOndiskFiles (extKeys infos) s).1.exts e =
        (splitGtTimestamp (s.exts e) newest.timestamp).1 := by
  have hDATA : DATA ∈ extKeys infos :=
    h.mem_extKeys (x := newest) (by rw [hdata]; exact mem_cons_self)
  have hk := nodup_extKeys infos
  have hself : newest.timestamp.pyGe newest.timestamp = true := Timestamp.pyGe_iff.mpr le_rfl
  unfold processOndiskFiles
  split
  · next heq => exact absurd (heq.symm.trans hdata) (cons_ne_nil _ _).symm
  · next d l heq =>
    obtain ⟨rfl, rfl⟩ := List.cons.inj (heq.symm.trans hdata)
    dsimp only
    have hhead : ((s.retireAll (fun ext l => if ext = DATA then splitGteTimestamp l d.timestamp
        else splitGtTimestamp l d.timestamp) (extKeys infos)).exts DATA).head? = some d := by
      simp only [retireAll_exts _ hk, hDATA, if_true, heq, splitGteTimestamp, splitList]
      simp [hself]
    refine ⟨h.retireAll (fun e l hl => ?_) _, hhead, hhead, fun x => ?_, fun e he => ?_⟩
    · split
      · exact splitList_cut hl _
      · exact splitList_cut hl _
    · simp only [retireAll_exts _ hk, hDATA, if_true]
      exact mem_splitGte (h.desc DATA)
    · simp only [retireAll_exts _ hk, he, if_false]
      by_cases hmem : e ∈ extKeys infos
      · rw [if_pos hmem]
      · rw [if_neg hmem, h.exts_eq_nil hmem, splitGtTimestamp, splitList, takeWhile_nil]

end Mitaka.Swift
