/-
  Subject: The object state `get_ondisk_files` selects, and cleaning up under
           replication.

  * `final_finalScan`: what the three passes leave, in terms of the newest
    tombstone and the newest data file.
  * `selectOndiskFiles_state`: the selected state is the view of the summary of the
    files, so the listing order does not matter.
  * `kept_covers`: what is kept covers the files, so cleaning up loses nothing
    another replica may complete.
  * `Clean`: a cleaned-up directory has nothing obsolete.
  * `Replicas`: runs over replicas that put, send and clean up.
-/
import Mitaka.Swift.OndiskFiles
import Mitaka.Swift.OndiskState

namespace Mitaka.Swift

open Sorting List

variable {infos : List FileInfo} {s : Scan}

/-! ## 1. The summary of a directory -/

/-- The newest timestamp of an extension. -/
def newest (infos : Finset FileInfo) (e : Str) : WithBot Timestamp :=
  (infos.filter (·.ext = e)).sup fun x => (x.timestamp : WithBot Timestamp)

/-- The newest content type of a metadata file. -/
def newestCtype (infos : Finset FileInfo) : WithBot Timestamp :=
  (infos.filter (·.ext = META)).sup FileInfo.ctypeTimestamp

/-- What a set of files says about its object. -/
def summary (infos : Finset FileInfo) : Summary (WithBot Timestamp) :=
  ⟨newest infos DATA, newest infos TS, newest infos META, newestCtype infos⟩

theorem summary_union (a b : Finset FileInfo) : summary (a ∪ b) = (summary a).join (summary b) := by
  simp [summary, Summary.join, newest, newestCtype, Finset.filter_union, Finset.sup_union]

variable {F : Finset FileInfo} {x : FileInfo}

theorem le_newest (hx : x ∈ F) :
    (x.timestamp : WithBot Timestamp) ≤ newest F x.ext :=
  Finset.le_sup (f := fun x : FileInfo => (x.timestamp : WithBot Timestamp))
    (Finset.mem_filter.mpr ⟨hx, rfl⟩)

theorem newest_le {e : Str} {b : WithBot Timestamp}
    (h : ∀ x ∈ F, x.ext = e → (x.timestamp : WithBot Timestamp) ≤ b) : newest F e ≤ b :=
  Finset.sup_le fun x hx => h x (Finset.mem_filter.mp hx).1 (Finset.mem_filter.mp hx).2

theorem le_newestCtype (hx : x ∈ F) (he : x.ext = META) :
    x.ctypeTimestamp ≤ newestCtype F :=
  Finset.le_sup (f := FileInfo.ctypeTimestamp) (Finset.mem_filter.mpr ⟨hx, he⟩)

theorem newestCtype_le {b : WithBot Timestamp}
    (h : ∀ x ∈ F, x.ext = META → x.ctypeTimestamp ≤ b) : newestCtype F ≤ b :=
  Finset.sup_le fun x hx => h x (Finset.mem_filter.mp hx).1 (Finset.mem_filter.mp hx).2

/-- The head of a descending list of all files of an extension is the newest. -/
theorem stamp_head {e : Str} {l : List FileInfo}
    (hd : Desc FileInfo.timestamp l) (hm : ∀ x, x ∈ l ↔ x ∈ F ∧ x.ext = e) :
    stamp l.head? = newest F e := by
  cases l with
  | nil =>
    refine le_antisymm bot_le (newest_le fun x hx he => ?_)
    exact absurd ((hm x).mpr ⟨hx, he⟩) not_mem_nil
  | cons y l =>
    obtain ⟨hy, hye⟩ := (hm y).mp mem_cons_self
    refine le_antisymm (hye ▸ le_newest hy) (newest_le fun x hx he => ?_)
    exact WithBot.coe_le_coe.mpr (hd.le_head x ((hm x).mpr ⟨hx, he⟩))

/-- **What the three passes leave**, in terms of the newest tombstone and the
    newest data file. -/
structure Final (infos : List FileInfo) (s : Scan) (d : Option FileInfo) : Prop where
  sound : Sound infos s
  /-- newer than the tombstones, the data file wins -/
  chosen : d = (s.exts DATA).head? ∧ stamp d =
    if newest infos.toFinset TS < newest infos.toFinset DATA then newest infos.toFinset DATA else ⊥
  tombstones : (s.exts TS).length ≤ 1 ∧ stamp (s.exts TS).head? =
    if newest infos.toFinset TS < newest infos.toFinset DATA then ⊥ else newest infos.toFinset TS
  datas : ∀ x, x ∈ s.exts DATA ↔ x ∈ infos ∧ x.ext = DATA ∧ stamp d = x.timestamp
  /-- the metadata files of the two-file rule, as far as newer than the data file -/
  metas : ∃ l r, (∀ x, x ∈ l ↔ x ∈ infos ∧ x.ext = META ∧ newest infos.toFinset TS < x.timestamp) ∧
    Retained l r ∧ s.exts META = r.takeWhile fun x => decide (stamp d < x.timestamp)
  others : ∀ e x, e ≠ TS → e ≠ DATA → e ≠ META → (x ∈ s.exts e ↔
    x ∈ infos ∧ x.ext = e ∧ newest infos.toFinset TS < x.timestamp ∧ stamp d < x.timestamp)

theorem final_finalScan (hn : infos.Nodup) : Final infos (finalScan infos).1 (finalScan infos).2 := by
  have hmem : ∀ {e x}, x ∈ (initialScan infos).exts e ↔ x ∈ infos ∧ x.ext = e := by
    intro e x
    simp [initialScan]
  have h0 := sound_initialScan hn
  have hT : stamp ((initialScan infos).exts TS).head? = newest infos.toFinset TS :=
    stamp_head (h0.desc TS) fun x => by rw [hmem, List.mem_toFinset]
  -- past the first pass
  set s1 := tombstonePass (extKeys infos) (initialScan infos) with hs1
  have h1 : Sound infos s1 := h0.tombstonePass
  have hmem1 : ∀ {e}, e ≠ TS → ∀ {x}, x ∈ s1.exts e ↔
      (x ∈ infos ∧ x.ext = e) ∧ newest infos.toFinset TS < x.timestamp := by
    intro e he x
    rw [hs1, mem_tombstonePass h0 he, hmem, hT]
  have hts1 : s1.exts TS = ((initialScan infos).exts TS).take 1 := tombstonePass_ts _ _
  -- past the second pass
  obtain ⟨h2, hret, hsame⟩ := metaPass_spec h1
  have hfin : finalScan infos = processOndiskFiles (extKeys infos) (metaPass s1) := rfl
  set s2 := metaPass s1
  have hmem2 : ∀ {e}, e ≠ TS → ∀ {x}, x ∈ s2.exts e → newest infos.toFinset TS < x.timestamp := by
    intro e he x hx
    by_cases hm : e = META
    · subst hm
      exact ((hmem1 he).mp (hret.mem hx)).2
    · rw [hsame e hm] at hx
      exact ((hmem1 he).mp hx).2
  have hts2 : s2.exts TS = ((initialScan infos).exts TS).take 1 := by
    rw [hsame TS ext_ne.1.symm, hts1]
  have hdata2 : ∀ {x}, x ∈ s2.exts DATA ↔
      (x ∈ infos ∧ x.ext = DATA) ∧ newest infos.toFinset TS < x.timestamp := by
    intro x
    rw [hsame DATA ext_ne.2.2.symm, hmem1 ext_ne.2.1]
  have hmetas : ∀ x, x ∈ s1.exts META ↔
      x ∈ infos ∧ x.ext = META ∧ newest infos.toFinset TS < x.timestamp := by
    intro x
    rw [hmem1 ext_ne.1, and_assoc]
  cases hd : s2.exts DATA with
  | nil =>
    -- no data file is newer than the tombstones
    have hnl : ¬ newest infos.toFinset TS < newest infos.toFinset DATA := by
      refine not_lt.mpr (newest_le fun x hx he => not_lt.mp fun hlt => ?_)
      have := hdata2.mpr ⟨⟨List.mem_toFinset.mp hx, he⟩, hlt⟩
      rw [hd] at this
      exact absurd this not_mem_nil
    have hres : finalScan infos = (s2, none) := by
      rw [hfin, processOndiskFiles]
      split
      · rfl
      · next heq => exact absurd (hd.symm.trans heq) (cons_ne_nil _ _).symm
    rw [hres]
    refine ⟨h2, ⟨by rw [hd]; rfl, by rw [if_neg hnl]; rfl⟩, ⟨?_, ?_⟩, fun x => ?_,
      ⟨s1.exts META, s2.exts META, hmetas, hret, ?_⟩, fun e x hT hD hM => ?_⟩
    · rw [hts2]
      exact length_take_le _ _
    · rw [hts2, if_neg hnl, ← hT]
      cases (initialScan infos).exts TS <;> rfl
    · rw [hd]
      refine ⟨fun hx => absurd hx not_mem_nil, fun hx => ?_⟩
      exact absurd hx.2.2 (WithBot.bot_ne_coe)
    · have hall : ∀ x ∈ s2.exts META, decide (stamp none < x.timestamp) = true := fun x _ =>
        decide_eq_true (WithBot.bot_lt_coe _)
      rw [takeWhile_eq_self_iff.mpr hall]
    · rw [hsame e hM, hmem1 hT, and_assoc]
      have hbot : stamp none < (x.timestamp : WithBot Timestamp) := WithBot.bot_lt_coe _
      simp only [hbot, and_true]
  | cons d older =>
    obtain ⟨h3, hsnd, hhd, hdata3, hrest⟩ := processOndiskFiles_spec h2 hd
    rw [← hfin] at h3 hsnd hhd hdata3 hrest
    have hdmem : d ∈ s2.exts DATA := by rw [hd]; exact mem_cons_self
    obtain ⟨⟨hdi, hde⟩, hTd⟩ := hdata2.mp hdmem
    have hhead := (hd ▸ h2.desc DATA : Desc FileInfo.timestamp (d :: older)).le_head
    have hnew : newest infos.toFinset DATA = d.timestamp := by
      refine le_antisymm (newest_le fun x hx he => ?_) (hde ▸ le_newest (List.mem_toFinset.mpr hdi))
      by_cases hlt : newest infos.toFinset TS < x.timestamp
      · have hx2 := hdata2.mpr ⟨⟨List.mem_toFinset.mp hx, he⟩, hlt⟩
        rw [hd] at hx2
        exact WithBot.coe_le_coe.mpr (hhead x hx2)
      · exact (not_lt.mp hlt).trans hTd.le
    have hrest' : ∀ {e x}, e ≠ DATA → (x ∈ (finalScan infos).1.exts e ↔
        x ∈ s2.exts e ∧ (d.timestamp : WithBot Timestamp) < x.timestamp) := by
      intro e x he
      rw [hrest e he, mem_splitGt (h2.desc e), WithBot.coe_lt_coe]
    have hlive : newest infos.toFinset TS < newest infos.toFinset DATA := hnew ▸ hTd
    have hts3 : (finalScan infos).1.exts TS = [] := by
      -- the tombstones are older than the data file
      refine eq_nil_iff_forall_not_mem.mpr fun x hx => ?_
      obtain ⟨hx2, hlt⟩ := (hrest' ext_ne.2.1.symm).mp hx
      obtain ⟨hxi, hxe⟩ := h2.mem hx2
      exact absurd (hlt.trans_le (hxe ▸ le_newest (List.mem_toFinset.mpr hxi))) (not_lt.mpr hTd.le)
    rw [hsnd]
    refine ⟨h3, ⟨hhd.symm, by rw [if_pos hlive, hnew]; rfl⟩, ⟨by rw [hts3]; exact Nat.zero_le 1,
      by rw [hts3, if_pos hlive]; rfl⟩, fun x => ?_, ⟨s1.exts META, s2.exts META, hmetas, hret, ?_⟩,
      fun e x hT hD hM => ?_⟩
    · rw [hdata3, hdata2]
      refine ⟨fun hx => ⟨hx.1.1.1, hx.1.1.2, ?_⟩, fun hx => ?_⟩
      · have hx2 := hdata2.mpr hx.1
        rw [hd] at hx2
        exact congrArg _ (le_antisymm hx.2 (hhead x hx2))
      · have he : d.timestamp = x.timestamp := WithBot.coe_injective hx.2.2
        exact ⟨⟨⟨hx.1, hx.2.1⟩, he ▸ hTd⟩, he.le⟩
    · have hp : (fun x : FileInfo => x.timestamp.pyGt d.timestamp) =
          fun x : FileInfo => decide (stamp (some d) < x.timestamp) := by
        funext x
        rw [Bool.eq_iff_iff, Timestamp.pyGt_iff, decide_eq_true_iff]
        exact WithBot.coe_lt_coe.symm
      rw [hrest META ext_ne.2.2, splitGtTimestamp, splitList, hp]
    · rw [hrest' hD, hsame e hM, hmem1 hT, and_assoc, and_assoc]
      rfl

/-! ## 2. The selected state -/

/-- The timestamps that make up the state of the object; the content type comes
    from the data file unless a newer one was posted. -/
def OndiskResults.state (r : OndiskResults) : ObjectState (WithBot Timestamp) :=
  { dataTs := stamp r.dataInfo
    tombTs := stamp r.tsInfo
    metaTs := stamp r.metaInfo
    ctypeTs := match r.ctypeInfo with
      | some c => c.ctypeTimestamp
      | none => stamp r.dataInfo }

/-- No metadata file has a content type newer than itself. -/
def CtypeBounded (infos : Finset FileInfo) : Prop :=
  ∀ x ∈ infos, x.ext = META → x.ctypeTimestamp ≤ x.timestamp

/-- The content type of a file that may not be there. -/
def ctypeOf (o : Option FileInfo) : WithBot Timestamp :=
  match o with
  | some x => x.ctypeTimestamp
  | none => ⊥

/-- A content type counts when it is newer than the data file. -/
theorem effective_ctype (d : WithBot Timestamp) (o : Option FileInfo) :
    (match o.filter fun m => d < m.ctypeTimestamp with
      | some c => c.ctypeTimestamp
      | none => d) = d ⊔ ctypeOf o := by
  cases o with
  | none => simp [ctypeOf]
  | some m =>
    by_cases h : d < m.ctypeTimestamp
    · rw [Option.filter_some_pos (by simpa using h)]
      exact (sup_eq_right.mpr h.le).symm
    · rw [Option.filter_some_neg (by simpa using h)]
      exact (sup_eq_left.mpr (not_lt.mp h)).symm

/-- The two retained files against the newest data file: the first decides the
    metadata timestamp, the last the content type. -/
theorem retained_view (hb : CtypeBounded F) {l r : List FileInfo}
    {t d : WithBot Timestamp} (htd : t < d)
    (hl : ∀ x, x ∈ l ↔ x ∈ F ∧ x.ext = META ∧ t < x.timestamp) (hr : Retained l r) :
    stamp (r.takeWhile fun x => decide (d < x.timestamp)).head? =
        (if d < newest F META then newest F META else ⊥) ∧
      d ⊔ ctypeOf (r.takeWhile fun x => decide (d < x.timestamp)).getLast? =
        d ⊔ newestCtype F := by
  have hct : ∀ x ∈ l, x.ctypeTimestamp ≤ x.timestamp := fun x hx =>
    hb x ((hl x).mp hx).1 ((hl x).mp hx).2.1
  -- a metadata file outside `l` is older than the data file, with its content type
  have hold : ∀ x ∈ F, x.ext = META → x ∉ l → (x.timestamp : WithBot Timestamp) ≤ t :=
    fun x hx he hn => not_lt.mp fun hlt => hn ((hl x).mpr ⟨hx, he, hlt⟩)
  have hnewest : ∀ m ∈ l, (∀ y ∈ l, y.timestamp ≤ m.timestamp) → newest F META = m.timestamp := by
    intro m hm hmax
    obtain ⟨hmF, hme, htm⟩ := (hl m).mp hm
    refine le_antisymm (newest_le fun x hx he => ?_) (hme ▸ le_newest hmF)
    by_cases hxl : x ∈ l
    · exact WithBot.coe_le_coe.mpr (hmax x hxl)
    · exact (hold x hx he hxl).trans htm.le
  have hnewestC : ∀ m ∈ l, (∀ y ∈ l, y.ctypeTimestamp ≤ m.ctypeTimestamp) →
      d ⊔ newestCtype F = d ⊔ m.ctypeTimestamp := by
    intro m hm hmax
    obtain ⟨hmF, hme, -⟩ := (hl m).mp hm
    refine le_antisymm (sup_le le_sup_left (newestCtype_le fun x hx he => ?_))
      (sup_le_sup_left (le_newestCtype hmF hme) _)
    by_cases hxl : x ∈ l
    · exact (hmax x hxl).trans le_sup_right
    · exact (((hb x hx he).trans (hold x hx he hxl)).trans htd.le).trans le_sup_left
  cases hr with
  | nil hnil =>
    have hnone : ∀ x ∈ F, x.ext = META → (x.timestamp : WithBot Timestamp) ≤ t := fun x hx he =>
      hold x hx he (by rw [hnil]; exact not_mem_nil)
    have hM : ¬ d < newest F META := not_lt.mpr ((newest_le hnone).trans htd.le)
    have hC : newestCtype F ≤ d := newestCtype_le fun x hx he =>
      ((hb x hx he).trans (hnone x hx he)).trans htd.le
    rw [if_neg hM, sup_eq_left.mpr hC]
    exact ⟨rfl, sup_bot_eq _⟩
  | @one m hm hmax =>
    rw [hnewest m hm fun y hy => (hmax y hy).1, hnewestC m hm fun y hy => (hmax y hy).2]
    by_cases hd : d < m.timestamp
    · simp only [takeWhile_cons, takeWhile_nil, hd, decide_true, if_true]
      exact ⟨rfl, rfl⟩
    · have hle : m.ctypeTimestamp ≤ d := (hct m hm).trans (not_lt.mp hd)
      simp only [takeWhile_cons, hd, decide_false, Bool.false_eq_true, if_false,
        sup_eq_left.mpr hle]
      exact ⟨rfl, sup_bot_eq _⟩
  | @two m m' hm hm' hlt hclt hmax =>
    rw [hnewest m hm fun y hy => (hmax y hy).1, hnewestC m' hm' fun y hy => (hmax y hy).2]
    by_cases hd : d < m.timestamp
    · simp only [takeWhile_cons, takeWhile_nil, hd, decide_true, if_true]
      by_cases hd' : d < m'.timestamp
      · simp only [hd', decide_true, if_true]
        exact ⟨rfl, rfl⟩
      · -- the second file goes, and its content type was older than the data file
        have hle : m'.ctypeTimestamp ≤ d := (hct m' hm').trans (not_lt.mp hd')
        simp only [hd', decide_false, Bool.false_eq_true, if_false, sup_eq_left.mpr hle]
        exact ⟨rfl, sup_eq_left.mpr (hclt.le.trans hle)⟩
    · have hle : m'.ctypeTimestamp ≤ d :=
        ((hct m' hm').trans (WithBot.coe_le_coe.mpr hlt.le)).trans (not_lt.mp hd)
      simp only [takeWhile_cons, hd, decide_false, Bool.false_eq_true, if_false,
        sup_eq_left.mpr hle]
      exact ⟨rfl, sup_bot_eq _⟩

/-- The file infos of a listing. -/
def infosOf (files : List Str) : List FileInfo := files.filterMap parseOnDiskFilename

variable {files : List Str}

/-- **The selected state is the view of the summary**, whatever the listing order. -/
theorem selectOndiskFiles_state (hn : (infosOf files).Nodup)
    (hb : CtypeBounded (infosOf files).toFinset) :
    (selectOndiskFiles files).state = (summary (infosOf files).toFinset).view := by
  have hf := final_finalScan hn
  have hdef : (selectOndiskFiles files).dataInfo = (finalScan (infosOf files)).2 ∧
      (selectOndiskFiles files).tsInfo = ((finalScan (infosOf files)).1.exts TS).head? ∧
      (selectOndiskFiles files).metaInfo = (finalScan (infosOf files)).2.bind fun _ =>
        ((finalScan (infosOf files)).1.exts META).head? := ⟨rfl, rfl, rfl⟩
  have hct : (selectOndiskFiles files).ctypeInfo = (finalScan (infosOf files)).2.bind fun d =>
      ((finalScan (infosOf files)).1.exts META).getLast?.filter fun m =>
        (d.timestamp : WithBot Timestamp) < m.ctypeTimestamp := rfl
  unfold OndiskResults.state Summary.view
  rw [hct, hdef.1, hdef.2.1, hdef.2.2]
  obtain ⟨-, hd⟩ := hf.chosen
  obtain ⟨-, hts⟩ := hf.tombstones
  by_cases hlive : newest (infosOf files).toFinset TS < newest (infosOf files).toFinset DATA
  · rw [if_pos hlive] at hd hts
    obtain ⟨l, r, hl, hr, hmeta⟩ := hf.metas
    have hview : (summary (infosOf files).toFinset).tombTs <
        (summary (infosOf files).toFinset).dataTs := hlive
    rw [if_pos hview]
    cases hx : (finalScan (infosOf files)).2 with
    | none => rw [hx] at hd; exact absurd (hd ▸ hlive) not_lt_bot
    | some d =>
      rw [hx] at hd hmeta
      have hl' : ∀ x, x ∈ l ↔ x ∈ (infosOf files).toFinset ∧ x.ext = META ∧
          newest (infosOf files).toFinset TS < x.timestamp := fun x => by rw [hl, List.mem_toFinset]
      obtain ⟨hv, hc⟩ := retained_view hb (hd ▸ hlive) hl' hr
      simp only [Option.bind_some]
      have heff := effective_ctype d.timestamp ((finalScan (infosOf files)).1.exts META).getLast?
      have hctype : (d.timestamp : WithBot Timestamp) ⊔
          ctypeOf ((finalScan (infosOf files)).1.exts META).getLast? =
          newest (infosOf files).toFinset DATA ⊔ newestCtype (infosOf files).toFinset := by
        rw [hmeta, ← hd]
        exact hc
      refine ObjectState.ext hd (by rw [hts]) ?_ (heff.trans hctype)
      show stamp ((finalScan (infosOf files)).1.exts META).head? =
        if newest (infosOf files).toFinset DATA < newest (infosOf files).toFinset META then
          newest (infosOf files).toFinset META else ⊥
      rw [hmeta, ← hd]
      exact hv
  · rw [if_neg hlive] at hd hts
    have hnone : (finalScan (infosOf files)).2 = none := by
      cases hx : (finalScan (infosOf files)).2 with
      | none => rfl
      | some d => rw [hx] at hd; exact absurd hd WithBot.coe_ne_bot
    have hview : ¬ (summary (infosOf files).toFinset).tombTs <
        (summary (infosOf files).toFinset).dataTs := hlive
    rw [if_neg hview, hnone]
    simp only [Option.bind_none, hts]
    rfl

/-! ## 3. What cleaning up keeps -/

/-- The files that are not obsolete. -/
def kept (infos : List FileInfo) : Finset FileInfo :=
  infos.toFinset.filter fun x => x ∉ (finalScan infos).1.obsolete

theorem Final.mem_kept {infos : List FileInfo}
    (hf : Final infos (finalScan infos).1 (finalScan infos).2) :
    x ∈ kept infos ↔ x ∈ (finalScan infos).1.exts x.ext := by
  rw [kept, Finset.mem_filter, List.mem_toFinset, hf.sound.obsolete_iff]
  refine ⟨fun h => not_not.mp fun hn => h.2 ⟨h.1, hn⟩, fun h => ⟨(hf.sound.mem h).1, fun hn => hn.2 h⟩⟩

theorem newest_mono {F G : Finset FileInfo} (h : F ⊆ G) (e : Str) : newest F e ≤ newest G e :=
  Finset.sup_mono (Finset.filter_subset_filter _ h)

/-- Every metadata file is answered for by a retained one, unless the data file
    is as new: its timestamp by the first, its content type by the last. -/
theorem Retained.answers {l r : List FileInfo} (hr : Retained l r) {d : WithBot Timestamp}
    (hct : ∀ x ∈ l, x.ctypeTimestamp ≤ x.timestamp) (hx : x ∈ l) :
    ((x.timestamp : WithBot Timestamp) ≤ d ∨
        ∃ m ∈ r.takeWhile fun x => decide (d < x.timestamp), x.timestamp ≤ m.timestamp) ∧
      (x.ctypeTimestamp ≤ d ∨
        ∃ m ∈ r.takeWhile fun x => decide (d < x.timestamp), x.ctypeTimestamp ≤ m.ctypeTimestamp) := by
  -- a threshold below a file of `r` is below everything before it
  have hin : ∀ m ∈ r, d < m.timestamp → m ∈ r.takeWhile fun x => decide (d < x.timestamp) := by
    intro m hm hd
    refine (hr.desc.mem_takeWhile fun a b hab hb => ?_).mpr ⟨hm, decide_eq_true hd⟩
    exact decide_eq_true ((of_decide_eq_true hb).trans_le (WithBot.coe_le_coe.mpr hab))
  have hts : ∀ m ∈ r, x.timestamp ≤ m.timestamp → (x.timestamp : WithBot Timestamp) ≤ d ∨
      ∃ m ∈ r.takeWhile fun x => decide (d < x.timestamp), x.timestamp ≤ m.timestamp := by
    intro m hm hle
    by_cases hd : d < m.timestamp
    · exact Or.inr ⟨m, hin m hm hd, hle⟩
    · exact Or.inl ((WithBot.coe_le_coe.mpr hle).trans (not_lt.mp hd))
  have hc : ∀ m ∈ r, x.ctypeTimestamp ≤ m.ctypeTimestamp → x.ctypeTimestamp ≤ d ∨
      ∃ m ∈ r.takeWhile fun x => decide (d < x.timestamp), x.ctypeTimestamp ≤ m.ctypeTimestamp := by
    intro m hm hle
    by_cases hd : d < m.timestamp
    · exact Or.inr ⟨m, hin m hm hd, hle⟩
    · exact Or.inl ((hle.trans (hct m (hr.mem hm))).trans (not_lt.mp hd))
  cases hr with
  | nil hnil => exact absurd hx (by rw [hnil]; exact not_mem_nil)
  | one hm hmax =>
    exact ⟨hts _ (mem_singleton_self _) (hmax x hx).1, hc _ (mem_singleton_self _) (hmax x hx).2⟩
  | two hm hm' _ _ hmax =>
    exact ⟨hts _ mem_cons_self (hmax x hx).1,
      hc _ (mem_cons_of_mem _ (mem_singleton_self _)) (hmax x hx).2⟩

/-- **What is kept covers the files**: nothing is lost that still counts. -/
theorem kept_covers (hn : infos.Nodup) (hb : CtypeBounded infos.toFinset) :
    Summary.Covers (summary (kept infos)) (summary infos.toFinset) := by
  have hf := final_finalScan hn
  have hsub : kept infos ⊆ infos.toFinset := Finset.filter_subset _ _
  obtain ⟨hhead, hd⟩ := hf.chosen
  obtain ⟨-, hts⟩ := hf.tombstones
  obtain ⟨l, r, hl, hr, hmeta⟩ := hf.metas
  have hkeptMeta : ∀ m ∈ r.takeWhile fun x => decide (stamp (finalScan infos).2 < x.timestamp),
      m ∈ kept infos ∧ m.ext = META := by
    intro m hm
    rw [← hmeta] at hm
    have he := (hf.sound.mem hm).2
    exact ⟨hf.mem_kept.mpr (he ▸ hm), he⟩
  have hct : ∀ x ∈ l, x.ctypeTimestamp ≤ x.timestamp := fun x hx =>
    hb x (List.mem_toFinset.mpr ((hl x).mp hx).1) ((hl x).mp hx).2.1
  have hdw : stamp (finalScan infos).2 ≤ (summary infos.toFinset).watermark := by
    rw [hd]
    split
    · exact le_sup_left
    · exact bot_le
  have hTw : newest infos.toFinset TS ≤ (summary infos.toFinset).watermark := le_sup_right
  have hM : (summary infos.toFinset).metaTs ≤
      (summary infos.toFinset).watermark ⊔ (summary (kept infos)).metaTs := by
    show newest infos.toFinset META ≤ _
    refine newest_le fun x hx he => ?_
    by_cases hxl : x ∈ l
    · rcases (hr.answers hct hxl).1 with h | ⟨m, hm, hle⟩
      · exact (h.trans hdw).trans le_sup_left
      · obtain ⟨hk, hme⟩ := hkeptMeta m hm
        have hmk : (m.timestamp : WithBot Timestamp) ≤ newest (kept infos) META := hme ▸ le_newest hk
        exact ((WithBot.coe_le_coe.mpr hle).trans hmk).trans le_sup_right
    · have hT := not_lt.mp fun hlt => hxl ((hl x).mpr ⟨List.mem_toFinset.mp hx, he, hlt⟩)
      exact (hT.trans hTw).trans le_sup_left
  have hC : (summary infos.toFinset).ctypeTs ≤
      (summary infos.toFinset).watermark ⊔ (summary (kept infos)).ctypeTs := by
    show newestCtype infos.toFinset ≤ _
    refine newestCtype_le fun x hx he => ?_
    by_cases hxl : x ∈ l
    · rcases (hr.answers hct hxl).2 with h | ⟨m, hm, hle⟩
      · exact (h.trans hdw).trans le_sup_left
      · obtain ⟨hk, hme⟩ := hkeptMeta m hm
        exact (hle.trans (le_newestCtype hk hme)).trans le_sup_right
    · have hT := not_lt.mp fun hlt => hxl ((hl x).mpr ⟨List.mem_toFinset.mp hx, he, hlt⟩)
      exact (((hb x hx he).trans hT).trans hTw).trans le_sup_left
  refine ⟨newest_mono hsub _, newest_mono hsub _, newest_mono hsub _,
    Finset.sup_mono (Finset.filter_subset_filter _ hsub), fun hlive => ?_, fun hdead => ?_,
    fun h => ?_, fun h => ?_⟩
  · have hlive' : newest infos.toFinset TS < newest infos.toFinset DATA := hlive
    rw [if_pos hlive'] at hd
    refine le_antisymm (newest_mono hsub _) ?_
    show newest infos.toFinset DATA ≤ newest (kept infos) DATA
    rw [← hd]
    cases hx : (finalScan infos).2 with
    | none => exact bot_le
    | some x =>
      have hmem : x ∈ (finalScan infos).1.exts DATA :=
        mem_of_mem_head? (by rw [← hhead, hx]; rfl)
      have he := (hf.sound.mem hmem).2
      exact he ▸ le_newest (hf.mem_kept.mpr (he ▸ hmem))
  · have hdead' : ¬ newest infos.toFinset TS < newest infos.toFinset DATA := not_lt.mpr hdead
    rw [if_neg hdead'] at hts
    refine le_antisymm (newest_mono hsub _) ?_
    show newest infos.toFinset TS ≤ newest (kept infos) TS
    rw [← hts]
    cases hx : ((finalScan infos).1.exts TS).head? with
    | none => exact bot_le
    | some x =>
      have hmem : x ∈ (finalScan infos).1.exts TS := mem_of_mem_head? (by rw [hx]; rfl)
      have he := (hf.sound.mem hmem).2
      exact he ▸ le_newest (hf.mem_kept.mpr (he ▸ hmem))
  · refine le_antisymm (newest_mono hsub _) ?_
    rcases le_sup_iff.mp hM with h' | h'
    · exact absurd h (not_lt.mpr h')
    · exact h'
  · refine le_antisymm (Finset.sup_mono (Finset.filter_subset_filter _ hsub)) ?_
    rcases le_sup_iff.mp hC with h' | h'
    · exact absurd h (not_lt.mpr h')
    · exact h'

/-! ## 4. A cleaned-up directory -/

/-- Nothing in the directory hides anything else. -/
structure Clean (F : Finset FileInfo) : Prop where
  newer : ∀ x ∈ F, x.ext = TS ∨ x.ext = DATA → ∀ y ∈ F, y.ext ≠ x.ext → x.timestamp < y.timestamp
  oneTs : ∀ x ∈ F, ∀ y ∈ F, x.ext = TS → y.ext = TS → x = y
  datas : ∀ x ∈ F, ∀ y ∈ F, x.ext = DATA → y.ext = DATA → x.timestamp = y.timestamp
  twoMetas : ∀ x ∈ F, ∀ y ∈ F, ∀ z ∈ F, x.ext = META → y.ext = META → z.ext = META →
    x = y ∨ y = z ∨ x = z
  cross : ∀ x ∈ F, ∀ y ∈ F, x.ext = META → y.ext = META → x ≠ y →
    (x.timestamp < y.timestamp ∧ y.ctypeTimestamp < x.ctypeTimestamp) ∨
      (y.timestamp < x.timestamp ∧ x.ctypeTimestamp < y.ctypeTimestamp)

theorem Clean.subset {F G : Finset FileInfo} (h : Clean G) (hs : F ⊆ G) : Clean F where
  newer x hx he y hy := h.newer x (hs hx) he y (hs hy)
  oneTs x hx y hy := h.oneTs x (hs hx) y (hs hy)
  datas x hx y hy := h.datas x (hs hx) y (hs hy)
  twoMetas x hx y hy z hz := h.twoMetas x (hs hx) y (hs hy) z (hs hz)
  cross x hx y hy := h.cross x (hs hx) y (hs hy)

variable (hf : Final infos (finalScan infos).1 (finalScan infos).2)

include hf in
/-- A kept tombstone is the newest, and no data file was chosen. -/
theorem Final.of_tombstone (hx : x ∈ (finalScan infos).1.exts TS) :
    (finalScan infos).1.exts TS = [x] ∧ newest infos.toFinset TS = x.timestamp ∧
      stamp (finalScan infos).2 = ⊥ := by
  obtain ⟨hlen, hst⟩ := hf.tombstones
  have hone : (finalScan infos).1.exts TS = [x] := by
    obtain ⟨y, hy⟩ := length_eq_one_iff.mp (le_antisymm hlen (length_pos_of_mem hx))
    rw [hy] at hx
    rw [hy, mem_singleton.mp hx]
  rw [hone] at hst
  have hnl : ¬ newest infos.toFinset TS < newest infos.toFinset DATA := by
    intro hl
    rw [if_pos hl] at hst
    exact absurd hst WithBot.coe_ne_bot
  rw [if_neg hnl] at hst
  exact ⟨hone, hst.symm, by rw [hf.chosen.2, if_neg hnl]⟩

include hf in
/-- Whatever is kept beside tombstones and data files is newer than them. -/
theorem Final.newer (hx : x ∈ (finalScan infos).1.exts x.ext) (he : x.ext ≠ TS)
    (hne : x.ext ≠ DATA) : newest infos.toFinset TS < x.timestamp ∧
      stamp (finalScan infos).2 < x.timestamp := by
  by_cases hm : x.ext = META
  · obtain ⟨l, r, hl, hr, hmeta⟩ := hf.metas
    rw [hm, hmeta] at hx
    have hxr := (takeWhile_sublist _).subset hx
    refine ⟨((hl x).mp (hr.mem hxr)).2.2, ?_⟩
    refine of_decide_eq_true ((hr.desc.mem_takeWhile fun a b hab hb => ?_).mp hx).2
    exact decide_eq_true ((of_decide_eq_true hb).trans_le (WithBot.coe_le_coe.mpr hab))
  · obtain ⟨-, -, h1, h2⟩ := (hf.others x.ext x he hne hm).mp hx
    exact ⟨h1, h2⟩

include hf in
/-- **Cleaning up leaves a clean directory.** -/
theorem clean_kept : Clean (kept infos) := by
  have hmetas : ∃ l r, Retained l r ∧ ∀ x ∈ kept infos, x.ext = META → x ∈ r := by
    obtain ⟨l, r, -, hr, hmeta⟩ := hf.metas
    refine ⟨l, r, hr, fun x hx he => ?_⟩
    have hx' := hf.mem_kept.mp hx
    rw [he, hmeta] at hx'
    exact (takeWhile_sublist _).subset hx'
  obtain ⟨l, r, hr, hin⟩ := hmetas
  refine ⟨fun x hx he y hy hne => ?_, fun x hx y hy hex hey => ?_, fun x hx y hy hex hey => ?_,
    fun x hx y hy z hz hex hey hez => ?_, fun x hx y hy hex hey hne => ?_⟩
  · have hx' := hf.mem_kept.mp hx
    have hy' := hf.mem_kept.mp hy
    rcases he with he | he
    · rw [he] at hx' hne
      obtain ⟨-, hT, hbot⟩ := hf.of_tombstone hx'
      have hyd : y.ext ≠ DATA := by
        intro hd
        rw [hd] at hy'
        exact absurd (hbot.symm.trans ((hf.datas y).mp hy').2.2) WithBot.bot_ne_coe
      have h1 := (hf.newer hy' hne hyd).1
      rw [hT] at h1
      exact WithBot.coe_lt_coe.mp h1
    · rw [he] at hx' hne
      have hd := ((hf.datas x).mp hx').2.2
      have hyt : y.ext ≠ TS := by
        intro ht
        rw [ht] at hy'
        exact absurd ((hf.of_tombstone hy').2.2.symm.trans hd) WithBot.bot_ne_coe
      have h1 := (hf.newer hy' hyt hne).2
      rw [hd] at h1
      exact WithBot.coe_lt_coe.mp h1
  · have hx' := hf.mem_kept.mp hx
    have hy' := hf.mem_kept.mp hy
    rw [hex] at hx'
    rw [hey, (hf.of_tombstone hx').1] at hy'
    exact (mem_singleton.mp hy').symm
  · have hx' := hf.mem_kept.mp hx
    have hy' := hf.mem_kept.mp hy
    rw [hex] at hx'
    rw [hey] at hy'
    have h1 := ((hf.datas x).mp hx').2.2
    have h2 := ((hf.datas y).mp hy').2.2
    exact WithBot.coe_injective (h1.symm.trans h2)
  · have h1 := hin x hx hex
    have h2 := hin y hy hey
    have h3 := hin z hz hez
    cases hr with
    | nil => exact absurd h1 not_mem_nil
    | one => exact Or.inl ((mem_singleton.mp h1).trans (mem_singleton.mp h2).symm)
    | two =>
      simp only [mem_cons, not_mem_nil, or_false] at h1 h2 h3
      rcases h1 with rfl | rfl <;> rcases h2 with rfl | rfl <;> rcases h3 with rfl | rfl <;> simp
  · have h1 := hin x hx hex
    have h2 := hin y hy hey
    cases hr with
    | nil => exact absurd h1 not_mem_nil
    | one => exact absurd ((mem_singleton.mp h1).trans (mem_singleton.mp h2).symm) hne
    | two _ _ hlt hclt =>
      simp only [mem_cons, not_mem_nil, or_false] at h1 h2
      rcases h1 with rfl | rfl <;> rcases h2 with rfl | rfl
      · exact absurd rfl hne
      · exact Or.inr ⟨hlt, hclt⟩
      · exact Or.inl ⟨hlt, hclt⟩
      · exact absurd rfl hne

/-- A kept set that nothing hides anything in has no newest tombstone at or above
    a file of another kind. -/
theorem Clean.newest_lt (hc : Clean F) {e : Str} (he : e = TS ∨ e = DATA)
    {y : FileInfo} (hy : y ∈ F) (hne : y.ext ≠ e) : newest F e < y.timestamp := by
  refine (Finset.sup_lt_iff (WithBot.bot_lt_coe _)).mpr fun x hx => ?_
  obtain ⟨hxF, rfl⟩ := Finset.mem_filter.mp hx
  exact WithBot.coe_lt_coe.mpr (hc.newer x hxF he y hy hne)

include hf in
/-- **Nothing is obsolete in a clean directory.** -/
theorem Clean.obsolete_eq_nil (hc : Clean infos.toFinset) : (finalScan infos).1.obsolete = [] := by
  refine eq_nil_iff_forall_not_mem.mpr fun x hx => ?_
  obtain ⟨hxi, hxn⟩ := (hf.sound.obsolete_iff x).mp hx
  refine hxn ?_
  have hxF : x ∈ infos.toFinset := List.mem_toFinset.mpr hxi
  obtain ⟨-, hd⟩ := hf.chosen
  by_cases ht : x.ext = TS
  · -- the only tombstone, and no data file beside it
    have hnd : newest infos.toFinset DATA < x.timestamp :=
      hc.newest_lt (Or.inr rfl) hxF (by rw [ht]; exact ext_ne.2.1.symm)
    have hxT : (x.timestamp : WithBot Timestamp) ≤ newest infos.toFinset TS := ht ▸ le_newest hxF
    have hst := hf.tombstones.2
    rw [if_neg (not_lt.mpr (hnd.le.trans hxT))] at hst
    cases hl : ((finalScan infos).1.exts TS).head? with
    | none =>
      rw [hl] at hst
      exact absurd (hst ▸ hxT) (not_le.mpr (WithBot.bot_lt_coe _))
    | some t =>
      have htm : t ∈ (finalScan infos).1.exts TS := mem_of_mem_head? (by rw [hl]; rfl)
      obtain ⟨hti, hte⟩ := hf.sound.mem htm
      rw [ht, hc.oneTs x hxF t (List.mem_toFinset.mpr hti) ht hte]
      exact htm
  · have hT : newest infos.toFinset TS < x.timestamp := hc.newest_lt (Or.inl rfl) hxF ht
    by_cases hdata : x.ext = DATA
    · have hD : newest infos.toFinset DATA = x.timestamp := by
        refine le_antisymm (newest_le fun y hy he => ?_) (hdata ▸ le_newest hxF)
        exact WithBot.coe_le_coe.mpr (hc.datas y hy x hxF he hdata).le
      rw [hdata]
      refine (hf.datas x).mpr ⟨hxi, hdata, ?_⟩
      rw [hd, hD, if_pos hT]
    · have hdx : stamp (finalScan infos).2 < x.timestamp := by
        rw [hd]
        split
        · exact hc.newest_lt (Or.inr rfl) hxF hdata
        · exact WithBot.bot_lt_coe _
      by_cases hm : x.ext = META
      · obtain ⟨l, r, hl, hr, hmeta⟩ := hf.metas
        have hxl : x ∈ l := (hl x).mpr ⟨hxi, hm, hT⟩
        rw [hm, hmeta]
        refine (hr.desc.mem_takeWhile fun a b hab hb => ?_).mpr ⟨?_, decide_eq_true hdx⟩
        · exact decide_eq_true ((of_decide_eq_true hb).trans_le (WithBot.coe_le_coe.mpr hab))
        · have hF : ∀ y ∈ l, y ∈ infos.toFinset ∧ y.ext = META := fun y hy =>
            ⟨List.mem_toFinset.mpr ((hl y).mp hy).1, ((hl y).mp hy).2.1⟩
          cases hr with
          | nil hnil => exact absurd hxl (by rw [hnil]; exact not_mem_nil)
          | @one m hmem hmax =>
            refine mem_singleton.mpr (not_not.mp fun hne => ?_)
            rcases hc.cross x hxF m (hF m hmem).1 hm (hF m hmem).2 hne with h | h
            · exact absurd h.2 (not_lt.mpr (hmax x hxl).2)
            · exact absurd h.1 (not_lt.mpr (hmax x hxl).1)
          | @two m m' hmem hmem' hlt _ _ =>
            have hmm : m ≠ m' := fun h => absurd hlt (h ▸ lt_irrefl _)
            rcases hc.twoMetas x hxF m (hF m hmem).1 m' (hF m' hmem').1 hm (hF m hmem).2
              (hF m' hmem').2 with h | h | h
            · rw [h]
              exact mem_cons_self
            · exact absurd h hmm
            · rw [h]
              exact mem_cons_of_mem _ (mem_singleton_self _)
      · exact (hf.others x.ext x ht hdata hm).mpr ⟨hxi, rfl, hT, hdx⟩

/-! ## 5. Directories of file names -/

theorem mem_infosOf :
    x ∈ infosOf files ↔ x.filename ∈ files ∧ parseOnDiskFilename x.filename = some x := by
  refine mem_filterMap.trans ⟨fun ⟨f, hf, hx⟩ => ?_, fun h => ⟨x.filename, h.1, h.2⟩⟩
  obtain rfl := parse_filename hx
  exact ⟨hf, hx⟩

theorem nodup_infosOf (hn : files.Nodup) : (infosOf files).Nodup := by
  refine hn.filterMap fun f g x hf hg => ?_
  exact (parse_filename hf).symm.trans (parse_filename hg)

/-- A file name has one info. -/
theorem infosOf_inj {files files' : List Str} {x y : FileInfo} (hx : x ∈ infosOf files)
    (hy : y ∈ infosOf files') (h : x.filename = y.filename) : x = y := by
  have hx' := (mem_infosOf.mp hx).2
  rw [h, (mem_infosOf.mp hy).2] at hx'
  exact (Option.some.inj hx').symm

theorem final_infosOf (hn : files.Nodup) :
    Final (infosOf files) (finalScan (infosOf files)).1 (finalScan (infosOf files)).2 :=
  final_finalScan (nodup_infosOf hn)

/-- **`_verify_ondisk_files` accepts every result.** -/
theorem getOndiskFiles_verify (hn : files.Nodup) (verify : Bool) :
    getOndiskFiles files verify = some (selectOndiskFiles files) := by
  have hf := final_infosOf hn
  have hok : verifyOndiskFiles (selectOndiskFiles files) = true := by
    show ((finalScan (infosOf files)).2.isNone &&
        ((finalScan (infosOf files)).2.bind fun _ =>
          ((finalScan (infosOf files)).1.exts META).head?).isNone &&
        ((finalScan (infosOf files)).1.exts TS).head?.isNone ||
      ((finalScan (infosOf files)).1.exts TS).head?.isSome &&
        (finalScan (infosOf files)).2.isNone &&
        ((finalScan (infosOf files)).2.bind fun _ =>
          ((finalScan (infosOf files)).1.exts META).head?).isNone ||
      (finalScan (infosOf files)).2.isSome &&
        ((finalScan (infosOf files)).1.exts TS).head?.isNone) = true
    cases hd : (finalScan (infosOf files)).2 with
    | none => cases ((finalScan (infosOf files)).1.exts TS).head? <;> rfl
    | some d =>
      -- with a data file chosen no tombstone is kept
      cases ht : ((finalScan (infosOf files)).1.exts TS).head? with
      | none => rfl
      | some t =>
        have hm : t ∈ (finalScan (infosOf files)).1.exts TS :=
          mem_of_mem_head? (by rw [ht]; rfl)
        have hbot := (hf.of_tombstone hm).2.2
        rw [hd] at hbot
        exact absurd hbot WithBot.coe_ne_bot
  unfold getOndiskFiles
  simp [hok]

/-- Removing the files of a list of infos from a directory. -/
theorem mem_foldl_erase (xs : List FileInfo) {fs : List Str} (hn : fs.Nodup) :
    (xs.foldl (fun fs x => fs.erase x.filename) fs).Nodup ∧
      ∀ f, f ∈ xs.foldl (fun fs x => fs.erase x.filename) fs ↔
        f ∈ fs ∧ ∀ x ∈ xs, f ≠ x.filename := by
  induction xs generalizing fs with
  | nil => simpa using hn
  | cons x xs ih =>
    obtain ⟨h1, h2⟩ := ih (hn.erase x.filename)
    refine ⟨h1, fun f => ?_⟩
    rw [foldl_cons, h2, hn.mem_erase_iff]
    simp only [mem_cons, forall_eq_or_imp]
    tauto

theorem foldl_erase_sublist (xs : List FileInfo) (fs : List Str) :
    (xs.foldl (fun fs x => fs.erase x.filename) fs).Sublist fs := by
  induction xs generalizing fs with
  | nil => exact Sublist.refl _
  | cons x xs ih => exact (ih _).trans erase_sublist

/-- The tombstone a clean-up reclaims. -/
def reclaimed (isReclaimable : Timestamp → Bool) (listing : List Str) : Option FileInfo :=
  (selectOndiskFiles (sortDesc id listing)).tsInfo.filter fun t => isReclaimable t.timestamp

variable {listing : List Str}

/-- What is left after a clean-up: what was there, short of the reclaimed
    tombstone and the obsolete files. -/
theorem mem_cleanupOndiskFiles (isReclaimable : Timestamp → Bool)
    (hn : listing.Nodup) :
    (cleanupOndiskFiles isReclaimable listing).1.Nodup ∧
      (cleanupOndiskFiles isReclaimable listing).1.Sublist (sortDesc id listing) ∧
      ∀ f, f ∈ (cleanupOndiskFiles isReclaimable listing).1 ↔ f ∈ listing ∧
        (∀ t ∈ reclaimed isReclaimable listing, f ≠ t.filename) ∧
        ∀ x ∈ (selectOndiskFiles (sortDesc id listing)).obsolete, f ≠ x.filename := by
  have hns : (sortDesc id listing).Nodup := (sortDesc_perm id listing).nodup_iff.mpr hn
  have hdef : (cleanupOndiskFiles isReclaimable listing).1 =
      (selectOndiskFiles (sortDesc id listing)).obsolete.foldl (fun fs x => fs.erase x.filename)
        (match reclaimed isReclaimable listing with
          | some t => (sortDesc id listing).erase t.filename
          | none => sortDesc id listing) := rfl
  rw [hdef]
  cases reclaimed isReclaimable listing with
  | none =>
    obtain ⟨h1, h2⟩ := mem_foldl_erase (selectOndiskFiles (sortDesc id listing)).obsolete hns
    exact ⟨h1, foldl_erase_sublist _ _, fun f => by rw [h2, mem_sortDesc]; simp⟩
  | some t =>
    obtain ⟨h1, h2⟩ := mem_foldl_erase (selectOndiskFiles (sortDesc id listing)).obsolete
      (hns.erase t.filename)
    refine ⟨h1, (foldl_erase_sublist _ _).trans erase_sublist, fun f => ?_⟩
    rw [h2, hns.mem_erase_iff, mem_sortDesc]
    simp only [Option.mem_some_iff, forall_eq']
    tauto

theorem infosOf_cleanup_subset (isReclaimable : Timestamp → Bool)
    (hn : listing.Nodup) :
    (infosOf (cleanupOndiskFiles isReclaimable listing).1).toFinset ⊆
      kept (infosOf (sortDesc id listing)) := by
  intro x hx
  obtain ⟨hf, hp⟩ := mem_infosOf.mp (List.mem_toFinset.mp hx)
  obtain ⟨hl, -, hobs⟩ := ((mem_cleanupOndiskFiles isReclaimable hn).2.2 _).mp hf
  have hi : x ∈ infosOf (sortDesc id listing) := mem_infosOf.mpr ⟨(mem_sortDesc id).mpr hl, hp⟩
  exact Finset.mem_filter.mpr ⟨List.mem_toFinset.mpr hi, fun ho => hobs x ho rfl⟩

/-- **Cleaning up twice is cleaning up once**: the second time nothing is obsolete,
    no tombstone is reclaimed and the same files are left. -/
theorem cleanup_idempotent (isReclaimable : Timestamp → Bool)
    (hn : listing.Nodup) :
    (cleanupOndiskFiles isReclaimable (cleanupOndiskFiles isReclaimable listing).1).1 =
        (cleanupOndiskFiles isReclaimable listing).1 ∧
      (cleanupOndiskFiles isReclaimable (cleanupOndiskFiles isReclaimable listing).1).2.obsolete =
        [] := by
  obtain ⟨hn1, hsub, hmem⟩ := mem_cleanupOndiskFiles isReclaimable hn
  have hkept := infosOf_cleanup_subset isReclaimable hn
  set left := (cleanupOndiskFiles isReclaimable listing).1 with hleft
  have hns : (sortDesc id listing).Nodup := (sortDesc_perm id listing).nodup_iff.mpr hn
  have hf := final_infosOf hns
  -- what is left is sorted already
  have hsorted : sortDesc id left = left :=
    List.Pairwise.insertionSort_eq ((desc_sortDesc id listing).sublist hsub)
  have hf' := final_infosOf hn1
  have hobs : (selectOndiskFiles (sortDesc id left)).obsolete = [] := by
    rw [hsorted]
    exact ((clean_kept hf).subset hkept).obsolete_eq_nil hf'
  have hrec : reclaimed isReclaimable left = none := by
    unfold reclaimed
    rw [hsorted, Option.filter_eq_none_iff]
    intro x hx hr
    have hx' : x ∈ (finalScan (infosOf left)).1.exts TS := mem_of_mem_head? hx
    obtain ⟨hxi, hxe⟩ := hf'.sound.mem hx'
    have hk := hf.mem_kept.mp (hkept (List.mem_toFinset.mpr hxi))
    rw [hxe] at hk
    have hfirst : (selectOndiskFiles (sortDesc id listing)).tsInfo = some x := by
      show ((finalScan (infosOf (sortDesc id listing))).1.exts TS).head? = some x
      rw [(hf.of_tombstone hk).1]
      rfl
    have hxr : x ∈ reclaimed isReclaimable listing := by
      unfold reclaimed
      rw [hfirst]
      simp [hr]
    exact ((hmem x.filename).mp (mem_infosOf.mp hxi).1).2.1 x hxr rfl
  refine ⟨?_, hobs⟩
  have hdef : (cleanupOndiskFiles isReclaimable left).1 =
      (selectOndiskFiles (sortDesc id left)).obsolete.foldl (fun fs x => fs.erase x.filename)
        (match reclaimed isReclaimable left with
          | some t => (sortDesc id left).erase t.filename
          | none => sortDesc id left) := rfl
  rw [hdef, hobs, hrec]
  exact hsorted

/-- A listing of a directory: its names in any order. -/
structure Listing (l : List Str) (S : Set Str) : Prop where
  nodup : l.Nodup
  mem_iff : ∀ f, f ∈ l ↔ f ∈ S

/-- The valid names of a directory: data files, metadata files and tombstones,
    no metadata file with a content type newer than itself. -/
def ValidNames (S : Set Str) : Prop :=
  ∀ f ∈ S, ∃ x, parseOnDiskFilename f = some x ∧ (x.ext = DATA ∨ x.ext = META ∨ x.ext = TS) ∧
    x.ctypeTimestamp ≤ x.timestamp

/-- The names `get_ondisk_files` marks obsolete. -/
def obsoleteNames (files : List Str) : Set Str :=
  {f | ∃ x ∈ (selectOndiskFiles files).obsolete, x.filename = f}

theorem Listing.ctypeBounded {l : List Str} {S : Set Str} (h : Listing l S) (hv : ValidNames S) :
    CtypeBounded (infosOf l).toFinset := by
  intro x hx _
  obtain ⟨hf, hp⟩ := mem_infosOf.mp (List.mem_toFinset.mp hx)
  obtain ⟨y, hy, -, hle⟩ := hv _ ((h.mem_iff _).mp hf)
  rw [hp] at hy
  exact Option.some.inj hy ▸ hle

/-- **Replication of object state**: whatever arrives from another replica, the
    files selected with it are the same before and after cleaning up, in every
    listing order; verification accepts every result, and cleaning up again
    changes nothing. -/
theorem ondisk_state_of_cleanup {A B : Set Str} (hA : ValidNames A) (hB : ValidNames B)
    {la lu lc : List Str} (ha : Listing la A) (hu : Listing lu (A ∪ B))
    (hc : Listing lc ((A \ obsoleteNames la) ∪ B)) :
    (∃ ra ru rc, getOndiskFiles la true = some ra ∧ getOndiskFiles lu true = some ru ∧
      getOndiskFiles lc true = some rc ∧ ru.state = rc.state) ∧
    (∀ l, Listing l (A \ obsoleteNames la) → (selectOndiskFiles l).obsolete = []) ∧
    ∀ isReclaimable,
      (cleanupOndiskFiles isReclaimable (cleanupOndiskFiles isReclaimable la).1).1 =
        (cleanupOndiskFiles isReclaimable la).1 := by
  classical
  have hfa := final_infosOf ha.nodup
  have hAB : ValidNames (A ∪ B) := fun f hf => hf.elim (hA f) (hB f)
  have hC : ValidNames ((A \ obsoleteNames la) ∪ B) := fun f hf => hf.elim (fun h => hA f h.1) (hB f)
  have hmemkept : ∀ x, x ∈ kept (infosOf la) ↔
      x.filename ∈ A \ obsoleteNames la ∧ parseOnDiskFilename x.filename = some x := by
    intro x
    rw [kept, Finset.mem_filter, List.mem_toFinset, mem_infosOf, ha.mem_iff]
    refine ⟨fun h => ⟨⟨h.1.1, fun ⟨y, hy, he⟩ => h.2 ?_⟩, h.1.2⟩, fun h => ⟨⟨h.1.1, h.2⟩, fun ho =>
      h.1.2 ⟨x, ho, rfl⟩⟩⟩
    have hyi := ((hfa.sound.obsolete_iff y).mp hy).1
    have hxi : x ∈ infosOf la := mem_infosOf.mpr ⟨(ha.mem_iff _).mpr h.1.1, h.1.2⟩
    exact infosOf_inj hyi hxi he ▸ hy
  refine ⟨⟨_, _, _, getOndiskFiles_verify ha.nodup true, getOndiskFiles_verify hu.nodup true,
    getOndiskFiles_verify hc.nodup true, ?_⟩, fun l hl => ?_, fun p => (cleanup_idempotent p ha.nodup).1⟩
  · -- the files of `B`, joined to the summary of all of `A` and of what is kept of it
    set FB := (infosOf lu).toFinset.filter fun x => x.filename ∈ B with hFB
    have hmemB : ∀ x, x ∈ FB ↔ x.filename ∈ B ∧ parseOnDiskFilename x.filename = some x := by
      intro x
      rw [hFB, Finset.mem_filter, List.mem_toFinset, mem_infosOf, hu.mem_iff]
      exact ⟨fun h => ⟨h.2, h.1.2⟩, fun h => ⟨⟨Or.inr h.1, h.2⟩, h.1⟩⟩
    have hU : (infosOf lu).toFinset = (infosOf la).toFinset ∪ FB := by
      refine Finset.ext fun x => ?_
      rw [Finset.mem_union, hmemB, List.mem_toFinset, List.mem_toFinset, mem_infosOf, mem_infosOf,
        hu.mem_iff, ha.mem_iff, Set.mem_union, or_and_right]
    have hK : (infosOf lc).toFinset = kept (infosOf la) ∪ FB := by
      refine Finset.ext fun x => ?_
      rw [Finset.mem_union, hmemB, hmemkept, List.mem_toFinset, mem_infosOf, hc.mem_iff,
        Set.mem_union, or_and_right]
    rw [selectOndiskFiles_state (nodup_infosOf hu.nodup) (hu.ctypeBounded hAB),
      selectOndiskFiles_state (nodup_infosOf hc.nodup) (hc.ctypeBounded hC), hU, hK,
      summary_union, summary_union]
    have hcov := kept_covers (nodup_infosOf ha.nodup) (ha.ctypeBounded hA)
    exact (Summary.view_join_of_covers hcov _).symm
  · refine ((clean_kept hfa).subset fun x hx => ?_).obsolete_eq_nil (final_infosOf hl.nodup)
    obtain ⟨hf, hp⟩ := mem_infosOf.mp (List.mem_toFinset.mp hx)
    exact (hmemkept x).mpr ⟨(hl.mem_iff _).mp hf, hp⟩

/-- A newer data file has replaced an older one here, and a metadata file
    arrives from elsewhere. -/
theorem ondisk_state_of_cleanup_replaced :
    ∃ ru rc, getOndiskFiles ["0000000001.00000.data".toList, "0000000002.00000.data".toList,
        "0000000003.00000-1.meta".toList] true = some ru ∧
      getOndiskFiles ["0000000003.00000-1.meta".toList, "0000000002.00000.data".toList] true =
        some rc ∧ ru.state = rc.state := by
  set d1 := "0000000001.00000.data".toList
  set d2 := "0000000002.00000.data".toList
  set m := "0000000003.00000-1.meta".toList
  have key : ∀ f ∈ [d1, d2, m], ∃ x ∈ parseOnDiskFilename f,
      (x.ext = DATA ∨ x.ext = META ∨ x.ext = TS) ∧ x.ctypeTimestamp ≤ x.timestamp := by
    decide +kernel
  have hvalid : ∀ l ⊆ [d1, d2, m], ValidNames {f | f ∈ l} := fun l hl f hf => key f (hl hf)
  have hA : ValidNames {f | f ∈ [d1, d2]} := hvalid _ (by decide)
  have hB : ValidNames {f | f ∈ [m]} := hvalid _ (by decide)
  have ha : Listing [d1, d2] {f | f ∈ [d1, d2]} := ⟨by decide, fun _ => Iff.rfl⟩
  have hu : Listing [d1, d2, m] ({f | f ∈ [d1, d2]} ∪ {f | f ∈ [m]}) :=
    ⟨by decide, fun _ => mem_append (s := [d1, d2]) (t := [m])⟩
  have hobs : (selectOndiskFiles [d1, d2]).obsolete.map (·.filename) = [d1] := by decide +kernel
  have hleft : ∀ f, f ∈ ({f | f ∈ [d1, d2]} \ obsoleteNames [d1, d2] : Set Str) ↔ f = d2 := by
    intro f
    have hf : f ∈ obsoleteNames [d1, d2] ↔ f ∈ [d1] := by
      rw [← hobs, List.mem_map]
      rfl
    rw [Set.mem_sdiff, hf]
    have hne : d2 ≠ d1 := by decide
    refine ⟨fun h => ?_, fun h => ?_⟩
    · rcases mem_cons.mp h.1 with rfl | h'
      · exact absurd mem_cons_self h.2
      · exact mem_singleton.mp h'
    · rw [h]
      exact ⟨mem_cons_of_mem _ (mem_singleton_self _), mt mem_singleton.mp hne⟩
  have hc : Listing [m, d2] (({f | f ∈ [d1, d2]} \ obsoleteNames [d1, d2]) ∪ {f | f ∈ [m]}) := by
    refine ⟨by decide, fun f => ?_⟩
    rw [Set.mem_union, hleft, mem_cons, mem_singleton, or_comm]
    exact or_congr_right mem_singleton.symm
  obtain ⟨-, ru, rc, -, hru, hrc, he⟩ := (ondisk_state_of_cleanup hA hB ha hu hc).1
  exact ⟨ru, rc, hru, hrc, he⟩

/-! ## 6. Runs of the replicas -/

/-- A clean-up that reclaims no tombstone leaves what is kept. -/
theorem infosOf_cleanup {p : Timestamp → Bool} (hn : listing.Nodup) (hr : reclaimed p listing = none) :
    (infosOf (cleanupOndiskFiles p listing).1).toFinset = kept (infosOf (sortDesc id listing)) := by
  refine (infosOf_cleanup_subset p hn).antisymm fun x hx => ?_
  obtain ⟨hx, hobs⟩ := Finset.mem_filter.mp hx
  obtain ⟨hf, hp⟩ := mem_infosOf.mp (List.mem_toFinset.mp hx)
  refine List.mem_toFinset.mpr (mem_infosOf.mpr ⟨((mem_cleanupOndiskFiles p hn).2.2 _).mpr
    ⟨(mem_sortDesc id).mp hf, by simp [hr], fun y hy he => hobs ?_⟩, hp⟩)
  have hy' := ((final_infosOf ((sortDesc_perm id listing).nodup_iff.mpr hn)).sound.obsolete_iff y).mp hy
  exact infosOf_inj (List.mem_toFinset.mp hx) hy'.1 he ▸ hy

section Replicas

variable {ι : Type} [DecidableEq ι] [Fintype ι] {dirs : ι → Finset FileInfo} {ever : Finset FileInfo}

/-- Runs over the replicas of an object: `dirs` are the files in their directories, `ever` is all
    that was put so far. What arrives is new, or another replica sends it; no tombstone is old
    enough to be reclaimed. -/
inductive Replicas : (ι → Finset FileInfo) → Finset FileInfo → Prop
  | start : Replicas (fun _ => ∅) ∅
  | arrive {d e} (i : ι) {f : Str} {x : FileInfo} : Replicas d e →
      parseOnDiskFilename f = some x → x.ctypeTimestamp ≤ x.timestamp →
      Replicas (Function.update d i (insert x (d i))) (insert x e)
  | cleanup {d e} (i : ι) {l : List Str} {p : Timestamp → Bool} : Replicas d e →
      l.Nodup → (infosOf l).toFinset = d i → reclaimed p l = none →
      Replicas (Function.update d i (infosOf (cleanupOndiskFiles p l).1).toFinset) e

theorem biUnion_update (dirs : ι → Finset FileInfo) (i : ι) (S : Finset FileInfo) :
    Finset.univ.biUnion (Function.update dirs i S) = S ∪ (Finset.univ.erase i).biUnion dirs := by
  conv_lhs => rw [← Finset.insert_erase (Finset.mem_univ i)]
  rw [Finset.biUnion_insert, Function.update_self]
  exact congrArg _ (Finset.biUnion_congr rfl fun j hj => Function.update_of_ne (Finset.ne_of_mem_erase hj) ..)

/-- **What the replicas have together stands for all that was put**, whatever is joined to it. -/
theorem Replicas.sound (h : Replicas dirs ever) : (∀ x ∈ ever, x.ctypeTimestamp ≤ x.timestamp) ∧
    (∀ i, dirs i ⊆ ever) ∧ ∀ b, ((summary (Finset.univ.biUnion dirs)).join b).view = ((summary ever).join b).view := by
  have hassoc : ∀ a b c : Summary (WithBot Timestamp), (a.join b).join c = a.join (b.join c) := fun a b c => by
    simp [Summary.join, sup_assoc]
  have hself : ∀ (dirs : ι → Finset FileInfo) i,
      dirs i ∪ (Finset.univ.erase i).biUnion dirs = Finset.univ.biUnion dirs := fun dirs i => by
    rw [← biUnion_update, Function.update_eq_self]
  induction h with
  | start =>
    have hnone : Finset.univ.biUnion (fun _ : ι => (∅ : Finset FileInfo)) = ∅ := by ext; simp
    exact ⟨by simp, fun _ => subset_rfl, fun b => by rw [hnone]⟩
  | @arrive dirs ever i f x _ _ hx ih =>
    obtain ⟨hvalid, hsub, hview⟩ := ih
    refine ⟨by simpa [hx] using hvalid, fun j => ?_, fun b => ?_⟩
    · rw [Function.update_apply]
      split
      · exact Finset.insert_subset_insert x (hsub i)
      · exact (hsub j).trans (Finset.subset_insert x _)
    · rw [biUnion_update, Finset.insert_union, hself, Finset.insert_eq, Finset.union_comm, Finset.insert_eq,
        Finset.union_comm {x}, summary_union, summary_union, hassoc, hassoc, hview]
  | @cleanup dirs ever i listing p _ hn hl hr ih =>
    obtain ⟨hvalid, hsub, hview⟩ := ih
    have hns := (sortDesc_perm id listing).nodup_iff.mpr hn
    have hall : (infosOf (sortDesc id listing)).toFinset = dirs i := by
      rw [← hl]
      ext x
      simp [mem_infosOf, mem_sortDesc]
    have hcov := kept_covers (nodup_infosOf hns) fun x hx _ => hvalid x (hsub i (hall ▸ hx))
    refine ⟨hvalid, fun j => ?_, fun b => ?_⟩
    · rw [Function.update_apply]
      split
      · rw [infosOf_cleanup hn hr]
        exact (Finset.filter_subset _ _).trans (hall ▸ hsub i)
      · exact hsub j
    · rw [← hview, ← hself dirs i, biUnion_update, summary_union, summary_union, hassoc, hassoc,
        infosOf_cleanup hn hr, ← hall]
      exact Summary.view_join_of_covers hcov _

/-- **Nothing is lost between the replicas**: in whatever order files are put, sent and cleaned up,
    the files of all replicas together select the state that all files ever put select. -/
theorem replicas_keep_state (h : Replicas dirs ever) {le lt : List Str} (hle : le.Nodup) (hlt : lt.Nodup)
    (he : (infosOf le).toFinset = ever) (ht : (infosOf lt).toFinset = Finset.univ.biUnion dirs) :
    ∃ re rt, getOndiskFiles le true = some re ∧ getOndiskFiles lt true = some rt ∧ rt.state = re.state := by
  obtain ⟨hvalid, hsub, hview⟩ := h.sound
  refine ⟨_, _, getOndiskFiles_verify hle true, getOndiskFiles_verify hlt true, ?_⟩
  rw [selectOndiskFiles_state (nodup_infosOf hle) fun x hx _ => hvalid x (he ▸ hx),
    selectOndiskFiles_state (nodup_infosOf hlt) fun x hx _ => ?_, he, ht]
  · simpa [Summary.join] using hview ⟨⊥, ⊥, ⊥, ⊥⟩
  · obtain ⟨i, -, hi⟩ := Finset.mem_biUnion.mp (ht ▸ hx)
    exact hvalid x (hsub i hi)

end Replicas

/-- A replica cleans up after the newer of two data files. -/
theorem replicas_keep_state_newer : ∃ re rt,
    getOndiskFiles ["0000000002.00000.data".toList, "0000000001.00000.data".toList] true = some re ∧
      getOndiskFiles ["0000000002.00000.data".toList] true = some rt ∧ rt.state = re.state := by
  set d1 := "0000000001.00000.data".toList
  set d2 := "0000000002.00000.data".toList
  have hstart : Replicas (fun _ : Unit => ∅) ∅ := .start
  have h1 := hstart.arrive () (Option.some_get (show (parseOnDiskFilename d1).isSome = true by decide)).symm
    (by decide +kernel)
  have h2 := h1.arrive () (Option.some_get (show (parseOnDiskFilename d2).isSome = true by decide)).symm
    (by decide +kernel)
  exact replicas_keep_state (h2.cleanup () (l := [d2, d1]) (p := fun _ => false) (by decide)
    (by decide +kernel) (by decide +kernel)) (by decide) (by decide) (by decide +kernel) (by decide +kernel)

end Mitaka.Swift
