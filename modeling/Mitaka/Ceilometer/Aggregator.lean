/-
  Subject: AggregatorTransformer of ceilometer/transformer/conversions.py.

  The samples since the last flush that put something out are the window. What the state
  holds is a function of the window (`handleSample_stateOf`), so a flush puts out the
  aggregates of its groups wherever the keys tell the groups apart and are found again
  from what was converted (**`aggregator_accounts`**).
-/
import Mitaka.Ceilometer.Conversions
import Mitaka.Lib.Cells

namespace Mitaka.Ceilometer

open List

open Keystone (Str)

variable {M : Type}

/-! ## 1. The transformer -/

inductive Policy
  | first
  | last
  | drop
deriving DecidableEq

/-- `_init_attribute`: the policy of a merged attribute, none for one of the key. -/
def initAttribute (value : Option Str) (isDroppable mandatory : Bool) : Option Policy :=
  if Keystone.truthy value = true ∨ mandatory = true then
    if value = some ['f', 'i', 'r', 's', 't'] then some .first
    else if isDroppable = true ∧ value = some ['d', 'r', 'o', 'p'] then some .drop
    else some .last
  else none

/-- What `__init__` sets. -/
structure Aggregator (M : Type) where
  conversion : Conversion M
  size : Option ℤ
  retentionTime : Option ℚ
  timestamp : Policy
  projectId : Option Policy
  userId : Option Policy
  resourceMetadata : Policy
  /-- `{}`. -/
  noMetadata : M

/-- `__init__`, of the size and the retention time as numbers. -/
def Aggregator.init (conversion : Conversion M) (noMetadata : M) (size : Option ℤ) (retentionTime : Option ℚ)
    (projectId userId resourceMetadata timestamp : Option Str) : Aggregator M where
  conversion := conversion
  size := if size.getD 0 = 0 ∧ retentionTime.getD 0 = 0 then some 1 else size
  retentionTime := retentionTime
  timestamp := if timestamp = some ['l', 'a', 's', 't'] then .last else .first
  projectId := initAttribute projectId false false
  userId := initAttribute userId false false
  resourceMetadata := (initAttribute resourceMetadata true true).getD .last
  noMetadata := noMetadata

structure Aggregation (M : Type) where
  samples : Dict Str (Sample M)
  counts : Dict Str ℕ
  initialTimestamp : Option ℤ
  aggregatedSamples : ℕ

def Aggregation.empty : Aggregation M := ⟨[], [], none, 0⟩

namespace Aggregator

variable (agg : Aggregator M)

/-- `self.key_attributes`. -/
def keyAttributes : List (Sample M → Option Str) :=
  (if agg.projectId = none then [Sample.projectId] else []) ++ (if agg.userId = none then [Sample.userId] else [])

def undefined : Str := ['<', 'u', 'n', 'd', 'e', 'f', 'i', 'n', 'e', 'd', '>']

/-- `_get_unique_key`. -/
def getUniqueKey (s : Sample M) : Str :=
  s.name ++ '-' :: (s.resourceId ++ '-' :: ['-'].intercalate (agg.keyAttributes.map fun f => (f s).getD undefined))

/-- The first sample of a key, converted. -/
def store (s : Sample M) : Sample M :=
  let converted := agg.conversion.convert s (.int 1)
  if agg.resourceMetadata = .drop then { converted with resourceMetadata := agg.noMetadata } else converted

/-- A further sample of the key of `x`. -/
def merge (x s : Sample M) : Sample M :=
  { x with
    timestamp := if agg.timestamp = .last then s.timestamp else x.timestamp
    volume := if s.type = .cumulative then agg.conversion.scaled s else x.volume + agg.conversion.scaled s
    projectId := if agg.projectId = some .last then s.projectId else x.projectId
    userId := if agg.userId = some .last then s.userId else x.userId
    resourceMetadata := if agg.resourceMetadata = .last then s.resourceMetadata else x.resourceMetadata }

def handleSample (st : Aggregation M) (s : Sample M) : Aggregation M :=
  let key := agg.getUniqueKey s
  { initialTimestamp := some (st.initialTimestamp.getD s.timestamp)
    aggregatedSamples := st.aggregatedSamples + 1
    counts := st.counts.set key ((st.counts.get key).getD 0 + 1)
    samples :=
      match st.samples.get key with
      | none => st.samples.set key (agg.store s)
      | some x => st.samples.set key (agg.merge x s) }

/-- `full or expired`, once there is a sample. -/
def due (initialTimestamp : Option ℤ) (aggregatedSamples : ℕ) (now : ℤ) : Prop :=
  match initialTimestamp with
  | none => False
  | some initial =>
    (agg.size.getD 0 ≠ 0 ∧ agg.size.getD 0 ≤ aggregatedSamples) ∨
      (agg.retentionTime.getD 0 ≠ 0 ∧ agg.retentionTime.getD 0 < ((now - initial : ℤ) : ℚ) / 10 ^ 6)

instance (initialTimestamp : Option ℤ) (aggregatedSamples : ℕ) (now : ℤ) :
    Decidable (agg.due initialTimestamp aggregatedSamples now) :=
  match initialTimestamp with
  | none => inferInstanceAs (Decidable False)
  | some _ => inferInstanceAs (Decidable (_ ∨ _))

/-- The gauges divided by their counts, one by one; false where one raises. -/
def averages : Dict Str ℕ → Dict Str (Sample M) → Dict Str ℕ × Dict Str (Sample M) × Bool
  | counts, [] => (counts, [], true)
  | counts, (key, s) :: rest =>
    if s.type = .gauge then
      let count := (counts.get (agg.getUniqueKey s)).getD 0
      -- a `defaultdict` keeps what was asked for
      let counts := counts.set (agg.getUniqueKey s) count
      if count = 0 then (counts, (key, s) :: rest, false)
      else
        let others := averages counts rest
        (others.1, (key, { s with volume := s.volume / .int count }) :: others.2.1, others.2.2)
    else
      let others := averages counts rest
      (others.1, (key, s) :: others.2.1, others.2.2)

/-- `flush`; none where it raises. -/
def flush (st : Aggregation M) (now : ℤ) : Aggregation M × Option (List (Sample M)) :=
  if agg.due st.initialTimestamp st.aggregatedSamples now then
    let averaged := agg.averages st.counts st.samples
    if averaged.2.2 = true then (.empty, some (averaged.2.1.map Prod.snd))
    else ({ st with counts := averaged.1, samples := averaged.2.1 }, none)
  else (st, some [])

end Aggregator

/-! ## 2. Runs and what is asked of them -/

inductive Call (M : Type)
  | handle (s : Sample M)
  | flush (now : ℤ)

namespace Aggregator

variable (agg : Aggregator M)

def step (st : Aggregation M) : Call M → Aggregation M × Option (List (Sample M))
  | .handle s => (agg.handleSample st s, some [])
  | .flush now => agg.flush st now

/-- The calls, each with what it puts out. -/
def run : Aggregation M → List (Call M) → List (Call M × Option (List (Sample M)))
  | _, [] => []
  | st, c :: calls => (c, (agg.step st c).2) :: run (agg.step st c).1 calls

def after (st : Aggregation M) (calls : List (Call M)) : Aggregation M := calls.foldl (fun st c => (agg.step st c).1) st

/-- Name, resource and the attributes that are not merged. -/
def group (s : Sample M) : Str × Str × List (Option Str) := (s.name, s.resourceId, agg.keyAttributes.map fun f => f s)

/-- The samples of a window in a group. -/
def members (window : List (Sample M)) (g : Str × Str × List (Option Str)) : List (Sample M) :=
  window.filter fun s => agg.group s = g

/-- The scaled sum. -/
def total (l : List (Sample M)) : ℚ := (l.map fun s => (agg.conversion.scaled s).value).sum

/-- The aggregate of a group. -/
structure IsAggregate (window : List (Sample M)) (g : Str × Str × List (Option Str)) (x : Sample M) : Prop where
  name : x.name = agg.conversion.map agg.conversion.name g.1
  resourceId : x.resourceId = g.2.1
  delta : (∀ s ∈ agg.members window g, s.type = .delta) → x.volume.value = agg.total (agg.members window g)
  cumulative : (∀ s ∈ agg.members window g, s.type = .cumulative) → ∀ last, (agg.members window g).getLast? = some last →
    x.volume.value = (agg.conversion.scaled last).value
  gauge : (∀ s ∈ agg.members window g, s.type = .gauge) →
    x.volume.value = agg.total (agg.members window g) / (agg.members window g).length

/-- One aggregate for each group of the window. -/
def AreAggregates (window xs : List (Sample M)) : Prop :=
  ∃ groups : List (Str × Str × List (Option Str)), groups.Nodup ∧ (∀ g, g ∈ groups ↔ ∃ s ∈ window, agg.group s = g) ∧
    Forall₂ (agg.IsAggregate window) groups xs

/-- From one window to another, every sample comes into the window, and a flush puts out nothing and leaves it, or its
aggregates and empties it. -/
inductive Accounted : List (Sample M) → List (Call M × Option (List (Sample M))) → List (Sample M) → Prop
  | nil (window : List (Sample M)) : Accounted window [] window
  | handle {window trace pending s} : Accounted (window ++ [s]) trace pending →
      Accounted window ((.handle s, some []) :: trace) pending
  | wait {window trace pending now} : Accounted window trace pending →
      Accounted window ((.flush now, some []) :: trace) pending
  | flush {window trace pending now xs} : agg.AreAggregates window xs → Accounted [] trace pending →
      Accounted window ((.flush now, some xs) :: trace) pending

/-- Every sample of a run is in exactly one aggregate or pending. -/
def Accounts (calls : List (Call M)) : Prop :=
  ∃ pending, agg.Accounted [] (agg.run .empty calls) pending ∧ (agg.after .empty calls).aggregatedSamples = pending.length

/-- What a window has to be for a flush. -/
structure Fits (window : List (Sample M)) : Prop where
  /-- The texts of the keys tell the groups apart. -/
  keys : ∀ s ∈ window, ∀ t ∈ window, agg.getUniqueKey s = agg.getUniqueKey t → agg.group s = agg.group t
  /-- What becomes a gauge keeps its name. -/
  names : ∀ s ∈ window, agg.conversion.type.getD s.type = .gauge → agg.conversion.map agg.conversion.name s.name = s.name
  /-- Several samples of one group become gauges just when they are. -/
  types : ∀ s ∈ window, (agg.members window (agg.group s)).length ≠ 1 →
    (agg.conversion.type.getD s.type = .gauge ↔ s.type = .gauge)
  /-- The mean of integers is one. -/
  whole : ∀ s ∈ window, s.type = .gauge →
    (∀ t ∈ agg.members window (agg.group s), (agg.conversion.scaled t).isInt = true) →
    (agg.total (agg.members window (agg.group s)) / (agg.members window (agg.group s)).length).den = 1

instance (window : List (Sample M)) : Decidable (agg.Fits window) :=
  decidable_of_iff
    ((∀ s ∈ window, ∀ t ∈ window, agg.getUniqueKey s = agg.getUniqueKey t → agg.group s = agg.group t) ∧
      (∀ s ∈ window, agg.conversion.type.getD s.type = .gauge → agg.conversion.map agg.conversion.name s.name = s.name) ∧
      (∀ s ∈ window, (agg.members window (agg.group s)).length ≠ 1 →
        (agg.conversion.type.getD s.type = .gauge ↔ s.type = .gauge)) ∧
      ∀ s ∈ window, s.type = .gauge →
        (∀ t ∈ agg.members window (agg.group s), (agg.conversion.scaled t).isInt = true) →
        (agg.total (agg.members window (agg.group s)) / (agg.members window (agg.group s)).length).den = 1)
    ⟨fun ⟨hkeys, hnames, htypes, hwhole⟩ => ⟨hkeys, hnames, htypes, hwhole⟩, fun h => ⟨h.keys, h.names, h.types, h.whole⟩⟩

/-- The window fits at every flush that is due. -/
def Meets : List (Sample M) → List (Call M) → Prop
  | _, [] => True
  | window, .handle s :: calls => Meets (window ++ [s]) calls
  | window, .flush now :: calls =>
    if agg.due (window.head?.map Sample.timestamp) window.length now then agg.Fits window ∧ Meets [] calls
    else Meets window calls

/-! ## 3. The state of a window -/

variable {agg}

/-- What the samples keep for a key. -/
def nextStored (agg : Aggregator M) (c : Option (Sample M)) (s : Sample M) : Sample M × Option Unit :=
  match c with
  | none => (agg.store s, none)
  | some x => (agg.merge x s, none)

def nextCount (c : Option ℕ) (_ : Sample M) : ℕ × Option Unit := (c.getD 0 + 1, none)

/-- The state that a window leads to. -/
def stateOf (agg : Aggregator M) (window : List (Sample M)) : Aggregation M where
  samples := Cells.after agg.getUniqueKey agg.nextStored [] window
  counts := Cells.after agg.getUniqueKey nextCount [] window
  initialTimestamp := window.head?.map Sample.timestamp
  aggregatedSamples := window.length

/-- **A sample comes into the window.** -/
theorem handleSample_stateOf (window : List (Sample M)) (s : Sample M) :
    agg.handleSample (agg.stateOf window) s = agg.stateOf (window ++ [s]) := by
  have hsamples : (agg.handleSample (agg.stateOf window) s).samples = (agg.stateOf (window ++ [s])).samples := by
    refine Eq.trans ?_ (Cells.after_concat _ _ _).symm
    simp only [handleSample, stateOf, Cells.step, nextStored]
    cases (Cells.after agg.getUniqueKey agg.nextStored [] window).get (agg.getUniqueKey s) <;> rfl
  have hcounts : (agg.handleSample (agg.stateOf window) s).counts = (agg.stateOf (window ++ [s])).counts :=
    (Cells.after_concat _ _ _).symm
  have hinitial : (agg.handleSample (agg.stateOf window) s).initialTimestamp = (agg.stateOf (window ++ [s])).initialTimestamp := by
    cases window <;> rfl
  have hlength : (agg.handleSample (agg.stateOf window) s).aggregatedSamples = (agg.stateOf (window ++ [s])).aggregatedSamples := by
    have happend : (window ++ [s]).length = window.length + 1 := length_append
    exact happend.symm
  calc agg.handleSample (agg.stateOf window) s
      = ⟨(agg.handleSample (agg.stateOf window) s).samples, (agg.handleSample (agg.stateOf window) s).counts,
          (agg.handleSample (agg.stateOf window) s).initialTimestamp,
          (agg.handleSample (agg.stateOf window) s).aggregatedSamples⟩ := rfl
    _ = agg.stateOf (window ++ [s]) := by rw [hsamples, hcounts, hinitial, hlength]

/-- The samples of a window with a key. -/
def withKey (agg : Aggregator M) (window : List (Sample M)) (key : Str) : List (Sample M) :=
  window.filter fun s => agg.getUniqueKey s = key

theorem afterCell_nextCount (c : Option ℕ) (l : List (Sample M)) :
    (Cells.afterCell nextCount c l).getD 0 = c.getD 0 + l.length := by
  induction l generalizing c with
  | nil => rfl
  | cons s l ih =>
    refine (ih (some (c.getD 0 + 1))).trans ?_
    rw [length_cons, Option.getD_some]
    omega

theorem afterCell_nextStored (x : Sample M) (l : List (Sample M)) :
    Cells.afterCell agg.nextStored (some x) l = some (l.foldl agg.merge x) := by
  induction l generalizing x with
  | nil => rfl
  | cons s l ih => exact ih (agg.merge x s)

/-- **The count of a key** is that of its samples. -/
theorem counts_stateOf (window : List (Sample M)) (key : Str) :
    ((agg.stateOf window).counts.get key).getD 0 = (agg.withKey window key).length := by
  have hget : (agg.stateOf window).counts.get key = Cells.afterCell nextCount none (agg.withKey window key) :=
    Cells.get_after [] window key
  rw [hget, afterCell_nextCount, Option.getD_none, Nat.zero_add]

variable {window : List (Sample M)}

/-- **What is stored for a key**: its first sample converted, and the others merged into it. -/
theorem samples_stateOf {key : Str} {x : Sample M}
    (h : (agg.stateOf window).samples.get key = some x) :
    ∃ first rest, agg.withKey window key = first :: rest ∧ x = rest.foldl agg.merge (agg.store first) := by
  have hget : (agg.stateOf window).samples.get key = Cells.afterCell agg.nextStored none (agg.withKey window key) :=
    Cells.get_after [] window key
  rw [hget] at h
  cases hkey : agg.withKey window key with
  | nil =>
    rw [hkey] at h
    cases h
  | cons first rest =>
    rw [hkey] at h
    have hstored := agg.afterCell_nextStored (agg.store first) rest
    exact ⟨first, rest, rfl, Option.some.inj (h.symm.trans hstored)⟩

theorem mem_samples_stateOf {s : Sample M} (hs : s ∈ window) :
    ((agg.stateOf window).samples.get (agg.getUniqueKey s)).isSome = true := by
  have hget : (agg.stateOf window).samples.get (agg.getUniqueKey s) =
      Cells.afterCell agg.nextStored none (agg.withKey window (agg.getUniqueKey s)) := Cells.get_after [] window _
  have hmem : s ∈ agg.withKey window (agg.getUniqueKey s) := mem_filter.mpr ⟨hs, decide_eq_true rfl⟩
  rw [hget]
  cases hkey : agg.withKey window (agg.getUniqueKey s) with
  | nil =>
    rw [hkey] at hmem
    cases hmem
  | cons first rest => exact Cells.isSome_afterCell rfl rest

/-! ## 4. What is stored for a group -/

theorem mem_keyAttributes {f : Sample M → Option Str} (hf : f ∈ agg.keyAttributes) :
    (f = Sample.projectId ∧ agg.projectId = none) ∨ (f = Sample.userId ∧ agg.userId = none) := by
  rcases mem_append.mp hf with h | h
  · split_ifs at h with hproject
    · exact Or.inl ⟨mem_singleton.mp h, hproject⟩
    · cases h
  · split_ifs at h with huser
    · exact Or.inr ⟨mem_singleton.mp h, huser⟩
    · cases h

/-- Merging leaves the name, the resource, the type and the attributes of the key. -/
theorem merge_fixed (x s : Sample M) : (agg.merge x s).name = x.name ∧ (agg.merge x s).resourceId = x.resourceId ∧
    (agg.merge x s).type = x.type ∧ ∀ f ∈ agg.keyAttributes, f (agg.merge x s) = f x := by
  refine ⟨rfl, rfl, rfl, fun f hf => ?_⟩
  rcases mem_keyAttributes hf with ⟨rfl, hproject⟩ | ⟨rfl, huser⟩
  · simp [merge, hproject]
  · simp [merge, huser]

theorem foldl_merge_fixed (x : Sample M) (l : List (Sample M)) :
    (l.foldl agg.merge x).name = x.name ∧ (l.foldl agg.merge x).resourceId = x.resourceId ∧
      (l.foldl agg.merge x).type = x.type ∧ ∀ f ∈ agg.keyAttributes, f (l.foldl agg.merge x) = f x := by
  induction l generalizing x with
  | nil => exact ⟨rfl, rfl, rfl, fun f _ => rfl⟩
  | cons s l ih =>
    obtain ⟨hname, hresource, htype, hattributes⟩ := ih (agg.merge x s)
    obtain ⟨hname', hresource', htype', hattributes'⟩ := agg.merge_fixed x s
    exact ⟨hname.trans hname', hresource.trans hresource', htype.trans htype', fun f hf =>
      (hattributes f hf).trans (hattributes' f hf)⟩

/-- A sample is stored as it is converted, but for the metadata. -/
theorem store_eq (s : Sample M) :
    ∃ metadata, agg.store s = { agg.conversion.convert s (.int 1) with resourceMetadata := metadata } := by
  unfold store
  split_ifs
  · exact ⟨agg.noMetadata, rfl⟩
  · exact ⟨s.resourceMetadata, rfl⟩

theorem store_fixed (s : Sample M) : (agg.store s).name = agg.conversion.map agg.conversion.name s.name ∧
    (agg.store s).resourceId = s.resourceId ∧ (agg.store s).type = agg.conversion.type.getD s.type ∧
    (agg.store s).volume = agg.conversion.scaled s * .int 1 ∧ ∀ f ∈ agg.keyAttributes, f (agg.store s) = f s := by
  obtain ⟨metadata, hstore⟩ := agg.store_eq s
  rw [hstore]
  refine ⟨rfl, rfl, rfl, rfl, fun f hf => ?_⟩
  rcases mem_keyAttributes hf with ⟨rfl, -⟩ | ⟨rfl, -⟩ <;> rfl

theorem getUniqueKey_congr {s t : Sample M} (hname : s.name = t.name) (hresource : s.resourceId = t.resourceId)
    (hattributes : ∀ f ∈ agg.keyAttributes, f s = f t) : agg.getUniqueKey s = agg.getUniqueKey t := by
  have hkeys : (agg.keyAttributes.map fun f => (f s).getD undefined) = agg.keyAttributes.map fun f => (f t).getD undefined :=
    map_congr_left fun f hf => congrArg (fun v => v.getD undefined) (hattributes f hf)
  rw [getUniqueKey, getUniqueKey, hname, hresource, hkeys]

theorem getUniqueKey_of_group {s t : Sample M} (h : agg.group s = agg.group t) : agg.getUniqueKey s = agg.getUniqueKey t := by
  obtain ⟨hname, hrest⟩ := Prod.mk.inj h
  obtain ⟨hresource, hattributes⟩ := Prod.mk.inj hrest
  exact getUniqueKey_congr hname hresource (map_inj_left.mp hattributes)

/-- Samples that are not cumulative are added. -/
theorem foldl_merge_volume {l : List (Sample M)} (h : ∀ s ∈ l, s.type ≠ .cumulative) (x : Sample M) :
    (l.foldl agg.merge x).volume.value = x.volume.value + agg.total l ∧
      ((l.foldl agg.merge x).volume.isInt = true →
        x.volume.isInt = true ∧ ∀ s ∈ l, (agg.conversion.scaled s).isInt = true) := by
  induction l generalizing x with
  | nil => exact ⟨(add_zero _).symm, fun hint => ⟨hint, fun s hs => absurd hs not_mem_nil⟩⟩
  | cons s l ih =>
    obtain ⟨hvalue, hint⟩ := ih (fun t ht => h t (mem_cons_of_mem _ ht)) (agg.merge x s)
    have hmerge : (agg.merge x s).volume = x.volume + agg.conversion.scaled s := if_neg (h s mem_cons_self)
    rw [hmerge] at hvalue hint
    refine ⟨?_, fun hi => ?_⟩
    · rw [foldl_cons, hvalue, Number.value_add, total, total, map_cons, sum_cons, add_assoc]
    · obtain ⟨hboth, hrest⟩ := hint hi
      rw [Number.isInt_add, Bool.and_eq_true] at hboth
      exact ⟨hboth.1, forall_mem_cons.mpr ⟨hboth.2, hrest⟩⟩

/-- The last of cumulative samples stays. -/
theorem foldl_merge_last {l : List (Sample M)} (h : ∀ s ∈ l, s.type = .cumulative) (x : Sample M) :
    (l.foldl agg.merge x).volume = (l.getLast?.map agg.conversion.scaled).getD x.volume := by
  induction l generalizing x with
  | nil => rfl
  | cons s l ih =>
    have hmerge : (agg.merge x s).volume = agg.conversion.scaled s := if_pos (h s mem_cons_self)
    rw [foldl_cons, ih (fun t ht => h t (mem_cons_of_mem _ ht)), hmerge, getLast?_cons]
    cases l.getLast? <;> rfl

/-- What a flush makes of a stored sample of `n`. -/
def average (n : ℕ) (x : Sample M) : Sample M := if x.type = .gauge then { x with volume := x.volume / .int n } else x

theorem average_fixed (n : ℕ) (x : Sample M) : (average n x).name = x.name ∧ (average n x).resourceId = x.resourceId := by
  unfold average
  split_ifs <;> exact ⟨rfl, rfl⟩

theorem average_of_ne {n : ℕ} {x : Sample M} (h : x.type ≠ .gauge) : (average n x).volume = x.volume := by
  rw [average, if_neg h]

theorem average_one (x : Sample M) : (average 1 x).volume.value = x.volume.value := by
  unfold average
  split_ifs
  · have hwhole : x.volume.isInt = true → (x.volume.value / (1 : ℕ)).den = 1 := by
      intro hint
      cases hvolume : x.volume with
      | int a => simp
      | float a => rw [hvolume] at hint; cases hint
    refine (Number.value_div one_ne_zero hwhole).trans ?_
    rw [Nat.cast_one, div_one]
  · rfl

/-- **A stored sample, averaged, is the aggregate of its group.** -/
theorem isAggregate_average (hfits : agg.Fits window) {first : Sample M} {rest : List (Sample M)}
    (hmembers : agg.members window (agg.group first) = first :: rest) :
    agg.IsAggregate window (agg.group first) (average (first :: rest).length (rest.foldl agg.merge (agg.store first))) := by
  obtain ⟨hname, hresource, htype, -⟩ := agg.foldl_merge_fixed (agg.store first) rest
  obtain ⟨hname', hresource', htype', hvolume', -⟩ := agg.store_fixed first
  obtain ⟨hkeptName, hkeptResource⟩ := average_fixed (first :: rest).length (rest.foldl agg.merge (agg.store first))
  have hfirst : first ∈ window := by
    have hmem : first ∈ agg.members window (agg.group first) := hmembers ▸ mem_cons_self
    exact (mem_filter.mp hmem).1
  have hstored : (rest.foldl agg.merge (agg.store first)).type = agg.conversion.type.getD first.type := htype.trans htype'
  have hkinds := hfits.types first hfirst
  rw [hmembers] at hkinds
  have hone : (agg.store first).volume.value = (agg.conversion.scaled first).value := by
    rw [hvolume', Number.value_mul, Number.value_int, Int.cast_one, mul_one]
  have hsum : ∀ kind : SampleType, kind ≠ .cumulative → (∀ s ∈ first :: rest, s.type = kind) →
      (rest.foldl agg.merge (agg.store first)).volume.value = agg.total (first :: rest) := by
    intro kind hkind hall
    have hnot : ∀ s ∈ rest, s.type ≠ .cumulative := fun s hs => (hall s (mem_cons_of_mem _ hs)).trans_ne hkind
    rw [(foldl_merge_volume hnot _).1, hone, total, total, map_cons, sum_cons]
  -- a group of one is divided by one, whatever it becomes
  have hsingle : rest = [] ∨ (first :: rest).length ≠ 1 := by
    cases rest with
    | nil => exact Or.inl rfl
    | cons s rest => exact Or.inr (by simp)
  have hkeep : ∀ kind : SampleType, kind ≠ .gauge → (∀ s ∈ first :: rest, s.type = kind) →
      (average (first :: rest).length (rest.foldl agg.merge (agg.store first))).volume.value =
        (rest.foldl agg.merge (agg.store first)).volume.value := by
    intro kind hkind hall
    rcases hsingle with rfl | hlength
    · exact average_one _
    · have hnot : (rest.foldl agg.merge (agg.store first)).type ≠ .gauge := by
        rw [hstored, Ne, hkinds hlength, hall first mem_cons_self]
        exact hkind
      rw [average_of_ne hnot]
  refine ⟨hkeptName.trans (hname.trans hname'), hkeptResource.trans (hresource.trans hresource'), ?_, ?_, ?_⟩
  · rw [hmembers]
    intro hall
    exact (hkeep .delta (by decide) hall).trans (hsum .delta (by decide) hall)
  · rw [hmembers]
    intro hall last hlast
    have hall' : ∀ s ∈ rest, s.type = .cumulative := fun s hs => hall s (mem_cons_of_mem _ hs)
    rw [hkeep .cumulative (by decide) hall, foldl_merge_last hall']
    rw [getLast?_cons] at hlast
    obtain rfl := Option.some.inj hlast
    cases rest.getLast? with
    | none => exact hone
    | some last => rfl
  · rw [hmembers]
    intro hall
    have hvalue := hsum .gauge (by decide) hall
    rcases hsingle with rfl | hlength
    · refine (average_one _).trans (hvalue.trans ?_)
      rw [length_singleton, Nat.cast_one, div_one]
    · have hgauge : (rest.foldl agg.merge (agg.store first)).type = .gauge := by
        rw [hstored]
        exact (hkinds hlength).mpr (hall first mem_cons_self)
      have hwhole := hfits.whole first hfirst (hall first mem_cons_self)
      rw [hmembers] at hwhole
      rw [average, if_pos hgauge, ← hvalue]
      refine Number.value_div (Nat.succ_ne_zero _) fun hint => ?_
      rw [hvalue]
      refine hwhole (forall_mem_cons.mpr ?_)
      have hnot : ∀ s ∈ rest, s.type ≠ .cumulative := fun s hs =>
        (hall s (mem_cons_of_mem _ hs)).trans_ne (by decide)
      obtain ⟨hstart, hrest⟩ := (foldl_merge_volume hnot (agg.store first)).2 hint
      refine ⟨?_, hrest⟩
      rw [hvolume'] at hstart
      cases hscaled : agg.conversion.scaled first with
      | int a => rfl
      | float a => rw [hscaled] at hstart; cases hstart

/-! ## 5. A flush -/

/-- No gauge raises where each is found under its key. -/
theorem averages_eq {counts : Dict Str ℕ} {d : Dict Str (Sample M)}
    (h : ∀ e ∈ d, e.2.type = .gauge → agg.getUniqueKey e.2 = e.1 ∧ (counts.get e.1).getD 0 ≠ 0) :
    agg.averages counts d = (counts, d.map fun e => (e.1, average ((counts.get e.1).getD 0) e.2), true) := by
  induction d with
  | nil => rfl
  | cons e d ih =>
    have hrest := ih fun e' he' => h e' (mem_cons_of_mem _ he')
    rw [averages, map_cons]
    by_cases hgauge : e.2.type = .gauge
    · obtain ⟨hkey, hcount⟩ := h e mem_cons_self hgauge
      have hset : counts.set e.1 ((counts.get e.1).getD 0) = counts := by
        cases hget : counts.get e.1 with
        | none => exact absurd (congrArg (fun c => c.getD 0) hget) hcount
        | some n => exact Dict.set_of_get hget
      have haverage : average ((counts.get e.1).getD 0) e.2 =
          { e.2 with volume := e.2.volume / .int ((counts.get e.1).getD 0 : ℕ) } := if_pos hgauge
      simp only [if_pos hgauge, hkey, if_neg hcount, hset, hrest, haverage]
    · have haverage : average ((counts.get e.1).getD 0) e.2 = e.2 := if_neg hgauge
      simp only [if_neg hgauge, hrest, haverage]

theorem keysNodup_stateOf (window : List (Sample M)) : (agg.stateOf window).samples.KeysNodup := by
  have hnil : Dict.KeysNodup ([] : Dict Str (Sample M)) := nodup_nil
  exact Cells.keysNodup_after hnil window

/-- An entry of the samples: it is found again, and it is the aggregate of its group. -/
theorem entry_stateOf (hfits : agg.Fits window) {e : Str × Sample M}
    (he : e ∈ (agg.stateOf window).samples) :
    ∃ first ∈ window, agg.getUniqueKey first = e.1 ∧ (agg.withKey window e.1).head? = some first ∧
      ((agg.stateOf window).counts.get e.1).getD 0 ≠ 0 ∧ (e.2.type = .gauge → agg.getUniqueKey e.2 = e.1) ∧
      agg.IsAggregate window (agg.group first) (average (((agg.stateOf window).counts.get e.1).getD 0) e.2) := by
  obtain ⟨key, x⟩ := e
  obtain ⟨first, rest, hkey, rfl⟩ := samples_stateOf ((keysNodup_stateOf window).mem_iff.mp he)
  have hmem : first ∈ agg.withKey window key := hkey ▸ mem_cons_self
  obtain ⟨hfirst, hfound⟩ := mem_filter.mp hmem
  obtain rfl : agg.getUniqueKey first = key := of_decide_eq_true hfound
  have hmembers : agg.members window (agg.group first) = first :: rest := by
    rw [← hkey]
    refine filter_congr fun s hs => ?_
    have hiff : agg.group s = agg.group first ↔ agg.getUniqueKey s = agg.getUniqueKey first :=
      ⟨getUniqueKey_of_group, hfits.keys s hs first hfirst⟩
    simp only [hiff]
  have hcount := @counts_stateOf _ agg window (agg.getUniqueKey first)
  rw [hkey] at hcount
  refine ⟨first, hfirst, rfl, by rw [hkey]; rfl, ?_, fun hgauge => ?_, ?_⟩
  · rw [hcount]
    exact Nat.succ_ne_zero _
  · obtain ⟨hname, hresource, htype, hattributes⟩ := agg.foldl_merge_fixed (agg.store first) rest
    obtain ⟨hname', hresource', htype', -, hattributes'⟩ := agg.store_fixed first
    have hkept := hfits.names first hfirst ((htype.trans htype').symm.trans hgauge)
    exact getUniqueKey_congr (hname.trans (hname'.trans hkept)) (hresource.trans hresource') fun f hf =>
      (hattributes f hf).trans (hattributes' f hf)
  · rw [hcount]
    exact isAggregate_average hfits hmembers

/-- The group that a key stands for. -/
def groupOf (agg : Aggregator M) (window : List (Sample M)) (key : Str) : Str × Str × List (Option Str) :=
  ((agg.withKey window key).head?.map agg.group).getD ([], [], [])

/-- **A flush that is due** puts out the aggregates of the window and empties it. -/
theorem flush_stateOf (hfits : agg.Fits window) {now : ℤ}
    (hdue : agg.due (window.head?.map Sample.timestamp) window.length now) :
    ∃ xs, agg.flush (agg.stateOf window) now = (.empty, some xs) ∧ agg.AreAggregates window xs := by
  have hnodup : (agg.stateOf window).samples.KeysNodup := keysNodup_stateOf window
  have haverages : agg.averages (agg.stateOf window).counts (agg.stateOf window).samples = ((agg.stateOf window).counts,
      (agg.stateOf window).samples.map fun e => (e.1, average (((agg.stateOf window).counts.get e.1).getD 0) e.2), true) := by
    refine averages_eq fun e he hgauge => ?_
    obtain ⟨first, -, -, -, hcount, hfound, -⟩ := entry_stateOf hfits he
    exact ⟨hfound hgauge, hcount⟩
  have hgroup : ∀ e ∈ (agg.stateOf window).samples, ∃ first ∈ window, agg.getUniqueKey first = e.1 ∧
      agg.groupOf window e.1 = agg.group first ∧
      agg.IsAggregate window (agg.group first) (average (((agg.stateOf window).counts.get e.1).getD 0) e.2) := by
    intro e he
    obtain ⟨first, hfirst, hkey, hhead, -, -, haggregate⟩ := entry_stateOf hfits he
    refine ⟨first, hfirst, hkey, ?_, haggregate⟩
    rw [groupOf, hhead]
    rfl
  refine ⟨(agg.stateOf window).samples.map fun e => average (((agg.stateOf window).counts.get e.1).getD 0) e.2, ?_,
    (agg.stateOf window).samples.map fun e => agg.groupOf window e.1, ?_, fun g => ⟨fun hg => ?_, ?_⟩, ?_⟩
  · have hdue' : agg.due (agg.stateOf window).initialTimestamp (agg.stateOf window).aggregatedSamples now := hdue
    rw [flush, if_pos hdue', haverages]
    simp only [if_true, List.map_map]
    rfl
  · refine (Nodup.of_map _ hnodup).map_on fun e he e' he' heq => ?_
    obtain ⟨first, -, hkey, hof, -⟩ := hgroup e he
    obtain ⟨first', -, hkey', hof', -⟩ := hgroup e' he'
    have hsame : e.1 = e'.1 := by
      rw [← hkey, ← hkey']
      exact getUniqueKey_of_group (hof.symm.trans (heq.trans hof'))
    have hget := hnodup.mem_iff.mp he
    rw [hsame, hnodup.mem_iff.mp he'] at hget
    exact Prod.ext hsame (Option.some.inj hget).symm
  · obtain ⟨e, he, rfl⟩ := List.mem_map.mp hg
    obtain ⟨first, hfirst, -, hof, -⟩ := hgroup e he
    exact ⟨first, hfirst, hof.symm⟩
  · rintro ⟨s, hs, rfl⟩
    obtain ⟨x, hx⟩ := Option.isSome_iff_exists.mp (agg.mem_samples_stateOf hs)
    have he := hnodup.mem_iff.mpr hx
    obtain ⟨first, hfirst, hkey, hof, -⟩ := hgroup _ he
    exact List.mem_map.mpr ⟨_, he, hof.trans (hfits.keys first hfirst s hs hkey)⟩
  · rw [forall₂_map_left_iff, forall₂_map_right_iff, forall₂_same]
    intro e he
    obtain ⟨first, -, -, hof, haggregate⟩ := hgroup e he
    rw [hof]
    exact haggregate

/-! ## 6. Runs -/

theorem accounted_of_meets {calls : List (Call M)} (h : agg.Meets window calls) :
    ∃ pending, agg.Accounted window (agg.run (agg.stateOf window) calls) pending ∧
      agg.after (agg.stateOf window) calls = agg.stateOf pending := by
  induction calls generalizing window with
  | nil => exact ⟨window, .nil window, rfl⟩
  | cons c calls ih =>
    rw [run, after, foldl_cons, ← after]
    cases c with
    | handle s =>
      obtain ⟨pending, haccounted, hafter⟩ := ih h
      rw [← handleSample_stateOf] at haccounted hafter
      exact ⟨pending, .handle haccounted, hafter⟩
    | flush now =>
      rw [Meets] at h
      by_cases hdue : agg.due (window.head?.map Sample.timestamp) window.length now
      · rw [if_pos hdue] at h
        obtain ⟨xs, hflush, haggregates⟩ := flush_stateOf h.1 hdue
        obtain ⟨pending, haccounted, hafter⟩ := ih h.2
        rw [step, hflush]
        exact ⟨pending, .flush haggregates haccounted, hafter⟩
      · rw [if_neg hdue] at h
        obtain ⟨pending, haccounted, hafter⟩ := ih h
        have hflush : agg.flush (agg.stateOf window) now = (agg.stateOf window, some []) := if_neg hdue
        rw [step, hflush]
        exact ⟨pending, .wait haccounted, hafter⟩

/-- A gauge of an integer. -/
def gaugeOf (name resourceId : Str) (volume : ℤ) : Sample Unit where
  name := name
  type := .gauge
  unit := ['%']
  volume := .int volume
  userId := none
  projectId := some ['p']
  resourceId := resourceId
  timestamp := 0
  resourceMetadata := ()

/-- Two samples at a time. -/
def two (conversion : Conversion Unit) : Aggregator Unit := .init conversion () (some 2) none none none none none

/-- A target with a name of its own. -/
def renamed : Conversion Unit := { plain with name := ⟨none, none, some ['m']⟩ }

/-- A target of the type delta. -/
def asDelta : Conversion Unit := { plain with type := some .delta }

theorem Accounted.flush_some {window pending : List (Sample M)} {trace : List (Call M × Option (List (Sample M)))}
    (h : agg.Accounted window trace pending) : ∀ e ∈ trace, e.2 ≠ none := by
  induction h with
  | nil window => exact fun e he => absurd he not_mem_nil
  | handle _ ih => exact forall_mem_cons.mpr ⟨Option.some_ne_none _, ih⟩
  | wait _ ih => exact forall_mem_cons.mpr ⟨Option.some_ne_none _, ih⟩
  | flush _ _ ih => exact forall_mem_cons.mpr ⟨Option.some_ne_none _, ih⟩

/-- What two samples and a flush put out. -/
theorem Accounted.aggregates {s t x : Sample M} {now : ℤ} {pending : List (Sample M)}
    (h : agg.Accounted [] [(.handle s, some []), (.handle t, some []), (.flush now, some [x])] pending) :
    agg.AreAggregates [s, t] [x] := by
  cases h with
  | handle h =>
    cases h with
    | handle h =>
      cases h with
      | flush haggregates _ => exact haggregates

/-- Two gauges of one group are averaged. -/
theorem AreAggregates.mean {s t x : Sample M} (h : agg.AreAggregates [s, t] [x]) (hs : s.type = .gauge) (ht : t.type = .gauge)
    (hgroup : agg.group t = agg.group s) :
    x.volume.value = ((agg.conversion.scaled s).value + (agg.conversion.scaled t).value) / 2 := by
  obtain ⟨groups, -, hgroups, haggregates⟩ := h
  obtain ⟨g, rfl⟩ := length_eq_one_iff.mp haggregates.length_eq
  have hfirst := mem_singleton.mp ((hgroups _).mpr ⟨s, mem_cons_self, rfl⟩)
  have haggregate := (forall₂_cons.mp haggregates).1
  rw [← hfirst] at haggregate
  have hmembers : agg.members [s, t] (agg.group s) = [s, t] := by simp [members, hgroup]
  have hmean := haggregate.gauge (by simp [hmembers, hs, ht])
  rw [hmembers] at hmean
  rw [hmean]
  simp [total]

end Aggregator

end Mitaka.Ceilometer
