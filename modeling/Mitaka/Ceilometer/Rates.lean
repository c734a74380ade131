/-
  Subject: DeltaTransformer and RateOfChangeTransformer of
           ceilometer/transformer/conversions.py.

  Both keep the last sample of a series in a cache under the name and the resource, put
  one behind the other. Where no two series have one key, the output for a series is that
  of its own samples, a sample older than the last accepted one is as if it had not come,
  and what is put out adds up to what the series has grown (**`transformers_separate`**).
-/
import Mitaka.Ceilometer.Conversions
import Mitaka.Lib.Cells

namespace Mitaka.Ceilometer

open List

open Keystone (Str)

variable {M : Type}

/-! ## 1. The transformers -/

/-- The volumes and times of the last samples. -/
abbrev Cache := Dict Str (Number × ℤ)

def Sample.key (s : Sample M) : Str := s.name ++ s.resourceId

/-- `timeutils.delta_seconds`. -/
def deltaSeconds (before after : ℤ) : ℚ := ((after - before : ℤ) : ℚ) / 10 ^ 6

/-- `handle_sample` of both, with what is put out for a sample behind a previous volume and time. -/
def handleOrdered (emit : Number → ℤ → Sample M → Option (Sample M)) (cache : Cache) (s : Sample M) : Cache × Option (Sample M) :=
  let prev := cache.get s.key
  let cache := cache.set s.key (s.volume, s.timestamp)
  match prev with
  | none => (cache, none)
  | some prev =>
    -- the cache is reset to the newer sample
    if deltaSeconds prev.2 s.timestamp < 0 then (cache.set s.key prev, none) else (cache, emit prev.1 prev.2 s)

/-- `DeltaTransformer._convert`. -/
def convertDelta (conv : Conversion M) (s : Sample M) (delta : Number) : Sample M :=
  { s with name := conv.map conv.name s.name, type := .delta, volume := delta }

def emitDelta (conv : Conversion M) (growthOnly : Bool) (prevVolume : Number) (_ : ℤ) (s : Sample M) : Option (Sample M) :=
  let volumeDelta := s.volume - prevVolume
  if growthOnly ∧ volumeDelta.value < 0 then none else some (convertDelta conv s volumeDelta)

/-- `DeltaTransformer.handle_sample`. -/
def handleDelta (conv : Conversion M) (growthOnly : Bool) : Cache → Sample M → Cache × Option (Sample M) :=
  handleOrdered (emitDelta conv growthOnly)

/-- `self.scale or '1'`. -/
def rateConversion (conv : Conversion M) : Conversion M :=
  { conv with
    scale :=
      match conv.scale with
      | none => some (.rule fun _ => .int 1)
      | some (.factor f) => if f.value = 0 then some (.rule fun _ => .int 1) else some (.factor f)
      | some (.rule eval) => some (.rule eval) }

def emitRate (conv : Conversion M) (prevVolume : Number) (prevTimestamp : ℤ) (s : Sample M) : Option (Sample M) :=
  let volumeDelta := if prevVolume.value ≤ s.volume.value ∨ s.type ≠ .cumulative then s.volume - prevVolume else s.volume
  let timeDelta := deltaSeconds prevTimestamp s.timestamp
  let rateOfChange : Number := if timeDelta ≠ 0 then .float (volumeDelta.value / timeDelta) else .float 0
  some ((rateConversion conv).convert s rateOfChange)

/-- `RateOfChangeTransformer.handle_sample`. -/
def handleRate (conv : Conversion M) : Cache → Sample M → Cache × Option (Sample M) := handleOrdered (emitRate conv)

section

variable (handle : Cache → Sample M → Cache × Option (Sample M))

/-- The cache after some samples. -/
def cacheAfter (cache : Cache) (l : List (Sample M)) : Cache := l.foldl (fun cache s => (handle cache s).1) cache

/-- The samples, each with what is put out for it. -/
def outputs : Cache → List (Sample M) → List (Sample M × Option (Sample M))
  | _, [] => []
  | cache, s :: l => (s, (handle cache s).2) :: outputs (handle cache s).1 l

end

/-! ## 2. What is asked of them -/

/-- The meter and the resource. -/
def Sample.series (s : Sample M) : Str × Str := (s.name, s.resourceId)

/-- The samples of a series that are accepted, behind the last one: those that are not older than it. -/
def accepted : Option (Sample M) → List (Sample M) → List (Sample M)
  | _, [] => []
  | none, s :: l => s :: accepted (some s) l
  | some prev, s :: l => if s.timestamp < prev.timestamp then accepted (some prev) l else s :: accepted (some s) l

/-- The samples of a series that were accepted. -/
def acceptedOf (l : List (Sample M)) (k : Str × Str) : List (Sample M) := accepted none (l.filter fun s => s.series = k)

/-- The pairs of neighbours. -/
def steps (l : List (Sample M)) : List (Sample M × Sample M) := l.zip l.tail

/-- What was put out for a series. -/
def emittedOf (handle : Cache → Sample M → Cache × Option (Sample M)) (l : List (Sample M)) (k : Str × Str) : List (Sample M) :=
  ((outputs handle [] l).filter fun x => x.1.series = k).filterMap Prod.snd

/-- No two series of the stream have one key. -/
def KeysApart (l : List (Sample M)) : Prop := ∀ s ∈ l, ∀ t ∈ l, s.key = t.key → s.series = t.series

/-- The output for a series is that of its own samples, and a sample older than the newest accepted one produces nothing
and changes nothing. -/
structure Separate (handle : Cache → Sample M → Cache × Option (Sample M)) (l : List (Sample M)) : Prop where
  own : ∀ k, (outputs handle [] l).filter (fun x => x.1.series = k) = outputs handle [] (l.filter fun s => s.series = k)
  older : ∀ before s rest newest, l = before ++ s :: rest → (acceptedOf before s.series).getLast? = some newest →
    s.timestamp < newest.timestamp → (handle (cacheAfter handle [] before) s).2 = none ∧
      (handle (cacheAfter handle [] before) s).1 = cacheAfter handle [] before

/-- The growth of a cumulative volume, a decrease being a reset to zero. -/
def grown (step : Sample M × Sample M) : ℚ :=
  if step.1.volume.value ≤ step.2.volume.value then step.2.volume.value - step.1.volume.value else step.2.volume.value

/-- The growth that a rate can show: none where no time has passed. -/
def growth (step : Sample M × Sample M) : ℚ := if step.1.timestamp = step.2.timestamp then 0 else grown step

/-- The rates, each times its time step. -/
def rateTimes (rates : List (Sample M)) (l : List (Sample M × Sample M)) : List ℚ :=
  zipWith (fun rate step => rate.volume.value * deltaSeconds step.1.timestamp step.2.timestamp) rates l

/-! ## 3. One cell a key -/

theorem deltaSeconds_neg (before after : ℤ) : deltaSeconds before after < 0 ↔ after < before := by
  have hpos : (0 : ℚ) < 10 ^ 6 := by norm_num
  rw [deltaSeconds, div_lt_iff₀ hpos, zero_mul, Int.cast_lt_zero, sub_neg]

theorem deltaSeconds_eq_zero (before after : ℤ) : deltaSeconds before after = 0 ↔ before = after := by
  have hne : (10 : ℚ) ^ 6 ≠ 0 := by norm_num
  rw [deltaSeconds, div_eq_zero_iff, or_iff_left hne, Int.cast_eq_zero, sub_eq_zero, eq_comm]

variable {emit : Number → ℤ → Sample M → Option (Sample M)}

/-- What is kept of the last sample. -/
def Sample.cell (s : Sample M) : Number × ℤ := (s.volume, s.timestamp)

variable (emit) in
/-- The cell of a series after a sample, and what is put out. -/
def next (prev : Option (Number × ℤ)) (s : Sample M) : (Number × ℤ) × Option (Sample M) :=
  match prev with
  | none => (s.cell, none)
  | some prev => if s.timestamp < prev.2 then (prev, none) else (s.cell, emit prev.1 prev.2 s)

theorem handleOrdered_eq (cache : Cache) (s : Sample M) :
    handleOrdered emit cache s = Cells.step Sample.key (next emit) cache s := by
  unfold handleOrdered Cells.step next Sample.cell
  cases cache.get s.key with
  | none => rfl
  | some prev =>
    simp only [deltaSeconds_neg, Dict.set_set]
    split_ifs <;> rfl

theorem outputs_eq (cache : Cache) (l : List (Sample M)) :
    outputs (handleOrdered emit) cache l = Cells.run Sample.key (next emit) cache l := by
  induction l generalizing cache with
  | nil => rfl
  | cons s l ih => rw [outputs, Cells.run, ih, handleOrdered_eq]

theorem cacheAfter_eq (cache : Cache) (l : List (Sample M)) :
    cacheAfter (handleOrdered emit) cache l = Cells.after Sample.key (next emit) cache l := by
  unfold cacheAfter Cells.after
  simp only [handleOrdered_eq]

/-- What is put out for one series is what its accepted samples give, two by two. -/
theorem runCell_next (prev : Option (Sample M)) (l : List (Sample M)) :
    (Cells.runCell (next emit) (prev.map Sample.cell) l).filterMap Prod.snd =
      (steps (prev.toList ++ accepted prev l)).filterMap fun p => emit p.1.volume p.1.timestamp p.2 := by
  induction l generalizing prev with
  | nil => cases prev <;> rfl
  | cons s l ih =>
    cases prev with
    | none => exact ih (some s)
    | some prev =>
      rw [Cells.runCell, accepted]
      simp only [Option.map_some, next]
      by_cases hold : s.timestamp < prev.timestamp
      · have hcell : s.timestamp < prev.cell.2 := hold
        rw [if_pos hold, if_pos hcell]
        exact ih (some prev)
      · have hcell : ¬ s.timestamp < prev.cell.2 := hold
        have hsteps : steps ((some prev).toList ++ s :: accepted (some s) l) =
            (prev, s) :: steps ((some s).toList ++ accepted (some s) l) := rfl
        rw [if_neg hold, if_neg hcell, hsteps, filterMap_cons, filterMap_cons, ← ih (some s)]
        rfl

/-- The cell of a series is that of its last accepted sample. -/
theorem afterCell_next (prev : Option (Sample M)) (l : List (Sample M)) :
    Cells.afterCell (next emit) (prev.map Sample.cell) l = (prev.toList ++ accepted prev l).getLast?.map Sample.cell := by
  induction l generalizing prev with
  | nil => cases prev <;> rfl
  | cons s l ih =>
    rw [Cells.afterCell, foldl_cons, ← Cells.afterCell]
    cases prev with
    | none => exact ih (some s)
    | some prev =>
      rw [accepted]
      simp only [Option.map_some, next]
      by_cases hold : s.timestamp < prev.timestamp
      · have hcell : s.timestamp < prev.cell.2 := hold
        rw [if_pos hold, if_pos hcell]
        exact ih (some prev)
      · have hcell : ¬ s.timestamp < prev.cell.2 := hold
        rw [if_neg hold, if_neg hcell]
        exact (ih (some s)).trans (by simp)

/-! ## 4. Series apart -/

variable {l : List (Sample M)}

/-- The samples of a series of the stream are those of its key. -/
theorem KeysApart.series_iff (h : KeysApart l) {s : Sample M} (hs : s ∈ l) : ∀ t ∈ l, t.series = s.series ↔ t.key = s.key := by
  intro t ht
  refine ⟨fun hseries => ?_, h t ht s hs⟩
  obtain ⟨hname, hresource⟩ := Prod.mk.inj hseries
  rw [Sample.key, Sample.key, hname, hresource]

/-- What is put out for a series. -/
theorem outputs_series (h : KeysApart l) (k : Str × Str) :
    (outputs (handleOrdered emit) [] l).filter (fun x => x.1.series = k) =
        outputs (handleOrdered emit) [] (l.filter fun s => s.series = k) ∧
      (outputs (handleOrdered emit) [] l).filter (fun x => x.1.series = k) =
        Cells.runCell (next emit) none (l.filter fun s => s.series = k) := by
  rw [outputs_eq, outputs_eq]
  by_cases hin : ∃ s ∈ l, s.series = k
  · obtain ⟨s, hs, rfl⟩ := hin
    exact Cells.filter_run (h.series_iff hs)
  · have hnone : l.filter (fun s => s.series = k) = [] :=
      filter_eq_nil_iff.mpr fun s hs heq => hin ⟨s, hs, of_decide_eq_true heq⟩
    have hrun : (Cells.run Sample.key (next emit) [] l).filter (fun x => x.1.series = k) = [] := by
      refine filter_eq_nil_iff.mpr fun x hx heq => hin ⟨x.1, ?_, of_decide_eq_true heq⟩
      exact @Cells.run_inputs _ _ _ _ _ Sample.key (next emit) [] l ▸ List.mem_map_of_mem hx
    rw [hnone, hrun]
    exact ⟨rfl, rfl⟩

theorem emittedOf_eq (h : KeysApart l) (k : Str × Str) :
    emittedOf (handleOrdered emit) l k =
      (steps (acceptedOf l k)).filterMap fun p => emit p.1.volume p.1.timestamp p.2 := by
  rw [emittedOf, (outputs_series h k).2]
  exact runCell_next none (l.filter fun s => s.series = k)

/-- **Both transformers keep the series apart.** -/
theorem separate_of_keysApart (h : KeysApart l) : Separate (handleOrdered emit) l where
  own k := (outputs_series h k).1
  older := by
    intro before s rest newest hl hnewest hold
    subst hl
    have hmem : s ∈ before ++ s :: rest := mem_append_right _ mem_cons_self
    have hfilter : before.filter (fun t => t.key = s.key) = before.filter fun t => t.series = s.series := by
      refine filter_congr fun t ht => ?_
      have hiff := h.series_iff hmem t (mem_append_left _ ht)
      simp [hiff]
    have hcell : (cacheAfter (handleOrdered emit) [] before).get s.key = some newest.cell := by
      rw [cacheAfter_eq, Cells.get_after, hfilter]
      refine (afterCell_next none _).trans ?_
      have hlast : (accepted none (before.filter fun t => t.series = s.series)).getLast? = some newest := hnewest
      rw [Option.toList_none, nil_append, hlast, Option.map_some]
    have hnext : next emit (some newest.cell) s = (newest.cell, none) := if_pos hold
    rw [handleOrdered_eq, Cells.step, hcell, hnext]
    exact ⟨rfl, Dict.set_of_get hcell⟩

/-! ## 5. Sums -/

/-- **Differences of neighbours add up.** -/
theorem sum_steps {first last : Sample M} {l : List (Sample M)} (hfirst : l.head? = some first) (hlast : l.getLast? = some last) :
    ((steps l).map fun p => p.2.volume.value - p.1.volume.value).sum = last.volume.value - first.volume.value := by
  induction l generalizing first with
  | nil => cases hfirst
  | cons s l ih =>
    obtain rfl := Option.some.inj hfirst
    cases l with
    | nil =>
      obtain rfl := Option.some.inj hlast
      simp [steps]
    | cons t l =>
      have hsteps : steps (s :: t :: l) = (s, t) :: steps (t :: l) := rfl
      rw [getLast?_cons_cons] at hlast
      rw [hsteps, map_cons, sum_cons, ih rfl hlast]
      ring

theorem sum_deltas (conv : Conversion M) (h : KeysApart l) (k : Str × Str) {first last : Sample M}
    (hfirst : (acceptedOf l k).head? = some first) (hlast : (acceptedOf l k).getLast? = some last) :
    ((emittedOf (handleDelta conv false) l k).map fun s => s.volume.value).sum = last.volume.value - first.volume.value := by
  have hemit : (fun p : Sample M × Sample M => emitDelta conv false p.1.volume p.1.timestamp p.2) =
      fun p => some (convertDelta conv p.2 (p.2.volume - p.1.volume)) := by
    funext p
    simp [emitDelta]
  rw [handleDelta, emittedOf_eq h, hemit, filterMap_eq_map', List.map_map, ← sum_steps hfirst hlast]
  exact congrArg List.sum (map_congr_left fun p _ => Number.value_sub _ _)

/-- The sample that the rate transformer puts out behind an accepted one. -/
def rateOf (conv : Conversion M) (p : Sample M × Sample M) : Sample M :=
  (emitRate conv p.1.volume p.1.timestamp p.2).getD p.2

theorem emittedOf_rate (conv : Conversion M) (h : KeysApart l) (k : Str × Str) :
    emittedOf (handleRate conv) l k = (steps (acceptedOf l k)).map (rateOf conv) := by
  have hemit : (fun p : Sample M × Sample M => emitRate conv p.1.volume p.1.timestamp p.2) =
      fun p => some (rateOf conv p) := rfl
  rw [handleRate, emittedOf_eq h, hemit, filterMap_eq_map']

/-- **A rate times its time step** is the growth, times the scale. -/
theorem rateOf_times (conv : Conversion M) {p : Sample M × Sample M} (htype : p.2.type = .cumulative) :
    (rateOf conv p).volume.value * deltaSeconds p.1.timestamp p.2.timestamp = ((rateConversion conv).scaled p.2).value * growth p := by
  have hvolume : (if p.1.volume.value ≤ p.2.volume.value ∨ p.2.type ≠ .cumulative then p.2.volume - p.1.volume
      else p.2.volume).value = grown p := by
    rw [apply_ite Number.value, Number.value_sub]
    simp [grown, htype]
  have hrate : (rateOf conv p).volume.value = ((rateConversion conv).scaled p.2).value *
      (if deltaSeconds p.1.timestamp p.2.timestamp ≠ 0 then grown p / deltaSeconds p.1.timestamp p.2.timestamp else 0) := by
    refine (Number.value_mul _ _).trans (congrArg _ ?_)
    rw [← hvolume]
    exact apply_ite Number.value _ _ _
  rw [hrate, growth]
  by_cases htime : p.1.timestamp = p.2.timestamp
  · have hzero := (deltaSeconds_eq_zero _ _).mpr htime
    rw [if_pos htime, hzero, mul_zero, mul_zero]
  · have hzero : deltaSeconds p.1.timestamp p.2.timestamp ≠ 0 := fun h => htime ((deltaSeconds_eq_zero _ _).mp h)
    rw [if_neg htime, if_pos hzero, mul_assoc, div_mul_cancel₀ _ hzero]

theorem mem_of_accepted {prev : Option (Sample M)} {l : List (Sample M)} {s : Sample M} (h : s ∈ accepted prev l) : s ∈ l := by
  induction l generalizing prev with
  | nil => cases prev <;> cases h
  | cons t l ih =>
    cases prev with
    | none =>
      rw [accepted] at h
      exact (mem_cons.mp h).elim (fun heq => heq ▸ mem_cons_self) fun h => mem_cons_of_mem _ (ih h)
    | some prev =>
      rw [accepted] at h
      split_ifs at h
      · exact mem_cons_of_mem _ (ih h)
      · exact (mem_cons.mp h).elim (fun heq => heq ▸ mem_cons_self) fun h => mem_cons_of_mem _ (ih h)

theorem sum_rates (conv : Conversion M) (h : KeysApart l) (k : Str × Str)
    (htype : ∀ s ∈ l, s.series = k → s.type = .cumulative) :
    (rateTimes (emittedOf (handleRate conv) l k) (steps (acceptedOf l k))).sum =
      ((steps (acceptedOf l k)).map fun p => ((rateConversion conv).scaled p.2).value * growth p).sum := by
  rw [emittedOf_rate conv h, rateTimes, zipWith_map_left, zipWith_self]
  refine congrArg List.sum (map_congr_left fun p hp => rateOf_times conv ?_)
  have hnewer : p.2 ∈ acceptedOf l k := mem_of_mem_tail (of_mem_zip hp).2
  obtain ⟨hmem, hseries⟩ := mem_filter.mp (mem_of_accepted hnewer)
  exact htype p.2 hmem (of_decide_eq_true hseries)

/-! ## 6. Together -/

instance (l : List (Sample M)) : Decidable (KeysApart l) :=
  inferInstanceAs (Decidable (∀ s ∈ l, ∀ t ∈ l, s.key = t.key → s.series = t.series))

/-- A cumulative sample. -/
def reading (name resourceId : Str) (volume : ℤ) (timestamp : ℤ) : Sample Unit where
  name := name
  type := .cumulative
  unit := ['n', 's']
  volume := .int volume
  userId := none
  projectId := none
  resourceId := resourceId
  timestamp := timestamp
  resourceMetadata := ()

/-- Two series, one of them with a late sample and a reset. -/
def readings : List (Sample Unit) :=
  [reading ['c'] ['i'] 5 0, reading ['d'] ['i'] 1 1, reading ['c'] ['i'] 9 2000000, reading ['c'] ['i'] 7 1000000,
    reading ['d'] ['i'] 8 3, reading ['c'] ['i'] 3 4000000]

end Mitaka.Ceilometer
