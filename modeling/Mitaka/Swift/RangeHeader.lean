/-
  Subject: What a `Range` header denotes: swift/common/swob.py, `Range`;
           swift/proxy/controllers/base.py, `ResumingGetter.fast_forward`.

  `int()` reads a sign, so that the header `bytes=--5` is accepted as a suffix of -5 bytes;
  `ranges_for_length` then starts it behind the end of the content. `fast_forward` tests
  its bounds for truth, so that a bound of 0 counts as none.
-/
import Mitaka.Swift.Range

namespace Mitaka.Swift

open List

/-! ## 1. What is denoted -/

/-- A position that a range denotes in a content. -/
def SpecDenotes (length : Int) : RangeSpec → Int → Prop
  | (some first, some last), i => first ≤ i ∧ i ≤ last ∧ i < length
  | (some first, none), i => first ≤ i ∧ i < length
  | (none, some suffix), i => 0 ≤ i ∧ length - suffix ≤ i ∧ i < length
  | (none, none), _ => False

/-- There is such a position, in a content that is not empty. -/
def satisfiable (length : Int) : RangeSpec → Bool
  | (some first, _) => first < length
  | (none, some suffix) => 0 < suffix
  | (none, none) => false

/-- A suffix whose length is negative. -/
def NegativeSuffix (spec : RangeSpec) : Prop := ∃ n < 0, spec = (none, some n)

/-- A pair of bounds of a content, with the end behind the last byte, and what is in it. -/
def Exactly (length : Int) (spec : RangeSpec) (p : Int × Int) : Prop :=
  0 ≤ p.1 ∧ p.1 < p.2 ∧ p.2 ≤ length ∧ ∀ i, p.1 ≤ i ∧ i < p.2 ↔ SpecDenotes length spec i

variable {length : Int} {spec : RangeSpec}

/-- **One range of a content**: nothing where it is not satisfiable, and else what it denotes. -/
theorem specForLength_spec (h : SpecParsed spec) (hneg : ¬ NegativeSuffix spec)
    (hpos : 1 ≤ length) :
    match specForLength length spec with
    | none => satisfiable length spec = false
    | some p => satisfiable length spec = true ∧ Exactly length spec p := by
  cases h with
  | @bounded first last h0 hle =>
    simp only [specForLength, satisfiable]
    by_cases hlt : first < length
    · rw [if_pos hlt]
      refine ⟨decide_eq_true hlt, h0, ?_, min_le_right _ _, fun i => ?_⟩
      · exact lt_min (by omega) hlt
      · simp only [SpecDenotes, lt_min_iff]
        omega
    · rw [if_neg hlt]
      exact decide_eq_false hlt
  | @«from» first h0 =>
    simp only [specForLength, satisfiable]
    by_cases hlt : first < length
    · rw [if_pos hlt]
      exact ⟨decide_eq_true hlt, h0, hlt, le_rfl, fun i => Iff.rfl⟩
    · rw [if_neg hlt]
      exact decide_eq_false hlt
  | suffix n =>
    have hn : 0 ≤ n := not_lt.mp fun hlt => hneg ⟨n, hlt, rfl⟩
    simp only [specForLength, satisfiable]
    by_cases hzero : n = 0
    · rw [if_pos hzero]
      exact decide_eq_false (by omega)
    · rw [if_neg hzero]
      by_cases hlong : n > length
      · rw [if_pos hlong]
        refine ⟨decide_eq_true (by omega), le_rfl, by omega, le_rfl, fun i => ?_⟩
        simp only [SpecDenotes]
        omega
      · rw [if_neg hlong]
        refine ⟨decide_eq_true (by omega), by omega, by omega, le_rfl, fun i => ?_⟩
        simp only [SpecDenotes]
        omega

/-! ## 2. The ranges of a content -/

/-- The limits on the ranges of one request. -/
def Egregious (all : List (Int × Int)) : Prop :=
  MAX_RANGES < all.length ∨ MAX_RANGE_OVERLAPS < ((pairs all).filter overlap).length ∨
    (all.zip all.tail).any (fun p => pairGt p.1 p.2) = true ∧ MAX_NONASCENDING_RANGES ≤ all.length

instance : DecidablePred Egregious := fun all => by unfold Egregious; infer_instance

theorem rangesForLength_eq (length : Int) {ranges : List RangeSpec} (hne : ranges ≠ []) :
    rangesForLength (some length) ranges =
      if Egregious (ranges.filterMap (specForLength length)) then some []
      else some (ranges.filterMap (specForLength length)) := by
  simp only [rangesForLength, if_neg hne]
  generalize ranges.filterMap (specForLength length) = all
  by_cases hmany : MAX_RANGES < all.length
  · have hlimit : Egregious all := Or.inl hmany
    rw [if_pos hmany, if_pos hlimit]
  rw [if_neg hmany]
  by_cases hoverlap : MAX_RANGE_OVERLAPS < ((pairs all).filter overlap).length
  · have hlimit : Egregious all := Or.inr (Or.inl hoverlap)
    rw [if_pos hoverlap, if_pos hlimit]
  rw [if_neg hoverlap]
  have hiff : ((all.zip all.tail).any (fun p => pairGt p.1 p.2) && decide (all.length ≥ MAX_NONASCENDING_RANGES)) = true ↔
      Egregious all := by
    rw [Bool.and_eq_true, decide_eq_true_eq, Egregious, or_iff_right hmany, or_iff_right hoverlap]
  exact if_congr hiff rfl rfl

theorem exists_of_forall₂ {α β : Type} {R : α → β → Prop} {l : List α} {m : List β} (h : Forall₂ R l m) {b : β}
    (hb : b ∈ m) : ∃ a, R a b := by
  induction h with
  | nil => exact nomatch hb
  | cons hab _ ih =>
    rcases mem_cons.mp hb with rfl | hb
    · exact ⟨_, hab⟩
    · exact ih hb

/-- The ranges of a content are what their specifiers denote, in the order of the header. -/
theorem forall₂_filterMap (hpos : 1 ≤ length) {ranges : List RangeSpec}
    (h : ∀ r ∈ ranges, SpecParsed r) (hneg : ∀ r ∈ ranges, ¬ NegativeSuffix r) :
    Forall₂ (Exactly length) (ranges.filter (satisfiable length)) (ranges.filterMap (specForLength length)) := by
  induction ranges with
  | nil => exact Forall₂.nil
  | cons r ranges ih =>
    have hrest := ih (fun s hs => h s (mem_cons_of_mem _ hs)) fun s hs => hneg s (mem_cons_of_mem _ hs)
    have hone := specForLength_spec (h r mem_cons_self) (hneg r mem_cons_self) hpos
    cases hspec : specForLength length r with
    | none =>
      rw [hspec] at hone
      rw [filterMap_cons_none hspec, filter_cons_of_neg (by simp [hone])]
      exact hrest
    | some p =>
      rw [hspec] at hone
      rw [filterMap_cons_some hspec, filter_cons_of_pos hone.1]
      exact Forall₂.cons hone.2 hrest

/-- What `ranges_for_length` should give: one pair of bounds within the content for every
    satisfiable specifier, in order, unless the limits reject the whole set. -/
def RangesMeet (length : Int) (ranges : List RangeSpec) : Prop :=
  ∃ out, rangesForLength (some length) ranges = some out ∧
    (out = [] ∧ Egregious (ranges.filterMap (specForLength length)) ∨
      Forall₂ (Exactly length) (ranges.filter fun r => satisfiable length r) out)

/-- **Ranges of a content.** Every header that is accepted is printed and read back. Its
    ranges in a content are right if and only if no specifier is a suffix of negative
    length, or the limits reject the set. -/
theorem ranges_for_length_iff {header : Str} {ranges : List RangeSpec} (h : Range.ofStr header = some ranges)
    {length : Int} (hpos : 1 ≤ length) :
    RangesMeet length ranges ∧ Range.ofStr (Range.str ranges) = some ranges ↔
      (∀ r ∈ ranges, ¬ NegativeSuffix r) ∨ Egregious (ranges.filterMap (specForLength length)) := by
  obtain ⟨hne, hparsed⟩ := parsed_of_ofStr h
  refine (and_iff_left (Range.ofStr_str_of_parsed hne hparsed)).trans ?_
  rw [RangesMeet, rangesForLength_eq length hne]
  by_cases hlimit : Egregious (ranges.filterMap (specForLength length))
  · rw [if_pos hlimit]
    exact iff_of_true ⟨[], rfl, Or.inl ⟨rfl, hlimit⟩⟩ (Or.inr hlimit)
  · rw [if_neg hlimit]
    constructor
    · rintro ⟨out, hout, hmeet⟩
      obtain rfl := Option.some.inj hout
      refine Or.inl fun r hr ⟨n, hn, heq⟩ => ?_
      have hall := hmeet.resolve_left fun hl => hlimit hl.2
      -- the pair of such a suffix starts behind the content
      have hpair : (length - n, length) ∈ ranges.filterMap (specForLength length) := by
        refine mem_filterMap.mpr ⟨r, hr, ?_⟩
        rw [heq, specForLength, if_neg hn.ne, if_neg (by omega)]
      obtain ⟨s, hs⟩ := exists_of_forall₂ hall hpair
      have hlt : length - n < length := hs.2.1
      omega
    · intro hneg
      exact ⟨_, rfl, Or.inr (forall₂_filterMap hpos hparsed (hneg.resolve_right hlimit))⟩

/-- Of three specifiers two are left in ten bytes. -/
theorem ranges_for_length_iff_three : RangesMeet 10 [(some 2, some 5), (none, some 20), (some 10, none)] := by
  have hread : Range.ofStr "bytes=2-5,-20,10-".toList = some [(some 2, some 5), (none, some 20), (some 10, none)] := by
    decide +kernel
  have hneg : ∀ r ∈ [(some 2, some 5), (none, some 20), ((some 10, none) : RangeSpec)], ¬ NegativeSuffix r := by
    rintro r hr ⟨n, hn, rfl⟩
    simp only [mem_cons, Prod.mk.injEq, Option.some.injEq, reduceCtorEq, false_and, true_and, not_mem_nil,
      false_or, or_false] at hr
    omega
  exact ((ranges_for_length_iff hread (by decide)).mpr (Or.inl hneg)).1

/-- **A suffix of -5 bytes** is accepted, and is not empty: it ends before it starts. -/
theorem negative_suffix_accepted : Range.ofStr "bytes=--5".toList = some [(none, some (-5))] ∧
    rangesForLength (some 10) [(none, some (-5))] = some [(15, 10)] := by
  decide +kernel

/-! ## 3. `fast_forward` -/

inductive FastForwardError
  | valueError
  | rangeAlreadyComplete
  | requestedRangeNotSatisfiable
  deriving DecidableEq

/-- `if end`. -/
def pyTrue (bound : Option Int) : Bool := bound.any fun n => n ≠ 0

/-- `begin == end + 1`, for an `end` that is not `None`. -/
def justBehind (begin stop : Option Int) : Bool := decide (begin = stop.map (· + 1))

/-- `begin > end`, in which `None` is below every number. -/
def pyAbove (begin stop : Option Int) : Bool :=
  match begin, stop with
  | some b, some e => decide (e < b)
  | some _, none => true
  | none, _ => false

/-- The new first range. -/
def fastForwardSpec (numBytes : ℕ) (spec : RangeSpec) : Except FastForwardError RangeSpec :=
  let (begin, stop) :=
    match spec with
    | (none, stop) => (none, stop.map (· - (numBytes : Int)))
    | (some first, stop) => (some (first + (numBytes : Int)), stop)
  if pyTrue stop && justBehind begin stop then .error .rangeAlreadyComplete
  else if pyTrue stop && pyAbove begin stop then .error .requestedRangeNotSatisfiable
  else if pyTrue stop && pyTrue begin then .ok (begin, stop)
  else if pyTrue stop then .ok (none, stop)
  else .ok (begin, none)

/-- `fast_forward`, on the `Range` header of the request. -/
def fastForward (numBytes : ℕ) (header : Option Str) : Except FastForwardError Str :=
  match header with
  | none => .ok (RANGE_UNIT ++ intStr numBytes ++ ['-'])
  | some header =>
    match Range.ofStr header with
    | some (spec :: rest) => (fastForwardSpec numBytes spec).map fun spec => Range.str (spec :: rest)
    | _ => .error .valueError

/-- How many bytes a bounded range has, of a content that is long enough. -/
def specSize : RangeSpec → Option Int
  | (some first, some last) => some (last - first + 1)
  | (none, some suffix) => some suffix
  | (_, none) => none

/-- The first position of a range. -/
def firstPosition (length : Int) : RangeSpec → Int
  | (some first, _) => first
  | (none, some suffix) => max 0 (length - suffix)
  | (none, none) => 0

/-- What `fast_forward` should do: give a header whose first range denotes what is left
    behind `numBytes` bytes, the others as they are; raise when nothing of a bounded range
    is left, or less than nothing. -/
def FastForwardMeets (length : Int) (numBytes : ℕ) (spec : RangeSpec) (rest : List RangeSpec) :
    Except FastForwardError Str → Prop
  | .ok header => (∀ n ∈ specSize spec, (numBytes : Int) < n) ∧ ∃ spec', Range.ofStr header = some (spec' :: rest) ∧
      ∀ i, SpecDenotes length spec' i ↔ SpecDenotes length spec i ∧ firstPosition length spec + numBytes ≤ i
  | .error .rangeAlreadyComplete => specSize spec = some (numBytes : Int)
  | .error .requestedRangeNotSatisfiable => ∃ n ∈ specSize spec, n < numBytes
  | .error .valueError => False

/-- Where it does: there is no last position; or the last position is not 0, and the bounds
    are counted from a position that is not 0, unless the content ends before the last
    position; or the suffix is longer than what was read, and the content as long as the
    suffix, unless nothing was read or there is nothing to read. Of the first byte alone
    only a content without a second one is right, if nothing was read. -/
def FastForwards (length : Int) (numBytes : ℕ) : RangeSpec → Prop
  | (some _, none) => True
  | (some first, some last) =>
    if last = 0 then numBytes = 0 ∧ length ≤ 1 else first + numBytes ≠ 0 ∨ length ≤ last
  | (none, some suffix) => (numBytes : Int) < suffix ∧ (suffix ≤ length ∨ numBytes = 0 ∨ length = 0)
  | (none, none) => False

theorem fastForwardSpec_bounded (n : ℕ) (first : Int) {last : Int} (h : last ≠ 0) :
    fastForwardSpec n (some first, some last) =
      if first + n = last + 1 then .error .rangeAlreadyComplete
      else if last < first + n then .error .requestedRangeNotSatisfiable
      else if first + n ≠ 0 then .ok (some (first + n), some last)
      else .ok (none, some last) := by
  simp only [fastForwardSpec, pyTrue, justBehind, pyAbove, Option.any_some, Option.map_some, Option.some.injEq,
    decide_eq_true h, Bool.true_and, decide_eq_true_eq, ite_true]

theorem fastForwardSpec_zero (n : ℕ) (first : Int) :
    fastForwardSpec n (some first, some 0) = .ok (some (first + n), none) := by
  simp [fastForwardSpec, pyTrue]

theorem fastForwardSpec_from (n : ℕ) (first : Int) :
    fastForwardSpec n (some first, none) = .ok (some (first + n), none) := by
  simp [fastForwardSpec, pyTrue]

theorem fastForwardSpec_suffix (n : ℕ) (suffix : Int) :
    fastForwardSpec n (none, some suffix) = .ok (none, if suffix - n = 0 then none else some (suffix - n)) := by
  by_cases h : suffix - n = 0
  · simp [fastForwardSpec, pyTrue, h]
  · simp [fastForwardSpec, pyTrue, justBehind, pyAbove, h]

variable {rest : List RangeSpec}

/-- What is asked of a header that was written. -/
theorem fastForwardMeets_ok {n : ℕ} {spec spec' : RangeSpec}
    (h : SpecParsed spec') (hrest : ∀ r ∈ rest, SpecParsed r) :
    FastForwardMeets length n spec rest (.ok (Range.str (spec' :: rest))) ↔ (∀ m ∈ specSize spec, (n : Int) < m) ∧
      ∀ i, SpecDenotes length spec' i ↔ SpecDenotes length spec i ∧ firstPosition length spec + n ≤ i := by
  have hread : Range.ofStr (Range.str (spec' :: rest)) = some (spec' :: rest) :=
    Range.ofStr_str_of_parsed (cons_ne_nil _ _) (forall_mem_cons.mpr ⟨h, hrest⟩)
  refine and_congr_right fun _ => ⟨fun ⟨s, hs, hd⟩ => ?_, fun hd => ⟨spec', hread, hd⟩⟩
  obtain rfl : spec' = s := (List.cons.inj (Option.some.inj (hread.symm.trans hs))).1
  exact hd

/-- **One range is resumed right exactly there.** -/
theorem fastForwardSpec_iff (hlength : 0 ≤ length) (n : ℕ) (h : SpecParsed spec)
    (hrest : ∀ r ∈ rest, SpecParsed r) :
    FastForwardMeets length n spec rest ((fastForwardSpec n spec).map fun s => Range.str (s :: rest)) ↔
      FastForwards length n spec := by
  cases h with
  | @«from» first h0 =>
    rw [fastForwardSpec_from, Except.map, fastForwardMeets_ok (.from (by omega)) hrest]
    refine iff_of_true ⟨fun m hm => (nomatch hm), fun i => ?_⟩ trivial
    simp only [SpecDenotes, firstPosition]
    omega
  | @bounded first last h0 hle =>
    by_cases hzero : last = 0
    · -- the last position counts as none
      subst hzero
      rw [fastForwardSpec_zero, Except.map, fastForwardMeets_ok (.from (by omega)) hrest]
      simp only [FastForwards, if_true, specSize, Option.mem_some_iff, forall_eq', SpecDenotes, firstPosition]
      refine ⟨fun ⟨hsize, hall⟩ => ⟨by omega, not_lt.mp fun hlt => ?_⟩, fun ⟨hn, hshort⟩ => ⟨by omega, fun i => ?_⟩⟩
      · have hone := hall 1
        omega
      · omega
    · rw [fastForwardSpec_bounded n first hzero]
      simp only [FastForwards, if_neg hzero]
      by_cases hcomplete : first + n = last + 1
      · rw [if_pos hcomplete]
        refine iff_of_true ?_ (Or.inl (by omega))
        simp only [Except.map, FastForwardMeets, specSize, Option.some.injEq]
        omega
      rw [if_neg hcomplete]
      by_cases hbehind : last < first + n
      · rw [if_pos hbehind]
        refine iff_of_true ?_ (Or.inl (by omega))
        simp only [Except.map, FastForwardMeets, specSize, Option.mem_some_iff, exists_eq_left']
        omega
      rw [if_neg hbehind]
      by_cases hbegin : first + n = 0
      · -- the first position counts as none, and the last one as the length of a suffix
        rw [if_neg (not_not.mpr hbegin), Except.map, fastForwardMeets_ok (.suffix _) hrest]
        simp only [specSize, Option.mem_some_iff, forall_eq', SpecDenotes, firstPosition]
        refine ⟨fun ⟨_, hall⟩ => Or.inr (not_lt.mp fun hlt => ?_), fun hshort => ⟨by omega, fun i => ?_⟩⟩
        · have hfirst := hall 0
          omega
        · omega
      · rw [if_pos hbegin, Except.map, fastForwardMeets_ok (.bounded (by omega) (by omega)) hrest]
        refine iff_of_true ⟨fun m hm => ?_, fun i => ?_⟩ (Or.inl hbegin)
        · simp only [specSize, Option.mem_some_iff] at hm
          omega
        · simp only [SpecDenotes, firstPosition]
          omega
  | suffix suffix =>
    rw [fastForwardSpec_suffix, Except.map]
    simp only [FastForwards]
    by_cases hlt : (n : Int) < suffix
    · rw [if_neg (by omega), fastForwardMeets_ok (.suffix _) hrest]
      simp only [specSize, Option.mem_some_iff, forall_eq', SpecDenotes, firstPosition, hlt, true_and]
      refine ⟨fun hall => ?_, fun hlong i => ?_⟩
      · by_contra hshort
        have hfirst := hall (max 0 (length - (suffix - n)))
        omega
      · omega
    · refine iff_of_false (fun hmeet => ?_) fun hc => hlt hc.1
      exact hlt (hmeet.1 suffix rfl)

/-- What is denoted starts at the first position, and has no holes. -/
theorem SpecDenotes.firstPosition_le {length i : Int} (h : SpecDenotes length spec i) :
    firstPosition length spec ≤ i := by
  match spec, h with
  | (some _, some _), h => exact h.1
  | (some _, none), h => exact h.1
  | (none, some _), h => exact max_le h.1 h.2.1

theorem SpecDenotes.of_le {length i j : Int} (h : SpecDenotes length spec i)
    (hj : firstPosition length spec ≤ j) (hle : j ≤ i) : SpecDenotes length spec j := by
  match spec, h with
  | (some _, some _), h => exact ⟨hj, hle.trans h.2.1, hle.trans_lt h.2.2⟩
  | (some _, none), h => exact ⟨hj, hle.trans_lt h.2⟩
  | (none, some _), h => exact ⟨(max_le_iff.mp hj).1, (max_le_iff.mp hj).2, hle.trans_lt h.2.2⟩

/-- What is left is counted from where the reading stopped. -/
theorem firstPosition_left {n : ℕ} {spec spec' : RangeSpec}
    (h : ∀ i, SpecDenotes length spec' i ↔ SpecDenotes length spec i ∧ firstPosition length spec + n ≤ i) {i : Int}
    (hi : SpecDenotes length spec' i) : firstPosition length spec' = firstPosition length spec + n := by
  obtain ⟨hspec, hle⟩ := (h i).mp hi
  refine le_antisymm ?_ ?_
  · exact SpecDenotes.firstPosition_le ((h _).mpr ⟨hspec.of_le (by omega) hle, le_rfl⟩)
  · exact ((h _).mp (hi.of_le le_rfl hi.firstPosition_le)).2

/-- **Going forward twice** leaves what going forward at once does. -/
theorem left_left {a b : ℕ} {spec spec₁ spec₂ spec₃ : RangeSpec}
    (h₁ : ∀ i, SpecDenotes length spec₁ i ↔ SpecDenotes length spec i ∧ firstPosition length spec + a ≤ i)
    (h₂ : ∀ i, SpecDenotes length spec₂ i ↔ SpecDenotes length spec₁ i ∧ firstPosition length spec₁ + b ≤ i)
    (h₃ : ∀ i, SpecDenotes length spec₃ i ↔ SpecDenotes length spec i ∧ firstPosition length spec + (a + b : ℕ) ≤ i) (i : Int) :
    SpecDenotes length spec₂ i ↔ SpecDenotes length spec₃ i := by
  rw [h₂, h₃]
  constructor
  · rintro ⟨hi, hle⟩
    rw [firstPosition_left h₁ hi] at hle
    exact ⟨((h₁ i).mp hi).1, by push_cast; omega⟩
  · rintro ⟨hi, hle⟩
    push_cast at hle
    have hi₁ : SpecDenotes length spec₁ i := (h₁ i).mpr ⟨hi, by omega⟩
    rw [firstPosition_left h₁ hi₁]
    exact ⟨hi₁, by omega⟩

theorem fastForward_some {header : Str}
    (h : Range.ofStr header = some (spec :: rest)) (n : ℕ) :
    fastForward n (some header) = (fastForwardSpec n spec).map fun s => Range.str (s :: rest) := by
  rw [fastForward, h]

/-- **`fast_forward` is right exactly there**, for every header, every number of bytes and
    every length of the object. Where it is right at each step, going forward twice leaves
    what going forward at once does. -/
theorem fast_forward_iff {header : Str} {spec : RangeSpec} {rest : List RangeSpec}
    (h : Range.ofStr header = some (spec :: rest)) {length : Int} (hlength : 0 ≤ length) :
    (∀ n : ℕ, FastForwardMeets length n spec rest (fastForward n (some header)) ↔ FastForwards length n spec) ∧
    ∀ (a b : ℕ) (header₁ header₂ header₃ : Str) (spec₁ spec₂ spec₃ : RangeSpec),
      fastForward a (some header) = .ok header₁ → Range.ofStr header₁ = some (spec₁ :: rest) →
      fastForward b (some header₁) = .ok header₂ → Range.ofStr header₂ = some (spec₂ :: rest) →
      fastForward (a + b) (some header) = .ok header₃ → Range.ofStr header₃ = some (spec₃ :: rest) →
      FastForwards length a spec → FastForwards length b spec₁ → FastForwards length (a + b) spec →
      ∀ i, SpecDenotes length spec₂ i ↔ SpecDenotes length spec₃ i := by
  have hiff : ∀ {header : Str} {spec : RangeSpec}, Range.ofStr header = some (spec :: rest) → ∀ n : ℕ,
      FastForwardMeets length n spec rest (fastForward n (some header)) ↔ FastForwards length n spec := by
    intro header spec h n
    obtain ⟨hspec, hrest⟩ := forall_mem_cons.mp (parsed_of_ofStr h).2
    rw [fastForward_some h]
    exact fastForwardSpec_iff hlength n hspec hrest
  -- what a header that was written denotes
  have hleft : ∀ {header header' : Str} {spec spec' : RangeSpec} {n : ℕ}, Range.ofStr header = some (spec :: rest) →
      fastForward n (some header) = .ok header' → Range.ofStr header' = some (spec' :: rest) →
      FastForwards length n spec →
      ∀ i, SpecDenotes length spec' i ↔ SpecDenotes length spec i ∧ firstPosition length spec + n ≤ i := by
    intro header header' spec spec' n h hrun hread hc
    obtain ⟨-, s, hs, hd⟩ := hrun ▸ (hiff h n).mpr hc
    obtain rfl : s = spec' := (List.cons.inj (Option.some.inj (hs.symm.trans hread))).1
    exact hd
  refine ⟨hiff h, fun a b header₁ header₂ header₃ spec₁ spec₂ spec₃ hrun₁ hread₁ hrun₂ hread₂ hrun₃ hread₃ hc₁ hc₂ hc₃ => ?_⟩
  exact left_left (hleft h hrun₁ hread₁ hc₁) (hleft hread₁ hrun₂ hread₂ hc₂) (hleft h hrun₃ hread₃ hc₃)

/-- Three bytes into two ranges. -/
theorem fast_forward_iff_resumed :
    FastForwardMeets 100 3 (some 10, some 19) [(some 30, none)] (fastForward 3 (some "bytes=10-19,30-".toList)) := by
  have hread : Range.ofStr "bytes=10-19,30-".toList = some [(some 10, some 19), (some 30, none)] := by decide +kernel
  exact ((fast_forward_iff hread (by decide)).1 3).mpr (Or.inl (by decide))

/-- **Before any byte was read**, the first 100 bytes become the last 99; and what is left
    behind the first byte alone has no end. -/
theorem first_bytes_become_last :
    fastForward 0 (some "bytes=0-99".toList) = .ok "bytes=-99".toList ∧
    ¬ FastForwardMeets 200 0 (some 0, some 99) [] (fastForward 0 (some "bytes=0-99".toList)) ∧
    fastForward 1 (some "bytes=0-0".toList) = .ok "bytes=1-".toList ∧
    fastForward 50 (some "bytes=-50".toList) = .ok "bytes=-".toList := by
  refine ⟨by decide +kernel, fun h => ?_, by decide +kernel, by decide +kernel⟩
  have hrun : fastForward 0 (some "bytes=0-99".toList) = .ok "bytes=-99".toList := by decide +kernel
  have hread : Range.ofStr "bytes=-99".toList = some [(none, some 99)] := by decide +kernel
  obtain ⟨-, s, hs, hd⟩ := hrun ▸ h
  obtain rfl : s = (none, some 99) := (List.cons.inj (Option.some.inj (hs.symm.trans hread))).1
  exact absurd ((hd 199).mp ⟨by decide, by decide, by decide⟩).1.2.1 (by decide)

end Mitaka.Swift
