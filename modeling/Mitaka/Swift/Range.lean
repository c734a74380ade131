/-
  Subject: swift/common/swob.py, `Range`; swift/proxy/controllers/base.py,
           `bytes_to_skip`.

  A range is a pair of optional numbers, as the code has it: both bounds, a start
  only, or (no start) the length of a suffix. What `__str__` prints of ranges that
  are well formed, `__init__` reads back (`Range.ofStr_str`).
-/
import Mitaka.Lib.Fallible
import Mitaka.Lib.Window
import Mitaka.Swift.ContentType

namespace Mitaka.Swift

open Numeral List

/-! ## 1. The header -/

/-- One entry of `Range.ranges`. -/
abbrev RangeSpec := Option Int × Option Int

/-- `str` of a number. -/
def intStr : Int → Str
  | .ofNat n => Nat.toDigits 10 n
  | .negSucc n => '-' :: Nat.toDigits 10 (n + 1)

/-- A bound as it is printed: nothing for `None`. -/
def boundStr (bound : Option Int) : Str :=
  match bound with
  | some n => intStr n
  | none => []

def specStr (spec : RangeSpec) : Str := boundStr spec.1 ++ '-' :: boundStr spec.2

/-- A bound that is read; `none` is the `ValueError`. -/
def parseBound (s : Str) : Option (Option Int) := if s = [] then some none else (pyInt s).map some

/-- One range of the header. -/
def parseSpec (rng : Str) : Option RangeSpec :=
  match splitFirst '-' rng with
  | (_, none) => none
  | (start, some stop) =>
    match parseBound start, parseBound stop with
    | some none, some none => none
    | some (some first), some (some last) => if last < first then none else some (some first, some last)
    | some first, some last => some (first, last)
    | _, _ => none

def RANGE_UNIT : Str := "bytes=".toList

/-- `Range.__init__`. -/
def Range.ofStr (headerval : Str) : Option (List RangeSpec) :=
  let headerval := headerval.filter (· ≠ ' ')
  if (headerval.take 6).map Char.toLower = RANGE_UNIT then
    ((headerval.drop 6).splitOn ',').mapM parseSpec
  else none

/-- `Range.__str__`. -/
def Range.str (ranges : List RangeSpec) : Str :=
  RANGE_UNIT ++ [','].intercalate (ranges.map specStr)

/-! ## 2. Ranges of a content -/

def MAX_RANGES : Nat := 50
def MAX_RANGE_OVERLAPS : Nat := 2
def MAX_NONASCENDING_RANGES : Nat := 8

/-- One range of a content, with the end behind its last byte; `none` when it is not
    satisfiable. There is no range without both bounds. -/
def specForLength (length : Int) : RangeSpec → Option (Int × Int)
  | (none, none) => none
  | (none, some suffix) =>
    if suffix = 0 then none
    else if suffix > length then some (0, length)
    else some (length - suffix, length)
  | (some first, none) => if first < length then some (first, length) else none
  | (some first, some last) => if first < length then some (first, min (last + 1) length) else none

/-- `pairs`. -/
def pairs {α : Type} : List α → List (α × α)
  | [] => []
  | x :: xs => xs.map (x, ·) ++ pairs xs

/-- Two ranges overlap. -/
def overlap (p : (Int × Int) × (Int × Int)) : Bool :=
  let ((start1, end1), (start2, end2)) := p
  (start1 < start2 && start2 < end1) || (start1 < end2 && end2 < end1) ||
    (start2 < start1 && start1 < end2) || (start2 < end1 && end1 < end2)

/-- `>` of two pairs. -/
def pairGt (p q : Int × Int) : Bool := p.1 > q.1 || (p.1 = q.1 && p.2 > q.2)

/-- `ranges_for_length`. -/
def rangesForLength (length : Option Int) (ranges : List RangeSpec) : Option (List (Int × Int)) :=
  match length with
  | none => none
  | some length =>
    if ranges = [] then none
    else
      let all := ranges.filterMap (specForLength length)
      if all.length > MAX_RANGES then some []
      else if ((pairs all).filter overlap).length > MAX_RANGE_OVERLAPS then some []
      else if (all.zip all.tail).any (fun p => pairGt p.1 p.2) &&
          decide (all.length ≥ MAX_NONASCENDING_RANGES) then some []
      else some all

/-- A single range. -/
theorem rangesForLength_singleton (length : Int) (spec : RangeSpec) :
    rangesForLength (some length) [spec] = some (specForLength length spec).toList := by
  rw [rangesForLength]
  cases h : specForLength length spec with
  | none => simp [h, pairs, MAX_RANGES]
  | some r => simp [h, pairs, MAX_RANGES, MAX_RANGE_OVERLAPS]

/-! ## 3. Printing and reading -/

/-- A range that `__init__` can read: the length of a suffix may have a sign. -/
inductive SpecParsed : RangeSpec → Prop
  | bounded {first last : Int} : 0 ≤ first → first ≤ last → SpecParsed (some first, some last)
  | from {first : Int} : 0 ≤ first → SpecParsed (some first, none)
  | suffix (n : Int) : SpecParsed (none, some n)

variable {spec : RangeSpec}

theorem SpecParsed.nonneg (h : SpecParsed spec) : ∀ n ∈ spec.1, 0 ≤ n := by
  intro n hn
  cases h with
  | bounded h0 _ =>
    obtain rfl := Option.some.inj hn
    exact h0
  | «from» h0 =>
    obtain rfl := Option.some.inj hn
    exact h0
  | suffix _ => exact nomatch hn

theorem intStr_of_nonneg {n : Int} (h : 0 ≤ n) : intStr n = Nat.toDigits 10 n.toNat := by
  obtain ⟨m, rfl⟩ := Int.eq_ofNat_of_zero_le h
  rfl

theorem intStr_ne_nil (n : Int) : intStr n ≠ [] := by
  cases n with
  | ofNat n => exact Nat.toDigits_ne_nil
  | negSucc n => exact cons_ne_nil _ _

theorem code_of_mem_intStr {n : Int} {c : Char} (hc : c ∈ intStr n) :
    c = '-' ∨ (48 ≤ c.toNat ∧ c.toNat ≤ 57) := by
  cases n with
  | ofNat n => exact Or.inr (toNat_of_mem_toDigits hc)
  | negSucc n => exact (mem_cons.mp hc).imp id toNat_of_mem_toDigits

theorem pyInt_intStr (n : Int) : pyInt (intStr n) = some n := by
  cases n with
  | ofNat n => exact pyInt_toDigits n
  | negSucc n =>
    have hspace : ∀ c ∈ intStr (.negSucc n), isSpace c = false := fun c hc => by
      rcases code_of_mem_intStr hc with rfl | hcode
      · decide
      · exact not_isSpace_of_code hcode
    have hstrip : strip (intStr (.negSucc n)) = intStr (.negSucc n) :=
      strip_eq_self (fun c hc => hspace c (mem_of_mem_head? hc))
        fun c hc => hspace c (mem_of_getLast? hc)
    rw [pyInt, hstrip, intStr]
    simp only [readNat_toDigits (b := 10) (by norm_num) (by norm_num)]
    rfl

theorem parseBound_boundStr (b : Option Int) : parseBound (boundStr b) = some b := by
  cases b with
  | none => rfl
  | some n =>
    rw [boundStr, parseBound, if_neg (intStr_ne_nil n), pyInt_intStr]
    rfl

theorem parseSpec_specStr (h : SpecParsed spec) : parseSpec (specStr spec) = some spec := by
  have hdash : '-' ∉ boundStr spec.1 := fun hm => by
    cases hb : spec.1 with
    | none =>
      rw [hb] at hm
      exact nomatch hm
    | some n =>
      rw [hb, boundStr, intStr_of_nonneg (h.nonneg n hb)] at hm
      exact absurd (toNat_of_mem_toDigits hm) (by decide)
  rw [parseSpec, specStr, splitFirst_append hdash]
  dsimp only
  rw [parseBound_boundStr, parseBound_boundStr]
  cases h with
  | bounded h0 hle => simp [not_lt.mpr hle]
  | «from» h0 => rfl
  | suffix n => rfl

theorem code_of_mem_specStr {c : Char} (hc : c ∈ specStr spec) :
    c = '-' ∨ (48 ≤ c.toNat ∧ c.toNat ≤ 57) := by
  have hbound : ∀ b : Option Int, c ∈ boundStr b → c = '-' ∨ (48 ≤ c.toNat ∧ c.toNat ≤ 57) := by
    intro b hb
    cases b with
    | none => exact nomatch hb
    | some n => exact code_of_mem_intStr hb
  rcases mem_append.mp hc with hc | hc
  · exact hbound _ hc
  · rcases mem_cons.mp hc with hc | hc
    · exact Or.inl hc
    · exact hbound _ hc

theorem mem_intercalate {c d : Char} {ls : List Str} (h : c ∈ [d].intercalate ls) :
    c = d ∨ ∃ l ∈ ls, c ∈ l := by
  induction ls with
  | nil => cases h
  | cons l ls ih =>
    cases ls with
    | nil => exact Or.inr ⟨l, mem_cons_self, by simpa using h⟩
    | cons l' ls =>
      rw [intercalate_cons_of_ne_nil (cons_ne_nil _ _), append_assoc] at h
      rcases mem_append.mp h with h | h
      · exact Or.inr ⟨l, mem_cons_self, h⟩
      · rcases mem_cons.mp h with h | h
        · exact Or.inl h
        · exact (ih h).imp id fun ⟨x, hx, hc⟩ => ⟨x, mem_cons_of_mem _ hx, hc⟩

variable {ranges : List RangeSpec}

theorem mapM_parseSpec (h : ∀ r ∈ ranges, SpecParsed r) :
    (ranges.map specStr).mapM parseSpec = some ranges := by
  have hread : ∀ r ∈ ranges, parseSpec (specStr r) = some (id r) := fun r hr => parseSpec_specStr (h r hr)
  rw [mapM_map]
  exact (Fallible.mapM_pure hread).trans (congrArg some (List.map_id _))

/-- What is printed of ranges that were read is read back. -/
theorem Range.ofStr_str_of_parsed (hne : ranges ≠ []) (h : ∀ r ∈ ranges, SpecParsed r) :
    Range.ofStr (Range.str ranges) = some ranges := by
  have hcomma : ∀ l ∈ ranges.map specStr, ',' ∉ l := fun l hl hm => by
    obtain ⟨r, hr, rfl⟩ := List.mem_map.mp hl
    rcases code_of_mem_specStr hm with hc | hc
    · exact absurd hc (by decide)
    · exact absurd hc (by decide)
  have hblank : ∀ c ∈ [','].intercalate (ranges.map specStr), c ≠ ' ' := fun c hc he => by
    subst he
    rcases mem_intercalate hc with hc | ⟨l, hl, hm⟩
    · exact absurd hc (by decide)
    · obtain ⟨r, hr, rfl⟩ := List.mem_map.mp hl
      rcases code_of_mem_specStr hm with hc | hc
      · exact absurd hc (by decide)
      · exact absurd hc (by decide)
  have hunit : RANGE_UNIT.length = 6 := by decide
  have hfilter : (Range.str ranges).filter (fun c => decide (c ≠ ' ')) = Range.str ranges := by
    refine filter_eq_self.mpr fun c hc => decide_eq_true ?_
    rcases mem_append.mp hc with hc | hc
    · rintro rfl
      exact absurd hc (by decide)
    · exact hblank c hc
  have hne' : ranges.map specStr ≠ [] := fun e => hne (map_eq_nil_iff.mp e)
  have htake : ((Range.str ranges).take 6).map Char.toLower = RANGE_UNIT := by
    rw [Range.str, ← hunit, take_left]
    decide
  have hdrop : (Range.str ranges).drop 6 = [','].intercalate (ranges.map specStr) := by
    rw [Range.str, ← hunit, drop_left]
  rw [Range.ofStr]
  rw [hfilter, if_pos htake, hdrop, splitOn_intercalate _ hcomma hne', mapM_parseSpec h]

theorem mem_of_mem_strip {s : Str} {c : Char} (h : c ∈ strip s) : c ∈ s := by
  rw [strip, mem_reverse] at h
  exact (dropWhile_sublist _).mem (mem_reverse.mp ((dropWhile_sublist _).mem h))

/-- Without a dash nothing negative is read. -/
theorem pyInt_nonneg {s : Str} (hs : '-' ∉ s) {n : Int} (h : pyInt s = some n) : 0 ≤ n := by
  rw [pyInt] at h
  split at h
  · next r he => exact absurd (mem_of_mem_strip (he ▸ mem_cons_self)) hs
  · obtain ⟨m, hm, rfl⟩ := Option.map_eq_some_iff.mp h
    obtain ⟨k, -, hk⟩ := Option.bind_eq_some_iff.mp hm
    obtain rfl := Option.some.inj hk
    exact Int.natCast_nonneg k
  · obtain ⟨m, hm, rfl⟩ := Option.map_eq_some_iff.mp h
    obtain ⟨k, -, hk⟩ := Option.bind_eq_some_iff.mp hm
    obtain rfl := Option.some.inj hk
    exact Int.natCast_nonneg k

theorem notMem_splitFirst (c : Char) (s : Str) : c ∉ (splitFirst c s).1 := by
  have htake : c ∉ s.takeWhile (· ≠ c) := fun h => by simpa using mem_takeWhile_imp h
  rw [splitFirst, span_eq_takeWhile_dropWhile]
  split
  · next h _ he => exact (Prod.ext_iff.mp he).1 ▸ htake
  · next h _ _ he => exact (Prod.ext_iff.mp he).1 ▸ htake

/-- What is read: the bounds in order, and the first one not negative. -/
theorem parsed_of_parseSpec {rng : Str} (h : parseSpec rng = some spec) : SpecParsed spec := by
  have hdash := notMem_splitFirst '-' rng
  have hstart : ∀ {n : Int}, parseBound (splitFirst '-' rng).1 = some (some n) → 0 ≤ n := by
    intro n hn
    rw [parseBound] at hn
    split_ifs at hn with hnil
    · exact nomatch hn
    · obtain ⟨m, hm, he⟩ := Option.map_eq_some_iff.mp hn
      obtain rfl := Option.some.inj he
      exact pyInt_nonneg hdash hm
  unfold parseSpec at h
  split at h
  · exact nomatch h
  · next start stop he =>
    rw [he] at hstart
    split at h
    · exact nomatch h
    · next first last hfirst hlast =>
      split_ifs at h with hlt
      obtain rfl := Option.some.inj h
      exact .bounded (hstart hfirst) (not_lt.mp hlt)
    · next first last hnone hboth hfirst hlast =>
      obtain rfl := Option.some.inj h
      cases first with
      | none =>
        cases last with
        | none => exact absurd rfl (hnone rfl)
        | some n => exact .suffix n
      | some n =>
        cases last with
        | none => exact .from (hstart hfirst)
        | some m => exact (hboth n m rfl rfl).elim
    · exact nomatch h

/-- **What a header is read as.** -/
theorem parsed_of_ofStr {header : Str} (h : Range.ofStr header = some ranges) :
    ranges ≠ [] ∧ ∀ r ∈ ranges, SpecParsed r := by
  rw [Range.ofStr] at h
  split_ifs at h with hunit
  have hforall : ∀ (l : List Str) (ranges : List RangeSpec), l.mapM parseSpec = some ranges →
      l.length = ranges.length ∧ ∀ r ∈ ranges, SpecParsed r := by
    intro l
    induction l with
    | nil =>
      intro ranges h
      obtain rfl := Option.some.inj h
      exact ⟨rfl, fun r hr => nomatch hr⟩
    | cons rng l ih =>
      intro ranges h
      rw [mapM_cons] at h
      obtain ⟨r, hr, h⟩ := Option.bind_eq_some_iff.mp h
      obtain ⟨rs, hrs, h⟩ := Option.bind_eq_some_iff.mp h
      obtain rfl := Option.some.inj h
      obtain ⟨hlength, hparsed⟩ := ih rs hrs
      exact ⟨congrArg Nat.succ hlength, forall_mem_cons.mpr ⟨parsed_of_parseSpec hr, hparsed⟩⟩
  obtain ⟨hlength, hparsed⟩ := hforall _ _ h
  refine ⟨fun hnil => ?_, hparsed⟩
  rw [hnil, length_nil, length_eq_zero_iff] at hlength
  exact splitOn_ne_nil _ _ hlength

end Mitaka.Swift
