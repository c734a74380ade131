/-
  Subject: swift/proxy/controllers/obj.py: the ranges of a client, widened to whole
           fragments (`ECObjectController._convert_range`), and the parts that come
           back, matched with them (`convert_ranges_iter`).

  The quotient in the size of a suffix is exact. `none` is an exception or an answer
  without a range. How long the last fragment of an archive is, the erasure code decides.
-/
import Mitaka.Lib.Buckets
import Mitaka.Swift.ContentRange

namespace Mitaka.Swift

open List

/-! ## 1. `_convert_range` -/

section Convert

variable (segmentSize fragmentSize : Int)

/-- `nsegs`: the segments that hold a suffix, with one to spare. -/
def suffixSegments (clientEnd : Int) : Int := ⌈(clientEnd : ℚ) / segmentSize + 1⌉

def clientRangeToSegmentRange : RangeSpec → RangeSpec
  | (none, none) => (none, none)
  | (none, some clientEnd) => (none, some (suffixSegments segmentSize clientEnd * segmentSize))
  | (some clientStart, none) => (some (clientStart / segmentSize * segmentSize), none)
  | (some clientStart, some clientEnd) =>
    (some (clientStart / segmentSize * segmentSize), some ((clientEnd / segmentSize + 1) * segmentSize - 1))

def segmentRangeToFragmentRange : RangeSpec → RangeSpec
  | (none, none) => (none, none)
  | (none, some segmentEnd) => (none, some ((segmentEnd + 1) / segmentSize * fragmentSize))
  | (some segmentStart, none) => (some (segmentStart / segmentSize * fragmentSize), none)
  | (some segmentStart, some segmentEnd) =>
    (some (segmentStart / segmentSize * fragmentSize), some ((segmentEnd + 1) / segmentSize * fragmentSize - 1))

/-- The `req_*` fields of a range spec. -/
structure EcRangeSpec where
  client : RangeSpec
  segment : RangeSpec
  fragment : RangeSpec
  deriving DecidableEq, Inhabited

/-- One range of the client. -/
def ecRangeSpec (client : RangeSpec) : EcRangeSpec where
  client := client
  segment := clientRangeToSegmentRange segmentSize client
  fragment := segmentRangeToFragmentRange segmentSize fragmentSize (clientRangeToSegmentRange segmentSize client)

/-- `_convert_range`: the header for the object servers, and the range specs. -/
def convertRange (ranges : List RangeSpec) : Str × List EcRangeSpec :=
  let specs := ranges.map (ecRangeSpec segmentSize fragmentSize)
  (RANGE_UNIT ++ [','].intercalate (specs.map fun spec => specStr spec.fragment), specs)

end Convert

/-! ## 2. The answer of an object server -/

/-- The length of a fragment archive; `tail` is what the erasure code makes of a last
    segment that is not full. -/
def fragmentArchiveLength (segmentSize fragmentSize : Int) (tail : Int → Int) (length : Int) : Int :=
  length / segmentSize * fragmentSize + if length % segmentSize = 0 then 0 else tail (length % segmentSize)

/-- The `Content-Range` values of the parts; nothing where the ranges are not accepted. -/
def objectServerParts (faLength : Int) (header : Str) : Option (List Str) :=
  match (Range.ofStr header).bind (rangesForLength (some faLength)) with
  | some (p :: out) => some ((p :: out).map fun q => contentRangeHeaderValue q.1 q.2 faLength)
  | _ => none

/-! ## 3. `convert_ranges_iter` -/

/-- `_actual_range`. -/
def actualRange (spec : RangeSpec) (length : Int) : RangeSpec :=
  match (Range.ofStr (RANGE_UNIT ++ specStr spec)).bind (rangesForLength (some length)) with
  | some (p :: _) => (some p.1, some (p.2 - 1))
  | _ => (none, none)

/-- A range spec with its `resp_*` fields. -/
structure FilledSpec where
  req : EcRangeSpec
  client : RangeSpec
  satisfiable : Bool
  segment : RangeSpec
  fragment : RangeSpec
  deriving DecidableEq, Inhabited

/-- `_fill_out_range_specs_from_obj_length`, for one spec; a suffix without a segment is a
    `TypeError`. -/
def fillFromObjLength (segmentSize length : Int) (spec : EcRangeSpec) : Option FilledSpec :=
  let client := actualRange spec.client length
  let segment := actualRange spec.segment length
  let filled (start : Option Int) : FilledSpec :=
    ⟨spec, client, client.1.isSome && client.2.isSome, (start, segment.2), (none, none)⟩
  match spec.segment.1 with
  | none => segment.1.map fun start =>
    filled (some (if start % segmentSize ≠ 0 then start + (segmentSize - start % segmentSize) else start))
  | some _ => some (filled segment.1)

/-- `_fill_out_range_specs_from_fa_length`, for one spec. -/
def fillFromFaLength (faLength : Int) (spec : FilledSpec) : FilledSpec :=
  { spec with fragment := actualRange spec.req.fragment faLength }

/-- `convert_ranges_iter`: the specs of the parts that are delivered, in order. -/
def convertRangesIter (segmentSize length : Int) (specs : List EcRangeSpec) (contentRanges : List Str) :
    Option (List FilledSpec) := do
  let filled ← specs.mapM (fillFromObjLength segmentSize length)
  let parts ← contentRanges.mapM parseContentRange
  match parts with
  | [] => return []
  | (_, _, faLength) :: _ =>
    let filled := filled.map (fillFromFaLength faLength)
    if filled.any FilledSpec.satisfiable then
      let taken ← takeAll (group FilledSpec.fragment filled)
        (parts.map fun part => ((some (part.1 : Int), some (part.2.1 : Int)) : RangeSpec))
      return taken.filter FilledSpec.satisfiable
    else none

/-! ## 4. Widened ranges -/

section Widened

variable {segmentSize fragmentSize : Int}

/-- The fragments that hold a range. -/
def fragmentsOf (segmentSize fragmentSize : Int) (client : RangeSpec) : RangeSpec :=
  (ecRangeSpec segmentSize fragmentSize client).fragment

/-- The parts of an archive that the widened ranges ask for. -/
def fragmentParts (segmentSize fragmentSize faLength : Int) (ranges : List RangeSpec) : List (Int × Int) :=
  (ranges.map (fragmentsOf segmentSize fragmentSize)).filterMap (specForLength faLength)

theorem ediv_mul_ediv (hs : 1 ≤ segmentSize) (n : Int) : n / segmentSize * segmentSize / segmentSize = n / segmentSize :=
  Int.mul_ediv_cancel _ (by omega)

theorem fragmentsOf_bounded (hs : 1 ≤ segmentSize) (first last : Int) :
    fragmentsOf segmentSize fragmentSize (some first, some last) =
      (some (first / segmentSize * fragmentSize), some ((last / segmentSize + 1) * fragmentSize - 1)) := by
  rw [fragmentsOf, ecRangeSpec]
  simp only [clientRangeToSegmentRange, segmentRangeToFragmentRange]
  rw [ediv_mul_ediv hs, sub_add_cancel, Int.mul_ediv_cancel _ (by omega)]

theorem fragmentsOf_from (hs : 1 ≤ segmentSize) (first : Int) :
    fragmentsOf segmentSize fragmentSize (some first, none) = (some (first / segmentSize * fragmentSize), none) := by
  rw [fragmentsOf, ecRangeSpec]
  simp only [clientRangeToSegmentRange, segmentRangeToFragmentRange]
  rw [ediv_mul_ediv hs]

theorem fragmentsOf_suffix (n : Int) : fragmentsOf segmentSize fragmentSize (none, some n) =
    (none, some ((suffixSegments segmentSize n * segmentSize + 1) / segmentSize * fragmentSize)) := rfl

/-- A widened range can be printed and read back. -/
theorem parsed_fragmentsOf (hs : 1 ≤ segmentSize) (hf : 1 ≤ fragmentSize) {spec : RangeSpec} (h : SpecParsed spec) :
    SpecParsed (fragmentsOf segmentSize fragmentSize spec) := by
  cases h with
  | @bounded first last h0 hle =>
    rw [fragmentsOf_bounded hs]
    have hq : 0 ≤ first / segmentSize := Int.ediv_nonneg h0 (by omega)
    have hmono : first / segmentSize ≤ last / segmentSize := Int.ediv_le_ediv (by omega) hle
    refine .bounded (by positivity) ?_
    nlinarith
  | @«from» first h0 =>
    rw [fragmentsOf_from hs]
    have hq : 0 ≤ first / segmentSize := Int.ediv_nonneg h0 (by omega)
    exact .from (by positivity)
  | suffix n => exact .suffix _

/-- **A range in the object is widened to one in the archive.** -/
theorem isSome_fragmentsOf (hs : 1 ≤ segmentSize) (hf : 1 ≤ fragmentSize) {tail : Int → Int}
    (htail : ∀ n, 0 < n → n < segmentSize → 0 < tail n) {length : Int} {spec : RangeSpec} (h : SpecParsed spec)
    (hkept : ∀ n : Int, spec = (none, some n) → (suffixSegments segmentSize n * segmentSize + 1) / segmentSize ≠ 0)
    (hspec : (specForLength length spec).isSome = true) :
    (specForLength (fragmentArchiveLength segmentSize fragmentSize tail length)
      (fragmentsOf segmentSize fragmentSize spec)).isSome = true := by
  have hlt : ∀ first : Int, 0 ≤ first → first < length →
      first / segmentSize * fragmentSize < fragmentArchiveLength segmentSize fragmentSize tail length := by
    intro first h0 hlt
    have hdiv := Int.mul_ediv_add_emod length segmentSize
    have hpos : 0 < segmentSize := by omega
    rw [fragmentArchiveLength]
    split
    · next hzero =>
      have hq : first / segmentSize < length / segmentSize :=
        Int.ediv_lt_of_lt_mul hpos (by rw [mul_comm]; omega)
      nlinarith
    · next hrest =>
      have hq : first / segmentSize ≤ length / segmentSize := Int.ediv_le_ediv hpos hlt.le
      have hmod := Int.emod_nonneg length hpos.ne'
      have htail := htail (length % segmentSize) (by omega) (Int.emod_lt_of_pos length hpos)
      nlinarith
  cases h with
  | @bounded first last h0 hle =>
    rw [specForLength] at hspec
    split at hspec
    · next hin => rw [fragmentsOf_bounded hs, specForLength, if_pos (hlt first h0 hin)]; rfl
    · cases hspec
  | @«from» first h0 =>
    rw [specForLength] at hspec
    split at hspec
    · next hin => rw [fragmentsOf_from hs, specForLength, if_pos (hlt first h0 hin)]; rfl
    · cases hspec
  | suffix n =>
    rw [fragmentsOf_suffix, specForLength, if_neg (mul_ne_zero (hkept n rfl) (by omega))]
    split <;> rfl

end Widened

/-! ## 5. What comes back -/

/-- The bounds of a part, both inclusive. -/
def inclusive (p : Int × Int) : RangeSpec := (some p.1, some (p.2 - 1))

variable {spec : RangeSpec}

theorem actualRange_eq (h : SpecParsed spec) (length : Int) :
    actualRange spec length = ((specForLength length spec).map inclusive).getD (none, none) := by
  have hread : Range.ofStr (RANGE_UNIT ++ specStr spec) = some [spec] := by
    have hstr := Range.ofStr_str_of_parsed (cons_ne_nil spec []) (by simpa using h)
    simpa [Range.str] using hstr
  rw [actualRange, hread, Option.bind_some, rangesForLength_singleton]
  cases specForLength length spec with
  | none => rfl
  | some p => rfl

theorem actualRange_isSome (h : SpecParsed spec) (length : Int) :
    (actualRange spec length).1.isSome = (specForLength length spec).isSome ∧
      (actualRange spec length).2.isSome = (specForLength length spec).isSome := by
  rw [actualRange_eq h]
  cases specForLength length spec with
  | none => exact ⟨rfl, rfl⟩
  | some p => exact ⟨rfl, rfl⟩

/-- The bounds of the parts of a content that is not empty. -/
theorem specForLength_bounds {length : Int} (hpos : 1 ≤ length) (h : SpecParsed spec)
    {p : Int × Int} (hp : specForLength length spec = some p) : 0 ≤ p.1 ∧ 1 ≤ p.2 := by
  cases h with
  | bounded h0 hle =>
    rw [specForLength] at hp
    split at hp
    · obtain rfl := Option.some.inj hp
      exact ⟨h0, by omega⟩
    · cases hp
  | «from» h0 =>
    rw [specForLength] at hp
    split at hp
    · obtain rfl := Option.some.inj hp
      exact ⟨h0, hpos⟩
    · cases hp
  | suffix n =>
    rw [specForLength] at hp
    split at hp
    · cases hp
    · split at hp
      · obtain rfl := Option.some.inj hp
        exact ⟨le_rfl, hpos⟩
      · obtain rfl := Option.some.inj hp
        exact ⟨by dsimp only; omega, hpos⟩

section Fill

variable {segmentSize fragmentSize length faLength : Int}

/-- A suffix that is widened to no segment is the only one that raises. -/
theorem fillFromObjLength_spec {client : RangeSpec} (h : SpecParsed client) :
    ((∃ n : Int, client = (none, some n) ∧ suffixSegments segmentSize n * segmentSize = 0) →
      fillFromObjLength segmentSize length (ecRangeSpec segmentSize fragmentSize client) = none) ∧
    (¬ (∃ n : Int, client = (none, some n) ∧ suffixSegments segmentSize n * segmentSize = 0) →
      ∃ segment, fillFromObjLength segmentSize length (ecRangeSpec segmentSize fragmentSize client) =
        some ⟨ecRangeSpec segmentSize fragmentSize client, actualRange client length,
          (specForLength length client).isSome, segment, (none, none)⟩) := by
  have hsat : ((actualRange client length).1.isSome && (actualRange client length).2.isSome) =
      (specForLength length client).isSome := by
    rw [(actualRange_isSome h length).1, (actualRange_isSome h length).2, Bool.and_self]
  cases h with
  | @bounded first last _ _ =>
    refine ⟨fun ⟨_, hc, _⟩ => (by cases hc), fun _ => ?_⟩
    rw [← hsat]
    exact ⟨_, rfl⟩
  | @«from» first _ =>
    refine ⟨fun ⟨_, hc, _⟩ => (by cases hc), fun _ => ?_⟩
    rw [← hsat]
    exact ⟨_, rfl⟩
  | suffix n =>
    have hsegment : actualRange (none, some (suffixSegments segmentSize n * segmentSize)) length =
        ((specForLength length (none, some (suffixSegments segmentSize n * segmentSize))).map inclusive).getD
          (none, none) := actualRange_eq (.suffix _) length
    have hfill : fillFromObjLength segmentSize length (ecRangeSpec segmentSize fragmentSize (none, some n)) =
        (actualRange (none, some (suffixSegments segmentSize n * segmentSize)) length).1.map fun start =>
          ⟨ecRangeSpec segmentSize fragmentSize (none, some n), actualRange (none, some n) length,
            (actualRange (none, some n) length).1.isSome && (actualRange (none, some n) length).2.isSome,
            (some (if start % segmentSize ≠ 0 then start + (segmentSize - start % segmentSize) else start),
              (actualRange (none, some (suffixSegments segmentSize n * segmentSize)) length).2), (none, none)⟩ := rfl
    rw [hfill, hsegment, ← hsat]
    refine ⟨fun ⟨m, hm, hzero⟩ => ?_, fun hne => ?_⟩
    · obtain rfl : n = m := Option.some.inj (Prod.mk.inj hm).2
      rw [specForLength, if_pos hzero]
      rfl
    · rw [specForLength, if_neg fun hzero => hne ⟨n, rfl, hzero⟩]
      split
      · exact ⟨_, rfl⟩
      · exact ⟨_, rfl⟩

end Fill

/-- The header for the object servers is read back as the widened ranges. -/
theorem ofStr_convertRange {segmentSize fragmentSize : Int} (hs : 1 ≤ segmentSize) (hf : 1 ≤ fragmentSize)
    {ranges : List RangeSpec} (hne : ranges ≠ []) (h : ∀ r ∈ ranges, SpecParsed r) :
    Range.ofStr (convertRange segmentSize fragmentSize ranges).1 =
      some (ranges.map (fragmentsOf segmentSize fragmentSize)) := by
  have hstr : (convertRange segmentSize fragmentSize ranges).1 =
      Range.str (ranges.map (fragmentsOf segmentSize fragmentSize)) := by
    rw [convertRange, Range.str, List.map_map, List.map_map]
    rfl
  rw [hstr]
  refine Range.ofStr_str_of_parsed (by simpa using hne) fun r hr => ?_
  obtain ⟨client, hclient, rfl⟩ := List.mem_map.mp hr
  exact parsed_fragmentsOf hs hf (h client hclient)

section Match

variable {segmentSize fragmentSize length faLength : Int} {ranges : List RangeSpec}

/-- A range spec with all its fields, where nothing raises. -/
structure Filled (segmentSize fragmentSize length faLength : Int) (r : RangeSpec) (spec : FilledSpec) : Prop where
  req : spec.req = ecRangeSpec segmentSize fragmentSize r
  client : spec.client = actualRange r length
  satisfiable : spec.satisfiable = (specForLength length r).isSome
  fragment : spec.fragment =
    ((specForLength faLength (fragmentsOf segmentSize fragmentSize r)).map inclusive).getD (none, none)

/-- The parts that come back, as keys: those of the specs with a part. -/
theorem parts_eq_keys {g : RangeSpec → FilledSpec}
    (hg : ∀ r ∈ ranges, Filled segmentSize fragmentSize length faLength r (g r)) :
    (fragmentParts segmentSize fragmentSize faLength ranges).map inclusive =
      ((ranges.map g).filter fun s => s.fragment.1.isSome).map FilledSpec.fragment := by
  induction ranges with
  | nil => rfl
  | cons r ranges ih =>
    have hone := (hg r mem_cons_self).fragment
    have hrest := ih fun x hx => hg x (mem_cons_of_mem _ hx)
    cases hp : specForLength faLength (fragmentsOf segmentSize fragmentSize r) with
    | none =>
      rw [hp] at hone
      rw [fragmentParts, map_cons, filterMap_cons_none hp, ← fragmentParts, hrest, map_cons, filter_cons, if_neg (by rw [hone]; decide)]
    | some p =>
      rw [hp] at hone
      rw [fragmentParts, map_cons, filterMap_cons_some hp, ← fragmentParts, map_cons, hrest, map_cons, filter_cons,
        if_pos (by rw [hone]; rfl), map_cons, hone]
      rfl

/-- The `Content-Range` of a part is read as its key. -/
theorem parseContentRange_part (hfa : 1 ≤ faLength) {spec : RangeSpec} (h : SpecParsed spec) {q : Int × Int}
    (hq : specForLength faLength spec = some q) :
    parseContentRange (contentRangeHeaderValue q.1 q.2 faLength) =
      some (q.1.toNat, (q.2 - 1).toNat, faLength.toNat) ∧
    ((some (q.1.toNat : Int), some ((q.2 - 1).toNat : Int)) : RangeSpec) = inclusive q := by
  obtain ⟨hfirst, hlast⟩ := specForLength_bounds hfa h hq
  have h1 : (q.1.toNat : Int) = q.1 := Int.toNat_of_nonneg hfirst
  have h2 : ((q.2 - 1).toNat : Int) = q.2 - 1 := Int.toNat_of_nonneg (by omega)
  have h3 : (faLength.toNat : Int) = faLength := Int.toNat_of_nonneg (by omega)
  have hread := parseContentRange_headerValue q.1.toNat (q.2 - 1).toNat faLength.toNat
  rw [h1, h2, h3, sub_add_cancel] at hread
  rw [h1, h2]
  exact ⟨hread, rfl⟩

/-- **Every part finds its range spec**, whichever ranges share their fragments. -/
theorem convertRangesIter_eq (hfa : 1 ≤ faLength) (hs : 1 ≤ segmentSize) (hf : 1 ≤ fragmentSize)
    (h : ∀ r ∈ ranges, SpecParsed r)
    (hsuffix : ∀ n : Int, ((none, some n) : RangeSpec) ∈ ranges → suffixSegments segmentSize n * segmentSize ≠ 0)
    (hsat : ∃ r ∈ ranges, (specForLength length r).isSome = true)
    (hparts : fragmentParts segmentSize fragmentSize faLength ranges ≠ []) :
    ∃ g : RangeSpec → FilledSpec, (∀ r ∈ ranges, Filled segmentSize fragmentSize length faLength r (g r)) ∧
      convertRangesIter segmentSize length (convertRange segmentSize fragmentSize ranges).2
        ((fragmentParts segmentSize fragmentSize faLength ranges).map
          fun q => contentRangeHeaderValue q.1 q.2 faLength) =
        some (((ranges.map g).filter fun s => s.fragment.1.isSome).filter FilledSpec.satisfiable) := by
  have hfill : ∀ r ∈ ranges, ∃ spec, fillFromObjLength segmentSize length (ecRangeSpec segmentSize fragmentSize r) =
      some spec ∧ Filled segmentSize fragmentSize length faLength r (fillFromFaLength faLength spec) := fun r hr => by
    obtain ⟨segment, hspec⟩ := (fillFromObjLength_spec (h r hr)).2 fun ⟨n, hn, hzero⟩ => hsuffix n (hn ▸ hr) hzero
    exact ⟨_, hspec, rfl, rfl, rfl, actualRange_eq (parsed_fragmentsOf hs hf (h r hr)) faLength⟩
  choose! g₀ hg₀ hfilled using hfill
  refine ⟨fillFromFaLength faLength ∘ g₀, hfilled, ?_⟩
  have hspecs : (convertRange segmentSize fragmentSize ranges).2.mapM (fillFromObjLength segmentSize length) =
      some (ranges.map g₀) := by
    rw [convertRange, mapM_map]
    exact Fallible.mapM_pure hg₀
  have hread : ∀ q ∈ fragmentParts segmentSize fragmentSize faLength ranges,
      parseContentRange (contentRangeHeaderValue q.1 q.2 faLength) =
        some (q.1.toNat, (q.2 - 1).toNat, faLength.toNat) ∧
      ((some (q.1.toNat : Int), some ((q.2 - 1).toNat : Int)) : RangeSpec) = inclusive q := fun q hq => by
    obtain ⟨spec, hspec, hq⟩ := mem_filterMap.mp hq
    obtain ⟨r, hr, rfl⟩ := List.mem_map.mp hspec
    exact parseContentRange_part hfa (parsed_fragmentsOf hs hf (h r hr)) hq
  have hkeys := parts_eq_keys (g := fillFromFaLength faLength ∘ g₀) hfilled
  generalize fragmentParts segmentSize fragmentSize faLength ranges = out at hparts hread hkeys
  have hparse : (out.map fun q => contentRangeHeaderValue q.1 q.2 faLength).mapM parseContentRange =
      some (out.map fun q => (q.1.toNat, (q.2 - 1).toNat, faLength.toNat)) := by
    rw [mapM_map]
    exact Fallible.mapM_pure fun q hq => (hread q hq).1
  have hany : (ranges.map (fillFromFaLength faLength ∘ g₀)).any FilledSpec.satisfiable = true := by
    obtain ⟨r, hr, hsat⟩ := hsat
    exact List.any_eq_true.mpr ⟨_, List.mem_map_of_mem hr, (hfilled r hr).satisfiable.trans hsat⟩
  have htake := takeAll_group FilledSpec.fragment (fun k => k.1.isSome)
    (ranges.map (fillFromFaLength faLength ∘ g₀))
  have hmap : ((out.map fun q => (q.1.toNat, (q.2 - 1).toNat, faLength.toNat)).map
      fun part => ((some (part.1 : Int), some (part.2.1 : Int)) : RangeSpec)) = out.map inclusive := by
    rw [List.map_map]
    exact map_congr_left fun q hq => (hread q hq).2
  rw [← hkeys, ← hmap] at htake
  rw [convertRangesIter, hspecs, hparse]
  cases out with
  | nil => exact absurd rfl hparts
  | cons q out =>
    rw [map_cons] at htake ⊢
    have hlength : (faLength.toNat : Int) = faLength := Int.toNat_of_nonneg (by omega)
    simp only [Option.bind_eq_bind, Option.bind_some, hlength, List.map_map]
    rw [if_pos hany, htake]
    rfl

/-- The delivered ranges: the satisfiable ones, with the bounds they have in the object. -/
theorem delivered_eq {g : RangeSpec → FilledSpec} (h : ∀ r ∈ ranges, SpecParsed r)
    (hg : ∀ r ∈ ranges, Filled segmentSize fragmentSize length faLength r (g r))
    (hkept : ∀ r ∈ ranges, (specForLength length r).isSome = true →
      (specForLength faLength (fragmentsOf segmentSize fragmentSize r)).isSome = true) :
    (((ranges.map g).filter fun s => s.fragment.1.isSome).filter FilledSpec.satisfiable).map
        (fun s => (s.req.client, s.client)) =
      ranges.filterMap fun r => (specForLength length r).map fun p => (r, inclusive p) := by
  induction ranges with
  | nil => rfl
  | cons r ranges ih =>
    have hone := hg r mem_cons_self
    have hrest := ih (fun x hx => h x (mem_cons_of_mem _ hx)) (fun x hx => hg x (mem_cons_of_mem _ hx))
      fun x hx => hkept x (mem_cons_of_mem _ hx)
    have hclient := hone.client.trans (actualRange_eq (h r mem_cons_self) length)
    rw [List.filter_filter] at hrest ⊢
    rw [map_cons, filter_cons, filterMap_cons, ← hrest]
    cases hp : specForLength length r with
    | none =>
      rw [if_neg (by rw [hone.satisfiable, hp]; simp)]
      rfl
    | some p =>
      have hpart := hkept r mem_cons_self (by rw [hp]; rfl)
      obtain ⟨q, hq⟩ := Option.isSome_iff_exists.mp hpart
      rw [if_pos (by rw [hone.satisfiable, hone.fragment, hp, hq]; rfl), map_cons, hclient, hone.req, hp]
      rfl

end Match

/-! ## 6. The condition -/

/-- The object servers accept the widened ranges, and each satisfiable range of the client
    is delivered once, in the order of the request. -/
def EcMeets (segmentSize fragmentSize length faLength : Int) (ranges : List RangeSpec) : Prop :=
  ∃ contentRanges delivered,
    objectServerParts faLength (convertRange segmentSize fragmentSize ranges).1 = some contentRanges ∧
    convertRangesIter segmentSize length (convertRange segmentSize fragmentSize ranges).2 contentRanges = some delivered ∧
    delivered.map (fun s => (s.req.client, s.client)) =
      ranges.filterMap fun r => (specForLength length r).map fun p => (r, inclusive p)

/-- The fragments at the end of an archive that hold a suffix, with one to spare. -/
def suffixFragments (segmentSize suffix : Int) : Int :=
  if segmentSize = 1 then suffix + 2 else ⌈(suffix : ℚ) / segmentSize⌉ + 1

/-- A range of the client, in whole fragments. -/
def wholeFragments (segmentSize fragmentSize : Int) : RangeSpec → RangeSpec
  | (none, none) => (none, none)
  | (none, some suffix) => (none, some (suffixFragments segmentSize suffix * fragmentSize))
  | (some first, none) => (some (first / segmentSize * fragmentSize), none)
  | (some first, some last) =>
    (some (first / segmentSize * fragmentSize), some ((last / segmentSize + 1) * fragmentSize - 1))

/-- No suffix has a length between minus one and minus two segments. -/
def SuffixesKept (segmentSize : Int) (ranges : List RangeSpec) : Prop :=
  ∀ n : Int, ((none, some n) : RangeSpec) ∈ ranges →
    (n ≤ -(2 * segmentSize) ∨ -segmentSize < n) ∧ (segmentSize = 1 → n ≠ -2)

section Condition

variable {segmentSize fragmentSize length faLength : Int} {ranges : List RangeSpec}

theorem suffixSegments_eq (n : Int) :
    suffixSegments segmentSize n = ⌈(n : ℚ) / segmentSize⌉ + 1 := by
  rw [suffixSegments, Int.ceil_add_one]

theorem suffixFragments_eq (hs : 1 ≤ segmentSize) (n : Int) :
    (suffixSegments segmentSize n * segmentSize + 1) / segmentSize = suffixFragments segmentSize n := by
  rw [suffixSegments_eq, suffixFragments]
  split
  · next h1 =>
    subst h1
    simp only [Int.cast_one, div_one, Int.ceil_intCast, mul_one, Int.ediv_one]
    omega
  · next h1 =>
    rw [add_comm _ (1 : Int), Int.add_mul_ediv_right _ _ (by omega), Int.ediv_eq_zero_of_lt (by omega) (by omega),
      zero_add]

theorem suffixSegments_eq_zero (hs : 1 ≤ segmentSize) (n : Int) :
    suffixSegments segmentSize n = 0 ↔ -(2 * segmentSize) < n ∧ n ≤ -segmentSize := by
  have hpos : (0 : ℚ) < segmentSize := by exact_mod_cast hs
  have hzero : suffixSegments segmentSize n = 0 ↔ ⌈(n : ℚ) / segmentSize⌉ = -1 := by
    rw [suffixSegments_eq]
    omega
  rw [hzero, Int.ceil_eq_iff, lt_div_iff₀ hpos, div_le_iff₀ hpos]
  have hlow : ((-1 : Int) : ℚ) - 1 = ((-2 : Int) : ℚ) := by norm_num
  rw [hlow]
  norm_cast
  omega

theorem suffixesKept_iff (hs : 1 ≤ segmentSize) : SuffixesKept segmentSize ranges ↔
    ∀ n : Int, ((none, some n) : RangeSpec) ∈ ranges →
      suffixSegments segmentSize n ≠ 0 ∧ suffixFragments segmentSize n ≠ 0 := by
  refine forall₂_congr fun n _ => ?_
  have hzero := suffixSegments_eq_zero hs n
  rw [suffixFragments]
  split
  · omega
  · rw [← suffixSegments_eq]
    omega

theorem fragmentsOf_eq (hs : 1 ≤ segmentSize) {spec : RangeSpec} (h : SpecParsed spec) :
    fragmentsOf segmentSize fragmentSize spec = wholeFragments segmentSize fragmentSize spec := by
  cases h with
  | bounded _ _ => exact fragmentsOf_bounded hs _ _
  | «from» _ => exact fragmentsOf_from hs _
  | suffix n => rw [fragmentsOf_suffix, suffixFragments_eq hs, wholeFragments]

theorem fragmentParts_eq (hs : 1 ≤ segmentSize) (h : ∀ r ∈ ranges, SpecParsed r) :
    fragmentParts segmentSize fragmentSize faLength ranges =
      (ranges.map (wholeFragments segmentSize fragmentSize)).filterMap (specForLength faLength) := by
  rw [fragmentParts, map_congr_left fun r hr => fragmentsOf_eq hs (h r hr)]

/-- The parts that come back, or none at all. -/
theorem objectServerParts_eq (hs : 1 ≤ segmentSize) (hf : 1 ≤ fragmentSize) (hne : ranges ≠ [])
    (h : ∀ r ∈ ranges, SpecParsed r) :
    objectServerParts faLength (convertRange segmentSize fragmentSize ranges).1 =
      if Egregious (fragmentParts segmentSize fragmentSize faLength ranges) ∨
          fragmentParts segmentSize fragmentSize faLength ranges = [] then none
      else some ((fragmentParts segmentSize fragmentSize faLength ranges).map
        fun q => contentRangeHeaderValue q.1 q.2 faLength) := by
  rw [objectServerParts, ofStr_convertRange hs hf hne h, Option.bind_some,
    rangesForLength_eq faLength (by simpa using hne), ← fragmentParts]
  by_cases hmany : Egregious (fragmentParts segmentSize fragmentSize faLength ranges)
  · rw [if_pos hmany, if_pos (Or.inl hmany)]
  rw [if_neg hmany]
  cases hparts : fragmentParts segmentSize fragmentSize faLength ranges with
  | nil => rw [if_pos (Or.inr rfl)]
  | cons p out => rw [if_neg (not_or.mpr ⟨hparts ▸ hmany, cons_ne_nil _ _⟩)]

/-- An empty archive has parts that no `Content-Range` can name. -/
theorem parseContentRange_empty_part {spec : RangeSpec} (h : SpecParsed spec) {q : Int × Int}
    (hq : specForLength 0 spec = some q) : parseContentRange (contentRangeHeaderValue q.1 q.2 0) = none := by
  have hbounds : 0 ≤ q.1 ∧ q.2 = 0 := by
    cases h with
    | bounded h0 _ => rw [specForLength, if_neg (by omega)] at hq; cases hq
    | «from» h0 => rw [specForLength, if_neg (by omega)] at hq; cases hq
    | suffix n =>
      rw [specForLength] at hq
      split at hq
      · cases hq
      · split at hq
        · obtain rfl := Option.some.inj hq
          exact ⟨le_rfl, rfl⟩
        · obtain rfl := Option.some.inj hq
          exact ⟨by dsimp only; omega, rfl⟩
  obtain ⟨n, hn⟩ := Int.eq_ofNat_of_zero_le hbounds.1
  rw [hn, hbounds.2]
  exact parseContentRange_empty n 0

theorem fragmentArchiveLength_pos (hs : 1 ≤ segmentSize) (hf : 1 ≤ fragmentSize) {tail : Int → Int}
    (htail : ∀ n, 0 < n → n < segmentSize → 0 < tail n) (hlength : 1 ≤ length) :
    1 ≤ fragmentArchiveLength segmentSize fragmentSize tail length := by
  have hfirst := isSome_fragmentsOf hs hf htail (SpecParsed.from (le_refl 0)) (fun _ hn => (by cases hn))
    (by rw [specForLength, if_pos (by omega)]; rfl : (specForLength length (some 0, none)).isSome = true)
  rw [fragmentsOf_from hs, Int.zero_ediv, zero_mul, specForLength] at hfirst
  split at hfirst
  · omega
  · cases hfirst

end Condition

section Iff

variable {segmentSize fragmentSize length : Int} {tail : Int → Int} {ranges : List RangeSpec}

theorem isSome_of_kept (hs : 1 ≤ segmentSize) (hf : 1 ≤ fragmentSize)
    (htail : ∀ n, 0 < n → n < segmentSize → 0 < tail n) (h : ∀ r ∈ ranges, SpecParsed r)
    (hkept : SuffixesKept segmentSize ranges) : ∀ r ∈ ranges, (specForLength length r).isSome = true →
      (specForLength (fragmentArchiveLength segmentSize fragmentSize tail length)
        (fragmentsOf segmentSize fragmentSize r)).isSome = true := by
  refine fun r hr => isSome_fragmentsOf hs hf htail (h r hr) fun n hn => ?_
  rw [suffixFragments_eq hs]
  exact ((suffixesKept_iff hs).mp hkept n (hn ▸ hr)).2

variable {faLength : Int}

theorem fragmentParts_ne_nil {r : RangeSpec} (hr : r ∈ ranges)
    (h : (specForLength faLength (fragmentsOf segmentSize fragmentSize r)).isSome = true) :
    fragmentParts segmentSize fragmentSize faLength ranges ≠ [] := by
  obtain ⟨q, hq⟩ := Option.isSome_iff_exists.mp h
  exact ne_nil_of_mem (mem_filterMap.mpr ⟨_, List.mem_map_of_mem hr, hq⟩)

theorem ecMeets_of (hs : 1 ≤ segmentSize) (hf : 1 ≤ fragmentSize) (htail : ∀ n, 0 < n → n < segmentSize → 0 < tail n)
    (h : ∀ r ∈ ranges, SpecParsed r) (hsat : ∃ r ∈ ranges, (specForLength length r).isSome = true) (hpos : 1 ≤ length)
    (hkept : SuffixesKept segmentSize ranges)
    (hlimits : ¬ Egregious (fragmentParts segmentSize fragmentSize
      (fragmentArchiveLength segmentSize fragmentSize tail length) ranges)) :
    EcMeets segmentSize fragmentSize length (fragmentArchiveLength segmentSize fragmentSize tail length) ranges := by
  have hpart : ∀ r ∈ ranges, (specForLength length r).isSome = true → _ := isSome_of_kept hs hf htail h hkept
  obtain ⟨r, hr, hrsat⟩ := hsat
  have hparts := fragmentParts_ne_nil hr (hpart r hr hrsat)
  have hsegments : ∀ n : Int, ((none, some n) : RangeSpec) ∈ ranges → suffixSegments segmentSize n * segmentSize ≠ 0 :=
    fun n hn => mul_ne_zero ((suffixesKept_iff hs).mp hkept n hn).1 (by omega)
  obtain ⟨g, hg, hiter⟩ := convertRangesIter_eq (fragmentArchiveLength_pos hs hf htail hpos) hs hf h hsegments
    ⟨r, hr, hrsat⟩ hparts
  refine ⟨_, _, ?_, hiter, delivered_eq h hg hpart⟩
  rw [objectServerParts_eq hs hf (ne_nil_of_mem hr) h, if_neg (not_or.mpr ⟨hlimits, hparts⟩)]

/-- What is delivered, has been accepted. -/
theorem EcMeets.accepted (hs : 1 ≤ segmentSize) (hf : 1 ≤ fragmentSize) (hne : ranges ≠ [])
    (h : ∀ r ∈ ranges, SpecParsed r) (hmeets : EcMeets segmentSize fragmentSize length faLength ranges) :
    ¬ Egregious (fragmentParts segmentSize fragmentSize faLength ranges) ∧
    fragmentParts segmentSize fragmentSize faLength ranges ≠ [] ∧
    ∃ delivered, convertRangesIter segmentSize length (convertRange segmentSize fragmentSize ranges).2
        ((fragmentParts segmentSize fragmentSize faLength ranges).map
          fun q => contentRangeHeaderValue q.1 q.2 faLength) = some delivered ∧
      delivered.map (fun s => (s.req.client, s.client)) =
        ranges.filterMap fun r => (specForLength length r).map fun p => (r, inclusive p) := by
  obtain ⟨contentRanges, delivered, haccepted, hiter, hdelivered⟩ := hmeets
  rw [objectServerParts_eq hs hf hne h] at haccepted
  split at haccepted
  · cases haccepted
  · next hlimits =>
    obtain rfl := Option.some.inj haccepted
    exact ⟨fun hmany => hlimits (Or.inl hmany), fun hnil => hlimits (Or.inr hnil), delivered, hiter, hdelivered⟩

/-- The steps of the answer that succeeded. -/
theorem convertRangesIter_some {specs : List EcRangeSpec} {contentRanges : List Str} {delivered : List FilledSpec}
    (h : convertRangesIter segmentSize length specs contentRanges = some delivered) :
    (∃ filled, specs.mapM (fillFromObjLength segmentSize length) = some filled) ∧
      ∃ parts, contentRanges.mapM parseContentRange = some parts := by
  rw [convertRangesIter] at h
  cases hfilled : specs.mapM (fillFromObjLength segmentSize length) with
  | none => rw [hfilled] at h; cases h
  | some filled =>
    cases hparts : contentRanges.mapM parseContentRange with
    | none => rw [hfilled, hparts] at h; cases h
    | some parts => exact ⟨⟨filled, rfl⟩, parts, rfl⟩

/-- An empty object has no part that can be named. -/
theorem EcMeets.length_pos (hs : 1 ≤ segmentSize) (hf : 1 ≤ fragmentSize) (hne : ranges ≠ [])
    (h : ∀ r ∈ ranges, SpecParsed r) (hlength : 0 ≤ length)
    (hmeets : EcMeets segmentSize fragmentSize length (fragmentArchiveLength segmentSize fragmentSize tail length) ranges) :
    1 ≤ length := by
  by_contra hzero
  obtain rfl : length = 0 := by omega
  have hempty : fragmentArchiveLength segmentSize fragmentSize tail 0 = 0 := by
    rw [fragmentArchiveLength, Int.zero_ediv, Int.zero_emod, if_pos rfl, zero_mul, add_zero]
  rw [hempty] at hmeets
  obtain ⟨-, hparts, delivered, hiter, -⟩ := hmeets.accepted hs hf hne h
  obtain ⟨q, hq⟩ := exists_mem_of_ne_nil _ hparts
  obtain ⟨spec, hspec, hpart⟩ := mem_filterMap.mp hq
  obtain ⟨r, hr, rfl⟩ := List.mem_map.mp hspec
  obtain ⟨-, parts, hread⟩ := convertRangesIter_some hiter
  have hnone := Fallible.mapM_eq_none (f := parseContentRange)
    (List.mem_map_of_mem (f := fun q : Int × Int => contentRangeHeaderValue q.1 q.2 0) hq)
    (parseContentRange_empty_part (parsed_fragmentsOf hs hf (h r hr)) hpart)
  exact nomatch hnone.symm.trans hread

/-- A suffix without a segment raises. -/
theorem EcMeets.suffixSegments_ne_zero (hs : 1 ≤ segmentSize) (hf : 1 ≤ fragmentSize)
    (h : ∀ r ∈ ranges, SpecParsed r) (hmeets : EcMeets segmentSize fragmentSize length faLength ranges) {n : Int}
    (hn : ((none, some n) : RangeSpec) ∈ ranges) : suffixSegments segmentSize n ≠ 0 := by
  intro hzero
  obtain ⟨-, -, delivered, hiter, -⟩ := hmeets.accepted hs hf (ne_nil_of_mem hn) h
  obtain ⟨⟨filled, hfilled⟩, -⟩ := convertRangesIter_some hiter
  have hraise : fillFromObjLength segmentSize length (ecRangeSpec segmentSize fragmentSize (none, some n)) = none :=
    (fillFromObjLength_spec (.suffix n)).1 ⟨n, rfl, by rw [hzero, zero_mul]⟩
  have hnone : (convertRange segmentSize fragmentSize ranges).2.mapM (fillFromObjLength segmentSize length) = none :=
    Fallible.mapM_eq_none (List.mem_map_of_mem hn) hraise
  exact nomatch hnone.symm.trans hfilled

/-- A suffix without a fragment is not delivered. -/
theorem EcMeets.suffixFragments_ne_zero (hs : 1 ≤ segmentSize) (hf : 1 ≤ fragmentSize)
    (h : ∀ r ∈ ranges, SpecParsed r) (hfa : 1 ≤ faLength)
    (hmeets : EcMeets segmentSize fragmentSize length faLength ranges) {n : Int}
    (hn : ((none, some n) : RangeSpec) ∈ ranges) : suffixFragments segmentSize n ≠ 0 := by
  intro hzero
  obtain ⟨-, hparts, delivered, hiter, hdelivered⟩ := hmeets.accepted hs hf (ne_nil_of_mem hn) h
  have hsome : (specForLength length (none, some n)).isSome = true := by
    have hne : n ≠ 0 := by
      rintro rfl
      rw [suffixFragments] at hzero
      split at hzero
      · omega
      · simp at hzero
    rw [specForLength, if_neg hne]
    split <;> rfl
  have hmissing : specForLength faLength (fragmentsOf segmentSize fragmentSize (none, some n)) = none := by
    rw [fragmentsOf_suffix, suffixFragments_eq hs, hzero, zero_mul, specForLength, if_pos rfl]
  obtain ⟨g, hg, hiter'⟩ := convertRangesIter_eq hfa hs hf h
    (fun m hm => mul_ne_zero (hmeets.suffixSegments_ne_zero hs hf h hm) (by omega)) ⟨_, hn, hsome⟩ hparts
  obtain rfl := Option.some.inj (hiter.symm.trans hiter')
  obtain ⟨p, hp⟩ := Option.isSome_iff_exists.mp hsome
  have hasked : ((none, some n), inclusive p) ∈
      ranges.filterMap fun r => (specForLength length r).map fun p => (r, inclusive p) :=
    mem_filterMap.mpr ⟨_, hn, by rw [hp]; rfl⟩
  rw [← hdelivered] at hasked
  obtain ⟨s, hs', heq⟩ := List.mem_map.mp hasked
  obtain ⟨hs', hpart⟩ := mem_filter.mp (mem_filter.mp hs').1
  obtain ⟨r, hr, rfl⟩ := List.mem_map.mp hs'
  have hclient : (g r).req.client = (none, some n) := (Prod.mk.inj heq).1
  rw [(hg r hr).req] at hclient
  obtain rfl : r = (none, some n) := hclient
  rw [(hg _ hr).fragment, hmissing] at hpart
  cases hpart

end Iff

end Mitaka.Swift
