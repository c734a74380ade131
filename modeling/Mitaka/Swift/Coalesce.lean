/-
  Subject: swift/common/request_helpers.py, `SegmentedIterable._coalesce_requests`.

  The segments of a large object are fetched with fewer requests: ranges of one object
  become one request, as long as the whole set of ranges is still allowed. The clock is
  left out. `none` is a `ValueError`.
-/
import Mitaka.Swift.RangeHeader

namespace Mitaka.Swift

open List Option

/-! ## 1. The requests -/

/-- One entry of `listing_iter`. -/
structure ListedSegment where
  path : Str
  etag : Str
  size : Option Int
  firstByte : Option Int
  lastByte : Option Int

/-- A request for a segment, with its `Range` header. -/
structure SegmentRequest where
  path : Str
  range : Option Str

/-- `go_to_end`. -/
def ListedSegment.goToEnd (s : ListedSegment) : Bool :=
  s.lastByte.isNone || s.lastByte.any fun last => s.size.any fun size => last = size - 1

/-- `seg_req_rangeval`. -/
def ListedSegment.rangeval (s : ListedSegment) : Option Str :=
  let firstByte := s.firstByte.getD 0
  if firstByte ≠ 0 ∨ s.goToEnd = false then
    some (intStr firstByte ++ '-' :: if s.goToEnd then [] else boundStr s.lastByte)
  else none

/-- `seg_req`. -/
def ListedSegment.request (s : ListedSegment) : SegmentRequest where
  path := s.path
  range := s.rangeval.map fun rangeval => RANGE_UNIT ++ rangeval

/-- `req.range`: nothing where there is no header or it is not valid. -/
def SegmentRequest.getRange (r : SegmentRequest) : Option (List RangeSpec) := r.range.bind Range.ofStr

/-- The pending request, its etag and its size. -/
abbrev PendingRequest := SegmentRequest × Str × Option Int

/-- `new_range_str`. -/
def newRangeStr (pending : SegmentRequest) (s : ListedSegment) (size : Int) : Str :=
  let whole : Str := "0-".toList ++ intStr (size - 1)
  let str :=
    match pending.getRange with
    | some ranges => Range.str ranges
    | none => RANGE_UNIT ++ whole
  str ++ ',' :: match s.request.getRange, s.rangeval with
    | some _, some rangeval => rangeval
    | _, _ => whole

/-- One segment: what is yielded so far, and what is pending. -/
def coalesceStep (acc : List PendingRequest × Option PendingRequest) (s : ListedSegment) :
    Option (List PendingRequest × Option PendingRequest) :=
  let next : List PendingRequest × Option PendingRequest :=
    (acc.1 ++ acc.2.toList, some (s.request, s.etag, s.size))
  match acc.2, s.size with
  | some (pending, etag, pendingSize), some size =>
    if pending.path = s.path then do
      let ranges ← Range.ofStr (newRangeStr pending s size)
      match rangesForLength (some size) ranges with
      | some (_ :: _) =>
        return (acc.1, some ({ pending with range := some (newRangeStr pending s size) }, etag, pendingSize))
      | _ => return next
    else return next
  | _, _ => return next

/-- `_coalesce_requests`. -/
def coalesceRequests (listing : List ListedSegment) : Option (List PendingRequest) :=
  (listing.foldlM coalesceStep ([], none)).map fun acc => acc.1 ++ acc.2.toList

/-! ## 2. What a request fetches -/

section Serve

variable {α : Type} (content : Str → List α)

/-- The parts of an object, in the order they are asked for. -/
def partsOf (d : List α) (out : List (Int × Int)) : List α := out.flatMap fun p => window d p.1 (p.2 - 1)

/-- What an object server answers: the object, or the parts of the ranges. -/
def serve (r : SegmentRequest) : List α :=
  let d := content r.path
  match r.getRange.bind fun ranges => rangesForLength (some d.length) ranges with
  | some out => partsOf d out
  | none => d

/-- The bytes of a segment. -/
def ListedSegment.bytes (s : ListedSegment) : List α :=
  window (content s.path) (s.firstByte.getD 0) (s.lastByte.getD ((content s.path).length - 1))

/-- A segment of known size, with bytes of it. -/
structure ListedSegment.Valid (s : ListedSegment) : Prop where
  size_eq : s.size = some ((content s.path).length : Int)
  first_nonneg : 0 ≤ s.firstByte.getD 0
  first_le : s.firstByte.getD 0 ≤ s.lastByte.getD ((content s.path).length - 1)
  last_lt : s.lastByte.getD ((content s.path).length - 1) < (content s.path).length

end Serve

/-! ## 3. Ranges within an object -/

section Within

variable {α : Type} {content : Str → List α}

/-- A range with a first position in the object. -/
inductive SpecWithin (length : Int) : RangeSpec → Prop
  | bounded {first last : Int} : 0 ≤ first → first ≤ last → first < length → SpecWithin length (some first, some last)
  | from {first : Int} : 0 ≤ first → first < length → SpecWithin length (some first, none)

theorem SpecWithin.parsed {length : Int} {spec : RangeSpec} (h : SpecWithin length spec) : SpecParsed spec := by
  cases h with
  | bounded h0 hle _ => exact .bounded h0 hle
  | «from» h0 _ => exact .from h0

/-- None of them is dropped. -/
theorem SpecWithin.isSome {length : Int} {spec : RangeSpec} (h : SpecWithin length spec) :
    (specForLength length spec).isSome = true := by
  cases h with
  | bounded _ _ hlt => rw [specForLength, if_pos hlt]; rfl
  | «from» _ hlt => rw [specForLength, if_pos hlt]; rfl

/-- The bytes of one range. -/
def specBytes (d : List α) (spec : RangeSpec) : List α := partsOf d (specForLength d.length spec).toList

/-- **A set that is not rejected** is served as its ranges one by one. -/
theorem partsOf_rangesForLength {d : List α} {ranges : List RangeSpec} (hne : ranges ≠ []) {p : Int × Int}
    {out : List (Int × Int)} (h : rangesForLength (some (d.length : Int)) ranges = some (p :: out)) :
    partsOf d (p :: out) = ranges.flatMap (specBytes d) := by
  rw [rangesForLength_eq _ hne] at h
  split_ifs at h
  · exact nomatch Option.some.inj h
  · have hall : ∀ ranges : List RangeSpec,
        partsOf d (ranges.filterMap (specForLength d.length)) = ranges.flatMap (specBytes d) := by
      intro ranges
      induction ranges with
      | nil => rfl
      | cons r ranges ih =>
        rw [flatMap_cons, ← ih, specBytes]
        cases hr : specForLength d.length r with
        | none => rw [filterMap_cons_none hr]; rfl
        | some q => rw [filterMap_cons_some hr]; simp [partsOf]
    rw [← Option.some.inj h]
    exact hall ranges

theorem Range.str_append {ranges : List RangeSpec} (hne : ranges ≠ []) (spec : RangeSpec) :
    Range.str ranges ++ ',' :: specStr spec = Range.str (ranges ++ [spec]) := by
  have hinter : ∀ l : List Str, l ≠ [] → ∀ x : Str, [','].intercalate (l ++ [x]) = [','].intercalate l ++ ',' :: x := by
    intro l
    induction l with
    | nil => exact fun h => absurd rfl h
    | cons y l ih =>
      intro _ x
      cases l with
      | nil => simp [intercalate]
      | cons z l =>
        rw [cons_append, intercalate_cons_of_ne_nil (by simp),
          intercalate_cons_of_ne_nil (cons_ne_nil _ _), ih (cons_ne_nil _ _) x]
        simp
  rw [Range.str, Range.str, map_append, map_singleton,
    hinter _ (by simpa using hne), append_assoc]

/-! ## 4. What is pending -/

/-- A request for the whole object, or for ranges in it that are not rejected. -/
inductive Allowed (content : Str → List α) (r : SegmentRequest) : Prop
  | whole : r.range = none → Allowed content r
  | ranges {header : Str} {ranges : List RangeSpec} {p : Int × Int} {out : List (Int × Int)} :
      r.range = some header → Range.ofStr header = some ranges →
      (∀ s ∈ ranges, SpecWithin (content r.path).length s) →
      rangesForLength (some ((content r.path).length : Int)) ranges = some (p :: out) → Allowed content r

/-- What an allowed request fetches, as ranges. -/
theorem Allowed.serve_eq {r : SegmentRequest} (h : Allowed content r) (hpos : 1 ≤ (content r.path).length) :
    ∃ ranges : List RangeSpec, ranges ≠ [] ∧ (∀ s ∈ ranges, SpecWithin (content r.path).length s) ∧
      (match r.getRange with
        | some ranges => Range.str ranges
        | none => RANGE_UNIT ++ ("0-".toList ++ intStr ((content r.path).length - 1))) = Range.str ranges ∧
      serve content r = ranges.flatMap (specBytes (content r.path)) := by
  cases h with
  | whole hnone =>
    have hget : r.getRange = none := by rw [SegmentRequest.getRange, hnone, bind_none]
    refine ⟨[(some 0, some ((content r.path).length - 1))], cons_ne_nil _ _, fun s hs => ?_, ?_, ?_⟩
    · obtain rfl := mem_singleton.mp hs
      exact .bounded le_rfl (by omega) (by omega)
    · rw [hget]
      simp [Range.str, specStr, boundStr, intStr]
    · rw [serve, hget, bind_none, flatMap_singleton, specBytes, specForLength, if_pos (by omega)]
      simp [partsOf, window_all]
  | @ranges header ranges p out hsome hread hwithin hout =>
    have hget : r.getRange = some ranges := by rw [SegmentRequest.getRange, hsome, bind_some, hread]
    refine ⟨ranges, (parsed_of_ofStr hread).1, hwithin, by rw [hget], ?_⟩
    rw [serve, hget, bind_some, hout]
    exact partsOf_rangesForLength (parsed_of_ofStr hread).1 hout

/-- The ranges of a segment, as one. -/
def ListedSegment.spec (s : ListedSegment) (size : Int) : RangeSpec :=
  if s.rangeval.isSome then (some (s.firstByte.getD 0), if s.goToEnd then none else s.lastByte)
  else (some 0, some (size - 1))

variable {s : ListedSegment}

theorem ListedSegment.goToEnd_iff {size : Int} (hsize : s.size = some size) :
    s.goToEnd = true ↔ s.lastByte.getD (size - 1) = size - 1 := by
  rw [goToEnd, hsize]
  cases s.lastByte with
  | none => simp
  | some last => simp

/-- **The bytes of a segment are those of its range.** -/
theorem ListedSegment.Valid.spec_eq (h : s.Valid content) :
    SpecWithin (content s.path).length (s.spec (content s.path).length) ∧
      specBytes (content s.path) (s.spec (content s.path).length) = s.bytes content ∧
      ∀ rangeval ∈ s.rangeval, rangeval = specStr (s.spec (content s.path).length) := by
  have hend := goToEnd_iff h.size_eq
  have hfirst := h.first_nonneg
  have hle := h.first_le
  have hlast := h.last_lt
  rw [spec, rangeval, bytes, specBytes]
  by_cases hgo : s.goToEnd = true
  · -- up to the end of the object
    have hlength := hend.mp hgo
    by_cases hzero : s.firstByte.getD 0 = 0
    · rw [if_neg (by simp [hzero, hgo])]
      refine ⟨.bounded le_rfl (by omega) (by omega), ?_, fun r hr => ?_⟩
      · rw [specForLength, if_pos (by omega), hzero, hlength]
        simp [partsOf]
      · rw [if_neg (by simp [hzero, hgo])] at hr
        cases hr
    · rw [if_pos (Or.inl hzero), isSome_some, if_pos rfl, if_pos hgo]
      refine ⟨.from hfirst (by omega), ?_, fun r hr => ?_⟩
      · rw [specForLength, if_pos (by omega), hlength]
        simp [partsOf]
      · rw [← Option.some.inj hr, if_pos hgo]
        rfl
  · have hnone : s.lastByte ≠ none := fun hn => hgo (by rw [goToEnd, hn]; rfl)
    obtain ⟨last, hl⟩ := ne_none_iff_exists'.mp hnone
    rw [hl, getD_some] at hle hlast hend
    rw [if_pos (Or.inr (by simpa using hgo)), isSome_some, if_pos rfl, if_neg hgo, hl]
    refine ⟨.bounded hfirst hle (by omega), ?_, fun r hr => ?_⟩
    · rw [specForLength, if_pos (by omega), min_eq_left (by omega), getD_some]
      simp [partsOf]
    · rw [← Option.some.inj hr, if_neg hgo]
      rfl

/-- **A segment's own request** fetches its bytes. -/
theorem ListedSegment.Valid.request_spec (h : s.Valid content) :
    Allowed content s.request ∧ serve content s.request = s.bytes content ∧
      (s.request.getRange = none ↔ s.rangeval = none) := by
  obtain ⟨hwithin, hbytes, hval⟩ := h.spec_eq
  cases hr : s.rangeval with
  | none =>
    have hget : s.request.getRange = none := by
      rw [SegmentRequest.getRange, request, hr, map_none, bind_none]
    refine ⟨.whole (by rw [request, hr, map_none]), ?_, iff_of_true hget rfl⟩
    rw [← hbytes, serve, hget, bind_none, spec, hr, if_neg (by simp), specBytes, specForLength]
    have hpos : (0 : Int) < (content s.path).length := h.first_nonneg.trans_lt (h.first_le.trans_lt h.last_lt)
    rw [if_pos hpos]
    simp [partsOf, window_all, request]
  | some rangeval =>
    set spec := s.spec (content s.path).length with hspec
    have hheader : s.request.range = some (Range.str [spec]) := by
      rw [request, hr, map_some, hval rangeval hr, Range.str]
      simp
    have hread : Range.ofStr (Range.str [spec]) = some [spec] :=
      Range.ofStr_str_of_parsed (cons_ne_nil _ _) (by simpa using hwithin.parsed)
    obtain ⟨p, hp⟩ := isSome_iff_exists.mp hwithin.isSome
    have hout : rangesForLength (some ((content s.path).length : Int)) [spec] = some [p] := by
      rw [rangesForLength_singleton, hp]
      rfl
    have hget : s.request.getRange = some [spec] := by rw [SegmentRequest.getRange, hheader, bind_some, hread]
    have hpath : s.request.path = s.path := rfl
    refine ⟨.ranges hheader hread (by simpa [hpath] using hwithin) hout, ?_, iff_of_false (by simp [hget]) (by simp)⟩
    rw [← hbytes, serve, hget, bind_some, hpath, hout, specBytes, hp]
    rfl

/-- What a listing has been turned into so far: requests that fetch the bytes of its
    segments, the pending one among them. -/
structure Fetches (content : Str → List α) (acc : List PendingRequest × Option PendingRequest) (bytes : List α) :
    Prop where
  bytes_eq : (acc.1 ++ acc.2.toList).flatMap (fun p => serve content p.1) = bytes
  allowed : ∀ p ∈ acc.2, Allowed content p.1

/-- **One segment more.** -/
theorem fetches_step {acc : List PendingRequest × Option PendingRequest} {bytes : List α}
    (h : Fetches content acc bytes) (hs : s.Valid content) :
    ∃ acc', coalesceStep acc s = some acc' ∧ Fetches content acc' (bytes ++ s.bytes content) := by
  obtain ⟨yielded, pending⟩ := acc
  obtain ⟨hallowed, hserve, hgetRange⟩ := hs.request_spec
  -- the pending request is yielded, and that of the segment is pending
  have hnext : Fetches content (yielded ++ pending.toList, some (s.request, s.etag, s.size))
      (bytes ++ s.bytes content) := by
    refine ⟨?_, fun p hp => Option.some.inj hp ▸ hallowed⟩
    rw [flatMap_append, h.bytes_eq]
    simp [hserve]
  cases pending with
  | none => exact ⟨_, rfl, hnext⟩
  | some p =>
    obtain ⟨pending, etag, pendingSize⟩ := p
    rw [coalesceStep, hs.size_eq]
    simp only
    rw [hs.size_eq] at hnext
    by_cases hpath : pending.path = s.path
    · rw [if_pos hpath]
      have hpending : Allowed content pending := h.allowed _ rfl
      have hpos : 1 ≤ (content pending.path).length := by
        have := hs.first_nonneg
        have := hs.first_le
        have := hs.last_lt
        rw [hpath]
        omega
      obtain ⟨ranges, hne, hwithin, hstr, hpendingServe⟩ := hpending.serve_eq hpos
      obtain ⟨hspecWithin, hbytes, hval⟩ := hs.spec_eq
      set spec := s.spec (content s.path).length with hspec
      rw [hpath] at hwithin hstr hpendingServe
      -- what the two ask for together
      have hnew : newRangeStr pending s (content s.path).length = Range.str (ranges ++ [spec]) := by
        rw [newRangeStr, hstr, ← Range.str_append hne]
        congr 2
        cases hr : s.rangeval with
        | none =>
          rw [hgetRange.mpr hr, hspec, ListedSegment.spec, hr, if_neg (by simp)]
          simp [specStr, boundStr, intStr]
        | some rangeval =>
          obtain ⟨own, hown⟩ := ne_none_iff_exists'.mp fun hnone => by simp [hr] at hgetRange; exact hgetRange hnone
          rw [hown]
          exact hval rangeval hr
      have hall : ∀ r ∈ ranges ++ [spec], SpecWithin (content s.path).length r := by
        intro r hr
        rcases mem_append.mp hr with hr | hr
        · exact hwithin r hr
        · exact mem_singleton.mp hr ▸ hspecWithin
      have hread := Range.ofStr_str_of_parsed (append_ne_nil_of_left_ne_nil hne [spec]) fun r hr => (hall r hr).parsed
      rw [hnew, hread, bind_eq_bind, bind_some]
      cases hout : rangesForLength (some ((content s.path).length : Int)) (ranges ++ [spec]) with
      | none => exact ⟨_, rfl, hnext⟩
      | some out =>
        cases out with
        | nil => exact ⟨_, rfl, hnext⟩
        | cons p out =>
          refine ⟨_, rfl, ?_, fun q hq => ?_⟩
          · have hget : ({ pending with range := some (Range.str (ranges ++ [spec])) } : SegmentRequest).getRange
                = some (ranges ++ [spec]) := hread
            have hserved : serve content { pending with range := some (Range.str (ranges ++ [spec])) }
                = ranges.flatMap (specBytes (content s.path)) ++ s.bytes content := by
              rw [serve, hget, bind_some, hpath, hout, ← hbytes]
              simpa using partsOf_rangesForLength (append_ne_nil_of_left_ne_nil hne [spec]) hout
            rw [← h.bytes_eq]
            simp [hserved, hpendingServe]
          · obtain rfl := Option.some.inj hq
            exact .ranges rfl hread (by rwa [hpath]) (by rwa [hpath])
    · rw [if_neg hpath]
      exact ⟨_, rfl, hnext⟩

theorem fetches_foldlM {listing : List ListedSegment} (hvalid : ∀ s ∈ listing, s.Valid content)
    {acc : List PendingRequest × Option PendingRequest} {bytes : List α} (h : Fetches content acc bytes) :
    ∃ acc', listing.foldlM coalesceStep acc = some acc' ∧
      Fetches content acc' (bytes ++ listing.flatMap (ListedSegment.bytes content)) := by
  induction listing generalizing acc bytes with
  | nil => exact ⟨acc, rfl, by rwa [flatMap_nil, append_nil]⟩
  | cons s listing ih =>
    obtain ⟨next, hstep, hnext⟩ := fetches_step h (hvalid s mem_cons_self)
    obtain ⟨last, hrest, hlast⟩ := ih (fun x hx => hvalid x (mem_cons_of_mem _ hx)) hnext
    refine ⟨last, ?_, ?_⟩
    · rw [foldlM_cons, hstep]
      exact hrest
    · rwa [flatMap_cons, ← append_assoc]

/-- **Coalescing keeps the bytes.** The requests of a listing are made without an error,
    and fetch what the segments fetch one by one. -/
theorem coalesce_serve (content : Str → List α) {listing : List ListedSegment}
    (hvalid : ∀ s ∈ listing, s.Valid content) :
    ∃ requests, coalesceRequests listing = some requests ∧
      requests.flatMap (fun p => serve content p.1) = listing.flatMap (fun s => serve content s.request) ∧
      requests.flatMap (fun p => serve content p.1) = listing.flatMap (ListedSegment.bytes content) := by
  have hempty : Fetches content ([], none) [] := ⟨rfl, fun _ hp => nomatch hp⟩
  obtain ⟨acc, hfold, hfetches⟩ := fetches_foldlM hvalid hempty
  have hseparate : listing.flatMap (fun s => serve content s.request) = listing.flatMap (ListedSegment.bytes content) :=
    flatMap_congr fun s hs => (hvalid s hs).request_spec.2.1
  refine ⟨acc.1 ++ acc.2.toList, by rw [coalesceRequests, hfold]; rfl, ?_⟩
  rw [hseparate, and_self, hfetches.bytes_eq, nil_append]

end Within

/-- Three ranges of one object, one of them to its end, are one request. -/
theorem coalesce_serve_three :
    let content : Str → List Nat := fun _ => [0, 1, 2, 3, 4, 5, 6, 7]
    let listed (first last : Option Int) : ListedSegment := ⟨"/c/o".toList, [], some 8, first, last⟩
    let listing := [listed none (some 2), listed (some 4) none, listed (some 1) (some 1)]
    ((coalesceRequests listing).map fun requests => requests.map fun p => p.1.range) =
        some [some "bytes=0-2,4-,1-1".toList] ∧
      ∃ requests, coalesceRequests listing = some requests ∧
        requests.flatMap (fun p => serve content p.1) = listing.flatMap (fun s => serve content s.request) ∧
        requests.flatMap (fun p => serve content p.1) = listing.flatMap (ListedSegment.bytes content) :=
  ⟨by decide +kernel, coalesce_serve _ (by
    intro s hs
    fin_cases hs <;> exact ⟨rfl, by decide, by decide, by decide⟩)⟩

end Mitaka.Swift
