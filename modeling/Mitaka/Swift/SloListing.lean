/-
  Subject: swift/common/middleware/slo.py, `SloGetContext._segment_length` and
           `_segment_listing_iterator`.

  A manifest is a list of segments, each an object or a manifest of its own, possibly
  with a sub-range. The iterator walks it with a window of bytes that moves along:
  both bounds are relative to the segment at hand and go negative on purpose.

  `Denotes` says which bytes a manifest tree stands for. The slices listed for a
  window denote that window of them (`listing_denotes`): by induction on the tree,
  the window of a concatenation being the windows of its parts.
-/
import Mitaka.Lib.Window
import Mitaka.Swift.ContentType

namespace Mitaka.Swift

open Numeral

/-! ## 1. Segments -/

/-- A segment dict of a manifest. -/
structure SloSegment where
  name : Str
  bytes : Int
  contentType : Str
  range : Option Str
  subSlo : Bool
  deriving DecidableEq

/-- The exceptions of the iterator. -/
inductive SloError where
  | listingIterError (message : Str)
  | valueError
  deriving DecidableEq

/-- A segment with the first and the last byte wanted of it. -/
abbrev SloSlice := SloSegment × Int × Int

/-- Both ends of a sub-range `N-M`. -/
def rangeEnds (segRange : Str) : Except SloError (Int × Int) :=
  match segRange.splitOn '-' with
  | [a, b] =>
    match pyInt a, pyInt b with
    | some a, some b => .ok (a, b)
    | _, _ => .error .valueError
  | _ => .error .valueError

/-- `_segment_length`. -/
def segmentLength (seg : SloSegment) : Except SloError Int :=
  match seg.range with
  | some r => (rangeEnds r).map fun ends => ends.2 - ends.1 + 1
  | none => .ok seg.bytes

/-- The sum over the segments. -/
def totalLength : List SloSegment → Except SloError Int
  | [] => .ok 0
  | seg :: segs => (segmentLength seg).bind fun n => (totalLength segs).map (n + ·)

/-- `override_bytes_from_content_type`, for a sub-manifest. -/
def SloSegment.override (seg : SloSegment) : SloSegment :=
  if seg.subSlo then
    { seg with
      contentType := (overrideBytes seg.contentType seg.bytes).1
      bytes := (overrideBytes seg.contentType seg.bytes).2 }
  else seg

/-! ## 2. The iterator -/

/-- A listing of the segments of a manifest, for a window. -/
abbrev ListingIterator := List SloSegment → Option Int → Option Int → Except SloError (List SloSlice)

/-- `range_start` and `range_end`. -/
def segmentEnds (seg : SloSegment) (segLength : Int) : Except SloError (Int × Int) :=
  match seg.range with
  | none => .ok (0, segLength - 1)
  | some r => rangeEnds r

/-- `sub_segments`: fetched, unless they are of the same path as the last ones. -/
def subSegments (fetch : Str → Except SloError (List SloSegment))
    (lastSub : Option (Str × List SloSegment)) (subPath : Str) : Except SloError (List SloSegment) :=
  match lastSub with
  | some (lastSubPath, segs) => if lastSubPath = subPath then .ok segs else fetch subPath
  | none => fetch subPath

/-- The loop over the segments. `fetch` is `split_path` with
    `_fetch_sub_slo_segments`, `recurse` the iterator for a sub-manifest, absent when
    the recursion depth is reached. The last argument is `last_sub_path` with
    `sub_segments`, as the iterator over them left them. -/
def listSegments (fetch : Str → Except SloError (List SloSegment)) (recurse : Option ListingIterator) :
    List SloSegment → Int → Int → Option (Str × List SloSegment) → Except SloError (List SloSlice)
  | [], _, _, _ => .ok []
  | seg :: segs, firstByte, lastByte, lastSub =>
    (segmentLength seg).bind fun segLength =>
    if firstByte ≥ segLength then
      -- no bytes of this segment
      listSegments fetch recurse segs (firstByte - segLength) (lastByte - segLength) lastSub
    else if lastByte < 0 then .ok []
    else
      (segmentEnds seg segLength).bind fun (rangeStart, rangeEnd) =>
      if seg.subSlo then
        match recurse with
        | none => .error (.listingIterError "Max recursion depth exceeded".toList)
        | some recurse =>
          (subSegments fetch lastSub seg.name).bind fun sub =>
          (recurse sub (some (rangeStart + max 0 firstByte))
            (some (min rangeEnd (rangeStart + lastByte)))).bind fun slices =>
          (listSegments fetch (some recurse) segs (firstByte - segLength) (lastByte - segLength)
            (some (seg.name, sub.map SloSegment.override))).map (slices ++ ·)
      else
        (listSegments fetch recurse segs (firstByte - segLength) (lastByte - segLength) lastSub).map
          ((seg, max 0 firstByte + rangeStart, min rangeEnd (rangeStart + lastByte)) :: ·)

/-- The body of `_segment_listing_iterator`. -/
def listManifest (fetch : Str → Except SloError (List SloSegment)) (recurse : Option ListingIterator) : ListingIterator :=
  fun segments firstByte lastByte =>
    let segments := segments.map SloSegment.override
    (totalLength segments).bind fun total =>
    listSegments fetch recurse segments (firstByte.getD 0) (lastByte.getD (total - 1)) none

/-- `_segment_listing_iterator`, by how much deeper it may go. -/
def segmentListing (fetch : Str → Except SloError (List SloSegment)) : Nat → ListingIterator
  | 0 => listManifest fetch none
  | depth + 1 => listManifest fetch (some (segmentListing fetch depth))

def maxSloRecursionDepth : Nat := 10

/-- `_segment_listing_iterator` with `recursion_depth=1`. -/
def segmentListingIterator (fetch : Str → Except SloError (List SloSegment)) : ListingIterator :=
  segmentListing fetch (maxSloRecursionDepth - 1)

/-! ## 3. What a manifest stands for -/

/-- The bytes of the segment's object that are part of the whole: all of them, or
    those of its sub-range. -/
inductive Ends (seg : SloSegment) : Int → Int → Prop
  | whole : seg.range = none → 0 < seg.bytes → Ends seg 0 (seg.bytes - 1)
  | part {n m : Nat} : seg.range = some (Nat.toDigits 10 n ++ '-' :: Nat.toDigits 10 m) → n ≤ m →
      (m : Int) < seg.bytes → Ends seg n m

/-- The bytes `d` of a manifest tree that is nested at most `depth` deep. -/
inductive Denotes {α : Type} (fetch : Str → Except SloError (List SloSegment)) (content : Str → List α) :
    Nat → List SloSegment → List α → Prop
  | nil (depth : Nat) : Denotes fetch content depth [] []
  | object {depth : Nat} {seg : SloSegment} {segs : List SloSegment} {lo hi : Int} {rest : List α} :
      seg.subSlo = false → ((content seg.name).length : Int) = seg.bytes → Ends seg lo hi →
      Denotes fetch content depth segs rest →
      Denotes fetch content depth (seg :: segs) (window (content seg.name) lo hi ++ rest)
  | manifest {depth : Nat} {seg : SloSegment} {segs sub : List SloSegment} {lo hi : Int} {d rest : List α} :
      seg.subSlo = true → fetch seg.name = .ok sub → Denotes fetch content depth sub d →
      (d.length : Int) = seg.override.bytes → Ends seg.override lo hi →
      Denotes fetch content (depth + 1) segs rest →
      Denotes fetch content (depth + 1) (seg :: segs) (window d lo hi ++ rest)

/-- The bytes that slices fetch. -/
def bytesOf {α : Type} (content : Str → List α) (slices : List SloSlice) : List α :=
  slices.flatMap fun s => window (content s.1.name) s.2.1 s.2.2

/-! ## 4. Segments of a tree -/

theorem override_override (seg : SloSegment) : seg.override.override = seg.override := by
  obtain ⟨name, bytes, contentType, range, subSlo⟩ := seg
  cases subSlo with
  | false => rfl
  | true => simp [SloSegment.override, overrideBytes_overrideBytes]

theorem map_override_override (segs : List SloSegment) :
    (segs.map SloSegment.override).map SloSegment.override = segs.map SloSegment.override := by
  rw [List.map_map]
  exact List.map_congr_left fun seg _ => override_override seg

theorem override_subSlo (seg : SloSegment) : seg.override.subSlo = seg.subSlo := by
  unfold SloSegment.override
  split <;> rfl

theorem override_name (seg : SloSegment) : seg.override.name = seg.name := by
  unfold SloSegment.override
  split <;> rfl

theorem override_of_not {seg : SloSegment} (h : seg.subSlo = false) : seg.override = seg := by
  rw [SloSegment.override, if_neg (by simp [h])]

theorem rangeEnds_print (n m : Nat) :
    rangeEnds (Nat.toDigits 10 n ++ '-' :: Nat.toDigits 10 m) = .ok ((n : Int), (m : Int)) := by
  have hsplit : (Nat.toDigits 10 n ++ '-' :: Nat.toDigits 10 m).splitOn '-' =
      [Nat.toDigits 10 n, Nat.toDigits 10 m] := by
    have hn : '-' ∉ Nat.toDigits 10 n := separator_notMem_toDigits (by norm_num) (by norm_num) n (by simp)
    have hm : '-' ∉ Nat.toDigits 10 m := separator_notMem_toDigits (by norm_num) (by norm_num) m (by simp)
    rw [List.splitOn_append_cons_self, List.splitOn_eq_singleton hn, List.splitOn_eq_singleton hm]
    rfl
  rw [rangeEnds, hsplit]
  dsimp only
  rw [pyInt_toDigits, pyInt_toDigits]

/-- What the iterator works out of a sub-range. -/
theorem Ends.spec {seg : SloSegment} {lo hi : Int} (h : Ends seg lo hi) :
    segmentLength seg = .ok (hi - lo + 1) ∧ segmentEnds seg (hi - lo + 1) = .ok (lo, hi) ∧
      0 ≤ lo ∧ lo ≤ hi ∧ hi < seg.bytes := by
  cases h with
  | whole hr hb =>
    rw [segmentLength, segmentEnds, hr]
    refine ⟨congrArg Except.ok (by omega), congrArg Except.ok (Prod.ext rfl (by dsimp only; omega)),
      le_rfl, by omega, by omega⟩
  | part hr hnm hm =>
    rw [segmentLength, segmentEnds, hr]
    dsimp only
    rw [rangeEnds_print]
    exact ⟨rfl, rfl, by omega, by omega, hm⟩

/-! ## 5. The slices of a window -/

section Slices

variable {α : Type} {fetch : Str → Except SloError (List SloSegment)} {content : Str → List α}
  {d e : List α} {first last lo hi : Int} {seg : SloSegment} {segs : List SloSegment}

/-- The slices denote the window, and each is a part of its segment that is not empty. -/
def Lists (content : Str → List α) (result : Except SloError (List SloSlice)) (d : List α)
    (first last : Int) : Prop :=
  ∃ slices, result = .ok slices ∧ bytesOf content slices = window d first last ∧
    ∀ s ∈ slices, s.1.subSlo = false ∧ ∃ lo hi, Ends s.1 lo hi ∧ lo ≤ s.2.1 ∧ s.2.1 ≤ s.2.2 ∧ s.2.2 ≤ hi

/-- The iterator one level down. -/
def deeper (fetch : Str → Except SloError (List SloSegment)) : Nat → Option ListingIterator
  | 0 => none
  | depth + 1 => some (segmentListing fetch depth)

theorem segmentListing_eq (depth : Nat) :
    segmentListing fetch depth = listManifest fetch (deeper fetch depth) := by
  cases depth <;> rfl

/-- What the iterator remembers of the last sub-manifest is what it would fetch. -/
def Cached (fetch : Str → Except SloError (List SloSegment)) (lastSub : Option (Str × List SloSegment)) :
    Prop :=
  ∀ p segs, lastSub = some (p, segs) → ∃ sub, fetch p = .ok sub ∧
    segs.map SloSegment.override = sub.map SloSegment.override

theorem Cached.subSegments {lastSub : Option (Str × List SloSegment)} (h : Cached fetch lastSub)
    {p : Str} {sub : List SloSegment} (hp : fetch p = .ok sub) :
    ∃ segs, subSegments fetch lastSub p = .ok segs ∧
      segs.map SloSegment.override = sub.map SloSegment.override := by
  unfold Swift.subSegments
  cases lastSub with
  | none => exact ⟨sub, hp, rfl⟩
  | some c =>
    obtain ⟨q, segs⟩ := c
    dsimp only
    by_cases hq : q = p
    · obtain ⟨sub', hsub, he⟩ := h q segs rfl
      rw [if_pos hq]
      rw [hq, hp] at hsub
      exact ⟨segs, rfl, by rw [he, Except.ok.inj hsub]⟩
    · rw [if_neg hq]
      exact ⟨sub, hp, rfl⟩

/-- The part of a whole that a segment stands for. -/
theorem length_part (h : Ends seg lo hi) (hd : (d.length : Int) = seg.bytes) :
    ((window d lo hi).length : Int) = hi - lo + 1 := by
  obtain ⟨-, -, h0, h1, h2⟩ := h.spec
  rw [length_window]
  omega

/-- **A segment that the window leaves out, or that ends it.** -/
theorem lists_cons {recurse : Option ListingIterator} {lastSub : Option (Str × List SloSegment)}
    (hends : Ends seg lo hi) (hd : (d.length : Int) = seg.bytes)
    (hskip : hi - lo + 1 ≤ first → Lists content (listSegments fetch recurse segs
      (first - (hi - lo + 1)) (last - (hi - lo + 1)) lastSub) e
      (first - (hi - lo + 1)) (last - (hi - lo + 1)))
    (htake : first < hi - lo + 1 → 0 ≤ last → Lists content
      (listSegments fetch recurse (seg :: segs) first last lastSub) (window d lo hi ++ e) first last) :
    Lists content (listSegments fetch recurse (seg :: segs) first last lastSub)
      (window d lo hi ++ e) first last := by
  obtain ⟨hlen, -, h0, h1, h2⟩ := hends.spec
  have hpart := length_part hends hd
  by_cases hf : hi - lo + 1 ≤ first
  · obtain ⟨slices, hs, hb, hin⟩ := hskip hf
    refine ⟨slices, ?_, ?_, hin⟩
    · rw [listSegments, hlen]
      show (if first ≥ hi - lo + 1 then _ else _) = _
      rw [if_pos hf, hs]
    · rw [window_append, hpart, window_eq_nil (Or.inl (by omega)), List.nil_append, hb]
  · by_cases hl : last < 0
    · refine ⟨[], ?_, ?_, fun s hs => by cases hs⟩
      · rw [listSegments, hlen]
        show (if first ≥ hi - lo + 1 then _ else if last < 0 then _ else _) = _
        rw [if_neg hf, if_pos hl]
      · rw [window_eq_nil (Or.inr (Or.inr hl))]
        rfl
    · exact htake (not_le.mp hf) (not_lt.mp hl)

/-- Slices of a segment, and those of the segments behind it. -/
theorem Lists.append {r r' : Except SloError (List SloSlice)} (hpart : ((window d lo hi).length : Int) =
      hi - lo + 1) (h0 : 0 ≤ lo)
    (h : Lists content r d (lo + max 0 first) (min hi (lo + last)))
    (h' : Lists content r' e (first - (hi - lo + 1)) (last - (hi - lo + 1))) :
    Lists content (r.bind fun slices => r'.map (slices ++ ·)) (window d lo hi ++ e) first last := by
  obtain ⟨slices, rfl, hb, hin⟩ := h
  obtain ⟨slices', rfl, hb', hin'⟩ := h'
  refine ⟨slices ++ slices', rfl, ?_, fun s hs => (List.mem_append.mp hs).elim (hin s) (hin' s)⟩
  rw [bytesOf, List.flatMap_append, window_append, hpart, window_window d h0]
  exact congrArg₂ (· ++ ·) hb hb'

/-- **One slice of an object.** -/
theorem lists_object (hends : Ends seg lo hi) (hsub : seg.subSlo = false)
    (hf : first < hi - lo + 1) (hl : 0 ≤ last) (hle : first ≤ last) :
    Lists content (.ok [(seg, max 0 first + lo, min hi (lo + last))]) (content seg.name)
      (lo + max 0 first) (min hi (lo + last)) := by
  obtain ⟨-, -, h0, h1, h2⟩ := hends.spec
  refine ⟨_, rfl, ?_, fun s hs => ?_⟩
  · rw [bytesOf, List.flatMap_singleton, add_comm (max 0 first)]
  · obtain rfl := List.mem_singleton.mp hs
    exact ⟨hsub, lo, hi, hends, by dsimp only; omega, by dsimp only; omega, by dsimp only; omega⟩

/-- **What a manifest tree stands for, and what is listed of it.** By induction on the
    tree; the window is carried along. -/
theorem listSegments_denotes {depth : Nat} (h : Denotes fetch content depth segs d) :
    totalLength (segs.map SloSegment.override) = .ok (d.length : Int) ∧
    ∀ depth', depth ≤ depth' → ∀ first last, first ≤ last → ∀ lastSub, Cached fetch lastSub →
      Lists content (listSegments fetch (deeper fetch depth') (segs.map SloSegment.override)
        first last lastSub) d first last := by
  induction h with
  | nil depth =>
    refine ⟨rfl, fun depth' _ first last _ lastSub _ => ⟨[], rfl, ?_, fun s hs => by cases hs⟩⟩
    simp [bytesOf, window]
  | @object depth seg segs lo hi rest hsub hlen hends _ ih =>
    obtain ⟨htotal, hlist⟩ := ih
    obtain ⟨hn, hse, h0, h1, h2⟩ := hends.spec
    have hpart := length_part hends hlen
    rw [List.map_cons, override_of_not hsub]
    refine ⟨?_, fun depth' hdepth first last hle lastSub hc => ?_⟩
    · rw [totalLength, hn, htotal, List.length_append, Nat.cast_add, hpart]
      rfl
    · have hrest := hlist depth' hdepth (first - (hi - lo + 1)) (last - (hi - lo + 1)) (by omega)
        lastSub hc
      refine lists_cons hends hlen (fun _ => hrest) fun hf hl => ?_
      have heq : listSegments fetch (deeper fetch depth') (seg :: segs.map SloSegment.override) first
          last lastSub = (Except.ok [(seg, max 0 first + lo, min hi (lo + last))]).bind fun slices =>
            (listSegments fetch (deeper fetch depth') (segs.map SloSegment.override)
              (first - (hi - lo + 1)) (last - (hi - lo + 1)) lastSub).map (slices ++ ·) := by
        rw [listSegments, hn]
        show (if first ≥ hi - lo + 1 then _ else if last < 0 then _ else _) = _
        rw [if_neg (not_le.mpr hf), if_neg (not_lt.mpr hl), hse]
        show (if seg.subSlo = true then _ else _) = _
        rw [if_neg (by simp [hsub])]
        rfl
      rw [heq]
      exact (lists_object hends hsub hf hl hle).append hpart h0 hrest
  | @manifest depth seg segs sub lo hi d rest hsub hfetch _ hlen hends _ ihsub ih =>
    obtain ⟨htotal, hlist⟩ := ih
    obtain ⟨hsubtotal, hsublist⟩ := ihsub
    obtain ⟨hn, hse, h0, h1, h2⟩ := hends.spec
    have hpart := length_part hends hlen
    rw [List.map_cons]
    refine ⟨?_, fun depth' hdepth first last hle lastSub hc => ?_⟩
    · rw [totalLength, hn, htotal, List.length_append, Nat.cast_add, hpart]
      rfl
    · obtain ⟨depth', rfl⟩ : ∃ n, depth' = n + 1 := ⟨depth' - 1, by omega⟩
      obtain ⟨cached, hcached, hsame⟩ := hc.subSegments hfetch
      refine lists_cons hends hlen (fun _ => hlist _ hdepth _ _ (by omega) lastSub hc) fun hf hl => ?_
      have hrest := hlist _ hdepth (first - (hi - lo + 1)) (last - (hi - lo + 1)) (by omega)
        (some (seg.name, cached.map SloSegment.override)) fun p segs' hp => by
          obtain ⟨rfl, rfl⟩ := Prod.mk.inj (Option.some.inj hp)
          exact ⟨sub, hfetch, by rw [map_override_override, hsame]⟩
      have hinner : Lists content (segmentListing fetch depth' cached (some (lo + max 0 first))
          (some (min hi (lo + last)))) d (lo + max 0 first) (min hi (lo + last)) := by
        rw [segmentListing_eq, listManifest, hsame, hsubtotal]
        have hinv : lo + max 0 first ≤ min hi (lo + last) := by omega
        exact hsublist depth' (by omega) _ _ hinv none fun p segs' hp => by cases hp
      have heq : listSegments fetch (deeper fetch (depth' + 1)) (seg.override ::
          segs.map SloSegment.override) first last lastSub =
            (segmentListing fetch depth' cached (some (lo + max 0 first))
              (some (min hi (lo + last)))).bind fun slices =>
            (listSegments fetch (deeper fetch (depth' + 1)) (segs.map SloSegment.override)
              (first - (hi - lo + 1)) (last - (hi - lo + 1))
              (some (seg.name, cached.map SloSegment.override))).map (slices ++ ·) := by
        rw [listSegments, hn]
        show (if first ≥ hi - lo + 1 then _ else if last < 0 then _ else _) = _
        rw [if_neg (not_le.mpr hf), if_neg (not_lt.mpr hl), hse]
        show (if seg.override.subSlo = true then _ else _) = _
        rw [if_pos (by rw [override_subSlo, hsub]), override_name]
        show (Swift.subSegments fetch lastSub seg.name).bind _ = _
        rw [hcached]
        rfl
      rw [heq]
      exact hinner.append hpart h0 hrest

end Slices

/-- The iterator at the top. -/
theorem segmentListingIterator_eq {α : Type} {fetch : Str → Except SloError (List SloSegment)}
    {content : Str → List α} {depth : Nat} {segments : List SloSegment} {d : List α}
    (h : Denotes fetch content depth segments d) (a b : Option Int) :
    segmentListingIterator fetch segments a b =
      listSegments fetch (deeper fetch (maxSloRecursionDepth - 1)) (segments.map SloSegment.override)
        (a.getD 0) (b.getD (d.length - 1)) none := by
  rw [segmentListingIterator, segmentListing_eq, listManifest, (listSegments_denotes h).1]
  rfl

/-- **Static large objects**: for every manifest tree nested less deep than the
    iterator goes, and every window of the bytes it stands for, the slices are those
    bytes in order, and each is a part of its segment that is not empty. -/
theorem segment_listing_denotes {α : Type} {fetch : Str → Except SloError (List SloSegment)}
    {content : Str → List α} {depth : Nat} (hdepth : depth < maxSloRecursionDepth)
    {segments : List SloSegment} {d : List α} (h : Denotes fetch content depth segments d)
    {a b : Int} (hab : a ≤ b) :
    ∃ slices, segmentListingIterator fetch segments (some a) (some b) = .ok slices ∧
      bytesOf content slices = window d a b ∧
      ∀ s ∈ slices, s.1.subSlo = false ∧ 0 ≤ s.2.1 ∧ s.2.1 ≤ s.2.2 ∧ s.2.2 < s.1.bytes ∧
        ∃ lo hi, Ends s.1 lo hi ∧ lo ≤ s.2.1 ∧ s.2.2 ≤ hi := by
  obtain ⟨slices, hs, hbytes, hin⟩ := (listSegments_denotes h).2 (maxSloRecursionDepth - 1)
    (by omega) a b hab none fun p segs' hp => nomatch hp
  refine ⟨slices, (segmentListingIterator_eq h _ _).trans hs, hbytes, fun s hmem => ?_⟩
  obtain ⟨hsub, lo, hi, hends, h1, h2, h3⟩ := hin s hmem
  obtain ⟨-, -, h0, -, hlt⟩ := hends.spec
  exact ⟨hsub, by omega, h2, by omega, lo, hi, hends, h1, h3⟩

/-- Two objects; a manifest of bytes 1-3 of the one and all of the other; and a manifest
    that has bytes 1-4 of that one twice. -/
def sloContent (name : Str) : List Nat :=
  if name = "/c/a".toList then [10, 11, 12, 13, 14] else [20, 21, 22]

def sloSub : List SloSegment :=
  [⟨"/c/a".toList, 5, [], some "1-3".toList, false⟩, ⟨"/c/b".toList, 3, [], none, false⟩]

def sloFetch (name : Str) : Except SloError (List SloSegment) :=
  if name = "/c/m".toList then .ok sloSub else .error .valueError

def sloPart : SloSegment :=
  ⟨"/c/m".toList, 0, "text/plain;swift_bytes=6".toList, some "1-4".toList, true⟩

theorem denotes_sloSub : Denotes sloFetch sloContent 0 sloSub [11, 12, 13, 20, 21, 22] := by
  have ha : Ends ⟨"/c/a".toList, 5, [], some "1-3".toList, false⟩ (1 : Nat) (3 : Nat) :=
    Ends.part (by decide) (by decide) (by decide)
  have hb : Ends ⟨"/c/b".toList, 3, [], none, false⟩ 0 2 := Ends.whole rfl (by decide)
  exact Denotes.object rfl (by decide) ha (Denotes.object rfl (by decide) hb (Denotes.nil 0))

theorem denotes_sloParts : Denotes sloFetch sloContent 1 [sloPart, sloPart]
    [12, 13, 20, 21, 12, 13, 20, 21] := by
  have hends : Ends sloPart.override (1 : Nat) (4 : Nat) :=
    Ends.part (by decide +kernel) (by decide) (by decide +kernel)
  have hlen : (([11, 12, 13, 20, 21, 22] : List Nat).length : Int) = sloPart.override.bytes := by
    decide +kernel
  exact Denotes.manifest rfl (by decide) denotes_sloSub hlen hends
    (Denotes.manifest rfl (by decide) denotes_sloSub hlen hends (Denotes.nil 1))

/-- Bytes 1 to 5: across both references. -/
theorem segment_listing_denotes_twice : ∃ slices,
    segmentListingIterator sloFetch [sloPart, sloPart] (some 1) (some 5) = .ok slices ∧
    bytesOf sloContent slices = [13, 20, 21, 12, 13] := by
  obtain ⟨slices, hs, hb, -⟩ := segment_listing_denotes (by decide) denotes_sloParts
    (by decide : (1 : Int) ≤ 5)
  exact ⟨slices, hs, hb⟩

end Mitaka.Swift
