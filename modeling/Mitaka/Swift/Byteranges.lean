/-
  Subject: multipart/byteranges documents: swift/common/utils.py,
           `document_iters_to_multipart_byteranges`, `iter_multipart_mime_documents`,
           `parse_mime_headers`, `mime_to_document_iters` and
           `multipart_byteranges_to_document_iters`; swift/common/header_key_dict.py.

  The headers of a part are read by the language's own parser of mail headers, embedded
  here as far as one header block without a body goes.
-/
import Mitaka.Lib.Dict
import Mitaka.Swift.MimeReader

namespace Mitaka.Swift

open Numeral List

/-! ## 1. The document -/

/-- A range spec; `partIter` are the chunks of the body. -/
structure ByteRange where
  startByte : ℕ
  endByte : ℕ
  entityLength : ℕ
  contentType : Str
  partIter : List Str

namespace ByteRange

def body (r : ByteRange) : Str := r.partIter.flatten

/-- `bytes %d-%d/%s`. -/
def contentRange (r : ByteRange) : Str :=
  "bytes ".toList ++ (intStr r.startByte ++ '-' :: (intStr r.endByte ++ '/' :: intStr r.entityLength))

end ByteRange

def contentTypeLine (r : ByteRange) : Str := "Content-Type: ".toList ++ r.contentType

def contentRangeLine (r : ByteRange) : Str := "Content-Range: ".toList ++ r.contentRange

/-- `document_iters_to_multipart_byteranges`: the chunks of the document. -/
def documentItersToMultipartByteranges (ranges : List ByteRange) (boundary : Str) : List Str :=
  let divider := "--".toList ++ boundary ++ CRLF
  let terminator := "--".toList ++ boundary ++ "--".toList
  (ranges.flatMap fun r =>
    [divider ++ contentTypeLine r ++ CRLF ++ contentRangeLine r ++ CRLF ++ CRLF] ++ r.partIter ++ [CRLF]) ++ [terminator]

/-! ## 2. Headers -/

/-- The lines of a text, each with its end. -/
def crackLines : Str → Str → List Str
  | line, [] => if line = [] then [] else [line]
  | line, '\r' :: '\n' :: s => (line ++ CRLF) :: crackLines [] s
  | line, c :: s => if c = '\n' ∨ c = '\r' then (line ++ [c]) :: crackLines [] s else crackLines (line ++ [c]) s

/-- `[\041-\071\073-\176]`. -/
def isFieldChar (c : Char) : Bool :=
  (33 ≤ c.toNat && c.toNat ≤ 57) || (59 ≤ c.toNat && c.toNat ≤ 126)

def isContinuation (line : Str) : Bool := line.head? = some ' ' || line.head? = some '\t'

/-- `headerRE`. -/
def isHeaderLine (line : Str) : Bool :=
  decide ("From ".toList <+: line) || isContinuation line ||
    (!(line.takeWhile isFieldChar).isEmpty && (line.dropWhile isFieldChar).head? = some ':')

/-- `rstrip("\r\n")`. -/
def rstripNewlines (s : Str) : Str := (s.reverse.dropWhile fun c => c = '\r' || c = '\n').reverse

/-- `_parse_headers`, behind the last header and the lines of its value. -/
def parseFields : Option (Str × Str) → List Str → List (Str × Str)
  | last, [] => (last.map fun (name, value) => (name, rstripNewlines value)).toList
  | last, line :: lines =>
    if isContinuation line then parseFields (last.map fun (name, value) => (name, value ++ line)) lines
    else
      (last.map fun (name, value) => (name, rstripNewlines value.dropLast)).toList ++
        if "From ".toList <+: line then parseFields none lines
        else
          let name := line.takeWhile (· ≠ ':')
          parseFields (some (name, ((line.drop (name.length + 1)).dropWhile isSpace))) lines

/-- `Parser().parsestr(text)`, without the body. -/
def parseHeaders (text : Str) : List (Str × Str) := parseFields none ((crackLines [] text).takeWhile isHeaderLine)

/-- `str.title`; `inWord`: behind a letter. -/
def title : Bool → Str → Str
  | _, [] => []
  | inWord, c :: s => (if inWord then c.toLower else c.toUpper) :: title c.isAlpha s

/-- The first header of a name. -/
def header (fields : List (Str × Str)) (name : Str) : Option Str :=
  (fields.find? fun f => f.1.map Char.toLower = name.map Char.toLower).map Prod.snd

/-- `HeaderKeyDict(message)`. -/
def headerKeyDict (fields : List (Str × Str)) : Dict Str Str :=
  (fields.map Prod.fst).foldl (fun d name => match header fields name with
    | some value => d.set (title false name) value
    | none => d) []

/-- `HeaderKeyDict.get`. -/
def getHeader (headers : Dict Str Str) (name : Str) : Option Str := headers.get (title false name)

/-! ## 3. The reader -/

inductive MimeError
  | mimeInvalid
  | valueError
  | endless
  deriving DecidableEq

/-- A part as it comes out: the bounds, the length, the headers and the body. -/
abbrev Document := ℕ × ℕ × ℕ × Dict Str Str × Str

section Reader

variable (boundary : Str) (readChunkSize : ℕ)

/-- The lines of `parse_mime_headers`. -/
def headerLines : ℕ → MimeFileLikeObject → Except MimeError (List Str × MimeFileLikeObject)
  | 0, _ => .error .endless
  | fuel + 1, docFile =>
    let (line, docFile) := docFile.readline boundary readChunkSize
    if line = CRLF ∨ line = ['\n'] ∨ line = [] then .ok ([line], docFile)
    else do
      let (lines, docFile) ← headerLines fuel docFile
      return (line :: lines, docFile)

/-- `parse_mime_headers`. -/
def parseMimeHeaders (docFile : MimeFileLikeObject) : Except MimeError (Dict Str Str × MimeFileLikeObject) := do
  let (lines, docFile) ← headerLines boundary readChunkSize (docFile.stream.length + 1) docFile
  return (headerKeyDict (parseHeaders lines.flatten), docFile)

/-- The documents of a file behind its first boundary, each read to its end by a consumer:
    `sizes i` are the sizes that it asks for in the part `i`. -/
def documents : ℕ → (ℕ → ℕ → ℕ) → InputFile → Str → Except MimeError (List Document)
  | 0, _, _, _ => .error .endless
  | fuel + 1, sizes, wsgiInput, inputBuffer => do
    let (headers, it) ← parseMimeHeaders boundary readChunkSize ⟨false, false, wsgiInput, inputBuffer⟩
    match (getHeader headers "content-range".toList).bind parseContentRange with
    | none => .error .valueError
    | some (firstByte, lastByte, length) =>
      match it.readToEnd boundary readChunkSize (it.stream.length + 1) (sizes 0) with
      | none => .error .endless
      | some (body, it) =>
        if it.noMoreFiles then return [(firstByte, lastByte, length, headers, body)]
        else
          let more ← documents fuel (fun i => sizes (i + 1)) it.wsgiInput it.inputBuffer
          return (firstByte, lastByte, length, headers, body) :: more

end Reader

/-- The first line that is not empty; `blen` bytes of it at most. -/
def firstLine (blen : ℕ) : ℕ → InputFile → Except MimeError (Str × InputFile)
  | 0, _ => .error .endless
  | fuel + 1, wsgiInput =>
    let (got, wsgiInput) := wsgiInput.readline blen
    if got = CRLF then firstLine blen fuel wsgiInput else .ok (got, wsgiInput)

/-- `multipart_byteranges_to_document_iters`, with its consumer. -/
def multipartByterangesToDocumentIters (inputFile : InputFile) (boundary : Str) (readChunkSize : ℕ)
    (sizes : ℕ → ℕ → ℕ) : Except MimeError (List Document) := do
  let boundary := "--".toList ++ boundary
  let (got, wsgiInput) ← firstLine (boundary.length + 2) (inputFile.rest.length + 1) inputFile
  if strip got ≠ boundary then .error .mimeInvalid
  else documents (CRLF ++ boundary) readChunkSize (wsgiInput.rest.length + 1) sizes wsgiInput []

/-! ## 4. The headers of a part -/

theorem crackLines_line {line : Str} (hn : '\n' ∉ line) (hr : '\r' ∉ line) (before s : Str) :
    crackLines before (line ++ (CRLF ++ s)) = (before ++ line ++ CRLF) :: crackLines [] s := by
  induction line generalizing before with
  | nil =>
    rw [append_nil]
    rfl
  | cons c line ih =>
    have hc : ¬ (c = '\n' ∨ c = '\r') := by
      rintro (rfl | rfl)
      · exact hn mem_cons_self
      · exact hr mem_cons_self
    have hstep : crackLines before (c :: (line ++ (CRLF ++ s))) = crackLines (before ++ [c]) (line ++ (CRLF ++ s)) := by
      rw [crackLines, if_neg hc]
      intro _ hreturn
      exact (hc (.inr hreturn)).elim
    rw [cons_append, hstep, ih (fun h => hn (mem_cons_of_mem _ h)) (fun h => hr (mem_cons_of_mem _ h)),
      append_assoc before, singleton_append]

/-- Line ends go, and nothing else. -/
theorem rstripNewlines_line {line : Str} (hn : '\n' ∉ line) (hr : '\r' ∉ line) {ends : Str}
    (hends : ∀ c ∈ ends, c = '\r' ∨ c = '\n') : rstripNewlines (line ++ ends) = line := by
  have hall : ∀ c ∈ ends.reverse, (decide (c = '\r') || decide (c = '\n')) = true := fun c hc => by
    rw [Bool.or_eq_true, decide_eq_true_eq, decide_eq_true_eq]
    exact hends c (mem_reverse.mp hc)
  have hnone : ∀ c ∈ line.reverse.head?, (decide (c = '\r') || decide (c = '\n')) = false := fun c hc => by
    have hmem := mem_reverse.mp (mem_of_mem_head? hc)
    rw [Bool.or_eq_false_iff, decide_eq_false_iff_not, decide_eq_false_iff_not]
    exact ⟨fun h => hr (h ▸ hmem), fun h => hn (h ▸ hmem)⟩
  rw [rstripNewlines, reverse_append, dropWhile_append_of_pos hall, dropWhile_of_head hnone, reverse_reverse]

/-- A value that comes back from a header line as it went in. -/
structure ValueKept (value : Str) : Prop where
  newline : '\n' ∉ value
  carriage : '\r' ∉ value
  head : ∀ c ∈ value.head?, isSpace c = false

variable {value : Str}

theorem ValueKept.lstrip (h : ValueKept value) :
    (' ' :: (value ++ CRLF)).dropWhile isSpace = if value = [] then [] else value ++ CRLF := by
  rw [dropWhile_cons_of_pos (by decide)]
  cases value with
  | nil => rfl
  | cons c value =>
    rw [if_neg (cons_ne_nil _ _)]
    exact dropWhile_of_head fun d hd => h.head d hd

theorem ValueKept.last (h : ValueKept value) :
    rstripNewlines ((' ' :: (value ++ CRLF)).dropWhile isSpace) = value := by
  rw [h.lstrip]
  split
  · next hnil =>
    rw [hnil]
    rfl
  · exact rstripNewlines_line h.newline h.carriage fun c hc => mem_pair.mp hc

theorem ValueKept.inner (h : ValueKept value) :
    rstripNewlines ((' ' :: (value ++ CRLF)).dropWhile isSpace).dropLast = value := by
  rw [h.lstrip]
  split
  · next hnil =>
    rw [hnil]
    rfl
  · rw [dropLast_append_of_ne_nil (by decide)]
    exact rstripNewlines_line h.newline h.carriage fun c hc => .inl (mem_singleton.mp hc)

theorem ByteRange.valueKept_contentRange (r : ByteRange) : ValueKept r.contentRange := by
  have hnot : ∀ c, c ∈ ['\n', '\r'] → c ∉ r.contentRange := by
    intro c hc hmem
    have hdigits : ∀ n : ℕ, c ∉ intStr n := fun n hn => by
      have hcode := toNat_of_mem_toDigits (n := n) hn
      rcases mem_pair.mp hc with rfl | rfl
      · exact absurd hcode (by decide)
      · exact absurd hcode (by decide)
    have hplain : c ∉ '-' :: '/' :: "bytes ".toList := by
      rcases mem_pair.mp hc with rfl | rfl
      · decide
      · decide
    rcases mem_append.mp hmem with hmem | hmem
    · exact hplain (mem_cons_of_mem _ (mem_cons_of_mem _ hmem))
    rw [mem_append, mem_cons, mem_append, mem_cons] at hmem
    rcases hmem with hmem | hmem | hmem | hmem | hmem
    · exact hdigits _ hmem
    · exact hplain (hmem ▸ mem_cons_self)
    · exact hdigits _ hmem
    · exact hplain (hmem ▸ mem_cons_of_mem _ mem_cons_self)
    · exact hdigits _ hmem
  refine ⟨hnot _ (by decide), hnot _ (by decide), fun c hc => ?_⟩
  obtain rfl : 'b' = c := Option.some.inj hc
  decide

/-- A header line, of a name without a line end. -/
theorem ValueKept.line (h : ValueKept value) {name : Str} (hn : '\n' ∉ name) (hr : '\r' ∉ name) :
    '\n' ∉ name ++ value ∧ '\r' ∉ name ++ value := by
  refine ⟨fun hmem => ?_, fun hmem => ?_⟩
  · rcases mem_append.mp hmem with hmem | hmem
    · exact hn hmem
    · exact h.newline hmem
  · rcases mem_append.mp hmem with hmem | hmem
    · exact hr hmem
    · exact h.carriage hmem

theorem not_mem_contentTypeLine {r : ByteRange} (h : ValueKept r.contentType) :
    '\n' ∉ contentTypeLine r ∧ '\r' ∉ contentTypeLine r := h.line (by decide) (by decide)

theorem not_mem_contentRangeLine (r : ByteRange) : '\n' ∉ contentRangeLine r ∧ '\r' ∉ contentRangeLine r :=
  r.valueKept_contentRange.line (by decide) (by decide)

/-- **The headers of a part come back.** -/
theorem parseHeaders_part {r : ByteRange} (h : ValueKept r.contentType) :
    parseHeaders (contentTypeLine r ++ (CRLF ++ (contentRangeLine r ++ (CRLF ++ CRLF)))) =
      [("Content-Type".toList, r.contentType), ("Content-Range".toList, r.contentRange)] := by
  obtain ⟨hn, hr⟩ := not_mem_contentTypeLine h
  obtain ⟨hn', hr'⟩ := not_mem_contentRangeLine r
  have hlines : crackLines [] (contentTypeLine r ++ (CRLF ++ (contentRangeLine r ++ (CRLF ++ CRLF)))) =
      [contentTypeLine r ++ CRLF, contentRangeLine r ++ CRLF, CRLF] := by
    rw [crackLines_line hn hr, crackLines_line hn' hr', nil_append, nil_append]
    rfl
  have hfields : parseFields none [contentTypeLine r ++ CRLF, contentRangeLine r ++ CRLF] =
      [("Content-Type".toList, rstripNewlines ((' ' :: (r.contentType ++ CRLF)).dropWhile isSpace).dropLast),
        ("Content-Range".toList, rstripNewlines ((' ' :: (r.contentRange ++ CRLF)).dropWhile isSpace))] := rfl
  rw [parseHeaders, hlines]
  have htake : [contentTypeLine r ++ CRLF, contentRangeLine r ++ CRLF, CRLF].takeWhile isHeaderLine =
      [contentTypeLine r ++ CRLF, contentRangeLine r ++ CRLF] := rfl
  rw [htake, hfields, h.inner, r.valueKept_contentRange.last]

/-- The headers of a part, as a dict. -/
def ByteRange.headers (r : ByteRange) : Dict Str Str :=
  [("Content-Type".toList, r.contentType), ("Content-Range".toList, r.contentRange)]

theorem getHeader_part (r : ByteRange) : (getHeader r.headers "content-range".toList).bind parseContentRange =
    some (r.startByte, r.endByte, r.entityLength) := by
  have hvalue : r.contentRange = contentRangeHeaderValue r.startByte (r.endByte + 1) r.entityLength := by
    unfold contentRangeHeaderValue
    simp only [add_sub_cancel_right]
    rfl
  have hget : getHeader r.headers "content-range".toList = some r.contentRange := rfl
  rw [hget, Option.bind_some, hvalue]
  exact parseContentRange_headerValue _ _ _

/-! ## 5. The boundary -/

/-- A boundary that the first line is recognized by. -/
structure BoundaryKept (boundary : Str) : Prop where
  newline : '\n' ∉ boundary
  last : ∀ c ∈ boundary.getLast?, isSpace c = false

/-- What stands between two parts. -/
def dashed (boundary : Str) : Str := "--".toList ++ boundary

section Boundary

variable {boundary : Str}

theorem BoundaryKept.not_mem (h : BoundaryKept boundary) : '\n' ∉ dashed boundary := by
  intro hmem
  rcases mem_append.mp hmem with hmem | hmem
  · exact absurd hmem (by decide)
  · exact h.newline hmem

theorem BoundaryKept.dashed_last (h : BoundaryKept boundary) : ∀ c ∈ (dashed boundary).getLast?, isSpace c = false := by
  intro c hc
  rw [dashed, getLast?_append] at hc
  cases hlast : boundary.getLast? with
  | none =>
    rw [hlast] at hc
    obtain rfl : '-' = c := Option.some.inj hc
    decide
  | some d =>
    rw [hlast] at hc
    obtain rfl : d = c := Option.some.inj hc
    exact h.last d hlast

/-- A text without the boundary, and a line end: the boundary does not begin in it. -/
theorem BoundaryKept.not_prefix (h : BoundaryKept boundary) {text : Str} (hnot : ¬ boundary <:+: text) (more : Str) :
    ¬ dashed boundary <+: text ++ (CRLF ++ more) := by
  intro hprefix
  rcases prefix_or_prefix_of_prefix hprefix (prefix_append text (CRLF ++ more)) with hle | ⟨rest, hrest⟩
  · exact hnot ((suffix_append _ _).isInfix.trans hle.isInfix)
  · rw [← hrest, prefix_append_right_inj] at hprefix
    have hlast := h.dashed_last
    have hline := h.not_mem
    rw [← hrest] at hlast hline
    cases rest with
    | nil =>
      rw [append_nil] at hrest
      exact hnot (hrest ▸ (suffix_append _ _).isInfix)
    | cons c rest =>
      obtain ⟨rfl, hnext⟩ := cons_prefix_cons.mp hprefix
      cases rest with
      | nil => exact absurd (hlast '\r' (by rw [getLast?_append]; rfl)) (by decide)
      | cons d rest =>
        obtain rfl := (cons_prefix_cons.mp hnext).1
        exact hline (by simp)

/-- **The end of a body** is the first place of the boundary. -/
theorem BoundaryKept.first_body (h : BoundaryKept boundary) {body : Str} (hnot : ¬ boundary <:+: body) (more : Str) :
    First (CRLF ++ dashed boundary) (body ++ (CRLF ++ dashed boundary ++ more)) body.length := by
  induction body with
  | nil => exact .zero (prefix_append _ _)
  | cons c body ih =>
    have hrest : ¬ boundary <:+: body := fun hin => hnot (hin.trans (suffix_cons c body).isInfix)
    refine .cons (fun hprefix => ?_) (ih hrest)
    have hnext := (cons_prefix_cons.mp hprefix).2
    cases body with
    | nil =>
      have hc : '\n' = '\r' := (cons_prefix_cons.mp hnext).1
      exact absurd hc (by decide)
    | cons d body =>
      have hdashed := (cons_prefix_cons.mp hnext).2
      refine h.not_prefix (fun hin => hrest (hin.trans (suffix_cons d body).isInfix)) (dashed boundary ++ more) ?_
      rwa [← append_assoc CRLF]

/-- Behind a line, where the next one does not begin with the boundary. -/
theorem first_behind_line {line text : Str} {p : ℕ} (hline : '\n' ∉ line) (hnext : ¬ dashed boundary <+: text)
    (h : First (CRLF ++ dashed boundary) text p) :
    First (CRLF ++ dashed boundary) (line ++ (CRLF ++ text)) (line.length + (2 + p)) := by
  induction line with
  | nil =>
    rw [nil_append, length_nil, Nat.zero_add, Nat.add_comm]
    refine .cons (fun hprefix => ?_) (.cons (fun hprefix => ?_) h)
    · exact hnext (cons_prefix_cons.mp (cons_prefix_cons.mp hprefix).2).2
    · have hc : '\r' = '\n' := (cons_prefix_cons.mp hprefix).1
      exact absurd hc (by decide)
  | cons c line ih =>
    rw [length_cons, Nat.add_right_comm]
    exact .cons (MimeFileLikeObject.not_prefix_line hline _ _) (ih fun hmem => hline (mem_cons_of_mem _ hmem))

/-- Lines, an empty one, and a body. -/
def headed (lines : List Str) (body : Str) : Str := lines.foldr (fun line text => line ++ (CRLF ++ text)) (CRLF ++ body)

/-- A line of the headers: it has no end in it, and does not begin as the boundary does. -/
def IsHeader (line : Str) : Prop := '\n' ∉ line ∧ ∃ c rest, c ≠ '-' ∧ line = c :: rest

theorem not_prefix_headed {lines : List Str} (hlines : ∀ line ∈ lines, IsHeader line) (body more : Str) :
    ¬ dashed boundary <+: headed lines body ++ more := by
  intro hprefix
  cases lines with
  | nil =>
    have hc : '-' = '\r' := (cons_prefix_cons.mp hprefix).1
    exact absurd hc (by decide)
  | cons line lines =>
    obtain ⟨-, c, rest, hc, rfl⟩ := hlines line mem_cons_self
    exact hc (cons_prefix_cons.mp hprefix).1.symm

theorem BoundaryKept.first_headed (h : BoundaryKept boundary) {lines : List Str} (hlines : ∀ line ∈ lines, IsHeader line)
    {body : Str} (hnot : ¬ boundary <:+: body) (more : Str) :
    First (CRLF ++ dashed boundary) (headed lines body ++ (CRLF ++ dashed boundary ++ more)) (headed lines body).length := by
  induction lines with
  | nil =>
    have hbody : ¬ dashed boundary <+: body ++ (CRLF ++ dashed boundary ++ more) := by
      rw [append_assoc CRLF]
      exact h.not_prefix hnot _
    have hfirst := first_behind_line (not_mem_nil (a := '\n')) hbody (h.first_body hnot more)
    rw [length_nil, Nat.zero_add] at hfirst
    rw [headed, foldr_nil, length_append]
    exact hfirst
  | cons line lines ih =>
    have hrest := fun l hl => hlines l (mem_cons_of_mem line hl)
    have hfirst := first_behind_line (hlines line mem_cons_self).1
      (not_prefix_headed hrest body (CRLF ++ dashed boundary ++ more)) (ih hrest)
    rw [headed, foldr_cons, ← headed, length_append, length_append, append_assoc, append_assoc CRLF]
    exact hfirst

end Boundary

/-! ## 6. A part -/

section Part

open MimeFileLikeObject

variable {boundary : Str} {readChunkSize : ℕ}

variable {body tail : Str}

theorem length_le_stream {it : MimeFileLikeObject} (h : Left boundary it body tail) :
    body.length ≤ it.stream.length := by
  cases h with
  | running _ hstream _ _ =>
    rw [hstream, length_append]
    exact Nat.le_add_right _ _
  | done _ _ _ => exact Nat.zero_le _

theorem length_le_headed (lines : List Str) (body : Str) : lines.length ≤ (headed lines body).length := by
  induction lines with
  | nil => exact Nat.zero_le _
  | cons line lines ih =>
    rw [headed, foldr_cons, ← headed, length_cons, length_append, length_append]
    have htwo : CRLF.length = 2 := rfl
    omega

theorem headerLines_spec (hne : boundary ≠ []) (hchunk : 1 ≤ readChunkSize) {lines : List Str}
    (hlines : ∀ line ∈ lines, IsHeader line) {docFile : MimeFileLikeObject}
    (h : Left boundary docFile (headed lines body) tail) {fuel : ℕ} (hfuel : lines.length < fuel) :
    ∃ docFile', headerLines boundary readChunkSize fuel docFile =
        .ok (lines.map (· ++ CRLF) ++ [CRLF], docFile') ∧ Left boundary docFile' body tail := by
  induction lines generalizing docFile fuel with
  | nil =>
    obtain ⟨fuel, rfl⟩ := Nat.exists_eq_succ_of_ne_zero (Nat.ne_of_gt hfuel)
    have hempty : Left boundary docFile ([] ++ (CRLF ++ body)) tail := h
    obtain ⟨hline, hleft⟩ := hempty.readline hne hchunk not_mem_nil
    have hread : docFile.readline boundary readChunkSize = (CRLF, (docFile.readline boundary readChunkSize).2) :=
      Prod.ext hline rfl
    refine ⟨_, ?_, hleft⟩
    rw [headerLines, hread]
    exact if_pos (.inl rfl)
  | cons line lines ih =>
    obtain ⟨fuel, rfl⟩ := Nat.exists_eq_succ_of_ne_zero (Nat.ne_of_gt (Nat.zero_lt_of_lt hfuel))
    obtain ⟨hnewline, c, rest, hc, hcons⟩ := hlines line mem_cons_self
    obtain ⟨hline, hleft⟩ := Left.readline hne hchunk hnewline h
    have hread : docFile.readline boundary readChunkSize = (line ++ CRLF, (docFile.readline boundary readChunkSize).2) :=
      Prod.ext hline rfl
    obtain ⟨docFile', hmore, hleft'⟩ := ih (fun l hl => hlines l (mem_cons_of_mem _ hl)) hleft
      (Nat.lt_of_succ_lt_succ hfuel)
    refine ⟨docFile', ?_, hleft'⟩
    have hlong : ¬ (line ++ CRLF = CRLF ∨ line ++ CRLF = ['\n'] ∨ line ++ CRLF = []) := by
      rw [hcons]
      rintro (h | h | h)
      · exact absurd (congrArg List.length h) (by simp [CRLF])
      · exact absurd (congrArg List.length h) (by simp [CRLF])
      · cases h
    rw [headerLines, hread]
    dsimp only
    rw [if_neg hlong, hmore]
    rfl

/-- The lines of a part. -/
def ByteRange.lines (r : ByteRange) : List Str := [contentTypeLine r, contentRangeLine r]

theorem ByteRange.isHeader_lines {r : ByteRange} (h : ValueKept r.contentType) : ∀ line ∈ r.lines, IsHeader line := by
  intro line hline
  rcases mem_pair.mp hline with rfl | rfl
  · exact ⟨(not_mem_contentTypeLine h).1, 'C', _, by decide, rfl⟩
  · exact ⟨(not_mem_contentRangeLine r).1, 'C', _, by decide, rfl⟩

/-- **The headers are read**, and the body is left. -/
theorem parseMimeHeaders_spec (hne : boundary ≠ []) (hchunk : 1 ≤ readChunkSize) {r : ByteRange}
    (hkept : ValueKept r.contentType) {docFile : MimeFileLikeObject}
    (h : Left boundary docFile (headed r.lines body) tail) :
    ∃ docFile', parseMimeHeaders boundary readChunkSize docFile = .ok (r.headers, docFile') ∧
      Left boundary docFile' body tail := by
  have hfuel : r.lines.length < docFile.stream.length + 1 :=
    Nat.lt_succ_of_le ((length_le_headed r.lines body).trans (length_le_stream h))
  obtain ⟨docFile', hlines, hleft⟩ := headerLines_spec hne hchunk (r.isHeader_lines hkept) h hfuel
  refine ⟨docFile', ?_, hleft⟩
  have htext : (r.lines.map (· ++ CRLF) ++ [CRLF]).flatten =
      contentTypeLine r ++ (CRLF ++ (contentRangeLine r ++ (CRLF ++ CRLF))) := by
    simp [ByteRange.lines]
  rw [parseMimeHeaders, hlines]
  simp only [bind, Except.bind, htext, parseHeaders_part hkept]
  rfl

end Part

/-! ## 7. The round trip -/

/-- What is to come out of a range. -/
def ByteRange.document (r : ByteRange) : Document := (r.startByte, r.endByte, r.entityLength, r.headers, r.body)

/-- The document behind a boundary. -/
def afterBoundary (boundary : Str) : List ByteRange → Str
  | [] => "--".toList
  | r :: ranges => CRLF ++ (headed r.lines r.body ++ (CRLF ++ dashed boundary ++ afterBoundary boundary ranges))

theorem flatten_document (ranges : List ByteRange) (boundary : Str) :
    (documentItersToMultipartByteranges ranges boundary).flatten = dashed boundary ++ afterBoundary boundary ranges := by
  induction ranges with
  | nil => simp [documentItersToMultipartByteranges, afterBoundary, dashed]
  | cons r ranges ih =>
    have hstep : (documentItersToMultipartByteranges (r :: ranges) boundary).flatten =
        dashed boundary ++ CRLF ++ contentTypeLine r ++ CRLF ++ contentRangeLine r ++ CRLF ++ CRLF ++ r.body ++ CRLF ++
          (documentItersToMultipartByteranges ranges boundary).flatten := by
      simp [documentItersToMultipartByteranges, dashed, ByteRange.body]
    rw [hstep, ih]
    simp [afterBoundary, headed, ByteRange.lines]

theorem length_le_afterBoundary (boundary : Str) (ranges : List ByteRange) : ranges.length ≤ (afterBoundary boundary ranges).length := by
  induction ranges with
  | nil => exact Nat.zero_le _
  | cons r ranges ih =>
    rw [afterBoundary, length_cons, length_append, length_append, length_append]
    have htwo : CRLF.length = 2 := rfl
    omega

/-- Two bytes behind a boundary say whether there is a part. -/
theorem afterBoundary_start (boundary : Str) (ranges : List ByteRange) : 2 ≤ (afterBoundary boundary ranges).length ∧
    decide ((afterBoundary boundary ranges).take 2 = "--".toList) = ranges.isEmpty := by
  cases ranges with
  | nil => exact ⟨le_rfl, rfl⟩
  | cons r ranges => exact ⟨Nat.le_add_left _ _, rfl⟩

section RoundTrip

variable {boundary : Str} {readChunkSize : ℕ}

/-- One part, and the rest of the file. -/
theorem documents_part (hkept : BoundaryKept boundary) (hchunk : 1 ≤ readChunkSize) {r : ByteRange} (htype : ValueKept r.contentType)
    (hbody : ¬ boundary <:+: r.body) {tail : Str} (htail : 2 ≤ tail.length) {wsgiInput : InputFile} {inputBuffer : Str}
    (hstream : inputBuffer ++ wsgiInput.rest = headed r.lines r.body ++ (CRLF ++ dashed boundary ++ tail)) (fuel : ℕ)
    (sizes : ℕ → ℕ → ℕ) : ∃ wsgiInput' inputBuffer', inputBuffer' ++ wsgiInput'.rest = tail.drop 2 ∧
      documents (CRLF ++ dashed boundary) readChunkSize (fuel + 1) sizes wsgiInput inputBuffer =
        if tail.take 2 = "--".toList then .ok [r.document]
        else (documents (CRLF ++ dashed boundary) readChunkSize fuel (fun i => sizes (i + 1)) wsgiInput' inputBuffer').map
          (r.document :: ·) := by
  have hne : CRLF ++ dashed boundary ≠ [] := cons_ne_nil _ _
  have hleft : MimeFileLikeObject.Left (CRLF ++ dashed boundary) ⟨false, false, wsgiInput, inputBuffer⟩
      (headed r.lines r.body) tail :=
    .running rfl hstream (hkept.first_headed (r.isHeader_lines htype) hbody tail) htail
  obtain ⟨it, hheaders, hleft⟩ := parseMimeHeaders_spec hne hchunk htype hleft
  obtain ⟨it', hread, hmore, hrest⟩ := hleft.readToEnd hne hchunk (Nat.lt_succ_of_le (length_le_stream hleft)) (sizes 0)
  refine ⟨it'.wsgiInput, it'.inputBuffer, hrest, ?_⟩
  rw [documents, hheaders]
  simp only [bind, Except.bind, getHeader_part, hread, hmore, decide_eq_true_eq]
  refine if_congr Iff.rfl rfl ?_
  cases documents (CRLF ++ dashed boundary) readChunkSize fuel (fun i => sizes (i + 1)) it'.wsgiInput it'.inputBuffer with
  | error _ => rfl
  | ok _ => rfl

/-- **The parts come out**, one after the other. -/
theorem documents_spec (hkept : BoundaryKept boundary) (hchunk : 1 ≤ readChunkSize) {r : ByteRange} {ranges : List ByteRange}
    (htype : ∀ s ∈ r :: ranges, ValueKept s.contentType) (hbody : ∀ s ∈ r :: ranges, ¬ boundary <:+: s.body)
    {wsgiInput : InputFile} {inputBuffer : Str} {fuel : ℕ} (hfuel : ranges.length < fuel) (sizes : ℕ → ℕ → ℕ)
    (hstream : inputBuffer ++ wsgiInput.rest =
      headed r.lines r.body ++ (CRLF ++ dashed boundary ++ afterBoundary boundary ranges)) :
    documents (CRLF ++ dashed boundary) readChunkSize fuel sizes wsgiInput inputBuffer =
      .ok ((r :: ranges).map ByteRange.document) := by
  induction ranges generalizing r wsgiInput inputBuffer fuel sizes with
  | nil =>
    obtain ⟨fuel, rfl⟩ := Nat.exists_eq_succ_of_ne_zero (Nat.ne_of_gt hfuel)
    obtain ⟨_, _, -, hpart⟩ := documents_part hkept hchunk (htype r mem_cons_self) (hbody r mem_cons_self)
      (afterBoundary_start boundary []).1 hstream fuel sizes
    exact hpart.trans (if_pos rfl)
  | cons r' ranges ih =>
    obtain ⟨fuel, rfl⟩ := Nat.exists_eq_succ_of_ne_zero (Nat.ne_of_gt (Nat.zero_lt_of_lt hfuel))
    obtain ⟨wsgiInput', inputBuffer', hrest, hpart⟩ := documents_part hkept hchunk (htype r mem_cons_self)
      (hbody r mem_cons_self) (afterBoundary_start boundary (r' :: ranges)).1 hstream fuel sizes
    have hmore := ih (fun s hs => htype s (mem_cons_of_mem r hs)) (fun s hs => hbody s (mem_cons_of_mem r hs))
      (Nat.lt_of_succ_lt_succ hfuel) (fun i => sizes (i + 1)) hrest
    rw [hpart, if_neg (of_decide_eq_false (afterBoundary_start boundary (r' :: ranges)).2), hmore]
    rfl

theorem lineOf_line {line : Str} (h : '\n' ∉ line) : InputFile.lineOf (line ++ CRLF) = line ++ CRLF := by
  induction line with
  | nil => rfl
  | cons c line ih =>
    have hc : c ≠ '\n' := fun hc => h (hc ▸ mem_cons_self)
    rw [cons_append, InputFile.lineOf, if_neg hc, ih fun hmem => h (mem_cons_of_mem _ hmem)]

/-- The first line is recognized. -/
theorem firstLine_spec (hkept : BoundaryKept boundary) (text : Str) (pace : List ℕ) (fuel : ℕ) :
    firstLine ((dashed boundary).length + 2) (fuel + 1) ⟨dashed boundary ++ (CRLF ++ text), pace⟩ =
      .ok (dashed boundary ++ CRLF, ⟨text, pace⟩) ∧ strip (dashed boundary ++ CRLF) = dashed boundary := by
  have htake : (dashed boundary ++ (CRLF ++ text)).take ((dashed boundary).length + 2) = dashed boundary ++ CRLF := by
    rw [← append_assoc]
    exact take_left' (by rw [length_append]; rfl)
  have hdrop : (dashed boundary ++ (CRLF ++ text)).drop (dashed boundary ++ CRLF).length = text := by
    rw [← append_assoc, drop_left]
  constructor
  · rw [firstLine, InputFile.readline]
    dsimp only
    rw [htake, lineOf_line hkept.not_mem, hdrop]
    exact if_neg (by simp [dashed, CRLF])
  · have hlast : ∀ c ∈ (dashed boundary).reverse.head?, isSpace c = false := by
      rw [head?_reverse]
      exact hkept.dashed_last
    have hhead : (dashed boundary ++ CRLF).dropWhile isSpace = dashed boundary ++ CRLF :=
      dropWhile_of_head fun c hc => by
        obtain rfl : '-' = c := Option.some.inj hc
        decide
    have hends : ∀ c ∈ CRLF.reverse, isSpace c = true := fun c hc => by
      rcases mem_pair.mp hc with rfl | rfl
      · decide
      · decide
    rw [strip, hhead, reverse_append, dropWhile_append_of_pos hends, dropWhile_of_head hlast,
      reverse_reverse]

/-- **The round trip of a multipart document**: ranges that are printed come back, with the
    same bodies and in order, however short the reads are and whatever sizes the consumer
    asks for. -/
theorem multipart_round_trip {ranges : List ByteRange} (hne : ranges ≠ []) (hkept : BoundaryKept boundary)
    (htype : ∀ r ∈ ranges, ValueKept r.contentType) (hbody : ∀ r ∈ ranges, ¬ boundary <:+: r.body)
    (hchunk : 1 ≤ readChunkSize) (pace : List ℕ) (sizes : ℕ → ℕ → ℕ) :
    multipartByterangesToDocumentIters ⟨(documentItersToMultipartByteranges ranges boundary).flatten, pace⟩ boundary
      readChunkSize sizes = .ok (ranges.map ByteRange.document) := by
  cases ranges with
  | nil => exact absurd rfl hne
  | cons r ranges =>
    obtain ⟨hfirst, hstrip⟩ := firstLine_spec hkept
      (headed r.lines r.body ++ (CRLF ++ dashed boundary ++ afterBoundary boundary ranges)) pace
      (dashed boundary ++ afterBoundary boundary (r :: ranges)).length
    have hdashed : "--".toList ++ boundary = dashed boundary := rfl
    rw [flatten_document, multipartByterangesToDocumentIters]
    dsimp only
    rw [afterBoundary] at hfirst ⊢
    rw [hdashed, hfirst]
    simp only [bind, Except.bind, hstrip, ne_eq, not_true_eq_false, if_false]
    refine documents_spec hkept hchunk htype hbody ?_ sizes rfl
    refine Nat.lt_succ_of_le ((length_le_afterBoundary boundary ranges).trans ?_)
    rw [length_append, length_append]
    omega

/-- Two ranges, the second without a type or a byte, in a file that gives one byte at a time
    at first, to a consumer that asks for one, two, three bytes. -/
theorem multipart_round_trip_two :
    multipartByterangesToDocumentIters
      ⟨(documentItersToMultipartByteranges
          [⟨0, 4, 9, ['a', '/', 'b'], [['-', '-'], [], ['\r', '\n', 'c']]⟩, ⟨7, 8, 9, [], []⟩] ['d']).flatten,
        [0, 0, 0, 0, 0, 0, 0, 0]⟩ ['d'] 7 (fun _ i => i + 1) =
      .ok [(0, 4, 9, [("Content-Type".toList, ['a', '/', 'b']), ("Content-Range".toList, "bytes 0-4/9".toList)],
          ['-', '-', '\r', '\n', 'c']),
        (7, 8, 9, [("Content-Type".toList, []), ("Content-Range".toList, "bytes 7-8/9".toList)], [])] := by
  have hlast : ∀ c ∈ ['d'].getLast?, isSpace c = false := fun c hc => by
    obtain rfl : 'd' = c := Option.some.inj hc
    decide
  refine (multipart_round_trip (by decide) ⟨by decide, hlast⟩ ?_ ?_ (by decide) _ _).trans rfl
  · intro r hr
    rcases mem_pair.mp hr with rfl | rfl
    · refine ⟨by decide, by decide, fun c hc => ?_⟩
      obtain rfl : 'a' = c := Option.some.inj hc
      decide
    · exact ⟨by decide, by decide, fun c hc => nomatch hc⟩
  · intro r hr
    rcases mem_pair.mp hr with rfl | rfl
    · decide
    · decide

/-- No ranges: the document is not one. A boundary that ends in a blank is not recognized;
    a type that begins with one comes back without it. -/
theorem multipart_not_kept :
    multipartByterangesToDocumentIters ⟨(documentItersToMultipartByteranges [] ['d']).flatten, []⟩ ['d'] 4096
      (fun _ _ => 0) = .error .mimeInvalid ∧
    multipartByterangesToDocumentIters
      ⟨(documentItersToMultipartByteranges [⟨0, 0, 9, ['a'], [['b']]⟩] ['d', ' ']).flatten, []⟩ ['d', ' '] 4096
      (fun _ _ => 0) = .error .mimeInvalid ∧
    multipartByterangesToDocumentIters
      ⟨(documentItersToMultipartByteranges [⟨0, 0, 9, [' ', 'a'], [['b']]⟩] ['d']).flatten, []⟩ ['d'] 4096
      (fun _ _ => 0) =
      .ok [(0, 0, 9, [("Content-Type".toList, ['a']), ("Content-Range".toList, "bytes 0-0/9".toList)], ['b'])] := by
  refine ⟨?_, ?_, ?_⟩
  · rfl
  · rfl
  · rfl

end RoundTrip

end Mitaka.Swift
