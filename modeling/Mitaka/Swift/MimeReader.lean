/-
  Subject: swift/common/utils.py, `_MultipartMimeFileLikeObject`: one part of a multipart
           document, read from a file that may return less than it is asked for.

  The bytes that are still to come are those of the buffer and of the file (`stream`). What
  a call does is said of them alone (`Left.read`, `Left.readline`).
-/
import Mitaka.Lib.Occurrence
import Mitaka.Swift.ContentRange

namespace Mitaka.Swift

open List

def CRLF : Str := ['\r', '\n']

/-! ## 1. The input -/

/-- A file: what is left in it, and how much less than asked the next reads return. A read
    at the end, and only there, returns nothing. -/
structure InputFile where
  rest : Str
  pace : List ℕ

namespace InputFile

/-- `read(size)`. -/
def read (f : InputFile) (size : ℕ) : Str × InputFile :=
  match f.pace with
  | [] => (f.rest.take size, ⟨f.rest.drop size, []⟩)
  | most :: pace => (f.rest.take (min size (most + 1)), ⟨f.rest.drop (min size (most + 1)), pace⟩)

/-- The first line, with its end. -/
def lineOf : Str → Str
  | [] => []
  | c :: s => if c = '\n' then [c] else c :: lineOf s

/-- `readline(size)`. -/
def readline (f : InputFile) (size : ℕ) : Str × InputFile :=
  let line := lineOf (f.rest.take size)
  (line, { f with rest := f.rest.drop line.length })

theorem read_spec (f : InputFile) {size : ℕ} (hsize : 1 ≤ size) :
    (f.read size).1 ++ (f.read size).2.rest = f.rest ∧ (f.read size).1.length ≤ size ∧
      ((f.read size).1 = [] → f.rest = []) := by
  have htake : ∀ n, 1 ≤ n → f.rest.take n = [] → f.rest = [] := fun n hn h => by
    rcases take_eq_nil_iff.mp h with h0 | h
    · omega
    · exact h
  obtain ⟨rest, pace⟩ := f
  cases pace with
  | nil =>
    refine ⟨take_append_drop _ _, ?_, htake size hsize⟩
    exact (length_take_le _ _)
  | cons most pace =>
    refine ⟨take_append_drop _ _, ?_, htake _ (by omega)⟩
    exact (length_take_le _ _).trans (min_le_left _ _)

end InputFile

/-! ## 2. One part -/

structure MimeFileLikeObject where
  noMoreDataForThisFile : Bool
  noMoreFiles : Bool
  wsgiInput : InputFile
  inputBuffer : Str

namespace MimeFileLikeObject

section Calls

variable (boundary : Str) (readChunkSize : ℕ)

/-- The loop of `read`: `toRead` bytes more in the buffer, or all there are. -/
def fill : ℕ → ℕ → MimeFileLikeObject → MimeFileLikeObject
  | 0, _, it => it
  | fuel + 1, toRead, it =>
    if toRead = 0 then it
    else
      let chunk := (it.wsgiInput.read toRead).1
      let it := { it with wsgiInput := (it.wsgiInput.read toRead).2, inputBuffer := it.inputBuffer ++ chunk }
      if chunk = [] then { it with noMoreFiles := true } else fill fuel (toRead - chunk.length) it

/-- The end of `read`: what stands before the boundary, `length` bytes of it at most. -/
def cut (length : ℕ) (it : MimeFileLikeObject) : Str × MimeFileLikeObject :=
  let plain := (it.inputBuffer.take length, { it with inputBuffer := it.inputBuffer.drop length })
  match find boundary it.inputBuffer with
  | none => plain
  | some boundaryPos =>
    if boundaryPos > length then plain
    else
      let behind := it.inputBuffer.drop (boundaryPos + boundary.length)
      (it.inputBuffer.take boundaryPos,
        { it with
          noMoreFiles := decide (behind.take 2 = "--".toList)
          noMoreDataForThisFile := true
          inputBuffer := behind.drop 2 })

/-- `read(length)`; 0 stands for `None` too. -/
def read (length : ℕ) (it : MimeFileLikeObject) : Str × MimeFileLikeObject :=
  let length := if length = 0 then readChunkSize else length
  if it.noMoreDataForThisFile then ([], it)
  else
    let enough := length + boundary.length + 2
    let it := if it.inputBuffer.length < enough then fill enough enough it else it
    it.cut boundary length

/-- The first loop of `readline`: chunks, up to one with a line end or the boundary. -/
def pull : ℕ → MimeFileLikeObject → MimeFileLikeObject
  | 0, it => it
  | fuel + 1, it =>
    let chunk := (it.wsgiInput.read readChunkSize).1
    let it := { it with wsgiInput := (it.wsgiInput.read readChunkSize).2, inputBuffer := it.inputBuffer ++ chunk }
    if chunk = [] then { it with noMoreFiles := true }
    else if (find CRLF it.inputBuffer).isSome || (find boundary it.inputBuffer).isSome then it
    else pull fuel it

/-- The second loop of `readline`. -/
def readTo : ℕ → ℕ → Str → MimeFileLikeObject → Str × MimeFileLikeObject
  | 0, _, ret, it => (ret, it)
  | fuel + 1, toRead, ret, it =>
    if toRead = 0 then (ret, it)
    else
      let (chunk, it) := it.read boundary readChunkSize toRead
      if chunk = [] then (ret, it) else readTo fuel (toRead - chunk.length) (ret ++ chunk) it

/-- `readline`. -/
def readline (it : MimeFileLikeObject) : Str × MimeFileLikeObject :=
  if it.noMoreDataForThisFile then ([], it)
  else
    let it := pull boundary readChunkSize (it.wsgiInput.rest.length + 1) it
    match find CRLF it.inputBuffer with
    | none => it.read boundary readChunkSize it.inputBuffer.length
    | some newlinePos =>
      if (find boundary it.inputBuffer).all (newlinePos < ·) then
        readTo boundary readChunkSize (newlinePos + 2) (newlinePos + 2) [] it
      else it.read boundary readChunkSize it.inputBuffer.length

end Calls

/-! ## 3. What is left -/

/-- The bytes that are still to come. -/
def stream (it : MimeFileLikeObject) : Str := it.inputBuffer ++ it.wsgiInput.rest

/-- More in the buffer, of the same bytes. -/
structure Ahead (it it' : MimeFileLikeObject) : Prop where
  stream : it'.stream = it.stream
  running : it'.noMoreDataForThisFile = it.noMoreDataForThisFile

theorem Ahead.trans {a b c : MimeFileLikeObject} (hab : Ahead a b) (hbc : Ahead b c) : Ahead a c :=
  ⟨hbc.stream.trans hab.stream, hbc.running.trans hab.running⟩

/-- One read of the file, into the buffer. -/
theorem ahead_read (it : MimeFileLikeObject) {size : ℕ} (hsize : 1 ≤ size) (flag : Bool) :
    Ahead it { it with
      noMoreFiles := flag
      wsgiInput := (it.wsgiInput.read size).2
      inputBuffer := it.inputBuffer ++ (it.wsgiInput.read size).1 } := by
  refine ⟨?_, rfl⟩
  simp only [stream]
  rw [append_assoc, (it.wsgiInput.read_spec hsize).1]

theorem rest_of_read_nil {it : MimeFileLikeObject} {size : ℕ} (hsize : 1 ≤ size)
    (h : (it.wsgiInput.read size).1 = []) : (it.wsgiInput.read size).2.rest = [] := by
  obtain ⟨happend, -, hend⟩ := it.wsgiInput.read_spec hsize
  rw [h, nil_append] at happend
  rw [happend, hend h]

theorem fill_spec (fuel toRead : ℕ) (it : MimeFileLikeObject) (hfuel : toRead ≤ fuel) :
    Ahead it (fill fuel toRead it) ∧
      (it.inputBuffer.length + toRead ≤ (fill fuel toRead it).inputBuffer.length ∨
        (fill fuel toRead it).wsgiInput.rest = []) := by
  induction fuel generalizing toRead it with
  | zero => exact ⟨⟨rfl, rfl⟩, .inl (by rw [fill]; omega)⟩
  | succ fuel ih =>
    rw [fill]
    split
    · exact ⟨⟨rfl, rfl⟩, .inl (by omega)⟩
    · next hpos =>
      have hsize : 1 ≤ toRead := by omega
      dsimp only
      split
      · next hnil => exact ⟨ahead_read it hsize true, .inr (rest_of_read_nil hsize hnil)⟩
      · next hchunk =>
        have hlength := length_pos_iff.mpr hchunk
        have hle := (it.wsgiInput.read_spec hsize).2.1
        obtain ⟨hahead, hfull⟩ := ih (toRead - (it.wsgiInput.read toRead).1.length)
          { it with
            wsgiInput := (it.wsgiInput.read toRead).2
            inputBuffer := it.inputBuffer ++ (it.wsgiInput.read toRead).1 } (by omega)
        refine ⟨(ahead_read it hsize it.noMoreFiles).trans hahead, hfull.imp_left fun hfull => ?_⟩
        rw [length_append] at hfull
        omega

section Left

variable {boundary : Str} {readChunkSize : ℕ}

theorem pull_spec (hchunk : 1 ≤ readChunkSize) (fuel : ℕ) (it : MimeFileLikeObject)
    (hfuel : it.wsgiInput.rest.length < fuel) :
    Ahead it (pull boundary readChunkSize fuel it) ∧
      ((find CRLF (pull boundary readChunkSize fuel it).inputBuffer).isSome = true ∨
        (find boundary (pull boundary readChunkSize fuel it).inputBuffer).isSome = true ∨
        (pull boundary readChunkSize fuel it).wsgiInput.rest = []) := by
  induction fuel generalizing it with
  | zero => omega
  | succ fuel ih =>
    rw [pull]
    dsimp only
    split
    · next hnil => exact ⟨ahead_read it hchunk true, .inr (.inr (rest_of_read_nil hchunk hnil))⟩
    · next hread =>
      split
      · next hfound =>
        refine ⟨ahead_read it hchunk it.noMoreFiles, ?_⟩
        exact ((Bool.or_eq_true _ _).mp hfound).imp_right .inl
      · have hlength := length_pos_iff.mpr hread
        have happend := congrArg List.length (it.wsgiInput.read_spec hchunk).1
        rw [length_append] at happend
        obtain ⟨hahead, hfound⟩ := ih
          { it with
            wsgiInput := (it.wsgiInput.read readChunkSize).2
            inputBuffer := it.inputBuffer ++ (it.wsgiInput.read readChunkSize).1 } (by dsimp only; omega)
        exact ⟨(ahead_read it hchunk it.noMoreFiles).trans hahead, hfound⟩

/-- What is left of a part is `body`; the boundary and `tail` are behind it. -/
inductive Left (boundary : Str) (it : MimeFileLikeObject) : Str → Str → Prop
  | running {body tail : Str} (hrunning : it.noMoreDataForThisFile = false)
      (hstream : it.stream = body ++ (boundary ++ tail))
      (hfirst : First boundary (body ++ (boundary ++ tail)) body.length) (htail : 2 ≤ tail.length) : Left boundary it body tail
  | done {tail : Str} (hdone : it.noMoreDataForThisFile = true)
      (hmore : it.noMoreFiles = decide (tail.take 2 = "--".toList)) (hstream : it.stream = tail.drop 2) :
      Left boundary it [] tail

variable {it : MimeFileLikeObject} {body tail : Str}

theorem cut_spec {length : ℕ} (hne : boundary ≠ [])
    (hrunning : it.noMoreDataForThisFile = false) (hstream : it.stream = body ++ (boundary ++ tail))
    (hfirst : First boundary (body ++ (boundary ++ tail)) body.length) (htail : 2 ≤ tail.length)
    (henough : length + boundary.length + 2 ≤ it.inputBuffer.length ∨ it.wsgiInput.rest = []) :
    (it.cut boundary length).1 = body.take length ∧
      Left boundary (it.cut boundary length).2 (body.drop length) tail ∧
      (body.length ≤ length → (it.cut boundary length).2.noMoreDataForThisFile = true) := by
  have hall : it.inputBuffer ++ it.wsgiInput.rest = body ++ (boundary ++ tail) := hstream
  have hlength := congrArg List.length hall
  simp only [length_append] at hlength
  have hroom : min body.length length + boundary.length + 2 ≤ it.inputBuffer.length := by
    rcases henough with henough | hnil
    · omega
    · rw [hnil, length_nil] at hlength
      omega
  have hfind := (hall ▸ hfirst : First boundary (it.inputBuffer ++ it.wsgiInput.rest) body.length).find_append hne
  by_cases hle : body.length ≤ length
  · -- the boundary is in the buffer, and two bytes behind it
    rw [if_pos (by omega)] at hfind
    have hbehind : it.inputBuffer.drop (body.length + boundary.length) ++ it.wsgiInput.rest = tail := by
      rw [← drop_append_of_le_length (by omega), hall, ← append_assoc, ← length_append, drop_left]
    have hcut : it.cut boundary length = (it.inputBuffer.take body.length,
        { it with
          noMoreFiles := decide ((it.inputBuffer.drop (body.length + boundary.length)).take 2 = "--".toList)
          noMoreDataForThisFile := true
          inputBuffer := (it.inputBuffer.drop (body.length + boundary.length)).drop 2 }) := by
      rw [cut, hfind]
      exact if_neg (by omega)
    have hdrop : 2 ≤ (it.inputBuffer.drop (body.length + boundary.length)).length := by
      rw [length_drop]
      omega
    rw [hcut, take_of_length_le hle, drop_of_length_le hle]
    refine ⟨?_, .done rfl ?_ ?_, fun _ => rfl⟩
    · have htake := congrArg (List.take body.length) hall
      rwa [take_append_of_le_length (by omega), take_left] at htake
    · rw [← hbehind, take_append_of_le_length hdrop]
    · rw [← hbehind, drop_append_of_le_length hdrop]
      rfl
  · have hcut : it.cut boundary length =
        (it.inputBuffer.take length, { it with inputBuffer := it.inputBuffer.drop length }) := by
      rw [cut, hfind]
      split
      · rfl
      · next boundaryPos hpos =>
        split at hpos
        · obtain rfl := Option.some.inj hpos
          exact if_pos (by omega)
        · cases hpos
    have hdrop : (body ++ (boundary ++ tail)).drop length = body.drop length ++ (boundary ++ tail) :=
      drop_append_of_le_length (by omega)
    rw [hcut]
    refine ⟨?_, .running hrunning ?_ ?_ htail, fun h => absurd h hle⟩
    · have htake := congrArg (List.take length) hall
      rwa [take_append_of_le_length (by omega), take_append_of_le_length (by omega)] at htake
    · rw [← hdrop, ← hall, drop_append_of_le_length (by omega)]
      rfl
    · have hrest := hfirst.drop (n := length) (by omega)
      rw [hdrop] at hrest
      rwa [length_drop]

/-- **A `read` takes the next bytes of the body.** -/
theorem Left.read (hne : boundary ≠ []) (hchunk : 1 ≤ readChunkSize)
    (h : Left boundary it body tail) (length : ℕ) : ∃ n, 1 ≤ n ∧ (1 ≤ length → n = length) ∧
      (it.read boundary readChunkSize length).1 = body.take n ∧
      Left boundary (it.read boundary readChunkSize length).2 (body.drop n) tail ∧
      (body.length ≤ n → (it.read boundary readChunkSize length).2.noMoreDataForThisFile = true) := by
  refine ⟨if length = 0 then readChunkSize else length, ?_, fun hpos => if_neg (by omega), ?_⟩
  · split <;> omega
  rw [MimeFileLikeObject.read]
  generalize (if length = 0 then readChunkSize else length) = n
  cases h with
  | done hdone hmore hstream =>
    rw [if_pos hdone, take_nil, drop_nil]
    exact ⟨rfl, .done hdone hmore hstream, fun _ => hdone⟩
  | running hrunning hstream hfirst htail =>
    rw [if_neg (by rw [hrunning]; decide)]
    dsimp only
    split
    · obtain ⟨hahead, hfull⟩ := fill_spec (n + boundary.length + 2) (n + boundary.length + 2) it le_rfl
      refine cut_spec hne (hahead.running.trans hrunning) (hahead.stream.trans hstream) hfirst htail
        (hfull.imp_left fun hfull => ?_)
      omega
    · exact cut_spec hne hrunning hstream hfirst htail (.inl (by omega))

/-- No line end in a line. -/
theorem not_prefix_line {c : Char} {line : Str} (h : '\n' ∉ c :: line) (word more : Str) :
    ¬ '\r' :: '\n' :: word <+: c :: (line ++ (CRLF ++ more)) := by
  intro hprefix
  have hnext := (cons_prefix_cons.mp hprefix).2
  cases line with
  | nil =>
    have hc : '\n' = '\r' := (cons_prefix_cons.mp hnext).1
    exact absurd hc (by decide)
  | cons d line =>
    obtain rfl := (cons_prefix_cons.mp hnext).1
    exact h (mem_cons_of_mem _ mem_cons_self)

theorem first_line {line : Str} (h : '\n' ∉ line) (more : Str) : First CRLF (line ++ (CRLF ++ more)) line.length := by
  induction line with
  | nil => exact .zero (prefix_append _ _)
  | cons c line ih => exact .cons (not_prefix_line h [] more) (ih fun hmem => h (mem_cons_of_mem _ hmem))

/-- **A `readline` takes a line of the body**, with its end. -/
theorem Left.readline {line more tail : Str} (hne : boundary ≠ [])
    (hchunk : 1 ≤ readChunkSize) (hline : '\n' ∉ line) (h : Left boundary it (line ++ (CRLF ++ more)) tail) :
    (it.readline boundary readChunkSize).1 = line ++ CRLF ∧
      Left boundary (it.readline boundary readChunkSize).2 more tail := by
  generalize hbody : line ++ (CRLF ++ more) = body at h
  have hlength : body.length = line.length + 2 + more.length := by
    rw [← hbody, length_append, length_append, ← Nat.add_assoc]
    rfl
  cases h with
  | done _ _ _ => rw [length_nil] at hlength; omega
  | running hrunning hstream hfirst htail =>
    obtain ⟨hahead, hfound⟩ := @pull_spec boundary _ hchunk (it.wsgiInput.rest.length + 1) it (Nat.lt_succ_self _)
    rw [MimeFileLikeObject.readline, if_neg (by rw [hrunning]; decide)]
    dsimp only
    generalize pull boundary readChunkSize (it.wsgiInput.rest.length + 1) it = it at hahead hfound
    have hall : it.inputBuffer ++ it.wsgiInput.rest = body ++ (boundary ++ tail) := hahead.stream.trans hstream
    have hcrlf : First CRLF (it.inputBuffer ++ it.wsgiInput.rest) line.length := by
      rw [hall, ← hbody, append_assoc, append_assoc]
      exact first_line hline _
    have hnewline := hcrlf.find_append (by decide : CRLF ≠ [])
    have hboundary := (hall ▸ hfirst : First boundary (it.inputBuffer ++ it.wsgiInput.rest) body.length).find_append hne
    have hroom : line.length + CRLF.length ≤ it.inputBuffer.length := by
      have htwo : CRLF.length = 2 := rfl
      by_contra hshort
      rcases hfound with hsome | hsome | hnil
      · rw [hnewline, if_neg hshort] at hsome
        cases hsome
      · rw [hboundary, if_neg (by omega)] at hsome
        cases hsome
      · have hlen := congrArg List.length hall
        rw [hnil, append_nil, length_append] at hlen
        omega
    have hbefore : (find boundary it.inputBuffer).all (line.length < ·) = true := by
      rw [hboundary]
      split
      · exact decide_eq_true (by omega)
      · rfl
    rw [hnewline, if_pos hroom]
    dsimp only
    rw [if_pos hbefore, readTo, if_neg (by omega)]
    have hleft : Left boundary it body tail :=
      .running (hahead.running.trans hrunning) (hahead.stream.trans hstream) hfirst htail
    obtain ⟨n, -, hn, htake, hrest, -⟩ := hleft.read hne hchunk (line.length + 2)
    rw [hn (by omega), ← hbody] at htake hrest
    have hfront : (line ++ (CRLF ++ more)).take (line.length + 2) = line ++ CRLF := by
      rw [← append_assoc, show line.length + 2 = (line ++ CRLF).length by rw [length_append]; rfl, take_left]
    have hback : (line ++ (CRLF ++ more)).drop (line.length + 2) = more := by
      rw [← append_assoc, show line.length + 2 = (line ++ CRLF).length by rw [length_append]; rfl, drop_left]
    rw [hfront] at htake
    rw [hback] at hrest
    have hread : it.read boundary readChunkSize (line.length + 2) =
        (line ++ CRLF, (it.read boundary readChunkSize (line.length + 2)).2) := Prod.ext htake rfl
    rw [hread]
    dsimp only
    have hsome : line ++ CRLF ≠ [] := append_ne_nil_of_right_ne_nil _ (cons_ne_nil _ _)
    have hzero : line.length + 2 - (line ++ CRLF).length = 0 := by
      rw [length_append]
      exact Nat.sub_self _
    rw [if_neg hsome, hzero, readTo, if_pos rfl, nil_append]
    exact ⟨rfl, hrest⟩

/-! ## 4. To the end -/

/-- The consumer of a part: `read` with one size after the other, up to the empty answer. -/
def readToEnd (boundary : Str) (readChunkSize : ℕ) : ℕ → (ℕ → ℕ) → MimeFileLikeObject → Option (Str × MimeFileLikeObject)
  | 0, _, _ => none
  | fuel + 1, sizes, it =>
    let (chunk, it) := it.read boundary readChunkSize (sizes 0)
    if chunk = [] then some ([], it)
    else (readToEnd boundary readChunkSize fuel (fun i => sizes (i + 1)) it).map fun (body, it) => (chunk ++ body, it)

/-- **The consumer gets the body**, whatever the sizes. -/
theorem Left.readToEnd (hne : boundary ≠ []) (hchunk : 1 ≤ readChunkSize)
    (h : Left boundary it body tail) {fuel : ℕ} (hfuel : body.length < fuel) (sizes : ℕ → ℕ) :
    ∃ it', MimeFileLikeObject.readToEnd boundary readChunkSize fuel sizes it = some (body, it') ∧
      it'.noMoreFiles = decide (tail.take 2 = "--".toList) ∧ it'.stream = tail.drop 2 := by
  induction fuel generalizing it body sizes with
  | zero => omega
  | succ fuel ih =>
    obtain ⟨n, hn, -, htake, hleft, hclosed⟩ := h.read hne hchunk (sizes 0)
    have hread : it.read boundary readChunkSize (sizes 0) = (body.take n, (it.read boundary readChunkSize (sizes 0)).2) :=
      Prod.ext htake rfl
    rw [MimeFileLikeObject.readToEnd, hread]
    generalize (it.read boundary readChunkSize (sizes 0)).2 = it at hleft hclosed
    dsimp only
    cases body with
    | nil =>
      rw [take_nil, if_pos rfl]
      rw [drop_nil] at hleft
      cases hleft with
      | running hrunning _ _ _ =>
        rw [hclosed (Nat.zero_le _)] at hrunning
        cases hrunning
      | done _ hmore hstream => exact ⟨it, rfl, hmore, hstream⟩
    | cons c body =>
      have hsome : (c :: body).take n ≠ [] := fun hnil => by
        rcases take_eq_nil_iff.mp hnil with h0 | hnil
        · omega
        · cases hnil
      have hshort : ((c :: body).drop n).length < fuel := by
        rw [length_cons] at hfuel
        rw [length_drop, length_cons]
        omega
      obtain ⟨it', hrest, hmore, hstream⟩ := ih hleft hshort fun i => sizes (i + 1)
      refine ⟨it', ?_, hmore, hstream⟩
      rw [if_neg hsome, hrest, Option.map_some]
      dsimp only
      rw [take_append_drop]

end Left

end MimeFileLikeObject

end Mitaka.Swift
