/-
  Subject: CooperativeReader over an iterator, and LimitingReader around it, of
           glance/common/utils.py.

  What is still to be delivered is the rest of the buffer and the chunks that the iterator
  has left (`pending`). A sized read takes its bytes from the front of it (`read_some`), and
  a read without a size takes the rest of the buffer or one chunk (`read_none`). An empty
  chunk is then an empty result, which a caller takes for the end: that is the one way in
  which the stream is not delivered as it should be (**`delivers_iff`**).
-/
import Mathlib

namespace Mitaka.Glance

open List

/-! ## 1. The readers -/

abbrev Bytes := List UInt8

def MAX_COOP_READER_BUFFER_SIZE : ℕ := 134217728

/-- The iterator, which is made at the first need, as the chunks that it has left. -/
structure CooperativeReader where
  iterator : List Bytes
  buffer : Bytes
  position : ℕ
deriving DecidableEq, Repr

namespace CooperativeReader

/-- `__init__`, of an object without a `read`. -/
def init (chunks : List Bytes) : CooperativeReader := ⟨chunks, [], 0⟩

/-- The loop of a read with a length; `none` is `LimitExceeded`. -/
def readLoop (length : ℕ) (iterator : List Bytes) (buffer : Bytes) (position : ℕ) (result : Bytes) :
    Option Bytes × CooperativeReader :=
  if result.length < length then
    if position < buffer.length then
      let toRead := length - result.length
      let chunk := (buffer.drop position).take toRead
      if MAX_COOP_READER_BUFFER_SIZE ≤ (result ++ chunk).length then (none, ⟨iterator, buffer, position⟩)
      else readLoop length iterator buffer (position + chunk.length) (result ++ chunk)
    else
      match iterator with
      | [] => (some result, ⟨[], [], 0⟩)
      | chunk :: iterator => readLoop length iterator chunk 0 result
  else (some result, ⟨iterator, buffer, position⟩)
termination_by (iterator.length, buffer.length - position)
decreasing_by
  · refine Prod.Lex.right _ ?_
    rw [length_take, length_drop]
    omega
  · exact Prod.Lex.left _ _ (Nat.lt_succ_self _)

def read (r : CooperativeReader) : Option ℕ → Option Bytes × CooperativeReader
  | none =>
    if r.buffer.length - r.position > 0 then (some (r.buffer.drop r.position), { r with buffer := [], position := 0 })
    else
      match r.iterator with
      | [] => (some [], ⟨[], [], 0⟩)
      | chunk :: iterator => (some chunk, ⟨iterator, [], 0⟩)
  | some length => readLoop length r.iterator r.buffer r.position []

/-- The calls, each with what it returns. -/
def run : CooperativeReader → List (Option ℕ) → List (Option ℕ × Option Bytes)
  | _, [] => []
  | r, call :: calls => (call, (r.read call).1) :: run (r.read call).2 calls

def after (r : CooperativeReader) (calls : List (Option ℕ)) : CooperativeReader :=
  calls.foldl (fun r call => (r.read call).2) r

end CooperativeReader

structure LimitingReader where
  data : CooperativeReader
  limit : ℕ
  bytesRead : ℕ

namespace LimitingReader

/-- `read`; `none` is a raise. -/
def read (r : LimitingReader) (i : Option ℕ) : Option Bytes × LimitingReader :=
  match r.data.read i with
  | (none, data) => (none, { r with data := data })
  | (some result, data) =>
    let bytesRead := r.bytesRead + result.length
    (if bytesRead > r.limit then none else some result, { r with data := data, bytesRead := bytesRead })

def after (r : LimitingReader) (calls : List (Option ℕ)) : LimitingReader := calls.foldl (fun r i => (r.read i).2) r

/-- `__iter__`, over the chunks of the data: what it yields, and whether it raises then. -/
def iter (limit : ℕ) : ℕ → List Bytes → List Bytes × Bool
  | _, [] => ([], false)
  | bytesRead, chunk :: chunks =>
    if bytesRead + chunk.length > limit then ([], true)
    else
      let rest := iter limit (bytesRead + chunk.length) chunks
      (chunk :: rest.1, rest.2)

end LimitingReader

/-! ## 2. What is asked of them -/

/-- What some calls have delivered. -/
def delivered (trace : List (Option ℕ × Option Bytes)) : Bytes := (trace.map fun x => x.2.getD []).flatten

/-- Reads that go on from what has been delivered deliver the stream: each returns what comes next, of the size asked for
unless the stream ends, and nothing, where something is asked for, only at the end. -/
def Delivers (stream : Bytes) : Bytes → List (Option ℕ × Option Bytes) → Prop
  | _, [] => True
  | sofar, (call, result) :: rest => ∃ bytes, result = some bytes ∧ sofar ++ bytes <+: stream ∧
      (∀ n, call = some n → bytes.length = n ∨ sofar ++ bytes = stream) ∧
      (call ≠ some 0 → bytes = [] → sofar = stream) ∧ Delivers stream (sofar ++ bytes) rest

/-- A limit is observed, after any reads. -/
def Limited (chunks : List Bytes) (limit : ℕ) : Prop :=
  (∀ calls call, (∀ n, some n ∈ calls ++ [call] → n < MAX_COOP_READER_BUFFER_SIZE) →
    (((LimitingReader.mk (.init chunks) limit 0).after calls).read call).1 =
      if limit < (delivered ((CooperativeReader.init chunks).run (calls ++ [call]))).length then none
      else (((CooperativeReader.init chunks).after calls).read call).1) ∧
    ((LimitingReader.iter limit 0 chunks).2 = true ↔ limit < chunks.flatten.length) ∧
    (LimitingReader.iter limit 0 chunks).1.flatten.length ≤ limit

/-- A read without a length, with nothing in the buffer, does not meet an empty chunk before bytes. -/
def Fed (r : CooperativeReader) (call : Option ℕ) : Prop :=
  call = none → r.buffer.length ≤ r.position → r.iterator.head? = some [] → r.iterator.flatten = []

instance (r : CooperativeReader) (call : Option ℕ) : Decidable (Fed r call) := inferInstanceAs (Decidable (_ → _ → _ → _))

/-- Every read is fed. -/
def AllFed : CooperativeReader → List (Option ℕ) → Prop
  | _, [] => True
  | r, call :: calls => Fed r call ∧ AllFed (r.read call).2 calls

/-! ## 3. One read -/

namespace CooperativeReader

/-- What is still to be delivered. -/
def pending (r : CooperativeReader) : Bytes := r.buffer.drop r.position ++ r.iterator.flatten

/-- The loop takes what is missing from the front. -/
theorem readLoop_spec {length : ℕ} (hsmall : length < MAX_COOP_READER_BUFFER_SIZE) (iterator : List Bytes) (buffer : Bytes)
    (position : ℕ) (result : Bytes) (hresult : result.length ≤ length) :
    (readLoop length iterator buffer position result).1 =
        some (result ++ (pending ⟨iterator, buffer, position⟩).take (length - result.length)) ∧
      (readLoop length iterator buffer position result).2.pending =
        (pending ⟨iterator, buffer, position⟩).drop (length - result.length) := by
  induction iterator, buffer, position, result using readLoop.induct length with
  | case1 iterator buffer position result hroom hdata toRead chunk hlimit =>
    have hle : (result ++ chunk).length ≤ length := by
      rw [length_append, length_take]
      omega
    omega
  | case2 iterator buffer position result hroom hdata toRead chunk hlimit ih =>
    have hchunk : chunk.length ≤ length - result.length := length_take_le _ _
    have hle : (result ++ chunk).length ≤ length := by
      rw [length_append]
      omega
    obtain ⟨hread, hpending⟩ := ih hle
    have hsplit : pending ⟨iterator, buffer, position⟩ = chunk ++ pending ⟨iterator, buffer, position + chunk.length⟩ := by
      have hdrop : chunk ++ (buffer.drop position).drop chunk.length = buffer.drop position :=
        prefix_iff_eq_append.mp ( take_prefix toRead _)
      rw [pending, pending, ← append_assoc, ← drop_drop, hdrop]
    have hmissing : length - (result ++ chunk).length = length - result.length - chunk.length := by
      rw [length_append]
      omega
    rw [hmissing] at hread hpending
    rw [readLoop.eq_def, if_pos hroom, if_pos hdata, hsplit, take_append, drop_append,
      take_of_length_le hchunk, drop_of_length_le hchunk, nil_append, ← append_assoc]
    dsimp only
    rw [if_neg hlimit]
    exact ⟨hread, hpending⟩
  | case3 buffer position result hroom hdata =>
    have hempty : pending ⟨[], buffer, position⟩ = [] := by
      rw [pending, drop_of_length_le (not_lt.mp hdata)]
      rfl
    rw [readLoop.eq_def, if_pos hroom, if_neg hdata, hempty, take_nil, drop_nil, append_nil]
    exact ⟨rfl, rfl⟩
  | case4 buffer position result hroom hdata chunk iterator ih =>
    have hnext : pending ⟨chunk :: iterator, buffer, position⟩ = pending ⟨iterator, chunk, 0⟩ := by
      rw [pending, drop_of_length_le (not_lt.mp hdata)]
      rfl
    rw [readLoop.eq_def, if_pos hroom, if_neg hdata, hnext]
    exact ih hresult
  | case5 iterator buffer position result hroom =>
    have hfull : length - result.length = 0 := by omega
    rw [readLoop.eq_def, if_neg hroom, hfull, take_zero, drop_zero, append_nil]
    exact ⟨rfl, rfl⟩

/-- **A sized read** takes its bytes from the front. -/
theorem read_some (r : CooperativeReader) {n : ℕ} (hn : n < MAX_COOP_READER_BUFFER_SIZE) :
    (r.read (some n)).1 = some (r.pending.take n) ∧ (r.read (some n)).2.pending = r.pending.drop n :=
  readLoop_spec hn r.iterator r.buffer r.position [] (Nat.zero_le _)

/-- **A read without a size** takes something from the front, and nothing just where nothing is left or, with nothing in
the buffer, the next chunk is empty. -/
theorem read_none (r : CooperativeReader) : ∃ bytes, (r.read none).1 = some bytes ∧ bytes ++ (r.read none).2.pending = r.pending ∧
    (bytes = [] ↔ r.buffer.length ≤ r.position ∧ r.iterator.head?.getD [] = []) := by
  rw [read]
  by_cases hdata : r.buffer.length - r.position > 0
  · rw [if_pos hdata]
    refine ⟨_, rfl, rfl, ?_⟩
    rw [drop_eq_nil_iff]
    exact ⟨fun h => absurd hdata (by omega), fun h => h.1⟩
  · have hle : r.buffer.length ≤ r.position := by omega
    have hpending : r.pending = r.iterator.flatten := by
      rw [pending, drop_of_length_le hle, nil_append]
    rw [if_neg hdata, hpending]
    cases r.iterator with
    | nil => exact ⟨[], rfl, rfl, iff_of_true rfl ⟨hle, rfl⟩⟩
    | cons chunk iterator => exact ⟨chunk, rfl, rfl, fun h => ⟨hle, h⟩, fun h => h.2⟩

/-- Any read takes something from the front. -/
theorem read_eq (r : CooperativeReader) {call : Option ℕ} (hcall : ∀ n, call = some n → n < MAX_COOP_READER_BUFFER_SIZE) :
    ∃ bytes, (r.read call).1 = some bytes ∧ bytes ++ (r.read call).2.pending = r.pending := by
  cases call with
  | none =>
    obtain ⟨bytes, hread, hpending, -⟩ := r.read_none
    exact ⟨bytes, hread, hpending⟩
  | some n =>
    obtain ⟨hread, hpending⟩ := r.read_some (hcall n rfl)
    exact ⟨_, hread, by rw [hpending, take_append_drop]⟩

/-! ## 4. Runs -/

variable {r : CooperativeReader}

/-- What one read has to do, it does where it is fed. -/
theorem delivers_read_iff {stream sofar bytes : Bytes} {call : Option ℕ}
    (hcall : ∀ n, call = some n → n < MAX_COOP_READER_BUFFER_SIZE) (hstream : sofar ++ r.pending = stream)
    (hread : (r.read call).1 = some bytes) :
    ((∀ n, call = some n → bytes.length = n ∨ sofar ++ bytes = stream) ∧ (call ≠ some 0 → bytes = [] → sofar = stream)) ↔
      Fed r call := by
  have hend : sofar = stream ↔ r.pending = [] := by
    rw [← hstream]
    exact self_eq_append_right
  rw [hend]
  cases call with
  | some n =>
    obtain ⟨htake, -⟩ := r.read_some (hcall n rfl)
    obtain rfl := Option.some.inj (hread.symm.trans htake)
    refine iff_of_true ⟨fun m hm => ?_, fun hne hempty => ?_⟩ fun h => nomatch h
    · obtain rfl := Option.some.inj hm
      rcases le_total n r.pending.length with hle | hle
      · exact Or.inl (length_take_of_le hle)
      · rw [take_of_length_le hle]
        exact Or.inr hstream
    · rcases take_eq_nil_iff.mp hempty with hzero | hnil
      · exact absurd (congrArg some hzero) hne
      · exact hnil
  | none =>
    obtain ⟨bytes', hread', -, hempty⟩ := r.read_none
    obtain rfl := Option.some.inj (hread'.symm.trans hread)
    have hpending : r.buffer.length ≤ r.position → r.pending = r.iterator.flatten := fun hle => by
      rw [pending, drop_of_length_le hle, nil_append]
    constructor
    · intro h _ hle hhead
      rw [← hpending hle]
      exact h.2 nofun (hempty.mpr ⟨hle, by rw [hhead]; rfl⟩)
    · intro hfed
      refine ⟨nofun, fun _ hnil => ?_⟩
      obtain ⟨hle, hhead⟩ := hempty.mp hnil
      rw [hpending hle]
      cases hiterator : r.iterator with
      | nil => rfl
      | cons chunk iterator =>
        rw [hiterator] at hhead
        have hchunk : chunk = [] := hhead
        have hflatten := hfed rfl hle (by rw [hiterator, hchunk]; rfl)
        rw [hiterator] at hflatten
        exact hflatten

/-- **A run delivers the stream just where every read is fed.** -/
theorem delivers_run_iff {stream sofar : Bytes} {calls : List (Option ℕ)}
    (hcalls : ∀ n, some n ∈ calls → n < MAX_COOP_READER_BUFFER_SIZE) (hstream : sofar ++ r.pending = stream) :
    Delivers stream sofar (r.run calls) ↔ AllFed r calls := by
  induction calls generalizing r sofar with
  | nil => exact Iff.rfl
  | cons call calls ih =>
    have hcall : ∀ n, call = some n → n < MAX_COOP_READER_BUFFER_SIZE := fun n hn => hcalls n (hn ▸ mem_cons_self)
    obtain ⟨bytes, hread, hpending⟩ := r.read_eq hcall
    have hnext : sofar ++ bytes ++ (r.read call).2.pending = stream := by rw [append_assoc, hpending, hstream]
    have hprefix : sofar ++ bytes <+: stream := ⟨_, hnext⟩
    have hrest := @ih (r.read call).2 (sofar ++ bytes) (fun n hn => hcalls n (mem_cons_of_mem _ hn)) hnext
    rw [run, Delivers, AllFed, ← hrest, ← delivers_read_iff hcall hstream hread]
    constructor
    · rintro ⟨bytes', heq, -, hsize, hempty, hdelivers⟩
      obtain rfl := Option.some.inj (hread.symm.trans heq)
      exact ⟨⟨hsize, hempty⟩, hdelivers⟩
    · rintro ⟨⟨hsize, hempty⟩, hdelivers⟩
      exact ⟨bytes, hread, hprefix, hsize, hempty, hdelivers⟩

theorem run_append (r : CooperativeReader) (calls calls' : List (Option ℕ)) :
    r.run (calls ++ calls') = r.run calls ++ (r.after calls).run calls' := by
  induction calls generalizing r with
  | nil => rfl
  | cons call calls ih => exact congrArg _ (ih (r.read call).2)

end CooperativeReader

theorem delivered_append (trace trace' : List (Option ℕ × Option Bytes)) :
    delivered (trace ++ trace') = delivered trace ++ delivered trace' := by
  rw [delivered, map_append, flatten_append]
  rfl

/-! ## 5. The limit -/

namespace LimitingReader

/-- The count is of what has been delivered. -/
theorem after_eq {calls : List (Option ℕ)} (hcalls : ∀ n, some n ∈ calls → n < MAX_COOP_READER_BUFFER_SIZE)
    (data : CooperativeReader) (limit bytesRead : ℕ) :
    (LimitingReader.mk data limit bytesRead).after calls =
      ⟨data.after calls, limit, bytesRead + (delivered (data.run calls)).length⟩ := by
  induction calls generalizing data bytesRead with
  | nil => rfl
  | cons call calls ih =>
    obtain ⟨bytes, hread, -⟩ := data.read_eq fun n hn => hcalls n (hn ▸ mem_cons_self)
    have hstep : ((LimitingReader.mk data limit bytesRead).read call).2 =
        ⟨(data.read call).2, limit, bytesRead + bytes.length⟩ := by
      rw [read, ← Prod.mk.eta (p := data.read call), hread]
    have hdelivered : (delivered (data.run (call :: calls))).length =
        bytes.length + (delivered ((data.read call).2.run calls)).length := by
      rw [CooperativeReader.run, hread, delivered, map_cons, flatten_cons, length_append]
      rfl
    rw [after, foldl_cons, hstep, ← after, ih fun n hn => hcalls n (mem_cons_of_mem _ hn), hdelivered, Nat.add_assoc]
    rfl

theorem iter_spec (limit : ℕ) (chunks : List Bytes) {bytesRead : ℕ} (h : bytesRead ≤ limit) :
    ((iter limit bytesRead chunks).2 = true ↔ limit < bytesRead + chunks.flatten.length) ∧
      bytesRead + (iter limit bytesRead chunks).1.flatten.length ≤ limit := by
  induction chunks generalizing bytesRead with
  | nil =>
    refine ⟨iff_of_false Bool.false_ne_true ?_, h⟩
    rw [flatten_nil, length_nil]
    omega
  | cons chunk chunks ih =>
    rw [iter, flatten_cons, length_append]
    by_cases hlimit : bytesRead + chunk.length > limit
    · rw [if_pos hlimit]
      exact ⟨iff_of_true rfl (by omega), h⟩
    · rw [if_neg hlimit]
      obtain ⟨hraise, hyield⟩ := ih (not_lt.mp hlimit)
      dsimp only
      rw [flatten_cons, length_append, hraise]
      omega

/-- **A limit is observed**, whatever the chunks are. -/
theorem limited (chunks : List Bytes) (limit : ℕ) : Limited chunks limit := by
  refine ⟨fun calls call hsmall => ?_, ?_, ?_⟩
  · have hcalls : ∀ n, some n ∈ calls → n < MAX_COOP_READER_BUFFER_SIZE := fun n hn => hsmall n (mem_append_left _ hn)
    obtain ⟨bytes, hread, -⟩ := ((CooperativeReader.init chunks).after calls).read_eq fun n hn =>
      hsmall n (mem_append_right _ (hn ▸ mem_cons_self))
    have hdelivered : (delivered ((CooperativeReader.init chunks).run (calls ++ [call]))).length =
        (delivered ((CooperativeReader.init chunks).run calls)).length + bytes.length := by
      rw [CooperativeReader.run_append, delivered_append, length_append, CooperativeReader.run, hread]
      simp [delivered, CooperativeReader.run]
    rw [after_eq hcalls, hdelivered, read, ← Prod.mk.eta (p := CooperativeReader.read _ call), hread, Nat.zero_add]
  · have h := (iter_spec limit chunks (Nat.zero_le limit)).1
    rwa [Nat.zero_add] at h
  · have h := (iter_spec limit chunks (Nat.zero_le limit)).2
    rwa [Nat.zero_add] at h

end LimitingReader

/-- **The stream is delivered exactly, and the limit observed, just where no read without a length meets an empty chunk
with nothing in the buffer and bytes behind it.** -/
theorem delivers_iff (chunks : List Bytes) (calls : List (Option ℕ))
    (hcalls : ∀ n, some n ∈ calls → n < MAX_COOP_READER_BUFFER_SIZE) :
    (Delivers chunks.flatten [] ((CooperativeReader.init chunks).run calls) ∧ ∀ limit, Limited chunks limit) ↔
      AllFed (.init chunks) calls := by
  have hpending : [] ++ (CooperativeReader.init chunks).pending = chunks.flatten := rfl
  rw [← CooperativeReader.delivers_run_iff hcalls hpending]
  exact and_iff_left fun limit => LimitingReader.limited chunks limit

theorem delivers_iff_sized :
    (Delivers [1, 2, 3] [] ((CooperativeReader.init [[1, 2], [], [3]]).run [none, some 5]) ∧
        ∀ limit, Limited [[1, 2], [], [3]] limit) ↔ AllFed (.init [[1, 2], [], [3]]) [none, some 5] := by
  refine delivers_iff [[1, 2], [], [3]] [none, some 5] fun n hn => ?_
  obtain rfl : n = 5 := by simpa using hn
  decide

/-- An empty chunk is taken for the end. -/
theorem delivers_empty_chunk : ¬ Delivers [1] [] ((CooperativeReader.init [[], [1]]).run [none]) := by
  rintro ⟨bytes, hread, -, -, hend, -⟩
  obtain rfl : [] = bytes := Option.some.inj hread
  exact absurd (hend nofun rfl) (by decide)

end Mitaka.Glance
