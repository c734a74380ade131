/-
  Subject: swift/obj/ssync_sender.py, ssync_receiver.py: the lines of the missing check.

  `none` is an exception of the decoder. The sender writes how far the metadata and the
  content type are ahead of the data, counted in raw values; the receiver counts from the
  data timestamp as it was sent, offset and all. So what it reads back has the offset of
  the data (`decodeMissing_encodeMissing`), and the check comes out right exactly when the
  three offsets are one.
-/
import Mitaka.Lib.Percent
import Mitaka.Swift.ContentType

namespace Mitaka.Swift

open Numeral Percent List Option

/-! ## 1. The lines -/

/-- The characters `urllib.quote` leaves alone. -/
def isQuoteSafe (c : Char) : Bool :=
  ('a' ≤ c && c ≤ 'z') || ('A' ≤ c && c ≤ 'Z') || ('0' ≤ c && c ≤ '9') || c = '_' || c = '.' || c = '-' || c = '/'

/-- `'%x' % n`. -/
def hexStr (n : Int) : Str := if n < 0 then '-' :: Nat.toDigits 16 n.natAbs else Nat.toDigits 16 n.natAbs

/-- The digits of `int(s, 16)`. -/
def readHex : Str → Option ℕ
  | '0' :: 'x' :: r => readNat 16 r
  | '0' :: 'X' :: r => readNat 16 r
  | r => readNat 16 r

/-- `int(s, 16)`. -/
def pyIntHex (s : Str) : Option Int :=
  match strip s with
  | '-' :: r => (readHex r).map fun n : ℕ => -(n : Int)
  | '+' :: r => (readHex r).map fun n : ℕ => (n : Int)
  | r => (readHex r).map fun n : ℕ => (n : Int)

/-- `s.split()`. -/
def splitSpace (s : Str) : List Str := (s.splitOnP isSpace).filter fun w => w ≠ []

namespace Timestamp

/-- `bool(timestamp)`. -/
def truthy (t : Timestamp) : Bool := decide (t.raw ≠ 0) || decide (t.offset ≠ 0)

/-- `Timestamp(s, delta=delta)` for a string. -/
def ofStrDelta (s : Str) (delta : Int) : Option Timestamp := do
  let (secs, off) := splitFirst '_' s
  let raw ← floatRaw secs
  let offset ← match off with
    | none => some 0
    | some h => readNat 16 h
  if delta = 0 then ofRaw raw offset
  else if raw + delta ≤ 0 then none
  else ofRaw (raw + delta) offset

end Timestamp

/-- `encode_missing`. -/
def encodeMissing (objectHash : Str) (tsData : Timestamp) (tsMeta tsCtype : Option Timestamp) : Str :=
  let msg := quote isQuoteSafe objectHash ++ ' ' :: quote isQuoteSafe tsData.internal
  match tsMeta.filter fun m => m.truthy && !(m.pyEq tsData) with
  | none => msg
  | some m =>
    let msg := msg ++ " m:".toList ++ hexStr (m.raw - tsData.raw)
    match tsCtype.filter fun c => c.truthy && !(c.pyEq tsData) with
    | none => msg
    | some c => msg ++ ",t:".toList ++ hexStr (c.raw - tsData.raw)

/-- The result of `decode_missing`. -/
structure Missing where
  objectHash : Str
  tsData : Timestamp
  tsMeta : Timestamp
  tsCtype : Timestamp
  deriving DecidableEq

/-- One `k:v` pair. -/
def Missing.add (tData : Str) (result : Missing) (item : Str) : Option Missing :=
  match item.splitOn ':' with
  | [k, v] =>
    if k = ['m'] then do
      let delta ← pyIntHex v
      let t ← Timestamp.ofStrDelta tData delta
      return { result with tsMeta := t }
    else if k = ['t'] then do
      let delta ← pyIntHex v
      let t ← Timestamp.ofStrDelta tData delta
      return { result with tsCtype := t }
    else some result
  | _ => none

/-- `decode_missing`. -/
def decodeMissing (line : Str) : Option Missing :=
  match splitSpace line with
  | objectHash :: tData :: rest => do
    let tData := unquote tData
    let tsData ← Timestamp.ofStr tData
    let result : Missing := ⟨unquote objectHash, tsData, tsData, tsData⟩
    match rest with
    | [] => return result
    | subparts :: _ =>
      (((unquote subparts).splitOn ',').filter fun subpart => ':' ∈ subpart).foldlM (Missing.add tData) result
  | _ => none

/-- The result of `_check_local`: without `ts_data` when there is nothing. -/
structure LocalFile where
  tsData : Option Timestamp
  tsMeta : Option Timestamp
  tsCtype : Option Timestamp

/-- `encode_wanted`. -/
def encodeWanted (remote : Missing) (loc : LocalFile) : Option Str :=
  let want : Bool × Bool :=
    match loc.tsData with
    | some data =>
      (remote.tsData.pyGt data,
        loc.tsMeta.any (fun m => remote.tsMeta.pyGt m) ||
          loc.tsCtype.any fun c => remote.tsCtype.pyGt c && remote.tsCtype.pyGt remote.tsData)
    | none => (true, true)
  if want.1 || want.2 then
    some (quote isQuoteSafe remote.objectHash ++ ' ' :: ((if want.1 then ['d'] else []) ++ if want.2 then ['m'] else []))
  else none

/-! ## 2. Reading the line back -/

theorem isSpace_of_isQuoteSafe {c : Char} (h : isQuoteSafe c = true) : isSpace c = false := by
  have hcode : 33 ≤ c.toNat := by
    simp only [isQuoteSafe, Bool.or_eq_true, Bool.and_eq_true, decide_eq_true_eq] at h
    rcases h with (((((h | h) | h) | rfl) | rfl) | rfl) | rfl
    · exact le_trans (by decide) (Char.le_def.mp h.1)
    · exact le_trans (by decide) (Char.le_def.mp h.1)
    · exact le_trans (by decide) (Char.le_def.mp h.1)
    all_goals decide
  rw [isSpace, Bool.or_eq_false_iff, Bool.and_eq_false_iff, decide_eq_false_iff_not, decide_eq_false_iff_not,
    decide_eq_false_iff_not]
  exact ⟨fun e => by subst e; exact absurd hcode (by decide), Or.inr (by omega)⟩

/-- A quoted word is one word. -/
theorem isSpace_quote {s : Str} (hs : ∀ c ∈ s, c.toNat < 256) : ∀ c ∈ quote isQuoteSafe s, isSpace c = false := by
  intro c hc
  rcases mem_quote hs hc with h | rfl | ⟨n, hn, rfl⟩
  · exact isSpace_of_isQuoteSafe h
  · decide
  · have key : ∀ m : Fin 16, isSpace (hexDigit m) = false := by decide
    exact key ⟨n, hn⟩

theorem splitSpace_word {w : Str} (hw : ∀ c ∈ w, isSpace c = false) (hne : w ≠ []) : splitSpace w = [w] := by
  rw [splitSpace, splitOnP_eq_singleton hw, filter_cons_of_pos (by simpa using hne)]
  rfl

theorem splitSpace_cons {w : Str} (hw : ∀ c ∈ w, isSpace c = false) (hne : w ≠ []) (rest : Str) :
    splitSpace (w ++ ' ' :: rest) = w :: splitSpace rest := by
  rw [splitSpace, splitOnP_append_cons_of_forall_mem hw ' ' (by decide),
    filter_cons_of_pos (by simpa using hne)]
  rfl

/-- A hexadecimal digit by its code. -/
theorem code_of_mem_toDigits {n : ℕ} {c : Char} (hc : c ∈ Nat.toDigits 16 n) :
    (48 ≤ c.toNat ∧ c.toNat ≤ 57) ∨ (97 ≤ c.toNat ∧ c.toNat ≤ 102) := by
  induction n using Nat.strong_induction_on with
  | _ n ih =>
    have hdigit : ∀ d : Fin 16, (48 ≤ (d : ℕ).digitChar.toNat ∧ (d : ℕ).digitChar.toNat ≤ 57) ∨
        (97 ≤ (d : ℕ).digitChar.toNat ∧ (d : ℕ).digitChar.toNat ≤ 102) := by
      decide
    by_cases hn : n < 16
    · rw [Nat.toDigits_of_lt_base hn, mem_singleton] at hc
      exact hc ▸ hdigit ⟨n, hn⟩
    · rw [Nat.toDigits_of_base_le (by norm_num) (by omega), mem_append, mem_singleton] at hc
      rcases hc with hc | rfl
      · exact ih _ (Nat.div_lt_self (by omega) (by norm_num)) hc
      · exact hdigit ⟨n % 16, Nat.mod_lt _ (by norm_num)⟩

/-- None of the characters that separate is written for a number. -/
theorem code_of_mem_hexStr {n : Int} {c : Char} (h : c ∈ hexStr n) :
    c = '-' ∨ (48 ≤ c.toNat ∧ c.toNat ≤ 57) ∨ (97 ≤ c.toNat ∧ c.toNat ≤ 102) := by
  unfold hexStr at h
  split_ifs at h
  · exact (mem_cons.mp h).imp id code_of_mem_toDigits
  · exact Or.inr (code_of_mem_toDigits h)

theorem isSpace_hexStr (n : Int) : ∀ c ∈ hexStr n, isSpace c = false := by
  intro c hc
  rcases code_of_mem_hexStr hc with rfl | hcode
  · decide
  · rw [isSpace, Bool.or_eq_false_iff, Bool.and_eq_false_iff, decide_eq_false_iff_not, decide_eq_false_iff_not,
      decide_eq_false_iff_not]
    exact ⟨fun e => by subst e; exact absurd hcode (by decide), Or.inr (by omega)⟩

theorem notMem_hexStr {n : Int} {c : Char} (hc : c ∈ [':', ',', '%', 'x', 'X', ' ']) : c ∉ hexStr n := by
  intro h
  have hcode := code_of_mem_hexStr h
  simp only [mem_cons, not_mem_nil, or_false] at hc
  rcases hc with rfl | rfl | rfl | rfl | rfl | rfl <;> exact absurd hcode (by decide)

/-- **What is written in hexadecimal is read back.** -/
theorem pyIntHex_hexStr (n : Int) : pyIntHex (hexStr n) = some n := by
  have hspace := isSpace_hexStr n
  have hstrip : strip (hexStr n) = hexStr n :=
    strip_eq_self (fun c hc => hspace c (mem_of_mem_head? hc)) fun c hc => hspace c (mem_of_getLast? hc)
  have hread : readNat 16 (Nat.toDigits 16 n.natAbs) = some n.natAbs :=
    readNat_toDigits (by norm_num) (by norm_num) _
  -- there is neither `0x` nor a plus sign in front
  have hx : ∀ x ∈ ['x', 'X'], ∀ r, Nat.toDigits 16 n.natAbs ≠ '0' :: x :: r := by
    intro x hx r he
    have hcode := code_of_mem_toDigits (he ▸ mem_cons_of_mem _ mem_cons_self)
    simp only [mem_cons, not_mem_nil, or_false] at hx
    rcases hx with rfl | rfl <;> exact absurd hcode (by decide)
  have hsign : ∀ c ∈ ['-', '+'], ∀ r, Nat.toDigits 16 n.natAbs ≠ c :: r := by
    intro c hc r he
    have hcode := code_of_mem_toDigits (he ▸ mem_cons_self)
    simp only [mem_cons, not_mem_nil, or_false] at hc
    rcases hc with rfl | rfl <;> exact absurd hcode (by decide)
  have hdigits : readHex (Nat.toDigits 16 n.natAbs) = some n.natAbs := by
    unfold readHex
    split
    · next r he => exact absurd he (hx 'x' (by simp) r)
    · next r he => exact absurd he (hx 'X' (by simp) r)
    · exact hread
  rw [pyIntHex, hstrip, hexStr]
  split_ifs with hneg
  · simp only [hdigits, map_some]
    exact congrArg some (by omega)
  · split
    · next r he => exact absurd he (hsign '-' (by simp) r)
    · next r he => exact absurd he (hsign '+' (by simp) r)
    · rw [hdigits, map_some]
      exact congrArg some (by omega)

namespace Timestamp

/-- The raw value of one timestamp with the offset of another. -/
def withOffset (t u : Timestamp) : Timestamp := ⟨t.raw, u.offset, t.raw_lt, u.offset_le⟩

theorem normal_splitFirst (t : Timestamp) : '_' ∉ t.normal := by
  have dec : ∀ w n, '_' ∉ padDigits 10 w n := fun w n =>
    separator_notMem_padDigits (by norm_num) (by norm_num) w n (by simp)
  rw [normal, mem_append, mem_cons]
  rintro (h | h | h)
  · exact dec _ _ h
  · exact absurd h (by decide)
  · exact dec _ _ h

/-- Counting from a timestamp that was sent keeps its offset. -/
theorem ofStrDelta_internal (t : Timestamp) (delta : Int) :
    ofStrDelta t.internal delta =
      if delta = 0 then some t else if t.raw + delta ≤ 0 then none else ofRaw (t.raw + delta) t.offset := by
  by_cases hoff : t.offset = 0
  · have hinternal : t.internal = t.normal := if_neg (not_not.mpr hoff)
    have hself := ofRaw_self t
    rw [hoff] at hself
    rw [hinternal, ofStrDelta, splitFirst_of_notMem t.normal_splitFirst, hoff]
    simp only [floatRaw_normal, bind_eq_bind, bind_some, hself]
  · have hinternal : t.internal = t.normal ++ '_' :: padDigits 16 16 t.offset := if_pos hoff
    have hread : readNat 16 (padDigits 16 16 t.offset) = some t.offset :=
      readNat_padDigits (by norm_num) (by norm_num) (by norm_num) t.offset_lt
    rw [hinternal, ofStrDelta, splitFirst_append t.normal_splitFirst]
    simp only [floatRaw_normal, hread, bind_eq_bind, bind_some, ofRaw_self]

theorem ofStrDelta_zero (s : Str) : ofStrDelta s 0 = ofStr s := by
  rw [ofStrDelta, ofStr]
  generalize splitFirst '_' s = parts
  obtain ⟨secs, off⟩ := parts
  dsimp only
  cases floatRaw secs with
  | none => rfl
  | some raw =>
    cases off with
    | none => rfl
    | some h => cases readNat 16 h <;> rfl

theorem ofStr_internal (t : Timestamp) : ofStr t.internal = some t := by
  rw [← ofStrDelta_zero, ofStrDelta_internal, if_pos rfl]

/-- What comes back of a timestamp that is sent as a delta. -/
theorem ofStrDelta_raw (t u : Timestamp) :
    ofStrDelta t.internal ((u.raw : Int) - t.raw) =
      if u.raw = 0 ∧ t.raw ≠ 0 then none else some (u.withOffset t) := by
  rw [ofStrDelta_internal]
  by_cases hraw : u.raw = t.raw
  · have heq : u.withOffset t = t := Timestamp.ext hraw rfl
    rw [if_pos (by omega), if_neg (by omega), heq]
  · have hsum : (t.raw : Int) + ((u.raw : Int) - t.raw) = u.raw := by omega
    rw [if_neg (by omega), hsum]
    by_cases hzero : u.raw = 0
    · rw [if_pos (by omega), if_pos ⟨hzero, fun h => hraw (by omega)⟩]
    · rw [if_neg (by omega), if_neg fun h => hzero h.1]
      exact ofRaw_self (u.withOffset t)

theorem code_of_mem_internal {t : Timestamp} : ∀ c ∈ t.internal, c.toNat < 256 := by
  have dec : ∀ {b w n : ℕ}, 1 < b → b ≤ 16 → ∀ c ∈ padDigits b w n, c.toNat < 256 := by
    intro b w n hb hb' c hc
    have hdigit := digitVal_of_mem_padDigits hb hb' w n c hc
    by_contra hge
    refine hdigit ?_
    have hbig : ∀ d : Char, d.toNat < 256 → ¬ c ≤ d := fun d hd hle => hge (lt_of_le_of_lt (Char.le_def.mp hle) hd)
    rw [digitVal, if_neg fun h => hbig '9' (by decide) h.2, if_neg fun h => hbig 'z' (by decide) h.2,
      if_neg fun h => hbig 'Z' (by decide) h.2]
    rfl
  intro c hc
  rw [internal_eq, mem_append, normal, mem_append, mem_cons] at hc
  rcases hc with (hc | rfl | hc) | hc
  · exact dec (by norm_num) (by norm_num) c hc
  · decide
  · exact dec (by norm_num) (by norm_num) c hc
  · unfold offsetPart at hc
    split_ifs at hc
    · rcases mem_cons.mp hc with rfl | hc
      · decide
      · exact dec (by norm_num) (by norm_num) c hc
    · cases hc

theorem internal_ne_nil (t : Timestamp) : t.internal ≠ [] := by
  rw [internal_eq, normal]
  simp

end Timestamp

/-! ## 3. The two ends together -/

theorem unquote_quoted {s : Str} (hs : ∀ c ∈ s, c.toNat < 256) : unquote (quote isQuoteSafe s) = s := by
  have h := @unquote_quote isQuoteSafe (by decide) _ hs []
  rw [append_nil, unquote, append_nil] at h
  exact h

section Line

variable {objectHash : Str} (hne : objectHash ≠ []) (hbytes : ∀ c ∈ objectHash, c.toNat < 256) (t : Timestamp)

include hne hbytes

theorem decodeMissing_plain :
    decodeMissing (quote isQuoteSafe objectHash ++ ' ' :: quote isQuoteSafe t.internal) =
      some ⟨objectHash, t, t, t⟩ := by
  have hword : splitSpace (quote isQuoteSafe t.internal) = [quote isQuoteSafe t.internal] :=
    splitSpace_word (isSpace_quote t.code_of_mem_internal) fun h => t.internal_ne_nil (quote_eq_nil.mp h)
  rw [decodeMissing, splitSpace_cons (isSpace_quote hbytes) fun h => hne (quote_eq_nil.mp h), hword]
  simp only [unquote_quoted hbytes, unquote_quoted t.code_of_mem_internal, Timestamp.ofStr_internal,
    bind_eq_bind, bind_some, Option.pure_def]

/-- The third word. -/
theorem decodeMissing_parts {parts : Str} (hparts : ∀ c ∈ parts, isSpace c = false) (hparts' : parts ≠ [])
    (hquote : '%' ∉ parts) :
    decodeMissing (quote isQuoteSafe objectHash ++ ' ' :: (quote isQuoteSafe t.internal ++ ' ' :: parts)) =
      ((parts.splitOn ',').filter fun subpart => ':' ∈ subpart).foldlM (Missing.add t.internal)
        ⟨objectHash, t, t, t⟩ := by
  rw [decodeMissing, splitSpace_cons (isSpace_quote hbytes) fun h => hne (quote_eq_nil.mp h),
    splitSpace_cons (isSpace_quote t.code_of_mem_internal) fun h => t.internal_ne_nil (quote_eq_nil.mp h),
    splitSpace_word hparts hparts']
  simp only [unquote_quoted hbytes, unquote_quoted t.code_of_mem_internal, Timestamp.ofStr_internal,
    bind_eq_bind, bind_some, unquote_eq_self hquote]

end Line

/-- A pair with a time counted in hexadecimal. -/
theorem add_hexStr (tData : Str) (r : Missing) {k : Char} (hk : k ≠ ':') (n : Int) :
    r.add tData (k :: ':' :: hexStr n) =
      if k = 'm' then (Timestamp.ofStrDelta tData n).map fun t => { r with tsMeta := t }
      else if k = 't' then (Timestamp.ofStrDelta tData n).map fun t => { r with tsCtype := t }
      else some r := by
  have hsplit : ([k] ++ ':' :: hexStr n).splitOn ':' = [[k], hexStr n] := by
    rw [splitOn_append_cons_self, splitOn_eq_singleton (by simpa using Ne.symm hk),
      splitOn_eq_singleton (notMem_hexStr (by simp))]
    rfl
  rw [singleton_append] at hsplit
  rw [Missing.add, hsplit]
  by_cases hm : k = 'm'
  · subst hm
    simp only [if_true, pyIntHex_hexStr, bind_eq_bind, bind_some, Option.pure_def]
    cases Timestamp.ofStrDelta tData n <;> rfl
  · have hm' : ¬ [k] = ['m'] := fun h => hm (cons.inj h).1
    rw [if_neg hm]
    by_cases ht : k = 't'
    · subst ht
      simp only [if_neg hm', if_true, pyIntHex_hexStr, bind_eq_bind, bind_some, Option.pure_def]
      cases Timestamp.ofStrDelta tData n <;> rfl
    · have ht' : ¬ [k] = ['t'] := fun h => ht (cons.inj h).1
      simp only [if_neg hm', if_neg ht', if_neg ht]

/-- A timestamp that is sent beside that of the data. -/
def sent (tsData : Timestamp) (t : Option Timestamp) : Option Timestamp :=
  t.filter fun u => u.truthy && !(u.pyEq tsData)

/-- **What the receiver reads**: the times that were sent, each with the offset of the data. -/
theorem decodeMissing_encodeMissing {objectHash : Str} (hne : objectHash ≠ [])
    (hbytes : ∀ c ∈ objectHash, c.toNat < 256) (tsData : Timestamp) (tsMeta tsCtype : Option Timestamp) :
    decodeMissing (encodeMissing objectHash tsData tsMeta tsCtype) =
      match sent tsData tsMeta with
      | none => some ⟨objectHash, tsData, tsData, tsData⟩
      | some m => (Timestamp.ofStrDelta tsData.internal (m.raw - tsData.raw)).bind fun m' =>
        match sent tsData tsCtype with
        | none => some ⟨objectHash, tsData, m', tsData⟩
        | some c => (Timestamp.ofStrDelta tsData.internal (c.raw - tsData.raw)).map fun c' =>
          ⟨objectHash, tsData, m', c'⟩ := by
  -- one pair, as a word
  have hpair : ∀ k ∈ ['m', 't'], ∀ n, (∀ c ∈ k :: ':' :: hexStr n, isSpace c = false) ∧
      '%' ∉ k :: ':' :: hexStr n ∧ ',' ∉ k :: ':' :: hexStr n := by
    intro k hk n
    have hspace := isSpace_hexStr n
    have hpercent : '%' ∉ hexStr n := notMem_hexStr (by simp)
    have hcomma : ',' ∉ hexStr n := notMem_hexStr (by simp)
    simp only [mem_cons, not_mem_nil, or_false] at hk
    rcases hk with rfl | rfl <;> simp_all [isSpace]
  rw [encodeMissing]
  cases hm : sent tsData tsMeta with
  | none =>
    rw [sent] at hm
    simp only [hm]
    exact decodeMissing_plain hne hbytes tsData
  | some m =>
    rw [sent] at hm
    obtain ⟨hspace, hpercent, hcomma⟩ := hpair 'm' (by simp) (m.raw - tsData.raw)
    cases hc : sent tsData tsCtype with
    | none =>
      rw [sent] at hc
      have hline : quote isQuoteSafe objectHash ++ ' ' :: quote isQuoteSafe tsData.internal ++ " m:".toList ++
          hexStr (m.raw - tsData.raw) = quote isQuoteSafe objectHash ++ ' ' ::
            (quote isQuoteSafe tsData.internal ++ ' ' :: ('m' :: ':' :: hexStr (m.raw - tsData.raw))) := by
        simp
      simp only [hm, hc]
      rw [hline, decodeMissing_parts hne hbytes tsData hspace (cons_ne_nil _ _) hpercent,
        splitOn_eq_singleton hcomma, filter_cons_of_pos (by simp), filter_nil, foldlM_cons,
        add_hexStr _ _ (by decide), if_pos rfl]
      cases Timestamp.ofStrDelta tsData.internal (m.raw - tsData.raw) <;> rfl
    | some c =>
      rw [sent] at hc
      obtain ⟨hspace', hpercent', hcomma'⟩ := hpair 't' (by simp) (c.raw - tsData.raw)
      have hline : quote isQuoteSafe objectHash ++ ' ' :: quote isQuoteSafe tsData.internal ++ " m:".toList ++
          hexStr (m.raw - tsData.raw) ++ ",t:".toList ++ hexStr (c.raw - tsData.raw) =
          quote isQuoteSafe objectHash ++ ' ' :: (quote isQuoteSafe tsData.internal ++ ' ' ::
            ('m' :: ':' :: hexStr (m.raw - tsData.raw) ++ ',' :: 't' :: ':' :: hexStr (c.raw - tsData.raw))) := by
        simp
      have hspaces : ∀ x ∈ 'm' :: ':' :: hexStr (m.raw - tsData.raw) ++ ',' :: 't' :: ':' ::
          hexStr (c.raw - tsData.raw), isSpace x = false := by
        intro x hx
        rcases mem_append.mp hx with hx | hx
        · exact hspace x hx
        · rcases mem_cons.mp hx with rfl | hx
          · decide
          · exact hspace' x hx
      have hpercents : '%' ∉ 'm' :: ':' :: hexStr (m.raw - tsData.raw) ++ ',' :: 't' :: ':' ::
          hexStr (c.raw - tsData.raw) := by
        intro hx
        rcases mem_append.mp hx with hx | hx
        · exact hpercent hx
        · rcases mem_cons.mp hx with hx | hx
          · exact absurd hx (by decide)
          · exact hpercent' hx
      simp only [hm, hc]
      rw [hline, decodeMissing_parts hne hbytes tsData hspaces (cons_ne_nil _ _) hpercents,
        splitOn_append_cons_self, splitOn_eq_singleton hcomma, splitOn_eq_singleton hcomma',
        singleton_append, filter_cons_of_pos (by simp), filter_cons_of_pos (by simp), filter_nil,
        foldlM_cons, add_hexStr _ _ (by decide), if_pos rfl]
      cases Timestamp.ofStrDelta tsData.internal (m.raw - tsData.raw) with
      | none => rfl
      | some m' =>
        rw [map_some, bind_eq_bind, bind_some, foldlM_cons, add_hexStr _ _ (by decide),
          if_neg (by decide), if_pos rfl]
        cases Timestamp.ofStrDelta tsData.internal (c.raw - tsData.raw) <;> rfl

namespace Timestamp

theorem withOffset_eq_iff {t u : Timestamp} : t.withOffset u = t ↔ t.offset = u.offset := by
  refine ⟨fun h => ?_, fun h => Timestamp.ext rfl h.symm⟩
  rw [← h]
  rfl

end Timestamp

/-- **The same timestamps on both sides**: nothing is wanted. -/
theorem encodeWanted_same (objectHash : Str) (tsData m c : Timestamp) :
    encodeWanted ⟨objectHash, tsData, m, c⟩ ⟨some tsData, some m, some c⟩ = none := by
  have hgt : ∀ t : Timestamp, t.pyGt t = false := fun t => by
    rw [← Bool.not_eq_true, Timestamp.pyGt_iff]
    exact lt_irrefl t
  simp [encodeWanted, hgt]

/-- What differs from the data is sent, unless it is false. -/
theorem sent_eq (tsData : Timestamp) (t : Option Timestamp) :
    sent tsData t = if t.getD tsData = tsData then none
      else if (t.getD tsData).truthy then some (t.getD tsData) else none := by
  have heq : ∀ u : Timestamp, u.pyEq tsData = decide (u = tsData) := fun u => by
    rw [Bool.eq_iff_iff, Timestamp.pyEq_iff, decide_eq_true_eq]
  cases t with
  | none => rw [getD_none, if_pos rfl]; rfl
  | some u =>
    rw [getD_some, sent, filter_some, heq]
    by_cases hu : u = tsData
    · rw [if_pos hu, if_neg (by simp [hu])]
    · rw [if_neg hu]
      exact if_congr (by simp [hu]) rfl rfl

theorem sent_of_le {tsData : Timestamp} {t : Option Timestamp} (hle : tsData ≤ t.getD tsData) :
    sent tsData t = if t.getD tsData = tsData then none else some (t.getD tsData) := by
  rw [sent_eq]
  by_cases heq : t.getD tsData = tsData
  · rw [if_pos heq, if_pos heq]
  · have htruthy : (t.getD tsData).truthy = true := by
      have hlt := Timestamp.lt_iff.mp (lt_of_le_of_ne hle (Ne.symm heq))
      rw [Timestamp.truthy, Bool.or_eq_true, decide_eq_true_eq, decide_eq_true_eq]
      omega
    rw [if_neg heq, if_neg heq, if_pos htruthy]

/-- What is read, by what the sender has: absent times count as that of the data. -/
theorem decodeMissing_of_le {objectHash : Str} (hne : objectHash ≠ []) (hbytes : ∀ c ∈ objectHash, c.toNat < 256)
    {tsData : Timestamp} {tsMeta tsCtype : Option Timestamp} (hle : tsData ≤ tsMeta.getD tsData) :
    decodeMissing (encodeMissing objectHash tsData tsMeta tsCtype) =
      if tsMeta.getD tsData = tsData then some ⟨objectHash, tsData, tsData, tsData⟩
      else if tsCtype.getD tsData = tsData ∨ (tsCtype.getD tsData).truthy = false then
        some ⟨objectHash, tsData, (tsMeta.getD tsData).withOffset tsData, tsData⟩
      else if (tsCtype.getD tsData).raw = 0 ∧ tsData.raw ≠ 0 then none
      else some ⟨objectHash, tsData, (tsMeta.getD tsData).withOffset tsData,
        (tsCtype.getD tsData).withOffset tsData⟩ := by
  rw [decodeMissing_encodeMissing hne hbytes, sent_of_le hle, sent_eq]
  generalize tsMeta.getD tsData = m at hle
  generalize tsCtype.getD tsData = c
  by_cases hmd : m = tsData
  · rw [if_pos hmd, if_pos hmd]
  · have hraw : tsData.raw ≤ m.raw := by
      have hlt := Timestamp.lt_iff.mp (lt_of_le_of_ne hle (Ne.symm hmd))
      omega
    have hmeta : Timestamp.ofStrDelta tsData.internal ((m.raw : Int) - tsData.raw) = some (m.withOffset tsData) := by
      rw [Timestamp.ofStrDelta_raw, if_neg (by omega)]
    rw [if_neg hmd, if_neg hmd]
    simp only [hmeta, bind_some]
    by_cases hcd : c = tsData
    · rw [if_pos hcd, if_pos (Or.inl hcd)]
    · rw [if_neg hcd]
      by_cases hc : c.truthy = true
      · rw [if_pos hc, if_neg (by simp [hcd, hc])]
        simp only [Timestamp.ofStrDelta_raw]
        split_ifs <;> rfl
      · rw [if_neg hc, if_pos (Or.inr (by simpa using hc))]

/-- **The missing check comes out right exactly when the offsets agree.** The metadata is not
    older than the data; what is absent counts as the data. The receiver reads the hash and
    the three timestamps that were sent, and with the same timestamps wants nothing, if and
    only if the offset of the data is that of the metadata and of the content type, and a
    content type that differs from the data comes with metadata that do, and is not of time
    zero. -/
theorem missing_check_iff {objectHash : Str} (hne : objectHash ≠ []) (hbytes : ∀ c ∈ objectHash, c.toNat < 256)
    (tsData : Timestamp) (tsMeta tsCtype : Option Timestamp) (hmeta : ∀ m ∈ tsMeta, tsData ≤ m) :
    (∃ r, decodeMissing (encodeMissing objectHash tsData tsMeta tsCtype) = some r ∧
      r = ⟨objectHash, tsData, tsMeta.getD tsData, tsCtype.getD tsData⟩ ∧
      encodeWanted r ⟨some tsData, some (tsMeta.getD tsData), some (tsCtype.getD tsData)⟩ = none) ↔
    (tsMeta.getD tsData).offset = tsData.offset ∧ (tsCtype.getD tsData).offset = tsData.offset ∧
      (tsCtype.getD tsData = tsData ∨ tsMeta.getD tsData ≠ tsData ∧ (tsCtype.getD tsData).raw ≠ 0) := by
  have hle : tsData ≤ tsMeta.getD tsData := by
    cases tsMeta with
    | none => exact le_rfl
    | some u => exact hmeta u rfl
  rw [decodeMissing_of_le hne hbytes hle]
  generalize tsMeta.getD tsData = m
  generalize tsCtype.getD tsData = c
  -- that nothing is wanted follows from what is read
  have hiff : ∀ x : Option Missing, (∃ r, x = some r ∧ r = ⟨objectHash, tsData, m, c⟩ ∧
      encodeWanted r ⟨some tsData, some m, some c⟩ = none) ↔ x = some ⟨objectHash, tsData, m, c⟩ := by
    refine fun x => ⟨fun ⟨r, hx, hr, _⟩ => hr ▸ hx, fun hx => ⟨_, hx, rfl, encodeWanted_same objectHash tsData m c⟩⟩
  rw [hiff]
  by_cases hmd : m = tsData
  · rw [if_pos hmd, hmd, Option.some.injEq, Missing.mk.injEq]
    refine ⟨fun h => ⟨rfl, by rw [← h.2.2.2], Or.inl h.2.2.2.symm⟩, fun h => ⟨rfl, rfl, rfl, ?_⟩⟩
    rcases h.2.2 with h | h
    · exact h.symm
    · exact absurd rfl h.1
  · rw [if_neg hmd]
    by_cases hcd : c = tsData
    · rw [if_pos (Or.inl hcd), hcd, Option.some.injEq, Missing.mk.injEq, Timestamp.withOffset_eq_iff]
      exact ⟨fun h => ⟨h.2.2.1, rfl, Or.inl rfl⟩, fun h => ⟨rfl, rfl, h.1, rfl⟩⟩
    · have hzero : c.truthy = false → c.raw = 0 := by
        simp only [Timestamp.truthy, Bool.or_eq_false_iff, decide_eq_false_iff_not, not_not]
        exact And.left
      by_cases hc : c.truthy = false
      · rw [if_pos (Or.inr hc), Option.some.injEq, Missing.mk.injEq]
        exact ⟨fun h => absurd h.2.2.2.symm hcd, fun h => absurd (hzero hc) (h.2.2.resolve_left hcd).2⟩
      · rw [if_neg (by simp [hcd, hc])]
        by_cases hraw : c.raw = 0
        · have hright : ¬ (m.offset = tsData.offset ∧ c.offset = tsData.offset ∧
              (c = tsData ∨ m ≠ tsData ∧ c.raw ≠ 0)) := fun h => (h.2.2.resolve_left hcd).2 hraw
          refine iff_of_false (fun h => ?_) hright
          split_ifs at h with hnone
          have hdata : tsData.raw = 0 := by omega
          have hc' := (Missing.mk.injEq .. ▸ Option.some.inj h).2.2.2
          exact hcd (Timestamp.ext (hraw.trans hdata.symm) (Timestamp.withOffset_eq_iff.mp hc'))
        · rw [if_neg fun h => hraw h.1, Option.some.injEq, Missing.mk.injEq, Timestamp.withOffset_eq_iff,
            Timestamp.withOffset_eq_iff]
          exact ⟨fun h => ⟨h.2.2.1, h.2.2.2, Or.inr ⟨hmd, hraw⟩⟩, fun h => ⟨rfl, rfl, h.1, h.2.1⟩⟩

/-- Data that were put with an offset, and metadata that were posted later, without one. -/
def offsetData : Timestamp := ⟨140000000000000, 1, by norm_num, by decide +kernel⟩
def laterMeta : Timestamp := ⟨140000000100000, 0, by norm_num, Nat.zero_le _⟩

/-- The check comes out right where the data have no offset either. -/
theorem missing_check_iff_later :
    ∃ r, decodeMissing (encodeMissing ['a'] (offsetData.withOffset laterMeta) (some laterMeta) none) = some r ∧
      r = ⟨['a'], offsetData.withOffset laterMeta, laterMeta, offsetData.withOffset laterMeta⟩ ∧
      encodeWanted r ⟨some (offsetData.withOffset laterMeta), some laterMeta,
        some (offsetData.withOffset laterMeta)⟩ = none := by
  have hmeta : ∀ m ∈ some laterMeta, offsetData.withOffset laterMeta ≤ m := fun m hm =>
    Option.some.inj hm ▸ by decide +kernel
  have hbytes : ∀ c ∈ ['a'], c.toNat < 256 := by simp
  exact (missing_check_iff (cons_ne_nil _ _) hbytes _ (some laterMeta) none hmeta).mpr
    ⟨rfl, rfl, Or.inl rfl⟩

/-- **The receiver wants the metadata it has**: it reads them with the offset of the data. -/
theorem missing_check_repeats :
    decodeMissing (encodeMissing ['a'] offsetData (some laterMeta) none) =
      some ⟨['a'], offsetData, laterMeta.withOffset offsetData, offsetData⟩ ∧
    laterMeta.withOffset offsetData ≠ laterMeta ∧
    encodeWanted ⟨['a'], offsetData, laterMeta.withOffset offsetData, offsetData⟩
      ⟨some offsetData, some laterMeta, some offsetData⟩ = some "a m".toList := by
  have hle : offsetData ≤ (some laterMeta).getD offsetData := by decide +kernel
  have hbytes : ∀ c ∈ ['a'], c.toNat < 256 := by simp
  have hne : (some laterMeta).getD offsetData ≠ offsetData := by decide +kernel
  refine ⟨?_, by decide +kernel, by decide +kernel⟩
  rw [decodeMissing_of_le (cons_ne_nil _ _) hbytes hle, if_neg hne, getD_none, if_pos (Or.inl rfl)]
  rfl

end Mitaka.Swift
