/-
  Subject: swift/common/utils.py, class `Timestamp`, `encode_timestamps` and
           `decode_timestamps`.

  A timestamp is its raw value (deca-microseconds) and its offset; the range
  checks of `__init__` are fields, so an out-of-range timestamp cannot be built.
  Python compares timestamps by the strings `internal` prints. `internal_lt_iff`
  shows that this is the order of (raw, offset), `decodeAll_encodeTimestamps` that
  the delta-encoded strings of the container rows read back as they were written.

  Python 2 strings are lists of characters. `float` is read exactly, for the
  decimal forms `d`, `d.d` (no exponent, sign, blank, `inf` or `nan`), and
  rounded half up to the raw value; the stored timestamps have five decimals.
-/
import Mitaka.Lib.Numeral

namespace Mitaka.Swift

open Numeral List Option

/-- A Python 2 `str`. -/
abbrev Str := List Char

/-! ## 1. The class -/

def MAX_OFFSET : Nat := 16 ^ 16 - 1

/-- `Timestamp`, with what `__init__` checks: below 10000000000 seconds, and an
    offset of at most `MAX_OFFSET`. -/
@[ext] structure Timestamp where
  raw : Nat
  offset : Nat
  raw_lt : raw < 10 ^ 15
  offset_le : offset ≤ MAX_OFFSET
  deriving DecidableEq

namespace Timestamp

/-- The checks of `__init__` on a computed raw value; `none` is the `ValueError`. -/
def ofRaw (raw : Int) (offset : Nat) : Option Timestamp :=
  if h : 0 ≤ raw ∧ raw.toNat < 10 ^ 15 ∧ offset ≤ MAX_OFFSET then
    some ⟨raw.toNat, offset, h.2.1, h.2.2⟩
  else none

theorem ofRaw_self (t : Timestamp) : ofRaw t.raw t.offset = some t := by
  rw [ofRaw, dif_pos ⟨Int.natCast_nonneg _, t.raw_lt, t.offset_le⟩]
  rfl

/-- `NORMAL_FORMAT % timestamp`: ten digits, a point, five digits. -/
def normal (t : Timestamp) : Str :=
  padDigits 10 10 (t.raw / 10 ^ 5) ++ '.' :: padDigits 10 5 (t.raw % 10 ^ 5)

/-- `internal` (`FORCE_INTERNAL` is off). -/
def internal (t : Timestamp) : Str :=
  if t.offset ≠ 0 then t.normal ++ '_' :: padDigits 16 16 t.offset else t.normal

/-- `short`: the offset without leading zeros. -/
def short (t : Timestamp) : Str :=
  if t.offset ≠ 0 then t.normal ++ '_' :: Nat.toDigits 16 t.offset else t.normal

/-! ## 2. Comparison -/

/-- `__lt__`. -/
def pyLt (a b : Timestamp) : Bool := decide (a.internal < b.internal)

/-- `__eq__`. -/
def pyEq (a b : Timestamp) : Bool := decide (a.internal = b.internal)

/-- `__gt__`, from `functools.total_ordering`. -/
def pyGt (a b : Timestamp) : Bool := !(pyLt a b || pyEq a b)

/-- `__ge__`, from `functools.total_ordering`. -/
def pyGe (a b : Timestamp) : Bool := !pyLt a b

/-- The pair the order is about. -/
def key (t : Timestamp) : ℕ ×ₗ ℕ := toLex (t.raw, t.offset)

theorem key_injective : Function.Injective key := by
  intro a b h
  have h' : (a.raw, a.offset) = (b.raw, b.offset) := h
  exact Timestamp.ext (congrArg Prod.fst h') (congrArg Prod.snd h')

instance : LinearOrder Timestamp := LinearOrder.lift' key key_injective

variable {a b : Timestamp}

theorem lt_iff :
    a < b ↔ a.raw < b.raw ∨ a.raw = b.raw ∧ a.offset < b.offset :=
  Prod.Lex.lt_iff

theorem offset_lt (t : Timestamp) : t.offset < 16 ^ 16 := by
  have := t.offset_le
  unfold MAX_OFFSET at this
  omega

/-- Two printed timestamps, whatever is printed behind them: the seconds and
    the decimals decide first. -/
theorem normal_append_lt_iff (a b : Timestamp) (s t : Str) :
    a.normal ++ s < b.normal ++ t ↔ a.raw < b.raw ∨ a.raw = b.raw ∧ s < t := by
  have ha := a.raw_lt
  have hb := b.raw_lt
  have hqa : a.raw / 10 ^ 5 < 10 ^ 10 := by omega
  have hqb : b.raw / 10 ^ 5 < 10 ^ 10 := by omega
  have hra : a.raw % 10 ^ 5 < 10 ^ 5 := Nat.mod_lt _ (by norm_num)
  have hrb : b.raw % 10 ^ 5 < 10 ^ 5 := Nat.mod_lt _ (by norm_num)
  rw [normal, normal, append_assoc, append_assoc, cons_append, cons_append,
    padDigits_append_lt_iff (by norm_num) (by norm_num) hqa hqb, cons_lt_cons_iff,
    padDigits_append_lt_iff (by norm_num) (by norm_num) hra hrb]
  have irrefl : ¬ ('.' < '.') := lt_irrefl _
  simp only [irrefl, false_or, true_and]
  constructor
  · rintro (h | ⟨h, h' | ⟨h', hst⟩⟩)
    · left
      omega
    · left
      omega
    · right
      exact ⟨by omega, hst⟩
  · rintro (h | ⟨h, hst⟩)
    · by_cases hq : a.raw / 10 ^ 5 < b.raw / 10 ^ 5
      · exact Or.inl hq
      · right
        exact ⟨by omega, Or.inl (by omega)⟩
    · rw [h]
      exact Or.inr ⟨rfl, Or.inr ⟨rfl, hst⟩⟩

/-- What `internal` prints behind `normal`. -/
def offsetPart (t : Timestamp) : Str :=
  if t.offset ≠ 0 then '_' :: padDigits 16 16 t.offset else []

theorem internal_eq (t : Timestamp) : t.internal = t.normal ++ t.offsetPart := by
  unfold internal offsetPart
  split <;> simp

theorem offsetPart_lt_iff (a b : Timestamp) : a.offsetPart < b.offsetPart ↔ a.offset < b.offset := by
  have ha := a.offset_lt
  have hb := b.offset_lt
  unfold offsetPart
  by_cases h1 : a.offset = 0 <;> by_cases h2 : b.offset = 0
  · simp [h1, h2]
  · simp only [h1, h2, ne_eq, not_true_eq_false, not_false_eq_true, if_false, if_true]
    simp [nil_lt_cons, Nat.pos_of_ne_zero h2]
  · simp [h1, h2]
  · have irrefl : ¬ ('_' < '_') := lt_irrefl _
    simp only [ne_eq, h1, h2, not_false_eq_true, if_true, cons_lt_cons_iff, irrefl,
      false_or, true_and]
    exact padDigits_lt_iff (by norm_num) (by norm_num) ha hb

/-- **String comparison of `internal` is the order of (raw, offset).** -/
theorem internal_lt_iff : a.internal < b.internal ↔ a < b := by
  rw [internal_eq, internal_eq, normal_append_lt_iff, offsetPart_lt_iff, lt_iff]

theorem internal_injective : Function.Injective internal := by
  intro a b h
  rcases lt_trichotomy a b with hab | hab | hab
  · have := internal_lt_iff.mpr hab
    rw [h] at this
    exact absurd this (lt_irrefl _)
  · exact hab
  · have := internal_lt_iff.mpr hab
    rw [h] at this
    exact absurd this (lt_irrefl _)

@[simp] theorem pyLt_iff : pyLt a b = true ↔ a < b := by
  simp [pyLt, internal_lt_iff]

@[simp] theorem pyEq_iff : pyEq a b = true ↔ a = b := by
  simp [pyEq, internal_injective.eq_iff]

@[simp] theorem pyGe_iff : pyGe a b = true ↔ b ≤ a := by
  rw [pyGe, Bool.not_eq_true', ← Bool.not_eq_true, pyLt_iff, not_lt]

@[simp] theorem pyGt_iff : pyGt a b = true ↔ b < a := by
  rw [pyGt, Bool.not_eq_true', ← Bool.not_eq_true, Bool.or_eq_true, pyLt_iff, pyEq_iff, not_or]
  constructor
  · rintro ⟨h1, h2⟩
    exact lt_of_le_of_ne (not_lt.mp h1) (Ne.symm h2)
  · intro h
    exact ⟨not_lt.mpr h.le, h.ne'⟩

end Timestamp

/-! ## 3. Reading strings -/

/-- `s.split(c, 1)`: the text before the first `c`, and the text behind it. -/
def splitFirst (c : Char) (s : Str) : Str × Option Str :=
  match s.span (· ≠ c) with
  | (h, []) => (h, none)
  | (h, _ :: t) => (h, some t)

variable {s : Str}

theorem splitFirst_of_notMem {c : Char} (h : c ∉ s) : splitFirst c s = (s, none) := by
  have hall : ∀ x ∈ s, decide (x ≠ c) = true := fun x hx => by
    simp only [ne_eq, decide_not, Bool.not_eq_true', decide_eq_false_iff_not]
    exact fun e => h (e ▸ hx)
  rw [splitFirst, span_eq_takeWhile_dropWhile, takeWhile_eq_self_iff.mpr hall,
    dropWhile_eq_nil_iff.mpr hall]

theorem splitFirst_append {c : Char} (h : c ∉ s) (t : Str) :
    splitFirst c (s ++ c :: t) = (s, some t) := by
  have hall : ∀ x ∈ s, decide (x ≠ c) = true := fun x hx => by
    simp only [ne_eq, decide_not, Bool.not_eq_true', decide_eq_false_iff_not]
    exact fun e => h (e ▸ hx)
  rw [splitFirst, span_eq_takeWhile_dropWhile, takeWhile_append_of_pos hall,
    dropWhile_append_of_pos hall]
  simp

/-- `int(round(float(s) / PRECISION))`. -/
def floatRaw (s : Str) : Option Nat :=
  let (whole, rest) := splitFirst '.' s
  let decimals := rest.getD []
  (readNat 10 (whole ++ decimals)).map fun n =>
    (2 * n * 10 ^ 5 + 10 ^ decimals.length) / (2 * 10 ^ decimals.length)

/-- `Timestamp(s)` for a string; `none` is the `ValueError`. -/
def Timestamp.ofStr (s : Str) : Option Timestamp := do
  let (secs, off) := splitFirst '_' s
  let raw ← floatRaw secs
  let offset ← match off with
    | none => some 0
    | some h => readNat 16 h
  ofRaw raw offset

/-! ## 4. The encoded form of the container rows -/

/-- `'{:+x}'.format(d)`. -/
def signedHex (d : Int) : Str :=
  (if d < 0 then '-' else '+') :: Nat.toDigits 16 d.natAbs

/-- `encode_timestamps`. -/
def encodeTimestamps (t1 : Timestamp) (t2 t3 : Option Timestamp) (explicit : Bool) : Str :=
  match t2 with
  | none => t1.short
  | some t2 =>
    let t2_t1_delta : Int := t2.raw - t1.raw
    let explicit := explicit || decide (t2_t1_delta ≠ 0)
    match t3 with
    | none => if explicit then t1.short ++ signedHex t2_t1_delta else t1.short
    | some t3 =>
      let t3_t2_delta : Int := t3.raw - t2.raw
      let explicit := explicit || decide (t3_t2_delta ≠ 0)
      if explicit then t1.short ++ signedHex t2_t1_delta ++ signedHex t3_t2_delta else t1.short

/-- The time components and their signs: `x-y+z` gives x, y, z with signs
    +1, -1, +1. -/
def decodeParts (encoded : Str) : List (Int × Str) :=
  (encoded.splitOn '+').flatMap fun part =>
    match part.splitOn '-' with
    | [] => []
    | p :: ps => (1, p) :: ps.map fun q => (-1, q)

/-- One delta: the timestamp it is counted from is kept when the delta is zero. -/
def applyDelta (t : Timestamp) (part : Int × Str) : Option Timestamp := do
  let n ← readNat 16 part.2
  let delta := part.1 * n
  if delta = 0 then some t else Timestamp.ofRaw (t.raw + delta) 0

/-- `decode_timestamps`; `none` is the `ValueError`. -/
def decodeTimestamps (encoded : Str) (explicit : Bool) :
    Option (Timestamp × Option Timestamp × Option Timestamp) :=
  match decodeParts encoded with
  | [] => none
  | [p] => do
    let t1 ← Timestamp.ofStr p.2
    if explicit then some (t1, none, none) else some (t1, some t1, some t1)
  | [p, q] => do
    let t1 ← Timestamp.ofStr p.2
    let t2 ← applyDelta t1 q
    if explicit then some (t1, some t2, none) else some (t1, some t2, some t2)
  | p :: q :: r :: _ => do
    let t1 ← Timestamp.ofStr p.2
    let t2 ← applyDelta t1 q
    let t3 ← applyDelta t2 r
    some (t1, some t2, some t3)

/-- `decode_timestamps` without `explicit`, whose three results are never `None`. -/
def decodeAll (encoded : Str) : Option (Timestamp × Timestamp × Timestamp) :=
  match decodeTimestamps encoded false with
  | some (t1, some t2, some t3) => some (t1, t2, t3)
  | _ => none

/-! ## 5. Round trip -/

/-- The characters `short` writes: digits, the point and the underscore. -/
theorem Timestamp.mem_short {t : Timestamp} {c : Char} (h : c ∈ t.short) :
    digitVal 16 c ≠ none ∨ c = '.' ∨ c = '_' := by
  have dec : ∀ w n, ∀ x ∈ padDigits 10 w n, digitVal 16 x ≠ none := by
    intro w n x hx hnone
    refine digitVal_of_mem_padDigits (b := 10) (by norm_num) (by norm_num) w n x hx ?_
    rw [digitVal, filter_eq_none_iff] at hnone ⊢
    intro v hv
    have := hnone v hv
    simp only [decide_eq_true_eq] at this ⊢
    omega
  have hnormal : c ∈ t.normal → digitVal 16 c ≠ none ∨ c = '.' ∨ c = '_' := by
    intro hc
    rw [normal, mem_append, mem_cons] at hc
    rcases hc with hc | rfl | hc
    · exact Or.inl (dec _ _ c hc)
    · exact Or.inr (Or.inl rfl)
    · exact Or.inl (dec _ _ c hc)
  unfold short at h
  split at h
  · rw [mem_append, mem_cons] at h
    rcases h with h | rfl | h
    · exact hnormal h
    · exact Or.inr (Or.inr rfl)
    · exact Or.inl (digitVal_of_mem_toDigits (by norm_num) (by norm_num) _ c h)
  · exact hnormal h

theorem Timestamp.sign_notMem_short (t : Timestamp) : '+' ∉ t.short ∧ '-' ∉ t.short := by
  have hp : digitVal 16 '+' = none := digitVal_separator 16 (by simp)
  have hm : digitVal 16 '-' = none := digitVal_separator 16 (by simp)
  constructor
  · intro h
    rcases t.mem_short h with h | h | h
    · exact h hp
    · exact absurd h (by decide)
    · exact absurd h (by decide)
  · intro h
    rcases t.mem_short h with h | h | h
    · exact h hm
    · exact absurd h (by decide)
    · exact absurd h (by decide)

theorem sign_notMem_toDigits (n : Nat) : '+' ∉ Nat.toDigits 16 n ∧ '-' ∉ Nat.toDigits 16 n :=
  ⟨separator_notMem_toDigits (by norm_num) (by norm_num) n (by simp),
    separator_notMem_toDigits (by norm_num) (by norm_num) n (by simp)⟩

/-- Rounding a number that needs no rounding. -/
theorem round_exact {n p : Nat} (hp : 0 < p) : (2 * n * p + p) / (2 * p) = n := by
  have h : 2 * n * p + p = 2 * p * n + p := by ring
  rw [h, Nat.mul_add_div (by omega), Nat.div_eq_of_lt (by omega), Nat.add_zero]

/-- The float part of a printed timestamp is its raw value. -/
theorem floatRaw_normal (t : Timestamp) : floatRaw t.normal = some t.raw := by
  have hdot : '.' ∉ padDigits 10 10 (t.raw / 10 ^ 5) :=
    separator_notMem_padDigits (by norm_num) (by norm_num) _ _ (by simp)
  have hraw := t.raw_lt
  have hq : t.raw / 10 ^ 5 < 10 ^ 10 := by omega
  have hr : t.raw % 10 ^ 5 < 10 ^ 5 := Nat.mod_lt _ (Nat.pow_pos (by norm_num))
  have hread : readNat 10 (padDigits 10 10 (t.raw / 10 ^ 5) ++ padDigits 10 5 (t.raw % 10 ^ 5)) =
      some t.raw := by
    rw [readNat_padDigits_append (by norm_num) (by norm_num) (by norm_num) hq hr, Nat.div_add_mod']
  have hround : (2 * t.raw * 10 ^ 5 + 10 ^ 5) / (2 * 10 ^ 5) = t.raw :=
    round_exact (Nat.pow_pos (by norm_num))
  rw [floatRaw, Timestamp.normal, splitFirst_append hdot]
  simp only [getD_some, hread, map_some, length_padDigits, hround]

/-- **`Timestamp(t.short)` is `t`.** -/
theorem ofStr_short (t : Timestamp) : Timestamp.ofStr t.short = some t := by
  have hu : '_' ∉ t.normal := by
    have dec : ∀ w n, '_' ∉ padDigits 10 w n := fun w n =>
      separator_notMem_padDigits (by norm_num) (by norm_num) w n (by simp)
    rw [Timestamp.normal, mem_append, mem_cons]
    rintro (h | h | h)
    · exact dec _ _ h
    · exact absurd h (by decide)
    · exact dec _ _ h
  have hself := Timestamp.ofRaw_self t
  by_cases hoff : t.offset = 0
  · have hshort : t.short = t.normal := if_neg (not_not.mpr hoff)
    rw [hoff] at hself
    rw [hshort, Timestamp.ofStr, splitFirst_of_notMem hu]
    simp only [floatRaw_normal, bind_eq_bind, bind_some, hself]
  · have hshort : t.short = t.normal ++ '_' :: Nat.toDigits 16 t.offset := if_pos hoff
    have hread : readNat 16 (Nat.toDigits 16 t.offset) = some t.offset :=
      readNat_toDigits (by norm_num) (by norm_num) _
    rw [hshort, Timestamp.ofStr, splitFirst_append hu]
    simp only [floatRaw_normal, hread, bind_eq_bind, bind_some, hself]

/-- How a signed delta splits off: the part behind it, with its sign. -/
def signOf (d : Int) : Int := if d < 0 then -1 else 1

theorem signOf_natAbs (d : Int) : signOf d * d.natAbs = d := by
  unfold signOf
  split <;> omega

theorem splitOn_append_of_notMem {c : Char} (h : c ∉ s) (t : Str) :
    (s ++ t).splitOn c = (t.splitOn c).modifyHead (s ++ ·) := by
  induction s with
  | nil =>
    rw [nil_append]
    cases t.splitOn c <;> rfl
  | cons x s ih =>
    rw [mem_cons, not_or] at h
    have hx : (x == c) = false := by simpa using Ne.symm h.1
    rw [cons_append, splitOn_cons_eq_if_modifyHead, hx, ih h.2]
    cases t.splitOn c <;> simp

/-- A text without signs is one component. -/
theorem decodeParts_plain (hp : '+' ∉ s) (hm : '-' ∉ s) : decodeParts s = [(1, s)] := by
  simp [decodeParts, splitOn_eq_singleton hp, splitOn_eq_singleton hm]

theorem decodeParts_plus (hp : '+' ∉ s) (hm : '-' ∉ s) (t : Str) :
    decodeParts (s ++ '+' :: t) = (1, s) :: decodeParts t := by
  simp [decodeParts, splitOn_append_cons_self, splitOn_eq_singleton hp,
    splitOn_eq_singleton hm]

theorem decodeParts_minus (hp : '+' ∉ s) (hm : '-' ∉ s) (t : Str) :
    decodeParts (s ++ '-' :: t) =
      (1, s) :: (decodeParts t).modifyHead fun q => (-1, q.2) := by
  have hp' : '+' ∉ s ++ ['-'] := by simp [hp]
  have hsplit : s ++ '-' :: t = (s ++ ['-']) ++ t := by simp
  unfold decodeParts
  rw [hsplit, splitOn_append_of_notMem hp']
  cases ht : t.splitOn '+' with
  | nil => exact absurd ht (splitOn_ne_nil _ _)
  | cons part parts =>
    have hpart : (s ++ ['-'] ++ part).splitOn '-' = s :: part.splitOn '-' := by
      rw [append_assoc, singleton_append, splitOn_append_cons_self,
        splitOn_eq_singleton hm, singleton_append]
    simp only [modifyHead_cons, flatMap_cons, hpart]
    cases hq : part.splitOn '-' with
    | nil => exact absurd hq (splitOn_ne_nil _ _)
    | cons q qs => simp

/-- **A signed delta behind a sign-free head** splits off with its sign. -/
theorem decodeParts_signedHex (hp : '+' ∉ s) (hm : '-' ∉ s) (d : Int) (t : Str) :
    decodeParts (s ++ signedHex d ++ t) =
      (1, s) :: (decodeParts (Nat.toDigits 16 d.natAbs ++ t)).modifyHead
        fun q => (signOf d, q.2) := by
  unfold signedHex signOf
  by_cases hd : d < 0
  · simp only [hd, if_true, append_assoc, cons_append]
    exact decodeParts_minus hp hm _
  · simp only [hd, if_false, append_assoc, cons_append]
    rw [decodeParts_plus hp hm]
    -- the head of a component list always carries the sign +1
    have hhead : ∀ u : Str, (decodeParts u).modifyHead (fun q => (1, q.2)) = decodeParts u := by
      intro u
      unfold decodeParts
      cases hu : u.splitOn '+' with
      | nil => rfl
      | cons part parts =>
        simp only [flatMap_cons]
        cases hq : part.splitOn '-' with
        | nil => exact absurd hq (splitOn_ne_nil _ _)
        | cons q qs => simp
    rw [hhead]

theorem applyDelta_toDigits (t : Timestamp) (d : Int) :
    applyDelta t (signOf d, Nat.toDigits 16 d.natAbs) =
      if d = 0 then some t else Timestamp.ofRaw (t.raw + d) 0 := by
  simp only [applyDelta, readNat_toDigits (b := 16) (by norm_num) (by norm_num),
    bind_eq_bind, bind_some, signOf_natAbs]

/-- A timestamp without its offset. -/
def Timestamp.dropOffset (t : Timestamp) : Timestamp := ⟨t.raw, 0, t.raw_lt, Nat.zero_le _⟩

/-- Stepping from one timestamp to another: the offset of the first survives
    exactly when the raw values agree, that of the second never does. -/
def stepTo (t u : Timestamp) : Timestamp := if u.raw = t.raw then t else u.dropOffset

theorem applyDelta_stepTo (t u v : Timestamp) (hu : v.raw = t.raw) :
    applyDelta v (signOf ((u.raw : Int) - t.raw), Nat.toDigits 16 ((u.raw : Int) - t.raw).natAbs) =
      some (stepTo v u) := by
  rw [applyDelta_toDigits, stepTo]
  by_cases h : u.raw = v.raw
  · rw [if_pos (by omega), if_pos h]
  · rw [if_neg (by omega), if_neg h]
    have hraw : (v.raw : Int) + ((u.raw : Int) - t.raw) = u.raw := by omega
    rw [hraw]
    exact Timestamp.ofRaw_self u.dropOffset

@[simp] theorem stepTo_raw (t u : Timestamp) : (stepTo t u).raw = u.raw := by
  unfold stepTo
  split
  · next h => exact h.symm
  · rfl

theorem decodeParts_two (t : Timestamp) (d : Int) :
    decodeParts (t.short ++ signedHex d) = [(1, t.short), (signOf d, Nat.toDigits 16 d.natAbs)] := by
  obtain ⟨hp, hm⟩ := t.sign_notMem_short
  obtain ⟨hp', hm'⟩ := sign_notMem_toDigits d.natAbs
  have h := decodeParts_signedHex hp hm d []
  rw [append_nil, append_nil, decodeParts_plain hp' hm'] at h
  exact h

theorem decodeParts_three (t : Timestamp) (d e : Int) :
    decodeParts (t.short ++ signedHex d ++ signedHex e) =
      [(1, t.short), (signOf d, Nat.toDigits 16 d.natAbs), (signOf e, Nat.toDigits 16 e.natAbs)] := by
  obtain ⟨hp, hm⟩ := t.sign_notMem_short
  obtain ⟨hp2, hm2⟩ := sign_notMem_toDigits d.natAbs
  obtain ⟨hp3, hm3⟩ := sign_notMem_toDigits e.natAbs
  have htail := decodeParts_signedHex hp2 hm2 e []
  rw [append_nil, append_nil, decodeParts_plain hp3 hm3] at htail
  rw [decodeParts_signedHex hp hm, htail]
  rfl

/-- **Round trip of the row encoding**: the first timestamp reads back as it was
    written, the other two up to their offsets. -/
theorem decodeAll_encodeTimestamps (t1 t2 t3 : Timestamp) (explicit : Bool) :
    decodeAll (encodeTimestamps t1 (some t2) (some t3) explicit) =
      some (t1, stepTo t1 t2, stepTo (stepTo t1 t2) t3) := by
  unfold encodeTimestamps
  by_cases hex : ((explicit || decide ((t2.raw : Int) - t1.raw ≠ 0)) ||
      decide ((t3.raw : Int) - t2.raw ≠ 0)) = true
  · simp only [hex, if_true]
    rw [decodeAll, decodeTimestamps, decodeParts_three]
    simp only [ofStr_short, bind_eq_bind, bind_some,
      applyDelta_stepTo t1 t2 t1 rfl, applyDelta_stepTo t2 t3 _ (stepTo_raw t1 t2)]
  · simp only [hex, if_false, Bool.false_eq_true]
    simp only [Bool.or_eq_true, decide_eq_true_eq, not_or, not_not] at hex
    have e2 : t2.raw = t1.raw := by omega
    have e3 : t3.raw = t1.raw := by omega
    obtain ⟨hp, hm⟩ := t1.sign_notMem_short
    rw [decodeAll, decodeTimestamps, decodeParts_plain hp hm]
    simp [ofStr_short, stepTo, e2, e3]

/-- Written in full, what is absent reads back as `None`. There is no third delta without
    a second. -/
theorem decode_encode_explicit (t1 : Timestamp) (t2 t3 : Option Timestamp) :
    decodeTimestamps (encodeTimestamps t1 t2 t3 true) true =
      some (t1, t2.map (stepTo t1), t2.bind fun t2 => t3.map (stepTo (stepTo t1 t2))) := by
  cases t2 with
  | none =>
    obtain ⟨hp, hm⟩ := t1.sign_notMem_short
    rw [encodeTimestamps, decodeTimestamps, decodeParts_plain hp hm]
    simp [ofStr_short]
  | some t2 =>
    cases t3 with
    | none =>
      simp only [encodeTimestamps, Bool.true_or, if_true]
      rw [decodeTimestamps, decodeParts_two]
      simp only [ofStr_short, bind_eq_bind, bind_some, applyDelta_stepTo t1 t2 t1 rfl, if_true]
      rfl
    | some t3 =>
      simp only [encodeTimestamps, Bool.true_or, if_true]
      rw [decodeTimestamps, decodeParts_three]
      simp only [ofStr_short, bind_eq_bind, bind_some, applyDelta_stepTo t1 t2 t1 rfl,
        applyDelta_stepTo t2 t3 _ (stepTo_raw t1 t2)]
      rfl

/-- The encoding looks at the second and third timestamp through their raw values
    only. -/
theorem encodeTimestamps_congr {t1 t2 t3 u2 u3 : Timestamp} (h2 : t2.raw = u2.raw)
    (h3 : t3.raw = u3.raw) (explicit : Bool) :
    encodeTimestamps t1 (some t2) (some t3) explicit =
      encodeTimestamps t1 (some u2) (some u3) explicit := by
  simp only [encodeTimestamps, h2, h3]

/-- **Strings for timestamps.** The internal strings compare as the pairs of raw value and
    offset. An encoded triple reads back with its three raw values and the offset of the
    first, whatever their order; written in full, with `None` for what was absent. -/
theorem timestamps_encoded :
    (∀ a b : Timestamp, a.internal < b.internal ↔ a.raw < b.raw ∨ a.raw = b.raw ∧ a.offset < b.offset) ∧
    (∀ t1 t2 t3 : Timestamp, ∃ u2 u3, decodeAll (encodeTimestamps t1 (some t2) (some t3) false) = some (t1, u2, u3) ∧
      u2.raw = t2.raw ∧ u3.raw = t3.raw) ∧
    ∀ (t1 : Timestamp) (t2 t3 : Option Timestamp), ∃ u2 u3,
      decodeTimestamps (encodeTimestamps t1 t2 t3 true) true = some (t1, u2, u3) ∧
      u2.map Timestamp.raw = t2.map Timestamp.raw ∧
      u3.map Timestamp.raw = (t2.bind fun _ => t3).map Timestamp.raw := by
  refine ⟨fun a b => Timestamp.internal_lt_iff.trans Timestamp.lt_iff, fun t1 t2 t3 => ?_, fun t1 t2 t3 => ?_⟩
  · exact ⟨_, _, decodeAll_encodeTimestamps t1 t2 t3 false, stepTo_raw t1 t2, stepTo_raw _ t3⟩
  · refine ⟨_, _, decode_encode_explicit t1 t2 t3, ?_, ?_⟩
    · cases t2 with
      | none => rfl
      | some t2 => exact congrArg some (stepTo_raw t1 t2)
    · cases t2 with
      | none => rfl
      | some t2 =>
        cases t3 with
        | none => rfl
        | some t3 => exact congrArg some (stepTo_raw _ t3)

end Mitaka.Swift
