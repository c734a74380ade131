/-
  Subject: Positional numerals as lists of characters: reading a numeral,
           the round trip with `Nat.toDigits`, and numerals of fixed width.

  Fixed-width numerals are the reason string comparison can stand for
  comparison of numbers: `padDigits_lt_iff` says that the lexicographic order
  of two numerals of one width is the order of the numbers they write.
-/
import Mathlib

namespace Mitaka.Numeral

open List

/-! ## 1. Reading a numeral -/

/-- The value of a digit character in base `b`; letters of either case are
    digits from ten on. -/
def digitVal (b : Nat) (c : Char) : Option Nat :=
  let v :=
    if '0' ≤ c ∧ c ≤ '9' then some (c.toNat - '0'.toNat)
    else if 'a' ≤ c ∧ c ≤ 'z' then some (c.toNat - 'a'.toNat + 10)
    else if 'A' ≤ c ∧ c ≤ 'Z' then some (c.toNat - 'A'.toNat + 10)
    else none
  v.filter (· < b)

/-- One more digit behind a numeral of value `acc`. -/
def pushDigit (b acc : Nat) (c : Char) : Option Nat :=
  (digitVal b c).map (acc * b + ·)

/-- Read a numeral; the empty string and any foreign character are refused. -/
def readNat (b : Nat) (s : List Char) : Option Nat :=
  if s = [] then none else s.foldlM (pushDigit b) 0

/-- A written digit reads back as its value. -/
theorem digitVal_digitChar {b d : Nat} (hd : d < b) (hb : b ≤ 16) :
    digitVal b d.digitChar = some d := by
  have h16 : d < 16 := by omega
  have key : ∀ e : Fin 16, digitVal 16 (e : Nat).digitChar = some (e : Nat) := by decide
  have h := key ⟨d, h16⟩
  simp only [digitVal, Option.filter_eq_some_iff] at h ⊢
  exact ⟨h.1, by simpa using hd⟩

variable {c : Char}

/-- A digit is never one of the separators `+ - . _ / =`. -/
theorem digitVal_separator (b : Nat)
    (hc : c ∈ ['+', '-', '.', '_', '/', '=']) : digitVal b c = none := by
  fin_cases hc <;> rfl

variable {b : Nat}

theorem readNat_append_singleton {s : List Char} (hs : s ≠ []) :
    readNat b (s ++ [c]) = (readNat b s).bind fun acc => pushDigit b acc c := by
  have happ : s ++ [c] ≠ [] := by simp
  simp only [readNat, hs, happ, if_false, foldlM_append, foldlM_cons, foldlM_nil]
  cases List.foldlM (pushDigit b) 0 s <;> simp

/-- **Reading undoes writing**, in every base up to sixteen. -/
theorem readNat_toDigits (hb : 1 < b) (hb' : b ≤ 16) (n : Nat) :
    readNat b (Nat.toDigits b n) = some n := by
  induction n using Nat.strong_induction_on with
  | _ n ih =>
    by_cases hn : n < b
    · rw [Nat.toDigits_of_lt_base hn]
      simp [readNat, pushDigit, digitVal_digitChar hn hb']
    · have hdiv : n / b < n := Nat.div_lt_self (by omega) hb
      rw [Nat.toDigits_of_base_le hb (by omega), readNat_append_singleton Nat.toDigits_ne_nil,
        ih _ hdiv, Option.bind_some, pushDigit,
        digitVal_digitChar (Nat.mod_lt _ (by omega)) hb', Option.map_some, Nat.div_add_mod']

/-- Every character `Nat.toDigits` writes is a digit. -/
theorem digitVal_of_mem_toDigits (hb : 1 < b) (hb' : b ≤ 16) (n : Nat) :
    ∀ c ∈ Nat.toDigits b n, digitVal b c ≠ none := by
  induction n using Nat.strong_induction_on with
  | _ n ih =>
    intro c hc
    by_cases hn : n < b
    · rw [Nat.toDigits_of_lt_base hn, mem_singleton] at hc
      rw [hc, digitVal_digitChar hn hb']
      simp
    · rw [Nat.toDigits_of_base_le hb (by omega), mem_append, mem_singleton] at hc
      rcases hc with hc | rfl
      · exact ih _ (Nat.div_lt_self (by omega) hb) c hc
      · rw [digitVal_digitChar (Nat.mod_lt _ (by omega)) hb']
        simp

/-- A decimal digit by its code. -/
theorem toNat_of_mem_toDigits {n : Nat} (hc : c ∈ Nat.toDigits 10 n) :
    48 ≤ c.toNat ∧ c.toNat ≤ 57 := by
  induction n using Nat.strong_induction_on with
  | _ n ih =>
    have hdigit : ∀ d : Fin 10, 48 ≤ (d : Nat).digitChar.toNat ∧ (d : Nat).digitChar.toNat ≤ 57 := by
      decide
    by_cases hn : n < 10
    · rw [Nat.toDigits_of_lt_base hn, mem_singleton] at hc
      exact hc ▸ hdigit ⟨n, hn⟩
    · rw [Nat.toDigits_of_base_le (by norm_num) (by omega), mem_append, mem_singleton] at hc
      rcases hc with hc | rfl
      · exact ih _ (Nat.div_lt_self (by omega) (by norm_num)) hc
      · exact hdigit ⟨n % 10, Nat.mod_lt _ (by norm_num)⟩

/-! ## 2. Numerals of fixed width -/

/-- The numeral of `n` in base `b`, padded with zeros (or cut) to `w` digits. -/
def padDigits (b : Nat) : Nat → Nat → List Char
  | 0, _ => []
  | w + 1, n => (n / b ^ w % b).digitChar :: padDigits b w n

@[simp] theorem length_padDigits (b w n : Nat) : (padDigits b w n).length = w := by
  induction w with
  | zero => rfl
  | succ w ih => simp [padDigits, ih]

/-- Every character of a padded numeral is a digit. -/
theorem digitVal_of_mem_padDigits (hb : 1 < b) (hb' : b ≤ 16) (w n : Nat) :
    ∀ c ∈ padDigits b w n, digitVal b c ≠ none := by
  induction w with
  | zero => simp [padDigits]
  | succ w ih =>
    intro c hc
    rcases mem_cons.mp hc with rfl | hc
    · rw [digitVal_digitChar (Nat.mod_lt _ (by omega)) hb']
      simp
    · exact ih c hc

/-- No separator stands in a padded numeral. -/
theorem separator_notMem_padDigits (hb : 1 < b) (hb' : b ≤ 16) (w n : Nat)
    (hc : c ∈ ['+', '-', '.', '_', '/', '=']) : c ∉ padDigits b w n :=
  fun h => digitVal_of_mem_padDigits hb hb' w n c h (digitVal_separator b hc)

/-- No separator stands in a written number. -/
theorem separator_notMem_toDigits (hb : 1 < b) (hb' : b ≤ 16) (n : Nat)
    (hc : c ∈ ['+', '-', '.', '_', '/', '=']) : c ∉ Nat.toDigits b n :=
  fun h => digitVal_of_mem_toDigits hb hb' n c h (digitVal_separator b hc)

/-- What the reader accumulates over a padded numeral. -/
theorem foldlM_padDigits (hb : 1 < b) (hb' : b ≤ 16) (w n acc : Nat) :
    (padDigits b w n).foldlM (pushDigit b) acc = some (acc * b ^ w + n % b ^ w) := by
  induction w generalizing acc with
  | zero => simp [padDigits, Nat.mod_one]
  | succ w ih =>
    rw [padDigits, foldlM_cons, pushDigit,
      digitVal_digitChar (Nat.mod_lt _ (by omega)) hb', Option.map_some]
    simp only [Option.bind_eq_bind, Option.bind_some]
    rw [ih, Nat.pow_succ, Nat.mod_mul]
    congr 1
    ring

/-- **Reading a padded numeral** gives the number, when it fits the width. -/
theorem readNat_padDigits (hb : 1 < b) (hb' : b ≤ 16) {w n : Nat} (hw : 0 < w)
    (hn : n < b ^ w) : readNat b (padDigits b w n) = some n := by
  have hne : padDigits b w n ≠ [] := by
    intro h
    have := length_padDigits b w n
    rw [h] at this
    simp at this
    omega
  rw [readNat, if_neg hne, foldlM_padDigits hb hb', Nat.zero_mul, Nat.zero_add,
    Nat.mod_eq_of_lt hn]

/-- Two padded numerals one behind the other read as one number. -/
theorem readNat_padDigits_append (hb : 1 < b) (hb' : b ≤ 16) {v w m n : Nat}
    (hv : 0 < v) (hm : m < b ^ v) (hn : n < b ^ w) :
    readNat b (padDigits b v m ++ padDigits b w n) = some (m * b ^ w + n) := by
  have hne : padDigits b v m ++ padDigits b w n ≠ [] := by
    intro h
    have hlen := length_padDigits b v m
    rw [(append_eq_nil_iff.mp h).1] at hlen
    exact absurd hlen (by simp; omega)
  rw [readNat, if_neg hne, foldlM_append, foldlM_padDigits hb hb']
  simp only [Option.bind_eq_bind, Option.bind_some]
  rw [foldlM_padDigits hb hb', Nat.zero_mul, Nat.zero_add, Nat.mod_eq_of_lt hm,
    Nat.mod_eq_of_lt hn]

/-- Digits below sixteen are written in increasing characters. -/
theorem digitChar_lt_iff {d e : Nat} (hd : d < 16) (he : e < 16) :
    d.digitChar < e.digitChar ↔ d < e := by
  have key : ∀ x y : Fin 16, (x : Nat).digitChar < (y : Nat).digitChar ↔ (x : Nat) < y := by decide
  exact key ⟨d, hd⟩ ⟨e, he⟩

theorem digitChar_inj {d e : Nat} (hd : d < 16) (he : e < 16) :
    d.digitChar = e.digitChar ↔ d = e := by
  have key : ∀ x y : Fin 16, (x : Nat).digitChar = (y : Nat).digitChar ↔ (x : Nat) = y := by decide
  exact key ⟨d, hd⟩ ⟨e, he⟩

/-- **The order of padded numerals is the order of numbers**, whatever text
    follows: the texts decide only between equal numbers. -/
theorem padDigits_append_lt_iff (hb : 1 < b) (hb' : b ≤ 16) {w n m : Nat}
    (hn : n < b ^ w) (hm : m < b ^ w) (s t : List Char) :
    padDigits b w n ++ s < padDigits b w m ++ t ↔ n < m ∨ n = m ∧ s < t := by
  -- peel the leading digit: it compares first, the rest is the statement one digit shorter
  have aux : ∀ w, padDigits b w n ++ s < padDigits b w m ++ t ↔
      n % b ^ w < m % b ^ w ∨ n % b ^ w = m % b ^ w ∧ s < t := by
    intro w
    induction w with
    | zero => simp [padDigits, Nat.mod_one]
    | succ w ih =>
      have hbw : 0 < b ^ w := Nat.pow_pos (by omega)
      have hd : n / b ^ w % b < b := Nat.mod_lt _ (by omega)
      have he : m / b ^ w % b < b := Nat.mod_lt _ (by omega)
      have hr : n % b ^ w < b ^ w := Nat.mod_lt _ hbw
      have hr' : m % b ^ w < b ^ w := Nat.mod_lt _ hbw
      have lead : ∀ {x y p q : Nat}, p < b ^ w → q < b ^ w →
          (p + b ^ w * x < q + b ^ w * y ↔ x < y ∨ x = y ∧ p < q) := by
        intro x y p q hp hq
        rcases Nat.lt_trichotomy x y with h | rfl | h
        · have := Nat.mul_le_mul_left (b ^ w) (show x + 1 ≤ y from h)
          rw [Nat.mul_add, Nat.mul_one] at this
          simp only [h, true_or, iff_true]
          omega
        · simp
        · have := Nat.mul_le_mul_left (b ^ w) (show y + 1 ≤ x from h)
          rw [Nat.mul_add, Nat.mul_one] at this
          constructor
          · intro hlt
            omega
          · rintro (h' | ⟨rfl, -⟩) <;> omega
      have leadEq : n % b ^ w + b ^ w * (n / b ^ w % b) = m % b ^ w + b ^ w * (m / b ^ w % b) ↔
          n / b ^ w % b = m / b ^ w % b ∧ n % b ^ w = m % b ^ w := by
        have h1 := @lead (n / b ^ w % b) (m / b ^ w % b) _ _ hr hr'
        have h2 := @lead (m / b ^ w % b) (n / b ^ w % b) _ _ hr' hr
        constructor
        · intro h
          omega
        · rintro ⟨h, h'⟩
          rw [h, h']
      rw [padDigits, padDigits, cons_append, cons_append, cons_lt_cons_iff,
        digitChar_lt_iff (by omega) (by omega), digitChar_inj (by omega) (by omega), ih,
        Nat.pow_succ, Nat.mod_mul, Nat.mod_mul, lead hr hr', leadEq]
      tauto
  have h := aux w
  rwa [Nat.mod_eq_of_lt hn, Nat.mod_eq_of_lt hm] at h

/-- The order of padded numerals of one width. -/
theorem padDigits_lt_iff (hb : 1 < b) (hb' : b ≤ 16) {w n m : Nat}
    (hn : n < b ^ w) (hm : m < b ^ w) : padDigits b w n < padDigits b w m ↔ n < m := by
  have h := padDigits_append_lt_iff hb hb' hn hm [] []
  simpa using h

end Mitaka.Numeral
