/-
  Subject: Numbers with a significand of `p` bits, and rounding to them.

  A number is representable when it is a natural number of at most `p` bits times a power
  of two. `roundTo` rounds to nearest, ties to even. What is used of it:
  * `roundTo_nearest`: no representable number is nearer;
  * `roundTo_eq`: what is representable stays;
  * `roundTo_le`, `le_roundTo`: no representable number is jumped over.
  Exponents are not bounded: there is no overflow and no subnormal number.
-/
import Mathlib.Algebra.Order.Round
import Mathlib.Data.Int.Log
import Mathlib.Data.Rat.Floor
import Mathlib.Tactic.Linarith
import Mathlib.Tactic.Ring

namespace Mitaka

/-! ## 1. Rounding to an integer, ties to even -/

def roundEven (x : ℚ) : ℤ :=
  if Int.fract x = 1 / 2 then if Even ⌊x⌋ then ⌊x⌋ else ⌊x⌋ + 1 else round x

theorem roundEven_nearest (x : ℚ) (z : ℤ) : |x - roundEven x| ≤ |x - z| := by
  refine le_trans ?_ (round_le x z)
  unfold roundEven
  split
  next h =>
    have hround : |x - round x| = 1 / 2 := by
      rw [abs_sub_round_eq_min, h]
      norm_num
    have hfract : x - ⌊x⌋ = 1 / 2 := h
    rw [hround]
    split
    · rw [hfract]
      norm_num
    · push_cast
      rw [← sub_sub, hfract]
      norm_num
  next => exact le_rfl

/-! ## 2. Representable numbers -/

def Representable (p : ℕ) (x : ℚ) : Prop := ∃ (m : ℕ) (e : ℤ), m ≤ 2 ^ p ∧ x = m * (2 : ℚ) ^ e

variable {p : ℕ}

theorem Representable.zero : Representable p 0 := ⟨0, 0, Nat.zero_le _, by norm_num⟩

theorem Representable.two_zpow (e : ℤ) : Representable p ((2 : ℚ) ^ e) :=
  ⟨1, e, Nat.one_le_two_pow, by rw [Nat.cast_one, one_mul]⟩

theorem Representable.natCast {n : ℕ} (h : n ≤ 2 ^ p) : Representable p n := ⟨n, 0, h, by rw [zpow_zero, mul_one]⟩

/-- The exponent under which the significand of `x` has `p` bits. -/
def exponent (p : ℕ) (x : ℚ) : ℤ := Int.log 2 x - (p - 1)

def roundTo (p : ℕ) (x : ℚ) : ℚ :=
  if x ≤ 0 then 0 else roundEven (x / (2 : ℚ) ^ exponent p x) * (2 : ℚ) ^ exponent p x

theorem two_zpow_pos (e : ℤ) : (0 : ℚ) < 2 ^ e := zpow_pos two_pos e

variable {x : ℚ}

theorem significand_bounds (hp : 0 < p) (hx : 0 < x) :
    (2 : ℚ) ^ (p - 1) ≤ x / 2 ^ exponent p x ∧ x / 2 ^ exponent p x < 2 ^ p := by
  have hlow : (2 : ℚ) ^ Int.log 2 x ≤ x := by exact_mod_cast Int.zpow_log_le_self one_lt_two hx
  have hhigh : x < (2 : ℚ) ^ (Int.log 2 x + 1) := by exact_mod_cast Int.lt_zpow_succ_log_self one_lt_two x
  have hcast : ((p - 1 : ℕ) : ℤ) = p - 1 := by rw [Nat.cast_sub hp, Nat.cast_one]
  rw [le_div_iff₀ (two_zpow_pos _), div_lt_iff₀ (two_zpow_pos _), ← zpow_natCast, ← zpow_natCast,
    ← zpow_add₀ two_ne_zero, ← zpow_add₀ two_ne_zero, exponent, hcast]
  refine ⟨?_, ?_⟩
  · rwa [add_sub_cancel]
  · rwa [show (p : ℤ) + (Int.log 2 x - (p - 1)) = Int.log 2 x + 1 by ring]

theorem roundTo_pos_eq (hx : 0 < x) :
    roundTo p x = roundEven (x / (2 : ℚ) ^ exponent p x) * (2 : ℚ) ^ exponent p x := if_neg (not_le.mpr hx)

theorem roundTo_nonpos (hx : x ≤ 0) : roundTo p x = 0 := if_pos hx

/-- The significand is rounded to `2 ^ p` at most, which is the next exponent's least one. -/
theorem roundEven_bounds (hp : 0 < p) (hx : 0 < x) :
    (2 : ℤ) ^ (p - 1) ≤ roundEven (x / 2 ^ exponent p x) ∧ roundEven (x / 2 ^ exponent p x) ≤ 2 ^ p := by
  obtain ⟨hlow, hhigh⟩ := significand_bounds hp hx
  generalize x / 2 ^ exponent p x = s at hlow hhigh
  refine ⟨?_, ?_⟩
  · by_contra hlt
    have hle : (roundEven s : ℚ) + 1 ≤ 2 ^ (p - 1) := by exact_mod_cast Int.add_one_le_of_lt (not_le.mp hlt)
    have hnear := roundEven_nearest s (2 ^ (p - 1))
    push_cast at hnear
    rw [abs_of_nonneg (by linarith), abs_of_nonneg (by linarith)] at hnear
    linarith
  · by_contra hlt
    have hle : (2 : ℚ) ^ p + 1 ≤ roundEven s := by exact_mod_cast Int.add_one_le_of_lt (not_le.mp hlt)
    have hnear := roundEven_nearest s (2 ^ p)
    push_cast at hnear
    rw [abs_of_neg (by linarith), abs_of_neg (by linarith)] at hnear
    linarith

theorem roundTo_representable (hp : 0 < p) (x : ℚ) : Representable p (roundTo p x) := by
  rcases le_or_gt x 0 with hx | hx
  · rw [roundTo_nonpos hx]
    exact .zero
  · obtain ⟨hlow, hhigh⟩ := roundEven_bounds hp hx
    have hnonneg : 0 ≤ roundEven (x / 2 ^ exponent p x) := le_trans (by positivity) hlow
    obtain ⟨m, hm⟩ := Int.eq_ofNat_of_zero_le hnonneg
    refine ⟨m, exponent p x, by exact_mod_cast hm ▸ hhigh, ?_⟩
    rw [roundTo_pos_eq hx, hm]
    rfl

/-! ## 3. Nearest -/

/-- On the grid of its own exponent nothing is nearer. -/
theorem roundTo_nearest_grid (hx : 0 < x) (z : ℤ) :
    |x - roundTo p x| ≤ |x - z * (2 : ℚ) ^ exponent p x| := by
  have hpos := two_zpow_pos (exponent p x)
  have hscale : ∀ y : ℚ, |x - y * (2 : ℚ) ^ exponent p x| = |x / 2 ^ exponent p x - y| * 2 ^ exponent p x := fun y => by
    rw [← abs_of_pos hpos, ← abs_mul, abs_of_pos hpos, sub_mul, div_mul_cancel₀ _ hpos.ne']
  rw [roundTo_pos_eq hx, hscale, hscale]
  exact mul_le_mul_of_nonneg_right (roundEven_nearest _ z) hpos.le

/-- **No representable number is nearer.** -/
theorem roundTo_nearest (hp : 0 < p) (x : ℚ) {y : ℚ} (hy : Representable p y) : |x - roundTo p x| ≤ |x - y| := by
  obtain ⟨m, e, hm, rfl⟩ := hy
  have hynonneg : (0 : ℚ) ≤ m * 2 ^ e := mul_nonneg m.cast_nonneg (two_zpow_pos e).le
  rcases le_or_gt x 0 with hx | hx
  · rw [roundTo_nonpos hx, abs_of_nonpos (by linarith), abs_of_nonpos (by linarith)]
    linarith
  rcases le_or_gt (exponent p x) e with he | he
  · -- it is on the grid
    have hgrid : (m : ℚ) * 2 ^ e = ((m * 2 ^ (e - exponent p x).toNat : ℤ) : ℚ) * 2 ^ exponent p x := by
      push_cast
      rw [mul_assoc, ← zpow_natCast (2 : ℚ) (e - exponent p x).toNat, Int.toNat_of_nonneg (sub_nonneg.mpr he),
        ← zpow_add₀ two_ne_zero, sub_add_cancel]
    rw [hgrid]
    exact roundTo_nearest_grid hx _
  · -- it is at most the least number of the exponent, which is on the grid
    have hleast : (m : ℚ) * 2 ^ e ≤ 2 ^ (p - 1) * 2 ^ exponent p x := by
      have hpow : (2 : ℚ) ^ p * 2 ^ e ≤ 2 ^ (p - 1) * 2 ^ exponent p x := by
        have hsucc : (2 : ℚ) ^ p = 2 ^ (p - 1) * 2 := by rw [← pow_succ, Nat.sub_add_cancel hp]
        rw [hsucc, mul_assoc]
        refine mul_le_mul_of_nonneg_left ?_ (by positivity)
        rw [← zpow_one_add₀ two_ne_zero]
        exact zpow_le_zpow_right₀ one_le_two (by omega)
      exact (mul_le_mul_of_nonneg_right (by exact_mod_cast hm) (two_zpow_pos e).le).trans hpow
    have hlow := (le_div_iff₀ (two_zpow_pos _)).mp (significand_bounds hp hx).1
    have hgrid := roundTo_nearest_grid (p := p) hx (2 ^ (p - 1))
    push_cast at hgrid
    rw [abs_of_nonneg (sub_nonneg.mpr hlow)] at hgrid
    rw [abs_of_nonneg (a := x - m * 2 ^ e) (by linarith)]
    linarith

/-- What is representable stays. -/
theorem roundTo_eq (hp : 0 < p) (hx : Representable p x) : roundTo p x = x := by
  have hnear := roundTo_nearest hp x hx
  rw [sub_self, abs_zero] at hnear
  exact (sub_eq_zero.mp (abs_eq_zero.mp (le_antisymm hnear (abs_nonneg _)))).symm

theorem roundTo_le (hp : 0 < p) {x y : ℚ} (hy : Representable p y) (h : x ≤ y) : roundTo p x ≤ y := by
  by_contra hlt
  have hnear := roundTo_nearest hp x hy
  rw [abs_of_nonpos (by linarith), abs_of_nonpos (by linarith)] at hnear
  linarith

theorem le_roundTo (hp : 0 < p) {x y : ℚ} (hy : Representable p y) (h : y ≤ x) : y ≤ roundTo p x := by
  by_contra hlt
  have hnear := roundTo_nearest hp x hy
  rw [abs_of_nonneg (by linarith), abs_of_nonneg (by linarith)] at hnear
  linarith

/-! ## 4. Rounded arithmetic -/

/-- A non-negative floating-point number of `p` bits. -/
structure Rounded (p : ℕ) where
  value : ℚ
  representable : Representable p value

namespace Rounded

variable [NeZero p]

def ofRat (x : ℚ) : Rounded p := ⟨roundTo p x, roundTo_representable (NeZero.pos p) x⟩

instance : Zero (Rounded p) := ⟨⟨0, .zero⟩⟩

instance : Add (Rounded p) := ⟨fun a b => ofRat (a.value + b.value)⟩

instance : NatCast (Rounded p) := ⟨fun n => ofRat n⟩

omit [NeZero p] in
instance : LT (Rounded p) := ⟨fun a b => a.value < b.value⟩

omit [NeZero p] in
instance : DecidableLT (Rounded p) := fun a b => inferInstanceAs (Decidable (a.value < b.value))

omit [NeZero p] in
/-- `math.pow(2, e)` -/
def pow2 (e : ℤ) : Rounded p := ⟨2 ^ e, .two_zpow e⟩

theorem value_natCast {n : ℕ} (h : n ≤ 2 ^ p) : (n : Rounded p).value = n :=
  roundTo_eq (NeZero.pos p) (.natCast h)

/-- A sum on a grid is exact as long as it has `p` bits. -/
theorem value_add {a b : Rounded p} {g : ℤ} {n m : ℕ} (ha : a.value = n * (2 : ℚ) ^ g) (hb : b.value = m * (2 : ℚ) ^ g)
    (h : n + m ≤ 2 ^ p) : (a + b).value = ((n + m : ℕ) : ℚ) * 2 ^ g := by
  have hsum : a.value + b.value = ((n + m : ℕ) : ℚ) * 2 ^ g := by rw [ha, hb, Nat.cast_add, add_mul]
  change roundTo p (a.value + b.value) = _
  rw [hsum]
  exact roundTo_eq (NeZero.pos p) ⟨n + m, g, h, rfl⟩

/-- **Comparing a rounded sum with a number of the grid is exact** below `2 ^ p` units of the grid. -/
theorem natCast_lt_add {a b : Rounded p} {g : ℤ} {n m k q : ℕ} (ha : a.value = n * (2 : ℚ) ^ g)
    (hb : b.value = m * (2 : ℚ) ^ g) (hq : (q : ℚ) = k * (2 : ℚ) ^ g) (hk : k < 2 ^ p) (hqp : q ≤ 2 ^ p) :
    (q : Rounded p) < a + b ↔ (q : ℚ) < a.value + b.value := by
  change (q : Rounded p).value < roundTo p (a.value + b.value) ↔ _
  rw [value_natCast hqp]
  have hrep : Representable p (q : ℚ) := .natCast hqp
  refine ⟨fun hlt => ?_, fun hlt => ?_⟩
  · by_contra hle
    exact absurd hlt (not_lt.mpr (roundTo_le (NeZero.pos p) hrep (not_lt.mp hle)))
  · -- the sum is the next number of the grid at least, and that one is representable
    rw [ha, hb, hq, ← add_mul] at hlt
    have hnat : k + 1 ≤ n + m := by
      have := lt_of_mul_lt_mul_right hlt (two_zpow_pos g).le
      exact_mod_cast this
    have hnext : ((k + 1 : ℕ) : ℚ) * 2 ^ g ≤ a.value + b.value := by
      rw [ha, hb, ← add_mul]
      exact mul_le_mul_of_nonneg_right (by exact_mod_cast hnat) (two_zpow_pos g).le
    have hle := le_roundTo (NeZero.pos p) ⟨k + 1, g, hk, rfl⟩ hnext
    refine lt_of_lt_of_le ?_ hle
    rw [hq]
    exact mul_lt_mul_of_pos_right (by exact_mod_cast Nat.lt_succ_self k) (two_zpow_pos g)

end Rounded

end Mitaka
