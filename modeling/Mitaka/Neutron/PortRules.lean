/-
  Subject: port_rule_masking of neutron/common/utils.py.

  A range of ports becomes rules `value/mask`, each of which is an aligned block of ports.
  The range is split where the first bit differs; the two loops go down the bits of one
  end each, and what they have listed and what is left make up their half at every bit
  (`minLoop_tiles`, `maxLoop_tiles`).

  Each port of the range meets one rule, and no other port meets any (**`portRuleMasking_exact`**).
-/
import Mitaka.Keystone.Text
import Mitaka.Lib.Dyadic

namespace Mitaka.Neutron.PortRules

open Keystone (Str)
open Numeral List
open Block (Tiles)

/-! ## 1. The function -/

/-- `format(num, '#06x')`. -/
def hexStr (num : ℕ) : Str := '0' :: 'x' :: if num < 16 ^ 4 then padDigits 16 4 num else Nat.toDigits 16 num

/-- `_hex_format`; `Nat.ldiff a b` is `a & ~b`. -/
def hexFormat (port mask : ℕ) : Str :=
  if 0 < mask then hexStr port ++ '/' :: hexStr (Nat.ldiff 0xffff mask) else hexStr port

theorem shiftRight_lt {mask : ℕ} (h : mask ≠ 0) : mask >>> 1 < mask := by
  rw [Nat.shiftRight_eq_div_pow, pow_one]
  omega

/-- The loop of `_gen_rules_port_min`. -/
def minLoop (portMin topBit mask : ℕ) : List Str :=
  if portMin &&& mask = 0 then [hexFormat portMin mask]
  else
    let topBit := topBit >>> 1
    let shifted := mask >>> 1
    (if portMin &&& topBit = 0 then [hexFormat (Nat.ldiff portMin shifted ||| topBit) shifted] else []) ++
      minLoop portMin topBit shifted
termination_by mask
decreasing_by exact shiftRight_lt fun h => ‹¬ portMin &&& mask = 0› (by rw [h, Nat.and_zero])

/-- `_gen_rules_port_min`. -/
def genRulesPortMin (portMin topBit : ℕ) : List Str := minLoop portMin topBit (topBit - 1)

/-- The loop of `_gen_rules_port_max`. -/
def maxLoop (portMax topBit mask : ℕ) : List Str :=
  if portMax &&& mask = mask then [hexFormat (Nat.ldiff portMax mask) mask]
  else
    let topBit := topBit >>> 1
    let shifted := mask >>> 1
    (if portMax &&& topBit = topBit then [hexFormat (Nat.ldiff (Nat.ldiff portMax shifted) topBit) shifted] else []) ++
      maxLoop portMax topBit shifted
termination_by mask
decreasing_by exact shiftRight_lt fun h => ‹¬ portMax &&& mask = mask› (by rw [h, Nat.and_zero])

/-- `_gen_rules_port_max`. -/
def genRulesPortMax (portMax topBit : ℕ) : List Str := maxLoop portMax topBit (topBit - 1)

/-- `while top_bit <= bitdiff: top_bit <<= 1`. -/
def shiftAbove (bitdiff topBit : ℕ) (h : 0 < topBit) : ℕ :=
  if topBit ≤ bitdiff then shiftAbove bitdiff (topBit <<< 1) (by rw [Nat.shiftLeft_eq]; omega) else topBit
termination_by bitdiff + 1 - topBit
decreasing_by rw [Nat.shiftLeft_eq]; omega

/-- The bit at which a range is split. -/
def splitBit (portMin portMax : ℕ) : ℕ := shiftAbove (portMin ^^^ portMax) 1 Nat.one_pos

/-- `port_rule_masking`; none is the `ValueError`. -/
def portRuleMasking (portMin portMax : ℕ) : Option (List Str) :=
  if portMax < portMin then none
  else if portMin ^^^ portMax = 0 then some [hexFormat portMin 0]
  else
    let topBit := splitBit portMin portMax
    if portMin &&& (topBit - 1) = 0 ∧ portMax &&& (topBit - 1) = topBit - 1 then some [hexFormat portMin (topBit - 1)]
    else
      let topBit := topBit >>> 1
      some (genRulesPortMin portMin topBit ++ genRulesPortMax portMax topBit)

/-! ## 2. What is asked of it -/

/-- The number behind `0x`. -/
def readHex : Str → Option ℕ
  | '0' :: 'x' :: s => readNat 16 s
  | _ => none

/-- The value and the mask of a rule; a rule without a mask is about all bits. -/
def readRule (s : Str) : Option (ℕ × ℕ) :=
  match s.dropWhile (· ≠ '/') with
  | [] => (readHex s).map fun value => (value, 0xffff)
  | _ :: mask => (readHex (s.takeWhile (· ≠ '/'))).bind fun value => (readHex mask).map fun mask => (value, mask)

/-- The port meets the rule. -/
def Meets (p : ℕ) (r : ℕ × ℕ) : Prop := p &&& r.2 = r.1 &&& r.2

instance (p : ℕ) (r : ℕ × ℕ) : Decidable (Meets p r) := inferInstanceAs (Decidable (_ = _))

/-- The rules cover the ports from `lo` to `hi`, each one once, and no value has a bit outside its mask. -/
structure ExactCover (rules : List (ℕ × ℕ)) (lo hi : ℕ) : Prop where
  covers : ∀ p < 2 ^ 16, (∃ r ∈ rules, Meets p r) ↔ lo ≤ p ∧ p ≤ hi
  once : ∀ p, lo ≤ p → p ≤ hi → rules.countP (fun r => Meets p r) = 1
  value : ∀ r ∈ rules, r.1 &&& r.2 = r.1
  bits : ∀ r ∈ rules, r.1 < 2 ^ 16 ∧ r.2 < 2 ^ 16

/-- The texts are rules that cover the ports. -/
def Covers (texts : List Str) (lo hi : ℕ) : Prop :=
  ∃ rules : List (ℕ × ℕ), texts.map readRule = rules.map some ∧ ExactCover rules lo hi

/-! ## 3. Bits -/

theorem ldiff_mask (x k : ℕ) : Nat.ldiff x (2 ^ k - 1) = x / 2 ^ k * 2 ^ k := by
  refine Nat.eq_of_testBit_eq fun i => ?_
  rw [Nat.testBit_ldiff, Nat.testBit_two_pow_sub_one, Nat.testBit_mul_two_pow, Nat.testBit_div_two_pow]
  by_cases h : k ≤ i
  · rw [Nat.sub_add_cancel h, decide_eq_true h, decide_eq_false (by omega), Bool.not_false, Bool.and_true, Bool.true_and]
  · rw [decide_eq_false h, decide_eq_true (by omega), Bool.not_true, Bool.and_false, Bool.false_and]

/-- A port without the bits below `k`. -/
theorem and_ldiff_mask {p : ℕ} (hp : p < 2 ^ 16) (k : ℕ) : p &&& Nat.ldiff 0xffff (2 ^ k - 1) = p / 2 ^ k * 2 ^ k := by
  refine and_high_bits hp fun i hi => ?_
  rw [Nat.testBit_ldiff, show (0xffff : ℕ) = 2 ^ 16 - 1 from rfl, Nat.testBit_two_pow_sub_one, Nat.testBit_two_pow_sub_one,
    decide_eq_true hi, Bool.true_and, ← decide_not, decide_eq_decide]
  exact not_lt

theorem and_two_pow_eq_zero (x k : ℕ) : x &&& 2 ^ k = 0 ↔ x / 2 ^ k % 2 = 0 := by
  rw [Nat.and_two_pow, Nat.testBit_eq_decide_div_mod_eq]
  rcases Nat.mod_two_eq_zero_or_one (x / 2 ^ k) with h | h
  · simp [h]
  · simp [h]

theorem and_two_pow_eq_self (x k : ℕ) : x &&& 2 ^ k = 2 ^ k ↔ x / 2 ^ k % 2 = 1 := by
  rw [Nat.and_two_pow, Nat.testBit_eq_decide_div_mod_eq]
  rcases Nat.mod_two_eq_zero_or_one (x / 2 ^ k) with h | h
  · simp [h, (Nat.two_pow_pos k).ne]
  · simp [h]

theorem even_or_bit {q : ℕ} (h : q % 2 = 0) (k : ℕ) : q * 2 ^ k ||| 2 ^ k = (q + 1) * 2 ^ k := by
  obtain ⟨c, rfl⟩ := Nat.dvd_of_mod_eq_zero h
  have hlt : 2 ^ k < 2 ^ (k + 1) := Nat.pow_lt_pow_right (by decide) (Nat.lt_succ_self k)
  have heq : 2 * c * 2 ^ k = 2 ^ (k + 1) * c := by ring
  rw [heq, ← Nat.two_pow_add_eq_or_of_lt hlt]
  ring

theorem odd_ldiff_bit {q : ℕ} (h : q % 2 = 1) (k : ℕ) : Nat.ldiff (q * 2 ^ k) (2 ^ k) = (q - 1) * 2 ^ k := by
  refine Nat.eq_of_testBit_eq fun i => ?_
  rw [Nat.testBit_ldiff, Nat.testBit_mul_two_pow, Nat.testBit_mul_two_pow, Nat.testBit_two_pow]
  rcases Nat.lt_trichotomy i k with hi | rfl | hi
  · rw [decide_eq_false (show ¬ k ≤ i by omega), Bool.false_and, Bool.false_and, Bool.false_and]
  · rw [decide_eq_true rfl, Nat.sub_self, Nat.testBit_zero, Nat.testBit_zero,
      decide_eq_false (show ¬ (q - 1) % 2 = 1 by omega), Bool.not_true, Bool.and_false, Bool.and_false]
  · obtain ⟨j, rfl⟩ := Nat.exists_eq_add_of_lt hi
    rw [decide_eq_false (show ¬ k = k + j + 1 by omega), Bool.not_false, Bool.and_true,
      show k + j + 1 - k = j + 1 by omega, Nat.testBit_succ, Nat.testBit_succ, show (q - 1) / 2 = q / 2 by omega]

/-! ## 4. Rules and blocks -/

/-- The text of a block of ports. -/
def ruleOf (b : Block) : Str := hexFormat (b.index * 2 ^ b.level) (2 ^ b.level - 1)

theorem readHex_hexStr {num : ℕ} (h : num < 16 ^ 4) : readHex (hexStr num) = some num := by
  rw [hexStr, if_pos h, readHex]
  exact readNat_padDigits (by decide) (by decide) (by decide) h

theorem slash_notMem_hexStr (num : ℕ) : '/' ∉ hexStr num := by
  have hslash : '/' ∈ ['+', '-', '.', '_', '/', '='] := by decide
  rw [hexStr, mem_cons, mem_cons, not_or, not_or]
  refine ⟨by decide, by decide, ?_⟩
  split
  · exact separator_notMem_padDigits (by decide) (by decide) 4 num hslash
  · exact separator_notMem_toDigits (by decide) (by decide) num hslash

/-- **A rule is read as it was meant.** -/
theorem readRule_hexFormat {port mask : ℕ} (hport : port < 2 ^ 16) :
    readRule (hexFormat port mask) = some (port, Nat.ldiff 0xffff mask) := by
  have hport16 : port < 16 ^ 4 := hport
  have hbound : Nat.ldiff 0xffff mask < 16 ^ 4 := by
    refine Nat.lt_pow_two_of_testBit (n := 16) _ fun i hi => ?_
    rw [Nat.testBit_ldiff, show (0xffff : ℕ) = 2 ^ 16 - 1 from rfl, Nat.testBit_two_pow_sub_one 16,
      decide_eq_false (by omega), Bool.false_and]
  have hclass : ∀ c ∈ hexStr port, (decide (c ≠ '/')) = true := fun c hc =>
    decide_eq_true fun h => slash_notMem_hexStr port (h ▸ hc)
  rw [readRule, hexFormat]
  split_ifs with hmask
  · have hdrop : (hexStr port ++ '/' :: hexStr (Nat.ldiff 0xffff mask)).dropWhile (· ≠ '/') =
        '/' :: hexStr (Nat.ldiff 0xffff mask) := by
      rw [dropWhile_append_of_pos hclass, dropWhile_cons_of_neg (by decide)]
    have htake : (hexStr port ++ '/' :: hexStr (Nat.ldiff 0xffff mask)).takeWhile (· ≠ '/') = hexStr port := by
      rw [takeWhile_append_of_pos hclass, takeWhile_cons_of_neg (by decide), append_nil]
    simp only [hdrop, htake, readHex_hexStr hport16, readHex_hexStr hbound, Option.bind_some, Option.map_some]
  · have hzero : mask = 0 := by omega
    have hdrop : (hexStr port).dropWhile (· ≠ '/') = [] := dropWhile_eq_nil_iff.mpr hclass
    have hall : Nat.ldiff 0xffff mask = 0xffff := by
      rw [hzero]
      exact ldiff_mask 0xffff 0
    simp only [hdrop, readHex_hexStr hport16, hall, Option.map_some]

/-- The rule of a block as numbers. -/
def pairOf (b : Block) : ℕ × ℕ := (b.index * 2 ^ b.level, Nat.ldiff 0xffff (2 ^ b.level - 1))

/-- **A port meets the rule of a block** when it lies in the block. -/
theorem meets_pairOf {b : Block} (hb : b.index * 2 ^ b.level < 2 ^ 16) {p : ℕ} (hp : p < 2 ^ 16) :
    Meets p (pairOf b) ↔ b.Has p := by
  rw [Meets, pairOf, and_ldiff_mask hp, and_ldiff_mask hb, Nat.mul_div_cancel _ (Nat.two_pow_pos _), Block.Has]
  exact ⟨Nat.eq_of_mul_eq_mul_right (Nat.two_pow_pos _), fun h => by rw [h]⟩

variable {lo hi : ℕ}

/-- **The rules of blocks that tile the range** cover it. -/
theorem covers_of_tiles {bs : List Block} (h : Tiles bs lo (hi + 1)) (hhi : hi < 2 ^ 16) :
    Covers (bs.map ruleOf) lo hi := by
  have hfirst : ∀ b ∈ bs, b.index * 2 ^ b.level < 2 ^ 16 := fun b hb => by
    have hin := (h.exists_has.mp ⟨b, hb, b.has_first⟩).2
    omega
  refine ⟨bs.map pairOf, ?_, ?_⟩
  · rw [List.map_map, List.map_map]
    exact map_congr_left fun b hb => readRule_hexFormat (hfirst b hb)
  · refine ⟨fun p hp => ?_, fun p hlo hle => ?_, fun r hr => ?_, fun r hr => ?_⟩
    · have hmeets : (∃ r ∈ bs.map pairOf, Meets p r) ↔ ∃ b ∈ bs, b.Has p := by
        simp only [List.mem_map, exists_exists_and_eq_and]
        exact exists_congr fun b => and_congr_right fun hb => meets_pairOf (hfirst b hb) hp
      rw [hmeets, h.exists_has, Set.mem_Ico]
      exact and_congr_right' Nat.lt_add_one_iff
    · have hcount : bs.countP (fun b => Meets p (pairOf b)) = bs.countP fun b => b.Has p :=
        countP_congr fun b hb => by
          rw [decide_eq_true_eq, decide_eq_true_eq]
          exact meets_pairOf (hfirst b hb) (by omega)
      rw [countP_map]
      exact hcount.trans ((h p).1 ⟨hlo, Nat.lt_add_one_of_le hle⟩)
    · obtain ⟨b, hb, rfl⟩ := List.mem_map.mp hr
      exact (and_ldiff_mask (hfirst b hb) b.level).trans
        (by rw [Nat.mul_div_cancel _ (Nat.two_pow_pos _)]; rfl)
    · obtain ⟨b, hb, rfl⟩ := List.mem_map.mp hr
      refine ⟨hfirst b hb, ?_⟩
      refine Nat.lt_pow_two_of_testBit _ fun i hi => ?_
      rw [pairOf, Nat.testBit_ldiff, show (0xffff : ℕ) = 2 ^ 16 - 1 from rfl, Nat.testBit_two_pow_sub_one 16,
        decide_eq_false (by omega), Bool.false_and]

/-! ## 5. The loops -/

theorem shift_bit (k : ℕ) : 2 ^ (k + 1) >>> 1 = 2 ^ k := by
  rw [Nat.shiftRight_eq_div_pow, pow_one, pow_succ, Nat.mul_div_cancel _ Nat.two_pos]

theorem shift_mask (k : ℕ) : (2 ^ (k + 1) - 1) >>> 1 = 2 ^ k - 1 := by
  rw [Nat.shiftRight_eq_div_pow, pow_one, pow_succ]
  omega

theorem div_two_pow_succ (x k : ℕ) : x / 2 ^ (k + 1) = x / 2 ^ k / 2 := by
  rw [pow_succ, Nat.div_div_eq_div_mul]

/-- **The half from its least port**: at each bit, what is listed and what is left make it up. -/
theorem minLoop_tiles (lo k : ℕ) : ∃ bs : List Block, minLoop lo (2 ^ k) (2 ^ k - 1) = bs.map ruleOf ∧
    Tiles bs lo ((lo / 2 ^ k + 1) * 2 ^ k) := by
  have hstop (k : ℕ) (h : lo % 2 ^ k = 0) : ∃ bs : List Block, minLoop lo (2 ^ k) (2 ^ k - 1) = bs.map ruleOf ∧
      Tiles bs lo ((lo / 2 ^ k + 1) * 2 ^ k) := by
    have hlo : lo / 2 ^ k * 2 ^ k = lo := Nat.div_mul_cancel (Nat.dvd_of_mod_eq_zero h)
    have htiles := Block.tiles_single ⟨k, lo / 2 ^ k⟩
    dsimp only at htiles
    rw [hlo] at htiles
    refine ⟨[⟨k, lo / 2 ^ k⟩], ?_, htiles⟩
    rw [minLoop, Nat.and_two_pow_sub_one_eq_mod, if_pos h, map_singleton, ruleOf]
    dsimp only
    rw [hlo]
  induction k with
  | zero => exact hstop 0 (Nat.mod_one lo)
  | succ k ih =>
    by_cases h : lo % 2 ^ (k + 1) = 0
    · exact hstop (k + 1) h
    · obtain ⟨bs, hbs, htiles⟩ := ih
      have hlo : lo ≤ (lo / 2 ^ k + 1) * 2 ^ k := (Nat.lt_mul_of_div_lt (Nat.lt_succ_self _) (Nat.two_pow_pos k)).le
      have hhalf : (lo / 2 ^ (k + 1) + 1) * 2 ^ (k + 1) = (2 * (lo / 2 ^ k / 2) + 2) * 2 ^ k := by
        rw [div_two_pow_succ]
        ring
      rw [minLoop, Nat.and_two_pow_sub_one_eq_mod, if_neg h]
      simp only [shift_bit, shift_mask, and_two_pow_eq_zero]
      rcases Nat.mod_two_eq_zero_or_one (lo / 2 ^ k) with hbit | hbit
      · -- the upper half is a rule, the lower one is left
        have hupper : Tiles [⟨k, lo / 2 ^ k + 1⟩] ((lo / 2 ^ k + 1) * 2 ^ k) ((lo / 2 ^ k + 1 + 1) * 2 ^ k) :=
          Block.tiles_single ⟨k, lo / 2 ^ k + 1⟩
        have hend : 2 * (lo / 2 ^ k / 2) + 2 = lo / 2 ^ k + 1 + 1 := by omega
        refine ⟨⟨k, lo / 2 ^ k + 1⟩ :: bs, ?_, ?_⟩
        · rw [if_pos hbit, hbs, ldiff_mask, even_or_bit hbit]
          rfl
        · rw [hhalf, hend]
          exact (Tiles.append htiles hupper hlo (Nat.mul_le_mul_right _ (Nat.le_succ _))).perm (perm_append_singleton _ _)
      · have hend : 2 * (lo / 2 ^ k / 2) + 2 = lo / 2 ^ k + 1 := by omega
        refine ⟨bs, ?_, ?_⟩
        · rw [if_neg (by omega), hbs, nil_append]
        · rw [hhalf, hend]
          exact htiles

/-- **The half up to its greatest port.** -/
theorem maxLoop_tiles (hi k : ℕ) : ∃ bs : List Block, maxLoop hi (2 ^ k) (2 ^ k - 1) = bs.map ruleOf ∧
    Tiles bs (hi / 2 ^ k * 2 ^ k) (hi + 1) := by
  have hstop (k : ℕ) (h : hi % 2 ^ k = 2 ^ k - 1) : ∃ bs : List Block, maxLoop hi (2 ^ k) (2 ^ k - 1) = bs.map ruleOf ∧
      Tiles bs (hi / 2 ^ k * 2 ^ k) (hi + 1) := by
    have hend : (hi / 2 ^ k + 1) * 2 ^ k = hi + 1 := by
      have hpos := Nat.two_pow_pos k
      have hdiv := Nat.div_add_mod' hi (2 ^ k)
      rw [Nat.add_one_mul]
      omega
    refine ⟨[⟨k, hi / 2 ^ k⟩], ?_, ?_⟩
    · rw [maxLoop, Nat.and_two_pow_sub_one_eq_mod, if_pos h, map_singleton, ldiff_mask, ruleOf]
    · rw [← hend]
      exact Block.tiles_single ⟨k, hi / 2 ^ k⟩
  induction k with
  | zero => exact hstop 0 (Nat.mod_one hi)
  | succ k ih =>
    by_cases h : hi % 2 ^ (k + 1) = 2 ^ (k + 1) - 1
    · exact hstop (k + 1) h
    · obtain ⟨bs, hbs, htiles⟩ := ih
      have hhi : hi / 2 ^ k * 2 ^ k ≤ hi + 1 := (Nat.div_mul_le_self hi _).trans (Nat.le_succ hi)
      have hhalf : hi / 2 ^ (k + 1) * 2 ^ (k + 1) = 2 * (hi / 2 ^ k / 2) * 2 ^ k := by
        rw [div_two_pow_succ]
        ring
      rw [maxLoop, Nat.and_two_pow_sub_one_eq_mod, if_neg h]
      simp only [shift_bit, shift_mask, and_two_pow_eq_self]
      rcases Nat.mod_two_eq_zero_or_one (hi / 2 ^ k) with hbit | hbit
      · have hstart : 2 * (hi / 2 ^ k / 2) = hi / 2 ^ k := by omega
        refine ⟨bs, ?_, ?_⟩
        · rw [if_neg (by omega), hbs, nil_append]
        · rw [hhalf, hstart]
          exact htiles
      · -- the lower half is a rule, the upper one is left
        have hlower : Tiles [⟨k, hi / 2 ^ k - 1⟩] ((hi / 2 ^ k - 1) * 2 ^ k) ((hi / 2 ^ k - 1 + 1) * 2 ^ k) :=
          Block.tiles_single ⟨k, hi / 2 ^ k - 1⟩
        have hstart : 2 * (hi / 2 ^ k / 2) = hi / 2 ^ k - 1 := by omega
        rw [Nat.sub_add_cancel (by omega)] at hlower
        refine ⟨⟨k, hi / 2 ^ k - 1⟩ :: bs, ?_, ?_⟩
        · rw [if_pos hbit, hbs, ldiff_mask, odd_ldiff_bit hbit]
          rfl
        · rw [hhalf, hstart]
          exact Tiles.append hlower htiles (Nat.mul_le_mul_right _ (Nat.sub_le _ _)) hhi

/-! ## 6. The split -/

/-- The shift stops behind the first bit of the difference. -/
theorem shiftAbove_spec {bitdiff j : ℕ} (h : 0 < 2 ^ j) (hj : 2 ^ j ≤ bitdiff) :
    ∃ n, shiftAbove bitdiff (2 ^ j) h = 2 ^ (n + 1) ∧ 2 ^ n ≤ bitdiff ∧ bitdiff < 2 ^ (n + 1) := by
  induction hd : bitdiff - 2 ^ j using Nat.strong_induction_on generalizing j with
  | _ d ih =>
    have hshift : 2 ^ j <<< 1 = 2 ^ (j + 1) := by rw [Nat.shiftLeft_eq, pow_one, pow_succ]
    have hlt : 2 ^ j < 2 ^ (j + 1) := Nat.pow_lt_pow_right (by decide) (Nat.lt_succ_self j)
    have hunfold : shiftAbove bitdiff (2 ^ j) h = shiftAbove bitdiff (2 ^ (j + 1)) (Nat.two_pow_pos _) := by
      rw [shiftAbove, if_pos hj]
      congr 1
    rw [hunfold]
    by_cases hnext : 2 ^ (j + 1) ≤ bitdiff
    · exact ih _ (by omega) (Nat.two_pow_pos _) hnext rfl
    · refine ⟨j, ?_, hj, not_le.mp hnext⟩
      rw [shiftAbove, if_neg hnext]

/-- **The bit of the split**: above it the ends agree, and at it only the greater end has a one. -/
theorem splitBit_spec (h : lo < hi) : ∃ n c, splitBit lo hi = 2 ^ (n + 1) ∧
    lo / 2 ^ (n + 1) = c ∧ hi / 2 ^ (n + 1) = c ∧ lo / 2 ^ n = 2 * c ∧ hi / 2 ^ n = 2 * c + 1 := by
  have hne : lo ^^^ hi ≠ 0 := fun h0 => h.ne (Nat.xor_eq_zero_iff.mp h0)
  obtain ⟨n, hn, hle, hlt⟩ := shiftAbove_spec (j := 0) Nat.one_pos (Nat.one_le_iff_ne_zero.mpr hne)
  have hhigh : lo / 2 ^ (n + 1) = hi / 2 ^ (n + 1) := by
    refine Nat.xor_eq_zero_iff.mp ?_
    rw [← Nat.xor_div_two_pow]
    exact Nat.div_eq_of_lt hlt
  have hlow : lo / 2 ^ n ≠ hi / 2 ^ n := by
    intro heq
    have hzero : (lo ^^^ hi) / 2 ^ n = 0 := by rw [Nat.xor_div_two_pow, heq, Nat.xor_self]
    exact absurd (Nat.div_pos hle (Nat.two_pow_pos n)) (by omega)
  have hmono : lo / 2 ^ n ≤ hi / 2 ^ n := Nat.div_le_div_right h.le
  have hlo := div_two_pow_succ lo n
  have hhi := div_two_pow_succ hi n
  exact ⟨n, lo / 2 ^ (n + 1), hn, rfl, hhigh.symm, by omega, by omega⟩

/-- **The two halves** meet at the split point. -/
theorem halves_tiles (h : lo < hi) : ∃ split, split = Nat.ldiff hi ((splitBit lo hi >>> 1) - 1) ∧
    lo < split ∧ split ≤ hi ∧
    (∃ bs : List Block, genRulesPortMin lo (splitBit lo hi >>> 1) = bs.map ruleOf ∧ Tiles bs lo split) ∧
    ∃ bs : List Block, genRulesPortMax hi (splitBit lo hi >>> 1) = bs.map ruleOf ∧ Tiles bs split (hi + 1) := by
  obtain ⟨n, c, hbit, -, -, hlo, hhi⟩ := splitBit_spec h
  obtain ⟨bs, hbs, htiles⟩ := minLoop_tiles lo n
  obtain ⟨bs', hbs', htiles'⟩ := maxLoop_tiles hi n
  have hlt : lo < (lo / 2 ^ n + 1) * 2 ^ n := Nat.lt_mul_of_div_lt (Nat.lt_succ_self _) (Nat.two_pow_pos n)
  have hmid : (lo / 2 ^ n + 1) * 2 ^ n = hi / 2 ^ n * 2 ^ n := by rw [hlo, hhi]
  rw [hbit, shift_bit, ldiff_mask]
  exact ⟨_, rfl, hmid ▸ hlt, Nat.div_mul_le_self hi _, ⟨bs, hbs, hmid ▸ htiles⟩, bs', hbs', htiles'⟩

/-- A range that starts and ends with a block of the split is this block. -/
theorem whole_tiles (h : lo < hi) (hlow : lo &&& (splitBit lo hi - 1) = 0)
    (hhigh : hi &&& (splitBit lo hi - 1) = splitBit lo hi - 1) :
    ∃ b, Tiles [b] lo (hi + 1) ∧ ruleOf b = hexFormat lo (splitBit lo hi - 1) := by
  obtain ⟨n, c, hbit, hlo, hhi, -, -⟩ := splitBit_spec h
  rw [hbit, Nat.and_two_pow_sub_one_eq_mod] at hlow hhigh
  have hfirst : c * 2 ^ (n + 1) = lo := by
    rw [← hlo]
    exact Nat.div_mul_cancel (Nat.dvd_of_mod_eq_zero hlow)
  have hlast : (c + 1) * 2 ^ (n + 1) = hi + 1 := by
    have hdiv := Nat.div_add_mod' hi (2 ^ (n + 1))
    have hpos := Nat.two_pow_pos (n + 1)
    rw [hhi, hhigh] at hdiv
    rw [Nat.add_one_mul]
    omega
  refine ⟨⟨n + 1, c⟩, ?_, ?_⟩
  · have hsingle := Block.tiles_single ⟨n + 1, c⟩
    dsimp only at hsingle
    rwa [hfirst, hlast] at hsingle
  · rw [ruleOf, hbit]
    dsimp only
    rw [hfirst]

/-- **An exact cover**: each port of the range meets one rule and no other port meets any, and so it is for the two halves
and the split point. -/
theorem portRuleMasking_exact {portMin portMax : ℕ} (hle : portMin ≤ portMax) (hmax : portMax ≤ 65535) :
    (∃ texts, portRuleMasking portMin portMax = some texts ∧ Covers texts portMin portMax) ∧
    (portMin < portMax → ∃ split, portMin < split ∧ split ≤ portMax ∧
      split = Nat.ldiff portMax ((splitBit portMin portMax >>> 1) - 1) ∧
      Covers (genRulesPortMin portMin (splitBit portMin portMax >>> 1)) portMin (split - 1) ∧
      Covers (genRulesPortMax portMax (splitBit portMin portMax >>> 1)) split portMax) := by
  have hbound : portMax < 2 ^ 16 := Nat.lt_add_one_of_le hmax
  constructor
  · rcases hle.eq_or_lt with rfl | hlt
    · have htiles : Tiles [⟨0, portMin⟩] portMin (portMin + 1) := by
        have hsingle := Block.tiles_single ⟨0, portMin⟩
        simpa using hsingle
      refine ⟨[hexFormat portMin 0], ?_, ?_⟩
      · rw [portRuleMasking, if_neg (lt_irrefl portMin), Nat.xor_self, if_pos rfl]
      · have hcovers := covers_of_tiles htiles hbound
        rw [map_singleton, ruleOf] at hcovers
        simpa using hcovers
    · have hne : portMin ^^^ portMax ≠ 0 := fun h0 => hlt.ne (Nat.xor_eq_zero_iff.mp h0)
      rw [portRuleMasking, if_neg hle.not_gt, if_neg hne]
      by_cases hwhole : portMin &&& (splitBit portMin portMax - 1) = 0 ∧
          portMax &&& (splitBit portMin portMax - 1) = splitBit portMin portMax - 1
      · obtain ⟨b, htiles, hrule⟩ := whole_tiles hlt hwhole.1 hwhole.2
        simp only [if_pos hwhole]
        exact ⟨_, rfl, hrule ▸ covers_of_tiles htiles hbound⟩
      · obtain ⟨split, -, hlo, hhi, ⟨bs, hbs, htiles⟩, bs', hbs', htiles'⟩ := halves_tiles hlt
        simp only [if_neg hwhole]
        refine ⟨_, rfl, ?_⟩
        rw [hbs, hbs', ← map_append]
        exact covers_of_tiles (Tiles.append htiles htiles' hlo.le (Nat.le_succ_of_le hhi)) hbound
  · intro hlt
    obtain ⟨split, hsplit, hlo, hhi, ⟨bs, hbs, htiles⟩, bs', hbs', htiles'⟩ := halves_tiles hlt
    refine ⟨split, hlo, hhi, hsplit, ?_, ?_⟩
    · rw [hbs]
      refine covers_of_tiles ?_ (by omega)
      rw [Nat.sub_add_cancel (Nat.one_le_of_lt hlo)]
      exact htiles
    · rw [hbs']
      exact covers_of_tiles htiles' hbound

theorem portRuleMasking_exact_40_105 : (∃ texts, portRuleMasking 40 105 = some texts ∧ Covers texts 40 105) ∧
    ∃ split, 40 < split ∧ split ≤ 105 ∧ split = Nat.ldiff 105 ((splitBit 40 105 >>> 1) - 1) ∧
      Covers (genRulesPortMin 40 (splitBit 40 105 >>> 1)) 40 (split - 1) ∧
      Covers (genRulesPortMax 105 (splitBit 40 105 >>> 1)) split 105 :=
  have h := @portRuleMasking_exact 40 105 (by decide) (by decide)
  ⟨h.1, h.2 (by decide)⟩

end Mitaka.Neutron.PortRules
