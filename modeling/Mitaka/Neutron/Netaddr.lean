/-
  Subject: Sets of addresses: netaddr/ip/__init__.py and netaddr/ip/sets.py.

  A CIDR is an aligned block of addresses, of level zero for a single one, and a set is the
  list of its CIDRs, all of one version. What is here is a set made from a range, the
  removal of one address and the ranges of a set.

  A range is split into CIDRs exactly (`iprangeToCidrs_spec`), the removal takes out the
  address and nothing else, though it adds it first (`removeAddress_spec`), and the ranges
  are apart and have what the set has (`iterIpranges_spec`).
-/
import Mitaka.Lib.Dyadic

namespace Mitaka.Neutron.Netaddr

open List

open Block (Once Tiles)

/-! ## 1. CIDRs -/

def first (c : Block) : ℕ := c.index * 2 ^ c.level

def last (c : Block) : ℕ := (c.index + 1) * 2 ^ c.level - 1

/-- The loop of `cidr_partition` through the halves of a block; `level` is the level of the block. -/
def partitionLoop (exclude : Block) : ℕ → ℕ → List Block × List Block
  | 0, _ => ([], [])
  | level + 1, index =>
    if level < exclude.level then ([], [])
    else if first ⟨level, 2 * index + 1⟩ ≤ first exclude then
      let (left, right) := partitionLoop exclude level (2 * index + 1)
      (⟨level, 2 * index⟩ :: left, right)
    else
      let (left, right) := partitionLoop exclude level (2 * index)
      (left, ⟨level, 2 * index + 1⟩ :: right)

/-- `cidr_partition`. -/
def cidrPartition (target exclude : Block) : List Block × List Block × List Block :=
  if last exclude < first target then ([], [], [target])
  else if last target < first exclude then ([target], [], [])
  else if target.level ≤ exclude.level then ([], [target], [])
  else
    let (left, right) := partitionLoop exclude target.level target.index
    (left, [exclude], right.reverse)

/-- `cidr_exclude`. -/
def cidrExclude (target exclude : Block) : List Block :=
  let (left, _, right) := cidrPartition target exclude
  left ++ right

/-- The loop of `spanning_cidr`, by the prefix length. -/
def spanLoop (lowest : ℕ) : ℕ → ℕ → ℕ → Block
  | 0, level, ipnum => ⟨level, ipnum / 2 ^ level⟩
  | prefixlen + 1, level, ipnum =>
    if lowest < ipnum then spanLoop lowest prefixlen (level + 1) (ipnum / 2 ^ (level + 1) * 2 ^ (level + 1))
    else ⟨level, ipnum / 2 ^ level⟩

/-- `spanning_cidr` of two addresses of `width` bits. -/
def spanningCidr (width lowest highest : ℕ) : Block := spanLoop lowest width 0 highest

/-- `iprange_to_cidrs`; none is the `IndexError` of `pop`. -/
def iprangeToCidrs (width start stop : ℕ) : Option (List Block) :=
  let span := spanningCidr width start stop
  let cut :=
    if first span < start then
      let right := (cidrPartition span ⟨0, start - 1⟩).2.2
      right.getLast?.map fun span => (right.dropLast, span)
    else some ([], span)
  cut.map fun (cidrList, span) =>
    if stop < last span then cidrList ++ (cidrPartition span ⟨0, stop + 1⟩).1 else cidrList ++ [span]

/-! ## 2. Sets -/

/-- The merging loop of `_compact_single_network`, by the prefix length. -/
def mergeUp : ℕ → List Block → Block → List Block
  | 0, cidrs, _ => cidrs
  | prefixlen + 1, cidrs, added =>
    let candidate : Block := ⟨added.level, if added.index % 2 = 1 then added.index - 1 else added.index + 1⟩
    if candidate ∉ cidrs then cidrs
    else
      let merged : Block := ⟨added.level + 1, added.index / 2⟩
      mergeUp prefixlen (merged :: (cidrs.erase candidate).erase added) merged

/-- `add` of one address: it is dropped where a network of the set has it, and merged with its neighbours elsewhere. -/
def addAddress (width : ℕ) (cidrs : List Block) (addr : ℕ) : List Block :=
  let added : Block := ⟨0, addr⟩
  let cidrs := if added ∈ cidrs then cidrs else added :: cidrs
  if ∃ level < width, ⟨level + 1, addr / 2 ^ (level + 1)⟩ ∈ cidrs then cidrs.erase added else mergeUp width cidrs added

/-- `remove` of one address. -/
def removeAddress (width : ℕ) (cidrs : List Block) (addr : ℕ) : List Block :=
  let cidrs := addAddress width cidrs addr
  match cidrs.find? fun c => c.Has addr with
  | none => cidrs
  | some matching => cidrExclude matching ⟨0, addr⟩ ++ cidrs.erase matching

/-- The order of networks: by the first address, then by the prefix length. -/
def Before (c d : Block) : Prop := first c < first d ∨ first c = first d ∧ d.level ≤ c.level

instance : DecidableRel Before := fun _ _ => inferInstanceAs (Decidable (_ ∨ _))

/-- `_iter_merged_ranges`, behind the range it is at. -/
def mergedRanges (start stop : ℕ) : List Block → List (ℕ × ℕ)
  | [] => [(start, stop)]
  | c :: l =>
    if first c = stop + 1 then mergedRanges start (last c) l else (start, stop) :: mergedRanges (first c) (last c) l

/-- `iter_ipranges`. -/
def iterIpranges (cidrs : List Block) : List (ℕ × ℕ) :=
  match cidrs.insertionSort Before with
  | [] => []
  | c :: l => mergedRanges (first c) (last c) l

/-! ## 3. Partitions -/

theorem toSet_eq_Ico (c : Block) : c.toSet = Set.Ico (first c) (last c + 1) := by
  have hpos : 0 < (c.index + 1) * 2 ^ c.level := Nat.mul_pos (Nat.succ_pos _) (Nat.two_pow_pos _)
  rw [Block.toSet_eq, first, last, Nat.sub_add_cancel hpos]

theorem first_le_last (c : Block) : first c ≤ last c := by
  have hhas : first c ∈ c.toSet := c.has_first
  rw [toSet_eq_Ico] at hhas
  exact Nat.le_of_lt_succ hhas.2

theorem tiles_nil (a : ℕ) : Tiles [] a a := by
  rw [Tiles, Set.Ico_self]
  exact Block.once_nil

/-- **The halves to the left and to the right of an address** tile what is before and behind it. -/
theorem partitionLoop_spec (e level index : ℕ) (h : (Block.mk level index).Has e) :
    Tiles (partitionLoop ⟨0, e⟩ level index).1 (index * 2 ^ level) e ∧
      Tiles (partitionLoop ⟨0, e⟩ level index).2 (e + 1) ((index + 1) * 2 ^ level) := by
  induction level generalizing index with
  | zero =>
    have heq : e = index := by simpa [Block.Has] using h
    rw [heq, pow_zero, Nat.mul_one, Nat.mul_one]
    exact ⟨tiles_nil _, tiles_nil _⟩
  | succ level ih =>
    have hlower := Block.tiles_single ⟨level, 2 * index⟩
    have hupper := Block.tiles_single ⟨level, 2 * index + 1⟩
    have hstart : index * 2 ^ (level + 1) = 2 * index * 2 ^ level := by ring
    have hstop : (index + 1) * 2 ^ (level + 1) = (2 * index + 1 + 1) * 2 ^ level := by ring
    dsimp only at hlower hupper
    have hsplit : (2 * index + 1) * 2 ^ level ≤ e ↔ (Block.mk level (2 * index + 1)).Has e := by
      have hin : e ∈ Set.Ico (index * 2 ^ (level + 1)) ((index + 1) * 2 ^ (level + 1)) := by
        rw [← Block.toSet_eq ⟨level + 1, index⟩]
        exact h
      rw [show (Block.mk level (2 * index + 1)).Has e ↔ e ∈ (Block.mk level (2 * index + 1)).toSet from Iff.rfl,
        Block.toSet_eq, Set.mem_Ico]
      dsimp only
      rw [← hstop]
      exact (and_iff_left hin.2).symm
    have hzero : first ⟨0, e⟩ = e := Nat.mul_one e
    rw [partitionLoop, if_neg (Nat.not_lt_zero _), hzero, hstart, hstop, first]
    dsimp only
    by_cases hright : (2 * index + 1) * 2 ^ level ≤ e
    · obtain ⟨hl, hr⟩ := ih (2 * index + 1) (hsplit.mp hright)
      rw [if_pos hright]
      exact ⟨Tiles.append hlower hl (Nat.mul_le_mul_right _ (Nat.le_succ _)) hright, hr⟩
    · have hhas : (Block.mk level (2 * index)).Has e := (Block.has_succ.mp h).resolve_right fun hh => hright (hsplit.mpr hh)
      obtain ⟨hl, hr⟩ := ih (2 * index) hhas
      rw [if_neg hright]
      refine ⟨hl, ?_⟩
      have happend := Tiles.append hr hupper (Nat.succ_le_of_lt (not_le.mp hright))
        (Nat.mul_le_mul_right _ (Nat.le_succ _))
      exact Once.perm happend perm_append_comm

theorem has_iff {c : Block} {a : ℕ} : c.Has a ↔ first c ≤ a ∧ a ≤ last c := by
  rw [show c.Has a ↔ a ∈ c.toSet from Iff.rfl, toSet_eq_Ico, Set.mem_Ico, Nat.lt_succ_iff]

theorem first_zero (a : ℕ) : first ⟨0, a⟩ = a := Nat.mul_one a

theorem last_zero (a : ℕ) : last ⟨0, a⟩ = a := by rw [last, pow_zero, Nat.mul_one, Nat.add_sub_cancel]

theorem cidrPartition_of_has {c : Block} {a : ℕ} (h : c.Has a) (hlevel : 0 < c.level) : cidrPartition c ⟨0, a⟩ =
    ((partitionLoop ⟨0, a⟩ c.level c.index).1, [⟨0, a⟩], (partitionLoop ⟨0, a⟩ c.level c.index).2.reverse) := by
  obtain ⟨hfirst, hlast⟩ := has_iff.mp h
  rw [cidrPartition, first_zero, last_zero, if_neg (not_lt.mpr hfirst), if_neg (not_lt.mpr hlast),
    if_neg (not_le.mpr hlevel)]

/-- **A network without one of its addresses.** -/
theorem cidrExclude_spec {c : Block} {a : ℕ} (h : c.Has a) : Once (cidrExclude c ⟨0, a⟩) (c.toSet \ {a}) := by
  obtain ⟨hfirst, hlast⟩ := has_iff.mp h
  rcases Nat.eq_zero_or_pos c.level with hzero | hpos
  · have hnone : cidrExclude c ⟨0, a⟩ = [] := by
      rw [cidrExclude, cidrPartition, first_zero, last_zero, if_neg (not_lt.mpr hfirst), if_neg (not_lt.mpr hlast),
        if_pos hzero.le]
      rfl
    have hsingle : c.toSet = {a} := by
      have hlength : last c = first c := by
        rw [last, first, hzero, pow_zero, Nat.mul_one, Nat.mul_one, Nat.add_sub_cancel]
      have heq : first c = a := by omega
      rw [toSet_eq_Ico, hlength, heq]
      ext x
      rw [Set.mem_Ico, Set.mem_singleton_iff]
      omega
    rw [hnone, hsingle, Set.sdiff_self]
    exact Block.once_nil
  · obtain ⟨hl, hr⟩ := partitionLoop_spec a c.level c.index h
    have hend : (c.index + 1) * 2 ^ c.level = last c + 1 := by
      rw [last, Nat.sub_add_cancel (Nat.mul_pos (Nat.succ_pos _) (Nat.two_pow_pos _))]
    have hdisjoint : Disjoint (Set.Ico (c.index * 2 ^ c.level) a) (Set.Ico (a + 1) ((c.index + 1) * 2 ^ c.level)) :=
      Set.disjoint_left.mpr fun x hx hx' => by
        have hlt := hx.2
        have hle := hx'.1
        omega
    have hset : c.toSet \ {a} = Set.Ico (c.index * 2 ^ c.level) a ∪ Set.Ico (a + 1) ((c.index + 1) * 2 ^ c.level) := by
      ext x
      rw [toSet_eq_Ico, hend, Set.mem_sdiff, Set.mem_union, Set.mem_Ico, Set.mem_Ico, Set.mem_Ico, Set.mem_singleton_iff]
      rw [← first]
      omega
    rw [cidrExclude, cidrPartition_of_has h hpos, hset]
    exact Once.append hl (Once.perm hr (reverse_perm _).symm) hdisjoint

/-! ## 4. A range -/

theorem spanLoop_spec (lo : ℕ) {hi prefixlen level : ℕ} (hhi : hi < 2 ^ (prefixlen + level))
    (hlevel : ∀ k, level = k + 1 → lo < hi / 2 ^ k * 2 ^ k) :
    ∃ n, spanLoop lo prefixlen level (hi / 2 ^ level * 2 ^ level) = ⟨n, hi / 2 ^ n⟩ ∧ hi / 2 ^ n * 2 ^ n ≤ lo ∧
      n ≤ prefixlen + level ∧ ∀ k, n = k + 1 → lo < hi / 2 ^ k * 2 ^ k := by
  have hdiv (level : ℕ) : hi / 2 ^ level * 2 ^ level / 2 ^ level = hi / 2 ^ level :=
    Nat.mul_div_cancel _ (Nat.two_pow_pos level)
  induction prefixlen generalizing level with
  | zero =>
    rw [Nat.zero_add] at hhi
    refine ⟨level, by rw [spanLoop, hdiv], ?_, by omega, hlevel⟩
    rw [Nat.div_eq_of_lt hhi, Nat.zero_mul]
    exact Nat.zero_le lo
  | succ prefixlen ih =>
    rw [spanLoop]
    by_cases hlt : lo < hi / 2 ^ level * 2 ^ level
    · have hnext : hi / 2 ^ level * 2 ^ level / 2 ^ (level + 1) = hi / 2 ^ (level + 1) := by
        rw [pow_succ, ← Nat.div_div_eq_div_mul, hdiv, Nat.div_div_eq_div_mul]
      have hbound : hi < 2 ^ (prefixlen + (level + 1)) := by rwa [← Nat.add_assoc, Nat.add_right_comm]
      obtain ⟨n, hspan, hle, hn, hmin⟩ := ih hbound fun k hk => by
        rw [← Nat.succ.inj hk]
        exact hlt
      rw [if_pos hlt, hnext]
      exact ⟨n, hspan, hle, by omega, hmin⟩
    · rw [if_neg hlt, hdiv]
      exact ⟨level, rfl, not_lt.mp hlt, by omega, hlevel⟩

/-- The network that spans two addresses; its upper half has the greater one where the lesser one is not first. -/
theorem spanningCidr_spec {width hi : ℕ} (lo : ℕ) (hhi : hi < 2 ^ width) : ∃ n, spanningCidr width lo hi = ⟨n, hi / 2 ^ n⟩ ∧
    hi / 2 ^ n * 2 ^ n ≤ lo ∧ n ≤ width ∧ ∀ k, n = k + 1 → lo < hi / 2 ^ k * 2 ^ k := by
  have hspan := spanLoop_spec lo (show hi < 2 ^ (width + 0) from hhi) nofun
  rwa [pow_zero, Nat.div_one, Nat.mul_one] at hspan

/-- The networks have levels up to `n`. -/
def Bounded (n : ℕ) (l : List Block) : Prop := ∀ c ∈ l, c.level ≤ n

theorem partitionLoop_bounded (exclude : Block) (level index : ℕ) :
    Bounded level (partitionLoop exclude level index).1 ∧ Bounded level (partitionLoop exclude level index).2 := by
  induction level generalizing index with
  | zero => exact ⟨nofun, nofun⟩
  | succ level ih =>
    have hcons (b : Block) (hb : b.level = level) (l : List Block) (hl : Bounded level l) : Bounded (level + 1) (b :: l) := by
      intro c hc
      rcases mem_cons.mp hc with rfl | hc
      · omega
      · exact (hl c hc).trans (Nat.le_succ level)
    have hweaken (l : List Block) (hl : Bounded level l) : Bounded (level + 1) l := fun c hc => (hl c hc).trans (Nat.le_succ _)
    rw [partitionLoop]
    split_ifs
    · exact ⟨nofun, nofun⟩
    · exact ⟨hcons _ rfl _ (ih _).1, hweaken _ (ih _).2⟩
    · exact ⟨hweaken _ (ih _).1, hcons _ rfl _ (ih _).2⟩

/-- What is left of the span when it is cut in front of the range: networks up to one with the last address. -/
theorem cut_spec {width lo hi : ℕ} (hle : lo ≤ hi) (hhi : hi < 2 ^ width) : ∃ cidrList span,
    (if first (spanningCidr width lo hi) < lo then
        (cidrPartition (spanningCidr width lo hi) ⟨0, lo - 1⟩).2.2.getLast?.map fun span =>
          ((cidrPartition (spanningCidr width lo hi) ⟨0, lo - 1⟩).2.2.dropLast, span)
      else some ([], spanningCidr width lo hi)) = some (cidrList, span) ∧
    Tiles cidrList lo (first span) ∧ lo ≤ first span ∧ span.Has hi ∧ Bounded width (span :: cidrList) := by
  obtain ⟨n, hspan, hfirst, hn, hmin⟩ := spanningCidr_spec lo hhi
  have hhas : (Block.mk n (hi / 2 ^ n)).Has hi := rfl
  obtain ⟨-, hlast⟩ := has_iff.mp hhas
  rw [hspan]
  by_cases hcut : first ⟨n, hi / 2 ^ n⟩ < lo
  · rw [if_pos hcut]
    cases n with
    | zero =>
      rw [first_zero, pow_zero, Nat.div_one] at hcut
      omega
    | succ k =>
      have hmid := hmin k rfl
      have hbefore : (Block.mk (k + 1) (hi / 2 ^ (k + 1))).Has (lo - 1) := has_iff.mpr ⟨by omega, by omega⟩
      have hhalf : hi / 2 ^ k = 2 * (hi / 2 ^ (k + 1)) + 1 := by
        have hsucc : hi / 2 ^ (k + 1) = hi / 2 ^ k / 2 := by rw [pow_succ, Nat.div_div_eq_div_mul]
        have hne : hi / 2 ^ k ≠ 2 * (hi / 2 ^ (k + 1)) := by
          intro heq
          have hstart : hi / 2 ^ k * 2 ^ k = first ⟨k + 1, hi / 2 ^ (k + 1)⟩ := by
            rw [heq, first]
            ring
          omega
        omega
      have hnot : ¬ first ⟨k, 2 * (hi / 2 ^ (k + 1)) + 1⟩ ≤ first ⟨0, lo - 1⟩ := by
        rw [first_zero, ← hhalf]
        show ¬ hi / 2 ^ k * 2 ^ k ≤ lo - 1
        omega
      -- the upper half is the first that is listed, and so the one that is popped
      have hright : (cidrPartition ⟨k + 1, hi / 2 ^ (k + 1)⟩ ⟨0, lo - 1⟩).2.2 =
          (partitionLoop ⟨0, lo - 1⟩ k (2 * (hi / 2 ^ (k + 1)))).2.reverse ++ [⟨k, hi / 2 ^ k⟩] := by
        rw [cidrPartition_of_has hbefore (Nat.succ_pos k)]
        simp only
        rw [partitionLoop, if_neg (Nat.not_lt_zero _), if_neg hnot, hhalf]
        exact reverse_cons
      have hlower : (Block.mk k (2 * (hi / 2 ^ (k + 1)))).Has (lo - 1) := by
        refine (Block.has_succ.mp hbefore).resolve_right fun hupper => hnot ?_
        rw [first_zero]
        exact (has_iff.mp hupper).1
      obtain ⟨-, htiles⟩ := partitionLoop_spec (lo - 1) k (2 * (hi / 2 ^ (k + 1))) hlower
      rw [← hhalf, Nat.sub_add_cancel (by omega)] at htiles
      refine ⟨(partitionLoop ⟨0, lo - 1⟩ k (2 * (hi / 2 ^ (k + 1)))).2.reverse, ⟨k, hi / 2 ^ k⟩, ?_,
        Once.perm htiles (reverse_perm _).symm, hmid.le, rfl, ?_⟩
      · rw [hright, getLast?_concat, dropLast_concat]
        rfl
      · intro c hc
        rcases mem_cons.mp hc with rfl | hc
        · exact Nat.le_of_succ_le hn
        · exact ((partitionLoop_bounded _ _ _).2 c (mem_reverse.mp hc)).trans (Nat.le_of_succ_le hn)
  · rw [if_neg hcut]
    have heq : first ⟨n, hi / 2 ^ n⟩ = lo := le_antisymm hfirst (not_lt.mp hcut)
    refine ⟨[], ⟨n, hi / 2 ^ n⟩, rfl, ?_, heq.ge, hhas, ?_⟩
    · rw [heq]
      exact tiles_nil lo
    · intro c hc
      rw [mem_singleton.mp hc]
      exact hn

/-- **A range is split exactly.** -/
theorem iprangeToCidrs_spec {width lo hi : ℕ} (hle : lo ≤ hi) (hhi : hi < 2 ^ width) :
    ∃ cidrs, iprangeToCidrs width lo hi = some cidrs ∧ Tiles cidrs lo (hi + 1) ∧ Bounded width cidrs := by
  obtain ⟨cidrList, span, hcut, htiles, hlo, hhas, hbounded⟩ := cut_spec hle hhi
  obtain ⟨hfirst, hlast⟩ := has_iff.mp hhas
  unfold iprangeToCidrs
  simp only
  rw [hcut, Option.map_some]
  refine ⟨_, rfl, ?_⟩
  by_cases hshort : hi < last span
  · have hbehind : span.Has (hi + 1) := has_iff.mpr ⟨by omega, hshort⟩
    have hpos : 0 < span.level := by
      by_contra hzero
      have hlength : last span = first span := by
        rw [last, first, Nat.le_zero.mp (not_lt.mp hzero), pow_zero, Nat.mul_one, Nat.mul_one, Nat.add_sub_cancel]
      omega
    obtain ⟨hleft, -⟩ := partitionLoop_spec (hi + 1) span.level span.index hbehind
    simp only [if_pos hshort]
    rw [cidrPartition_of_has hbehind hpos]
    refine ⟨Tiles.append htiles hleft hlo (Nat.le_succ_of_le hfirst), fun c hc => ?_⟩
    rcases mem_append.mp hc with hc | hc
    · exact hbounded c (mem_cons_of_mem _ hc)
    · exact ((partitionLoop_bounded _ _ _).1 c hc).trans (hbounded span mem_cons_self)
  · have hsingle := Block.once_singleton span
    rw [toSet_eq_Ico, le_antisymm (not_lt.mp hshort) hlast] at hsingle
    simp only [if_neg hshort]
    refine ⟨Tiles.append htiles hsingle hlo (Nat.le_succ_of_le hfirst), fun c hc => ?_⟩
    exact hbounded c (perm_append_singleton _ _ |>.mem_iff.mp hc)

/-! ## 5. Adding and removing an address -/

variable {cidrs : List Block} {S : Set ℕ}

/-- **Merging a network with its neighbour** covers the same. -/
theorem mergeUp_spec {prefixlen : ℕ} {added : Block} (h : Once cidrs S)
    (hadded : added ∈ cidrs) : Once (mergeUp prefixlen cidrs added) S := by
  induction prefixlen generalizing cidrs added with
  | zero => exact h
  | succ prefixlen ih =>
    obtain ⟨k, i⟩ := added
    rw [mergeUp]
    dsimp only
    generalize hc : (Block.mk k (if i % 2 = 1 then i - 1 else i + 1)) = candidate
    by_cases hcandidate : candidate ∈ cidrs
    · have hne : candidate ≠ ⟨k, i⟩ := by
        rw [← hc]
        intro heq
        have hindex := congrArg Block.index heq
        dsimp only at hindex
        split_ifs at hindex <;> omega
      have hmem : ⟨k, i⟩ ∈ cidrs.erase candidate := (mem_erase_of_ne hne.symm).mpr hadded
      have hparent : (Block.mk (k + 1) (i / 2)).toSet = candidate.toSet ∪ (Block.mk k i).toSet := by
        rw [Block.toSet_halves, ← hc]
        by_cases hodd : i % 2 = 1
        · rw [if_pos hodd, show 2 * (i / 2) = i - 1 by omega, show i - 1 + 1 = i by omega]
        · rw [if_neg hodd, show 2 * (i / 2) = i by omega, Set.union_comm]
      have hrest := (h.erase hcandidate).erase hmem
      have hdisjoint : Disjoint (Block.mk (k + 1) (i / 2)).toSet ((S \ candidate.toSet) \ (Block.mk k i).toSet) := by
        rw [hparent, Set.sdiff_sdiff]
        exact Set.disjoint_sdiff_right
      have hmerged := hrest.cons hdisjoint
      have hset : (Block.mk (k + 1) (i / 2)).toSet ∪ ((S \ candidate.toSet) \ (Block.mk k i).toSet) = S := by
        rw [hparent, Set.sdiff_sdiff]
        exact Set.union_sdiff_cancel (Set.union_subset (h.subset hcandidate) (h.subset hadded))
      rw [if_neg (not_not_intro hcandidate)]
      rw [hset] at hmerged
      exact ih hmerged mem_cons_self
    · rw [if_pos hcandidate]
      exact h

theorem toSet_zero (a : ℕ) : (Block.mk 0 a).toSet = {a} := by
  ext x
  rw [toSet_eq_Ico, first_zero, last_zero, Set.mem_Ico, Set.mem_singleton_iff]
  omega

/-- **Adding an address.** -/
theorem addAddress_spec {width : ℕ} (h : Once cidrs S) (hbounded : Bounded width cidrs)
    (a : ℕ) : Once (addAddress width cidrs a) (insert a S) := by
  have hsuper (c : Block) (hc : c ∈ cidrs) (ha : c.Has a) (hpos : 0 < c.level) :
      ∃ level < width, ⟨level + 1, a / 2 ^ (level + 1)⟩ ∈ cidrs := by
    refine ⟨c.level - 1, by have := hbounded c hc; omega, ?_⟩
    rw [Nat.sub_add_cancel hpos, show a / 2 ^ c.level = c.index from ha]
    exact hc
  unfold addAddress
  simp only
  by_cases hmem : (⟨0, a⟩ : Block) ∈ cidrs
  · -- the address is there by itself
    have hin : a ∈ S := h.subset hmem (show (Block.mk 0 a).Has a from Nat.div_one a)
    have hno : ¬ ∃ level < width, (⟨level + 1, a / 2 ^ (level + 1)⟩ : Block) ∈ cidrs := by
      rintro ⟨level, -, hsup⟩
      have hsup' : (⟨level + 1, a / 2 ^ (level + 1)⟩ : Block) ∈ cidrs.erase ⟨0, a⟩ :=
        (mem_erase_of_ne fun heq => absurd (congrArg Block.level heq) (Nat.succ_ne_zero level)).mpr hsup
      have hout := (h.erase hmem).subset hsup' (show (Block.mk (level + 1) (a / 2 ^ (level + 1))).Has a from rfl)
      exact hout.2 (by rw [toSet_zero]; rfl)
    rw [if_pos hmem, if_neg hno, Set.insert_eq_of_mem hin]
    exact mergeUp_spec h hmem
  · simp only [if_neg hmem]
    by_cases hsup : ∃ level < width, (⟨level + 1, a / 2 ^ (level + 1)⟩ : Block) ∈ (⟨0, a⟩ : Block) :: cidrs
    · -- a network has it
      obtain ⟨level, hlevel, hc⟩ := hsup
      have hc' := (mem_cons.mp hc).resolve_left fun heq =>
        absurd (congrArg Block.level heq) (Nat.succ_ne_zero level)
      have hin : a ∈ S := h.subset hc' (show (Block.mk (level + 1) (a / 2 ^ (level + 1))).Has a from rfl)
      rw [if_pos ⟨level, hlevel, hc⟩, erase_cons_head, Set.insert_eq_of_mem hin]
      exact h
    · have hout : a ∉ S := by
        intro hin
        obtain ⟨c, hc, ha⟩ := h.exists_has.mpr hin
        rcases Nat.eq_zero_or_pos c.level with hzero | hpos
        · have heq : c = ⟨0, a⟩ := Block.Has.eq ha (show (Block.mk 0 a).Has a from Nat.div_one a) hzero
          exact hmem (heq ▸ hc)
        · obtain ⟨level, hlevel, hc'⟩ := hsuper c hc ha hpos
          exact hsup ⟨level, hlevel, mem_cons_of_mem _ hc'⟩
      have hcons := h.cons (b := ⟨0, a⟩) (by rw [toSet_zero]; exact Set.disjoint_singleton_left.mpr hout)
      rw [toSet_zero, Set.singleton_union] at hcons
      rw [if_neg hsup]
      exact mergeUp_spec hcons mem_cons_self

/-- **Removing an address** removes it and nothing else. -/
theorem removeAddress_spec {width : ℕ} (h : Once cidrs S) (hbounded : Bounded width cidrs)
    (a : ℕ) : Once (removeAddress width cidrs a) (S \ {a}) := by
  have hadd := addAddress_spec h hbounded a
  unfold removeAddress
  generalize addAddress width cidrs a = added at hadd
  simp only
  cases hfind : added.find? fun c => c.Has a with
  | none =>
    obtain ⟨c, hc, ha⟩ := hadd.exists_has.mpr (Set.mem_insert a S)
    exact absurd (decide_eq_true ha) (find?_eq_none.mp hfind c hc)
  | some c =>
    have hc := mem_of_find?_eq_some hfind
    have ha : c.Has a := by
      have hfound := find?_some hfind
      exact of_decide_eq_true hfound
    have hdisjoint : Disjoint (c.toSet \ {a}) (insert a S \ c.toSet) :=
      Set.disjoint_left.mpr fun x hx hx' => hx'.2 hx.1
    have hset : S \ {a} = (c.toSet \ {a}) ∪ (insert a S \ c.toSet) := by
      have hsub := hadd.subset hc
      ext x
      by_cases hx : x = a
      · rw [hx]
        exact iff_of_false (fun hh => hh.2 rfl) fun hh => hh.elim (fun hh => hh.2 rfl) fun hh => hh.2 ha
      · constructor
        · intro hh
          by_cases hin : x ∈ c.toSet
          · exact Or.inl ⟨hin, hx⟩
          · exact Or.inr ⟨Or.inr hh.1, hin⟩
        · rintro (hh | hh)
          · exact ⟨(hsub hh.1).resolve_left hx, hx⟩
          · exact ⟨hh.1.resolve_left hx, hx⟩
    rw [hset]
    exact Once.append (cidrExclude_spec ha) (hadd.erase hc) hdisjoint

/-! ## 6. The ranges of a set -/

/-- Ranges with a gap between each two. -/
def Apart (ranges : List (ℕ × ℕ)) : Prop := ranges.Pairwise fun r r' => r.2 + 1 < r'.1

/-- **Merged ranges** are apart and have what the range and the networks have. -/
theorem mergedRanges_spec {start stop : ℕ} {l : List Block} (hle : start ≤ stop) (hfirst : ∀ c ∈ l, stop < first c)
    (hl : l.Pairwise fun c d => last c < first d) :
    Apart (mergedRanges start stop l) ∧ (∀ r ∈ mergedRanges start stop l, start ≤ r.1 ∧ r.1 ≤ r.2) ∧
      ∀ a, (∃ r ∈ mergedRanges start stop l, r.1 ≤ a ∧ a ≤ r.2) ↔ (start ≤ a ∧ a ≤ stop) ∨ ∃ c ∈ l, c.Has a := by
  induction l generalizing start stop with
  | nil =>
    refine ⟨pairwise_singleton _ _, fun r hr => ?_, fun a => ?_⟩
    · rw [mem_singleton.mp hr]
      exact ⟨le_refl start, hle⟩
    · simp [mergedRanges]
  | cons c l ih =>
    obtain ⟨hc, hl⟩ := pairwise_cons.mp hl
    have hstop := hfirst c mem_cons_self
    have hlength := first_le_last c
    rw [mergedRanges]
    by_cases hnext : first c = stop + 1
    · rw [if_pos hnext]
      obtain ⟨hapart, hranges, hmem⟩ := ih (by omega : start ≤ last c) hc hl
      refine ⟨hapart, hranges, fun a => ?_⟩
      rw [hmem, exists_mem_cons_iff, has_iff, ← or_assoc]
      exact or_congr_left (by omega)
    · rw [if_neg hnext]
      obtain ⟨hapart, hranges, hmem⟩ := ih hlength hc hl
      refine ⟨List.Pairwise.cons (fun r hr => ?_) hapart, fun r hr => ?_, fun a => ?_⟩
      · have hr' := (hranges r hr).1
        dsimp only
        omega
      · rcases mem_cons.mp hr with rfl | hr
        · exact ⟨le_refl start, hle⟩
        · have hr' := hranges r hr
          omega
      · rw [exists_mem_cons_iff, hmem, exists_mem_cons_iff, has_iff]

theorem before_total (c d : Block) : Before c d ∨ Before d c := by
  unfold Before
  omega

theorem before_trans {c d e : Block} (h : Before c d) (h' : Before d e) : Before c e := by
  unfold Before at *
  omega

/-- **The ranges of a set** are apart, and have what the set has. -/
theorem iterIpranges_spec (h : Once cidrs S) : Apart (iterIpranges cidrs) ∧
    (∀ r ∈ iterIpranges cidrs, r.1 ≤ r.2) ∧ ∀ a, (∃ r ∈ iterIpranges cidrs, r.1 ≤ a ∧ a ≤ r.2) ↔ a ∈ S := by
  have : Std.Total Before := ⟨before_total⟩
  have : IsTrans Block Before := ⟨fun _ _ _ => before_trans⟩
  have hsorted : (cidrs.insertionSort Before).Pairwise Before := pairwise_insertionSort _ _
  have honce : Once (cidrs.insertionSort Before) S := h.perm (perm_insertionSort _ _).symm
  have hpairwise : (cidrs.insertionSort Before).Pairwise fun c d => last c < first d := by
    refine hsorted.imp₂ (fun c d hbefore hdisjoint => ?_) honce.pairwise
    have hnot : ¬ (first c ≤ first d ∧ first d ≤ last c) := fun hh =>
      Set.disjoint_left.mp hdisjoint (show c.Has (first d) from has_iff.mpr hh) d.has_first
    unfold Before at hbefore
    omega
  unfold iterIpranges
  generalize cidrs.insertionSort Before = sorted at honce hpairwise
  cases sorted with
  | nil =>
    refine ⟨List.Pairwise.nil, nofun, fun a => ?_⟩
    rw [← honce.exists_has]
    simp
  | cons c l =>
    obtain ⟨hc, hl⟩ := pairwise_cons.mp hpairwise
    obtain ⟨hapart, hranges, hmem⟩ := mergedRanges_spec (first_le_last c) hc hl
    refine ⟨hapart, fun r hr => (hranges r hr).2, fun a => ?_⟩
    rw [hmem, ← honce.exists_has, exists_mem_cons_iff, has_iff]

end Mitaka.Neutron.Netaddr
