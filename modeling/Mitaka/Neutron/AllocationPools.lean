/-
  Subject: generate_pools and check_subnet_ip of neutron/ipam/utils.py.

  The pools of a subnet are ranges of a set of addresses; what is usable is decided by a
  mask test elsewhere. The two agree, except where the addresses behind the network are
  only one and the subnet is IPv6: a /127 has no pools (**`generatePools_agrees_iff`**).

  The mask test compares numbers, and so takes addresses of the other version.
-/
import Mitaka.Neutron.IpamSubnet
import Mitaka.Neutron.Netaddr

namespace Mitaka.Neutron.AllocationPools

open Block (Once Tiles)
open Netaddr

/-! ## 1. Networks and pools -/

/-- `width` of the two versions. -/
def width (v6 : Bool) : ℕ := if v6 then 128 else 32

/-- A CIDR as it is given, which may have host bits. -/
structure Cidr where
  v6 : Bool
  value : ℕ
  prefixlen : ℕ
  value_lt : value < 2 ^ width v6
  prefixlen_le : prefixlen ≤ width v6
deriving DecidableEq

namespace Cidr

def hostmask (c : Cidr) : ℕ := (1 <<< (width c.v6 - c.prefixlen)) - 1

def netmask (c : Cidr) : ℕ := (2 ^ width c.v6 - 1) ^^^ c.hostmask

def first (c : Cidr) : ℕ := c.value &&& c.netmask

def last (c : Cidr) : ℕ := c.value ||| c.hostmask

def toNetwork (c : Cidr) : IPNetwork := ⟨c.v6, c.first, c.netmask, c.last⟩

end Cidr

/-- `if gateway_ip: ipset.remove(...)`. -/
def removeGateway (width : ℕ) (ipset : List Block) : Option ℕ → List Block
  | none => ipset
  | some gatewayIp => removeAddress width ipset gatewayIp

/-- `generate_pools` with a gateway of the same version; none is an exception. The gateway zero, which is false as an
object, is in no pool. -/
def generatePools (c : Cidr) (gatewayIp : Option ℕ) : Option (List (ℕ × ℕ)) :=
  if c.first = c.last then some [(c.first, c.last)]
  else
    let firstIp := c.first + 1
    -- last address is broadcast in v4
    let lastIp := c.last - if c.v6 then 0 else 1
    if lastIp ≤ firstIp then some []
    else
      (iprangeToCidrs (width c.v6) firstIp lastIp).map fun ipset =>
        iterIpranges (removeGateway (width c.v6) ipset gatewayIp)

/-! ## 2. What is asked of the pools -/

/-- The address is in one of the pools. -/
def InPools (c : Cidr) (pools : List (ℕ × ℕ)) (ip : IPAddress) : Prop :=
  ip.v6 = c.v6 ∧ ∃ r ∈ pools, r.1 ≤ ip.value ∧ ip.value ≤ r.2

/-- The pools and the validation agree on the address. -/
def Agrees (c : Cidr) (gatewayIp : Option ℕ) (pools : List (ℕ × ℕ)) (ip : IPAddress) : Prop :=
  InPools c pools ip ↔ checkSubnetIp c.toNetwork ip = true ∧ ¬ (ip.v6 = c.v6 ∧ gatewayIp = some ip.value)

/-- The one usable address of an IPv6 subnet of two, when it is not the gateway. -/
def Dropped (c : Cidr) (gatewayIp : Option ℕ) (ip : IPAddress) : Prop :=
  c.v6 = true ∧ c.prefixlen = 127 ∧ ip.value = c.last ∧ gatewayIp ≠ some c.last

/-- An address of the CIDR's version that is not dropped, or one of the other version that the mask keeps out. -/
def Sound (c : Cidr) (gatewayIp : Option ℕ) (ip : IPAddress) : Prop :=
  (ip.v6 = c.v6 → ¬ Dropped c gatewayIp ip) ∧ (ip.v6 ≠ c.v6 → c.netmask &&& ip.value ≠ c.first)

/-! ## 3. Masks -/

theorem and_netmask {x w : ℕ} (hx : x < 2 ^ w) (h : ℕ) : x &&& ((2 ^ w - 1) ^^^ (2 ^ h - 1)) = x / 2 ^ h * 2 ^ h := by
  refine and_high_bits hx fun i hi => ?_
  rw [Nat.testBit_xor, Nat.testBit_two_pow_sub_one, Nat.testBit_two_pow_sub_one, decide_eq_true hi, Bool.true_xor,
    ← decide_not, decide_eq_decide]
  exact not_lt

theorem or_hostmask (x h : ℕ) : x ||| (2 ^ h - 1) = x / 2 ^ h * 2 ^ h + (2 ^ h - 1) := by
  have hpos := Nat.two_pow_pos h
  rw [Nat.mul_comm, Nat.two_pow_add_eq_or_of_lt (by omega)]
  refine Nat.eq_of_testBit_eq fun i => ?_
  rw [Nat.testBit_or, Nat.testBit_or, Nat.testBit_two_pow_sub_one, Nat.testBit_two_pow_mul, Nat.testBit_div_two_pow]
  by_cases hh : h ≤ i
  · rw [Nat.sub_add_cancel hh, decide_eq_true hh, Bool.true_and]
  · rw [decide_eq_true (show i < h by omega), Bool.or_true, Bool.or_true]

section

variable (c : Cidr)

/-- The host bits of the network. -/
def Cidr.host : ℕ := width c.v6 - c.prefixlen

theorem hostmask_eq : c.hostmask = 2 ^ c.host - 1 := by
  rw [Cidr.hostmask, Nat.one_shiftLeft]
  rfl

theorem first_eq : c.first = c.value / 2 ^ c.host * 2 ^ c.host := by
  rw [Cidr.first, Cidr.netmask, hostmask_eq, and_netmask c.value_lt]

theorem last_eq : c.last = c.first + (2 ^ c.host - 1) := by rw [Cidr.last, hostmask_eq, or_hostmask, first_eq]

theorem last_lt : c.last < 2 ^ width c.v6 := by
  have hpow : 2 ^ c.prefixlen * 2 ^ c.host = 2 ^ width c.v6 := by
    rw [← pow_add, Cidr.host, Nat.add_sub_cancel' c.prefixlen_le]
  have hdiv : c.value / 2 ^ c.host < 2 ^ c.prefixlen :=
    (Nat.div_lt_iff_lt_mul (Nat.two_pow_pos _)).mpr (hpow ▸ c.value_lt)
  have hle : (c.value / 2 ^ c.host + 1) * 2 ^ c.host ≤ 2 ^ c.prefixlen * 2 ^ c.host := Nat.mul_le_mul_right _ hdiv
  have hpos := Nat.two_pow_pos c.host
  rw [hpow, Nat.add_one_mul, ← first_eq] at hle
  rw [last_eq]
  omega

/-- **What is usable**: an address in the network, the first one excepted, and the last one in IPv4. -/
theorem checkSubnetIp_iff {ip : IPAddress} (hversion : ip.v6 = c.v6) (hip : ip.value < 2 ^ width ip.v6) :
    checkSubnetIp c.toNetwork ip = true ↔
      c.first < ip.value ∧ ip.value ≤ c.last ∧ (c.v6 = true ∨ ip.value ≠ c.last) := by
  obtain ⟨v6, value⟩ := ip
  obtain rfl : v6 = c.v6 := hversion
  have hmask : c.netmask &&& value = c.first ↔ c.first ≤ value ∧ value ≤ c.last := by
    have hpos := Nat.two_pow_pos c.host
    rw [Nat.and_comm, Cidr.netmask, hostmask_eq, and_netmask hip, last_eq, first_eq]
    dsimp only
    constructor
    · intro heq
      have hdiv := Nat.div_add_mod' value (2 ^ c.host)
      have hmod := Nat.mod_lt value hpos
      omega
    · rintro ⟨hle, hge⟩
      have hdiv : value / 2 ^ c.host = c.value / 2 ^ c.host := (Nat.div_eq_iff hpos).mpr ⟨hle, by omega⟩
      rw [hdiv]
  unfold checkSubnetIp
  simp only [Cidr.toNetwork, Bool.and_eq_true, Bool.or_eq_true, decide_eq_true_eq, beq_iff_eq, ne_eq, IPAddress.mk.injEq,
    true_and, hmask]
  constructor
  · rintro ⟨⟨hne, hlast⟩, hle, hge⟩
    exact ⟨lt_of_le_of_ne hle (Ne.symm hne), hge, hlast⟩
  · rintro ⟨hlt, hge, hlast⟩
    exact ⟨⟨hlt.ne', hlast⟩, hlt.le, hge⟩

/-! ## 4. The pools -/

/-- The addresses that the pools are made from. -/
def Cidr.range : Set ℕ := Set.Ico (c.first + 1) (c.last - (if c.v6 then 0 else 1) + 1)

theorem removeGateway_spec {ipset : List Block} {S : Set ℕ} {w : ℕ} (h : Once ipset S) (hbounded : Bounded w ipset)
    (gatewayIp : Option ℕ) : Once (removeGateway w ipset gatewayIp) {a ∈ S | gatewayIp ≠ some a} := by
  cases gatewayIp with
  | none =>
    have hall : {a ∈ S | (none : Option ℕ) ≠ some a} = S := Set.sep_eq_self_iff_mem_true.mpr fun a _ => nofun
    rw [hall]
    exact h
  | some gateway =>
    have hrest : {a ∈ S | some gateway ≠ some a} = S \ {gateway} := by
      ext a
      exact and_congr_right' (not_congr (by rw [Set.mem_singleton_iff, Option.some_inj, eq_comm]))
    rw [hrest]
    exact removeAddress_spec h hbounded gateway

/-- **The pools** are apart, and have the range without the gateway when the range has two addresses. -/
theorem generatePools_spec (hmany : c.prefixlen < width c.v6) (gatewayIp : Option ℕ) :
    ∃ pools, generatePools c gatewayIp = some pools ∧ Apart pools ∧
      ∀ a, (∃ r ∈ pools, r.1 ≤ a ∧ a ≤ r.2) ↔
        c.first + 1 < c.last - (if c.v6 then 0 else 1) ∧ a ∈ c.range ∧ gatewayIp ≠ some a := by
  have hhost : 2 ^ 1 ≤ 2 ^ c.host := Nat.pow_le_pow_right Nat.two_pos (Nat.sub_pos_of_lt hmany)
  have hne : c.first ≠ c.last := by
    rw [last_eq]
    omega
  have hlt := last_lt c
  unfold generatePools
  rw [if_neg hne]
  dsimp only
  by_cases hshort : c.last - (if c.v6 then 0 else 1) ≤ c.first + 1
  · rw [if_pos hshort]
    refine ⟨[], rfl, List.Pairwise.nil, fun a => iff_of_false ?_ fun h => absurd h.1 (not_lt.mpr hshort)⟩
    rintro ⟨r, hr, -⟩
    cases hr
  · have hbound : c.last - (if c.v6 then 0 else 1) < 2 ^ width c.v6 := by omega
    obtain ⟨ipset, hipset, htiles, hbounded⟩ := iprangeToCidrs_spec (not_le.mp hshort).le hbound
    obtain ⟨hapart, -, hmem⟩ := iterIpranges_spec (removeGateway_spec htiles hbounded gatewayIp)
    rw [if_neg hshort, hipset]
    exact ⟨_, rfl, hapart, fun a => (hmem a).trans (and_iff_right (not_le.mp hshort)).symm⟩

/-- **For an address of the CIDR's version** pools and validation agree unless it is dropped. -/
theorem agrees_same {c : Cidr} {gatewayIp : Option ℕ} {pools : List (ℕ × ℕ)} (hmany : c.prefixlen < width c.v6)
    (hpools : ∀ a, (∃ r ∈ pools, r.1 ≤ a ∧ a ≤ r.2) ↔
      c.first + 1 < c.last - (if c.v6 then 0 else 1) ∧ a ∈ c.range ∧ gatewayIp ≠ some a)
    {ip : IPAddress} (hversion : ip.v6 = c.v6) (hip : ip.value < 2 ^ width ip.v6) :
    Agrees c gatewayIp pools ip ↔ ¬ Dropped c gatewayIp ip := by
  have hlast := last_eq c
  have hpos := c.prefixlen_le
  have hhost : c.host = 1 ∨ 2 ^ 2 ≤ 2 ^ c.host := by
    rcases Nat.lt_or_ge c.host 2 with hlt | hge
    · left
      unfold Cidr.host at hlt ⊢
      omega
    · exact Or.inr (Nat.pow_le_pow_right Nat.two_pos hge)
  rw [Agrees, InPools, checkSubnetIp_iff c hversion hip, Dropped, hpools, Cidr.range, Set.mem_Ico]
  simp only [hversion, true_and]
  cases hv6 : c.v6 with
  | true =>
    have hprefix : c.prefixlen = 127 ↔ c.host = 1 := by
      unfold Cidr.host
      rw [hv6] at hpos ⊢
      unfold width at hpos ⊢
      rw [if_pos rfl] at hpos ⊢
      omega
    simp only [if_true, true_and, true_or, and_true, hprefix]
    rcases hhost with hone | htwo
    · rw [hone] at hlast
      have hnone : ¬ c.first + 1 < c.last - 0 := by omega
      constructor
      · rintro hagrees ⟨-, heq, hgateway⟩
        exact hnone (hagrees.mpr ⟨⟨by omega, by omega⟩, heq ▸ hgateway⟩).1
      · intro hsound
        refine iff_of_false (fun h => hnone h.1) ?_
        rintro ⟨⟨hge, hle⟩, hgateway⟩
        have heq : ip.value = c.last := by omega
        exact hsound ⟨hone, heq, heq ▸ hgateway⟩
    · have hnot : c.host ≠ 1 := by
        intro h
        rw [h] at htwo
        omega
      simp only [hnot, false_and, not_false_eq_true, iff_true]
      constructor
      · rintro ⟨-, ⟨hge, hle⟩, hgateway⟩
        exact ⟨⟨by omega, by omega⟩, hgateway⟩
      · rintro ⟨⟨hge, hle⟩, hgateway⟩
        exact ⟨by omega, ⟨by omega, by omega⟩, hgateway⟩
  | false =>
    simp only [Bool.false_eq_true, if_false, false_and, not_false_eq_true, iff_true, false_or]
    rcases hhost with hone | htwo
    · rw [hone] at hlast
      constructor
      · rintro ⟨hlt, -, -⟩
        omega
      · rintro ⟨⟨hge, hle, hne⟩, -⟩
        omega
    · constructor
      · rintro ⟨-, ⟨hge, hle⟩, hgateway⟩
        exact ⟨⟨by omega, by omega, by omega⟩, hgateway⟩
      · rintro ⟨⟨hge, hle, hne⟩, hgateway⟩
        exact ⟨by omega, ⟨by omega, by omega⟩, hgateway⟩

/-- An address of the other version is in no pool, and the validation compares numbers. -/
theorem agrees_other {c : Cidr} {gatewayIp : Option ℕ} {pools : List (ℕ × ℕ)} {ip : IPAddress} (hversion : ip.v6 ≠ c.v6) :
    Agrees c gatewayIp pools ip ↔ c.netmask &&& ip.value ≠ c.first := by
  have hnot (n : ℕ) : ip ≠ ⟨c.v6, n⟩ := fun h => hversion (congrArg IPAddress.v6 h)
  have hcheck : checkSubnetIp c.toNetwork ip = true ↔ c.netmask &&& ip.value = c.first := by
    unfold checkSubnetIp
    simp only [Cidr.toNetwork, hnot, ne_eq, not_false_eq_true, decide_true, Bool.or_true, Bool.true_and, beq_iff_eq]
  rw [Agrees, InPools, hcheck]
  simp only [hversion, false_and, not_false_eq_true, and_true, false_iff, ne_eq]

/-- **When pools and validation agree**: for each address, and for all addresses of the CIDR's version. -/
theorem generatePools_agrees_iff (c : Cidr) (gatewayIp : Option ℕ) (hmany : c.prefixlen < width c.v6) :
    ∃ pools, generatePools c gatewayIp = some pools ∧ Apart pools ∧
      (∀ ip : IPAddress, ip.value < 2 ^ width ip.v6 → (Agrees c gatewayIp pools ip ↔ Sound c gatewayIp ip)) ∧
      ((∀ ip : IPAddress, ip.value < 2 ^ width ip.v6 → ip.v6 = c.v6 → Agrees c gatewayIp pools ip) ↔
        ¬ (c.v6 = true ∧ c.prefixlen = 127 ∧ gatewayIp ≠ some c.last)) := by
  obtain ⟨pools, hgenerate, hapart, hpools⟩ := generatePools_spec c hmany gatewayIp
  refine ⟨pools, hgenerate, hapart, fun ip hip => ?_, ?_, ?_⟩
  · by_cases hversion : ip.v6 = c.v6
    · rw [agrees_same hmany hpools hversion hip, Sound]
      exact ⟨fun h => ⟨fun _ => h, fun hne => absurd hversion hne⟩, fun h => h.1 hversion⟩
    · rw [agrees_other hversion, Sound]
      exact ⟨fun h => ⟨fun heq => absurd heq hversion, fun _ => h⟩, fun h => h.2 hversion⟩
  · rintro hall ⟨hv6, hprefix, hgateway⟩
    have hagrees := hall ⟨c.v6, c.last⟩ (last_lt c) rfl
    exact (agrees_same hmany hpools rfl (last_lt c)).mp hagrees ⟨hv6, hprefix, rfl, hgateway⟩
  · intro hnot ip hip hversion
    exact (agrees_same hmany hpools hversion hip).mpr fun h => hnot ⟨h.1, h.2.1, h.2.2.2⟩

end

/-- The network fd00::/127. -/
def pointToPoint : Cidr := ⟨true, 0xfd00 * 2 ^ 112, 127, by decide, by decide⟩

theorem generatePools_agrees_iff_pointToPoint :
    ∃ pools, generatePools pointToPoint none = some pools ∧ Apart pools ∧
      (∀ ip : IPAddress, ip.value < 2 ^ width ip.v6 → (Agrees pointToPoint none pools ip ↔ Sound pointToPoint none ip)) ∧
      ((∀ ip : IPAddress, ip.value < 2 ^ width ip.v6 → ip.v6 = pointToPoint.v6 → Agrees pointToPoint none pools ip) ↔
        ¬ (pointToPoint.v6 = true ∧ pointToPoint.prefixlen = 127 ∧ (none : Option ℕ) ≠ some pointToPoint.last)) :=
  generatePools_agrees_iff pointToPoint none (by decide)

/-- The network 10.0.0.0/30. -/
def small : Cidr := ⟨false, 10 * 2 ^ 24, 30, by decide, by decide⟩

/-- **No pools for a /127**, whose second address is accepted; and ::a00:1 is accepted in 10.0.0.0/30. -/
theorem generatePools_disagrees :
    (generatePools pointToPoint none = some [] ∧
      checkSubnetIp pointToPoint.toNetwork ⟨true, 0xfd00 * 2 ^ 112 + 1⟩ = true ∧
      ¬ Agrees pointToPoint none [] ⟨true, 0xfd00 * 2 ^ 112 + 1⟩) ∧
    (checkSubnetIp small.toNetwork ⟨true, 10 * 2 ^ 24 + 1⟩ = true ∧
      ∀ pools, ¬ Agrees small none pools ⟨true, 10 * 2 ^ 24 + 1⟩) := by
  have hcheck : checkSubnetIp pointToPoint.toNetwork ⟨true, 0xfd00 * 2 ^ 112 + 1⟩ = true := by decide +kernel
  have hother : checkSubnetIp small.toNetwork ⟨true, 10 * 2 ^ 24 + 1⟩ = true := by decide +kernel
  refine ⟨⟨by decide +kernel, hcheck, fun h => ?_⟩, hother, fun pools h => ?_⟩
  · obtain ⟨-, r, hr, -⟩ := h.mpr ⟨hcheck, nofun⟩
    cases hr
  · exact absurd (h.mpr ⟨hother, nofun⟩).1 (by decide)

end Mitaka.Neutron.AllocationPools
