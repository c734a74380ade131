/-
  Subject: The availability ranges of a subnet in every state that is reached.

  The ranges are disjoint, lie in their pools and hold no allocated address (`Inv`), and
  what a pool holds besides is allocated or was deallocated since the ranges were made
  (`Covers`). Three kinds of operations break this: an update of the pools that puts an
  allocated address into a pool, the allocation of an EUI-64 shaped address out of a
  range, and an allocation in a subnet that has IPv6 addresses below 2^32 in its pools.
  Without them both hold in every run (`ranges_exact`, `nothing_wasted`).
-/
import Mitaka.Neutron.IpamSubnet
import Mitaka.Lib.Fallible
import Mitaka.Lib.Run

namespace Mitaka.Neutron

open List

/-- The address is one of those from `first` to `last`. -/
def Between (first last a : IPAddress) : Prop := a.v6 = first.v6 ∧ first.value ≤ a.value ∧ a.value ≤ last.value

instance (first last a : IPAddress) : Decidable (Between first last a) := inferInstanceAs (Decidable (_ ∧ _))

def IpamAllocationPool.Has (pool : IpamAllocationPool) (a : IPAddress) : Prop := Between pool.firstIp pool.lastIp a

def IpamAvailabilityRange.Has (r : IpamAvailabilityRange) (a : IPAddress) : Prop := Between r.firstIp r.lastIp a

instance (pool : IpamAllocationPool) (a : IPAddress) : Decidable (pool.Has a) := inferInstanceAs (Decidable (Between _ _ _))

instance (r : IpamAvailabilityRange) (a : IPAddress) : Decidable (r.Has a) := inferInstanceAs (Decidable (Between _ _ _))

namespace IpamSubnet

/-! ## 1. The invariant -/

/-- The numbers of a range keep their version when they become addresses again. -/
def Unambiguous (v6 : Bool) (lo hi : ℕ) : Prop := ∀ n, lo ≤ n → n ≤ hi → IPAddress.ofInt n = ⟨v6, n⟩

/-- A range of a pool. -/
structure RangeOf (pool : IpamAllocationPool) (v6 : Bool) (r : IpamAvailabilityRange) : Prop where
  id : r.allocationPoolId = pool.id
  first : r.firstIp.v6 = v6
  last : r.lastIp.v6 = v6
  le : r.firstIp.value ≤ r.lastIp.value
  low : pool.firstIp.value ≤ r.firstIp.value
  high : r.lastIp.value ≤ pool.lastIp.value

/-- What the pools of a subnet satisfy. -/
structure PoolsOk (s : IpamSubnet) : Prop where
  version : ∀ pool ∈ s.pools, pool.firstIp.v6 = s.cidr.v6 ∧ pool.lastIp.v6 = s.cidr.v6
  le : ∀ pool ∈ s.pools, pool.firstIp.value ≤ pool.lastIp.value
  small : s.cidr.v6 = false → ∀ pool ∈ s.pools, pool.lastIp.value < 2 ^ 32
  disjoint : s.pools.Pairwise fun p q => ∀ a, ¬ (p.Has a ∧ q.Has a)
  ids : (s.pools.map IpamAllocationPool.id).Nodup
  next : ∀ pool ∈ s.pools, pool.id < s.nextPoolId

/-- The ranges are disjoint, each lies in its pool, and none holds an allocated address. -/
structure Inv (s : IpamSubnet) : Prop where
  pools : s.PoolsOk
  inPool : ∀ r ∈ s.ranges, ∃ pool ∈ s.pools, RangeOf pool s.cidr.v6 r
  disjoint : s.ranges.Pairwise fun r r' => ∀ a, ¬ (r.Has a ∧ r'.Has a)
  free : ∀ r ∈ s.ranges, ∀ a ∈ s.allocations, ¬ r.Has a

/-- What a pool holds besides its ranges is allocated, or is one of the addresses deallocated since. -/
def Covers (s : IpamSubnet) (recycled : List IPAddress) : Prop :=
  ∀ pool ∈ s.pools, ∀ a, pool.Has a → (∀ r ∈ s.ranges, ¬ r.Has a) → a ∈ s.allocations ∨ a ∈ recycled

/-- Disjoint pools of the subnet, each with its ends in order. -/
structure ValidPools (cidr : IPNetwork) (pools : List (ℕ × ℕ)) : Prop where
  le : ∀ pool ∈ pools, pool.1 ≤ pool.2
  small : cidr.v6 = false → ∀ pool ∈ pools, pool.2 < 2 ^ 32
  disjoint : pools.Pairwise fun p q => p.2 < q.1 ∨ q.2 < p.1

variable {s : IpamSubnet}

/-- Other ranges and allocations. -/
theorem PoolsOk.set (h : s.PoolsOk) (ranges : List IpamAvailabilityRange) (allocations : List IPAddress) :
    PoolsOk { s with ranges := ranges, allocations := allocations } :=
  ⟨h.version, h.le, h.small, h.disjoint, h.ids, h.next⟩

theorem Inv.eq_of_has (h : s.Inv) {r r' : IpamAvailabilityRange} (hr : r ∈ s.ranges) (hr' : r' ∈ s.ranges)
    {a : IPAddress} (ha : r.Has a) (ha' : r'.Has a) : r = r' := by
  have hsymm : Std.Symm fun r r' : IpamAvailabilityRange => ∀ a, ¬ (r.Has a ∧ r'.Has a) :=
    ⟨fun _ _ hd a hab => hd a hab.symm⟩
  by_contra hne
  exact h.disjoint.forall hr hr' hne a ⟨ha, ha'⟩

/-! ## 2. The pools -/

theorem ofInt_v4 {n : ℕ} (h : n < 2 ^ 32) : IPAddress.ofInt n = ⟨false, n⟩ := by
  rw [IPAddress.ofInt, decide_eq_false (not_le.mpr h)]

theorem ofInt_v6 {n : ℕ} (h : 2 ^ 32 ≤ n) : IPAddress.ofInt n = ⟨true, n⟩ := by
  rw [IPAddress.ofInt, decide_eq_true h]

/-- `create_allocation_pools` in one piece. -/
theorem createAllocationPools_eq (s : IpamSubnet) (pools : List (ℕ × ℕ)) :
    ∃ new : List IpamAllocationPool, s.createAllocationPools pools =
        { s with
          pools := s.pools ++ new
          ranges := s.ranges ++ new.map fun pool => ⟨pool.id, pool.firstIp, pool.lastIp⟩
          nextPoolId := s.nextPoolId + pools.length } ∧
      new.map (fun pool => (pool.firstIp, pool.lastIp)) = pools.map (fun pool => (⟨s.cidr.v6, pool.1⟩, ⟨s.cidr.v6, pool.2⟩)) ∧
      new.map IpamAllocationPool.id = range' s.nextPoolId pools.length := by
  induction pools generalizing s with
  | nil => exact ⟨[], by simp [createAllocationPools], rfl, rfl⟩
  | cons pool pools ih =>
    rw [createAllocationPools]
    obtain ⟨new, heq, hends, hids⟩ := ih
      { s with
        pools := s.pools ++ [⟨s.nextPoolId, ⟨s.cidr.v6, pool.1⟩, ⟨s.cidr.v6, pool.2⟩⟩]
        ranges := s.ranges ++ [⟨s.nextPoolId, ⟨s.cidr.v6, pool.1⟩, ⟨s.cidr.v6, pool.2⟩⟩]
        nextPoolId := s.nextPoolId + 1 }
    refine ⟨⟨s.nextPoolId, ⟨s.cidr.v6, pool.1⟩, ⟨s.cidr.v6, pool.2⟩⟩ :: new, ?_, ?_, ?_⟩
    · rw [heq]
      simp only [append_assoc, singleton_append, map_cons, length_cons, mk.injEq, true_and]
      omega
    · rw [map_cons, map_cons, hends]
    · rw [map_cons, hids, length_cons, range'_succ]

/-- **New pools in a subnet without pools.** -/
theorem createAllocationPools_spec {pools : List (ℕ × ℕ)} (hpools : s.pools = []) (hranges : s.ranges = [])
    (hvalid : ValidPools s.cidr pools)
    (hfree : ∀ pool ∈ pools, ∀ a ∈ s.allocations, ¬ Between ⟨s.cidr.v6, pool.1⟩ ⟨s.cidr.v6, pool.2⟩ a) :
    (s.createAllocationPools pools).Inv ∧ (s.createAllocationPools pools).Covers [] ∧
      (s.createAllocationPools pools).cidr = s.cidr ∧ (s.createAllocationPools pools).allocations = s.allocations := by
  obtain ⟨new, heq, hends, hids⟩ := s.createAllocationPools_eq pools
  rw [heq, hpools, hranges]
  have hmem : ∀ pool ∈ new, ∃ p ∈ pools, pool.firstIp = ⟨s.cidr.v6, p.1⟩ ∧ pool.lastIp = ⟨s.cidr.v6, p.2⟩ := fun pool hpool => by
    have hin := List.mem_map_of_mem (f := fun pool : IpamAllocationPool => (pool.firstIp, pool.lastIp)) hpool
    rw [hends] at hin
    obtain ⟨p, hp, hpair⟩ := List.mem_map.mp hin
    obtain ⟨hfirst, hlast⟩ := Prod.ext_iff.mp hpair
    exact ⟨p, hp, hfirst.symm, hlast.symm⟩
  have hdisjoint : new.Pairwise fun p q => ∀ a, ¬ (p.Has a ∧ q.Has a) := by
    have hpairs : (new.map fun pool => (pool.firstIp, pool.lastIp)).Pairwise fun p q =>
        ∀ a, ¬ (Between p.1 p.2 a ∧ Between q.1 q.2 a) := by
      rw [hends]
      refine pairwise_map.mpr (hvalid.disjoint.imp fun {p q} hlt a => ?_)
      rintro ⟨⟨-, hlo, hhi⟩, ⟨-, hlo', hhi'⟩⟩
      dsimp only at hlo hhi hlo' hhi'
      omega
    exact pairwise_map.mp hpairs
  have hid : ∀ pool ∈ new, pool.id < s.nextPoolId + pools.length := fun pool hpool => by
    have hin := List.mem_map_of_mem (f := IpamAllocationPool.id) hpool
    rw [hids, mem_range'_1] at hin
    exact hin.2
  refine ⟨⟨⟨fun pool hpool => ?_, fun pool hpool => ?_, fun hv pool hpool => ?_, hdisjoint, ?_, hid⟩, fun r hr => ?_, ?_,
    fun r hr a ha => ?_⟩, fun pool hpool a ha hnone => ?_, rfl, rfl⟩
  · obtain ⟨p, -, hfirst, hlast⟩ := hmem pool hpool
    rw [hfirst, hlast]
    exact ⟨rfl, rfl⟩
  · obtain ⟨p, hp, hfirst, hlast⟩ := hmem pool hpool
    rw [hfirst, hlast]
    exact hvalid.le p hp
  · obtain ⟨p, hp, -, hlast⟩ := hmem pool hpool
    rw [hlast]
    exact hvalid.small hv p hp
  · rw [nil_append, hids]
    exact nodup_range'
  · obtain ⟨pool, hpool, rfl⟩ := List.mem_map.mp hr
    obtain ⟨p, hp, hfirst, hlast⟩ := hmem pool hpool
    refine ⟨pool, hpool, rfl, ?_, ?_, ?_, le_rfl, le_rfl⟩
    · rw [hfirst]
    · rw [hlast]
    · rw [hfirst, hlast]
      exact hvalid.le p hp
  · exact pairwise_map.mpr hdisjoint
  · obtain ⟨pool, hpool, rfl⟩ := List.mem_map.mp hr
    obtain ⟨p, hp, hfirst, hlast⟩ := hmem pool hpool
    rw [IpamAvailabilityRange.Has, hfirst, hlast]
    exact hfree p hp a ha
  · exact absurd ha (hnone _ (List.mem_map_of_mem hpool))

/-! ## 3. The ranges without one address -/

theorem Unambiguous.of_pool (h : s.PoolsOk) {pool : IpamAllocationPool} (hpool : pool ∈ s.pools)
    (hlow : s.cidr.v6 = true → 2 ^ 32 ≤ pool.firstIp.value) : Unambiguous s.cidr.v6 pool.firstIp.value pool.lastIp.value := by
  intro n hlo hhi
  cases hv : s.cidr.v6 with
  | false => exact ofInt_v4 (lt_of_le_of_lt hhi (h.small hv pool hpool))
  | true => exact ofInt_v6 ((hlow hv).trans hlo)

/-- **One row without an address.** -/
theorem allocateFromRange_spec {v6 : Bool} {r : IpamAvailabilityRange} (hfirst : r.firstIp.v6 = v6) (hlast : r.lastIp.v6 = v6)
    (hle : r.firstIp.value ≤ r.lastIp.value) (hint : Unambiguous v6 r.firstIp.value r.lastIp.value) (ip : IPAddress) :
    ∃ rows, allocateFromRange ip r = .ok (decide (r.Has ip), rows) ∧
      (∀ r' ∈ rows, r'.allocationPoolId = r.allocationPoolId ∧ r'.firstIp.v6 = v6 ∧ r'.lastIp.v6 = v6 ∧
        r'.firstIp.value ≤ r'.lastIp.value ∧ r.firstIp.value ≤ r'.firstIp.value ∧ r'.lastIp.value ≤ r.lastIp.value) ∧
      (rows.Pairwise fun r r' => ∀ a, ¬ (r.Has a ∧ r'.Has a)) ∧
      ∀ a, (∃ r' ∈ rows, r'.Has a) ↔ r.Has a ∧ a ≠ ip := by
  obtain ⟨id, ⟨v, lo⟩, ⟨u, hi⟩⟩ := r
  dsimp only at hfirst hlast hle hint
  subst hfirst hlast
  obtain ⟨w, x⟩ := ip
  have hrange : ipRange ⟨u, lo⟩ ⟨u, hi⟩ = .ok (u, lo, hi) := if_pos ⟨rfl, hle⟩
  rw [allocateFromRange]
  dsimp only
  rw [hrange]
  dsimp only [bind, Except.bind, pure, Except.pure]
  by_cases hin : IpamAvailabilityRange.Has ⟨id, ⟨u, lo⟩, ⟨u, hi⟩⟩ ⟨w, x⟩
  · obtain ⟨hw, hlo, hhi⟩ := hin
    dsimp only at hw hlo hhi
    subst hw
    have hhas : IpamAvailabilityRange.Has ⟨id, ⟨w, lo⟩, ⟨w, hi⟩⟩ ⟨w, x⟩ := ⟨rfl, hlo, hhi⟩
    have hoflo : IPAddress.ofInt lo = ⟨w, lo⟩ := hint _ le_rfl hle
    have hofhi : IPAddress.ofInt hi = ⟨w, hi⟩ := hint _ hle le_rfl
    rw [if_pos rfl, complement_singleton hlo hhi, decide_eq_true hhas]
    by_cases hfirst : lo < x
    · have hx : IPAddress.ofInt (x - 1) = ⟨w, x - 1⟩ := hint _ (by omega) (by omega)
      by_cases hlast : x < hi
      · -- the row is cut in two
        have hx' : IPAddress.ofInt (x + 1) = ⟨w, x + 1⟩ := hint _ (by omega) (by omega)
        refine ⟨[⟨id, ⟨w, lo⟩, ⟨w, x - 1⟩⟩, ⟨id, ⟨w, x + 1⟩, ⟨w, hi⟩⟩], ?_, ?_, ?_, fun a => ?_⟩
        · rw [if_pos hfirst, if_pos hlast, if_neg (by simp), if_neg (by simp)]
          have hne : ¬ ((⟨w, lo⟩ : IPAddress) = ⟨w, x + 1⟩ ∨ (⟨w, x - 1⟩ : IPAddress) = ⟨w, hi⟩) := by
            rw [IPAddress.mk.injEq, IPAddress.mk.injEq]
            omega
          simp only [cons_append, nil_append, foldl_cons, foldl_nil, storeRange, hoflo, hx, hx', hofhi,
            true_or, if_true, if_neg hne]
        · intro r' hr'
          simp only [mem_cons, not_mem_nil, or_false] at hr'
          rcases hr' with rfl | rfl <;> exact ⟨rfl, rfl, rfl, by dsimp only; omega, by dsimp only; omega, by dsimp only; omega⟩
        · refine pairwise_pair.mpr fun a => ?_
          rintro ⟨⟨-, -, hhi'⟩, ⟨-, hlo', -⟩⟩
          dsimp only at hhi' hlo'
          omega
        · obtain ⟨w', y⟩ := a
          simp only [mem_cons, not_mem_nil, or_false, exists_eq_or_imp, exists_eq_left, IpamAvailabilityRange.Has,
            Between, ne_eq, IPAddress.mk.injEq]
          constructor
          · rintro (⟨rfl, h⟩ | ⟨rfl, h⟩) <;> exact ⟨⟨rfl, by omega, by omega⟩, by omega⟩
          · rintro ⟨⟨rfl, h⟩, hne⟩
            rcases Nat.lt_or_ge y x with hlt | hge
            · exact Or.inl ⟨rfl, by omega, by omega⟩
            · exact Or.inr ⟨rfl, by simp only [true_and] at hne; omega, by omega⟩
      · obtain rfl : x = hi := by omega
        refine ⟨[⟨id, ⟨w, lo⟩, ⟨w, x - 1⟩⟩], ?_, ?_, pairwise_singleton _ _, fun a => ?_⟩
        · rw [if_pos hfirst, if_neg hlast, if_neg (by simp), if_neg (by simp; omega)]
          simp only [append_nil, foldl_cons, foldl_nil, storeRange, hoflo, hx, true_or, if_true]
        · intro r' hr'
          cases mem_singleton.mp hr'
          exact ⟨rfl, rfl, rfl, by dsimp only; omega, le_rfl, by dsimp only; omega⟩
        · obtain ⟨w', y⟩ := a
          simp only [mem_singleton, exists_eq_left, IpamAvailabilityRange.Has, Between, ne_eq, IPAddress.mk.injEq]
          constructor
          · rintro ⟨rfl, h⟩
            exact ⟨⟨rfl, by omega, by omega⟩, by omega⟩
          · rintro ⟨⟨rfl, h⟩, hne⟩
            exact ⟨rfl, by omega, by simp only [true_and] at hne; omega⟩
    · obtain rfl : lo = x := by omega
      by_cases hlast : lo < hi
      · have hx' : IPAddress.ofInt (lo + 1) = ⟨w, lo + 1⟩ := hint _ (by omega) (by omega)
        refine ⟨[⟨id, ⟨w, lo + 1⟩, ⟨w, hi⟩⟩], ?_, ?_, pairwise_singleton _ _, fun a => ?_⟩
        · rw [if_neg hfirst, if_pos hlast, if_neg (by simp), if_neg (by simp)]
          simp only [nil_append, foldl_cons, foldl_nil, storeRange, hofhi, hx', or_true, if_true]
        · intro r' hr'
          cases mem_singleton.mp hr'
          exact ⟨rfl, rfl, rfl, by dsimp only; omega, by dsimp only; omega, le_rfl⟩
        · obtain ⟨w', y⟩ := a
          simp only [mem_singleton, exists_eq_left, IpamAvailabilityRange.Has, Between, ne_eq, IPAddress.mk.injEq]
          constructor
          · rintro ⟨rfl, h⟩
            exact ⟨⟨rfl, by omega, by omega⟩, by omega⟩
          · rintro ⟨⟨rfl, h⟩, hne⟩
            exact ⟨rfl, by simp only [true_and] at hne; omega, by omega⟩
      · obtain rfl : lo = hi := by omega
        refine ⟨[], ?_, nofun, List.Pairwise.nil, fun a => ?_⟩
        · rw [if_neg hfirst, if_neg hlast, if_pos (nil_append [])]
        · obtain ⟨w', y⟩ := a
          simp only [not_mem_nil, false_and, exists_false, IpamAvailabilityRange.Has, Between, ne_eq, IPAddress.mk.injEq]
          constructor
          · exact False.elim
          · rintro ⟨⟨rfl, h⟩, hne⟩
            exact hne ⟨rfl, by omega⟩
  · have hset : (if w = u then complement lo hi [x] else [(lo, hi)]) = [(lo, hi)] := by
      split
      case isTrue hw => exact complement_singleton_of_lt (fun h => hin ⟨hw, h⟩) hle
      case isFalse => rfl
    refine ⟨[⟨id, ⟨u, lo⟩, ⟨u, hi⟩⟩], ?_, ?_, pairwise_singleton _ _, fun a => ?_⟩
    · rw [hset, if_neg (cons_ne_nil _ _), if_pos rfl, decide_eq_false hin]
    · intro r' hr'
      cases mem_singleton.mp hr'
      exact ⟨rfl, rfl, rfl, hle, le_rfl, le_rfl⟩
    · simp only [mem_singleton, exists_eq_left]
      exact ⟨fun h => ⟨h, fun heq => hin (by rw [← heq]; exact h)⟩, And.left⟩

/-- The ranges `rows` are those of a subnet without an address. -/
structure Without (s : IpamSubnet) (ip : IPAddress) (rows : List IpamAvailabilityRange) : Prop where
  inPool : ∀ r ∈ rows, ∃ pool ∈ s.pools, RangeOf pool s.cidr.v6 r
  disjoint : rows.Pairwise fun r r' => ∀ a, ¬ (r.Has a ∧ r'.Has a)
  mem : ∀ a, (∃ r ∈ rows, r.Has a) ↔ (∃ r ∈ s.ranges, r.Has a) ∧ a ≠ ip

variable {ip : IPAddress}

/-- **The ranges without an address.** -/
theorem Inv.allocateSpecificIp (h : s.Inv) (hlow : ∀ pool ∈ s.pools, pool.firstIp.v6 = true → 2 ^ 32 ≤ pool.firstIp.value)
    (heui : isEui64Address ip = true → ∀ r ∈ s.ranges, ¬ r.Has ip) (allocationPoolId : Option ℕ) (auto : Bool)
    (hpool : ∀ id ∈ allocationPoolId, ∃ r ∈ s.ranges, r.allocationPoolId = id ∧ r.Has ip)
    (hauto : auto = true → ∃ r ∈ s.ranges, r.Has ip) :
    ∃ rows, s.allocateSpecificIp ip allocationPoolId auto = .ok { s with ranges := rows } ∧ s.Without ip rows := by
  rw [IpamSubnet.allocateSpecificIp]
  by_cases hshape : isEui64Address ip = true
  · rw [if_pos hshape]
    refine ⟨s.ranges, rfl, h.inPool, h.disjoint, fun a => ⟨fun hr => ⟨hr, ?_⟩, And.left⟩⟩
    rintro rfl
    obtain ⟨r, hr, hhas⟩ := hr
    exact heui hshape r hr hhas
  rw [if_neg hshape]
  -- every row on its own
  have hrow : ∀ r ∈ s.ranges, ∃ p : Bool × List IpamAvailabilityRange,
      (if ∀ id ∈ allocationPoolId, r.allocationPoolId = id then allocateFromRange ip r else .ok (false, [r])) = .ok p ∧
      (p.1 = true ↔ r.Has ip) ∧ (∀ r' ∈ p.2, ∃ pool ∈ s.pools, RangeOf pool s.cidr.v6 r') ∧
      (p.2.Pairwise fun r r' => ∀ a, ¬ (r.Has a ∧ r'.Has a)) ∧ ∀ a, (∃ r' ∈ p.2, r'.Has a) ↔ r.Has a ∧ a ≠ ip := by
    intro r hr
    obtain ⟨pool, hmem, hof⟩ := h.inPool r hr
    split
    case isTrue =>
      have hint := Unambiguous.of_pool h.pools hmem fun hv => hlow pool hmem (by rw [(h.pools.version pool hmem).1]; exact hv)
      obtain ⟨rows, hok, hrows, hdisjoint, hhas⟩ := allocateFromRange_spec hof.first hof.last hof.le
        (fun n hlo hhi => hint n (hof.low.trans hlo) (hhi.trans hof.high)) ip
      refine ⟨_, hok, decide_eq_true_iff, fun r' hr' => ⟨pool, hmem, ?_⟩, hdisjoint, hhas⟩
      obtain ⟨hid, hfirst, hlast, hle, hlo, hhi⟩ := hrows r' hr'
      exact ⟨hid.trans hof.id, hfirst, hlast, hle, hof.low.trans hlo, hhi.trans hof.high⟩
    case isFalse hother =>
      -- the address is in a range of another pool
      have hnot : ¬ r.Has ip := fun hhas => by
        refine hother fun id hid => ?_
        obtain ⟨r', hr', hid', hhas'⟩ := hpool id hid
        rw [h.eq_of_has hr hr' hhas hhas', hid']
      refine ⟨_, rfl, iff_of_false nofun hnot, ?_, pairwise_singleton _ _, fun a => ?_⟩
      · intro r' hr'
        rw [mem_singleton.mp hr']
        exact ⟨pool, hmem, hof⟩
      · simp only [mem_singleton, exists_eq_left]
        exact ⟨fun hhas => ⟨hhas, fun heq => hnot (by rw [← heq]; exact hhas)⟩, And.left⟩
  classical
  let g : IpamAvailabilityRange → Bool × List IpamAvailabilityRange := fun r =>
    if hr : r ∈ s.ranges then (hrow r hr).choose else (false, [])
  have hg : ∀ r (hr : r ∈ s.ranges), g r = (hrow r hr).choose := fun r hr => dif_pos hr
  have hmap : (s.ranges.mapM fun r => if ∀ id ∈ allocationPoolId, r.allocationPoolId = id then allocateFromRange ip r
      else .ok (false, [r])) = .ok (s.ranges.map g) :=
    Fallible.mapM_pure fun r hr => by rw [hg r hr]; exact (hrow r hr).choose_spec.1
  rw [hmap]
  have hany : auto = true → (s.ranges.map g).any Prod.fst = true := fun ha => by
    obtain ⟨r, hr, hhas⟩ := hauto ha
    refine List.any_eq_true.mpr ⟨g r, List.mem_map_of_mem hr, ?_⟩
    rw [hg r hr]
    exact (hrow r hr).choose_spec.2.1.mpr hhas
  have hgo : (auto && !(s.ranges.map g).any Prod.fst) = false := by
    cases auto with
    | false => rfl
    | true => rw [hany rfl]; rfl
  refine ⟨(s.ranges.map g).flatMap Prod.snd, ?_, ?_, ?_, ?_⟩
  · dsimp only [bind, Except.bind]
    rw [hgo]
    rfl
  · intro r' hr'
    obtain ⟨p, hp, hr'⟩ := mem_flatMap.mp hr'
    obtain ⟨r, hr, rfl⟩ := List.mem_map.mp hp
    rw [hg r hr] at hr'
    exact (hrow r hr).choose_spec.2.2.1 r' hr'
  · rw [flatMap_map, pairwise_flatMap]
    refine ⟨fun r hr => ?_, h.disjoint.imp_of_mem fun {r r'} hr hr' hd x hx y hy a => ?_⟩
    · rw [hg r hr]
      exact (hrow r hr).choose_spec.2.2.2.1
    · rw [hg r hr] at hx
      rw [hg r' hr'] at hy
      rintro ⟨hxa, hya⟩
      exact hd a ⟨(((hrow r hr).choose_spec.2.2.2.2 a).mp ⟨x, hx, hxa⟩).1, (((hrow r' hr').choose_spec.2.2.2.2 a).mp ⟨y, hy, hya⟩).1⟩
  · intro a
    simp only [mem_flatMap, List.mem_map]
    constructor
    · rintro ⟨x, ⟨_, ⟨r, hr, rfl⟩, hx⟩, hxa⟩
      rw [hg r hr] at hx
      obtain ⟨hhas, hne⟩ := ((hrow r hr).choose_spec.2.2.2.2 a).mp ⟨x, hx, hxa⟩
      exact ⟨⟨r, hr, hhas⟩, hne⟩
    · rintro ⟨⟨r, hr, hhas⟩, hne⟩
      obtain ⟨x, hx, hxa⟩ := ((hrow r hr).choose_spec.2.2.2.2 a).mpr ⟨hhas, hne⟩
      exact ⟨x, ⟨g r, ⟨r, hr, rfl⟩, by rw [hg r hr]; exact hx⟩, hxa⟩

/-! ## 4. One operation -/

/-- **The rebuilt ranges are what the pools hold besides the allocations.** -/
theorem Inv.rebuild (h : s.Inv) (hlow : ∀ pool ∈ s.pools, pool.firstIp.v6 = true → 2 ^ 32 ≤ pool.firstIp.value)
    (hempty : s.ranges = []) : s.rebuildAvailabilityRanges.Inv ∧
      ∀ a, (∃ r ∈ s.rebuildAvailabilityRanges.ranges, r.Has a) ↔ (∃ pool ∈ s.pools, pool.Has a) ∧ a ∉ s.allocations := by
  have hranges : s.rebuildAvailabilityRanges.ranges = s.pools.flatMap fun pool =>
      (complement pool.firstIp.value pool.lastIp.value
        ((s.allocations.filter fun ip => ip.v6 = pool.firstIp.v6).map IPAddress.value)).map fun ipRange =>
          ⟨pool.id, IPAddress.ofInt ipRange.1, IPAddress.ofInt ipRange.2⟩ := by
    rw [rebuildAvailabilityRanges, hempty]
    rfl
  -- a run of one pool
  have hrun : ∀ pool ∈ s.pools, ∀ l : List ℕ, ∀ run ∈ complement pool.firstIp.value pool.lastIp.value l,
      IPAddress.ofInt run.1 = ⟨s.cidr.v6, run.1⟩ ∧ IPAddress.ofInt run.2 = ⟨s.cidr.v6, run.2⟩ := fun pool hpool l run hrun => by
    obtain ⟨hlo, hle, hhi⟩ := complement_bounds hrun
    have hint := Unambiguous.of_pool h.pools hpool fun hv => hlow pool hpool (by rw [(h.pools.version pool hpool).1]; exact hv)
    exact ⟨hint _ hlo (hle.trans hhi), hint _ (hlo.trans hle) hhi⟩
  have hmem : ∀ a, (∃ r ∈ s.rebuildAvailabilityRanges.ranges, r.Has a) ↔ (∃ pool ∈ s.pools, pool.Has a) ∧ a ∉ s.allocations := by
    intro a
    have hin : ∀ pool ∈ s.pools, (a.value ∈ (s.allocations.filter fun ip => ip.v6 = pool.firstIp.v6).map IPAddress.value ∧
        a.v6 = s.cidr.v6) ↔ a ∈ s.allocations ∧ a.v6 = s.cidr.v6 := fun pool hpool => by
      rw [(h.pools.version pool hpool).1]
      refine and_congr_left fun hv => ?_
      rw [List.mem_map]
      constructor
      · rintro ⟨b, hb, heq⟩
        obtain ⟨hb, hbv⟩ := mem_filter.mp hb
        obtain ⟨bv, b⟩ := b
        obtain ⟨av, a⟩ := a
        dsimp only at heq hbv hv
        rw [heq, of_decide_eq_true hbv, ← hv] at hb
        exact hb
      · intro ha
        exact ⟨a, mem_filter.mpr ⟨ha, decide_eq_true hv⟩, rfl⟩
    rw [hranges]
    constructor
    · rintro ⟨r, hr, hhas⟩
      obtain ⟨pool, hpool, hr⟩ := mem_flatMap.mp hr
      obtain ⟨run, hrunmem, rfl⟩ := List.mem_map.mp hr
      obtain ⟨hfirst, hlast⟩ := hrun pool hpool _ run hrunmem
      rw [IpamAvailabilityRange.Has, hfirst, hlast] at hhas
      obtain ⟨hv, hlo, hhi⟩ := hhas
      obtain ⟨hbounds, hnot⟩ := mem_complement.mp ⟨run, hrunmem, hlo, hhi⟩
      refine ⟨⟨pool, hpool, by rw [(h.pools.version pool hpool).1]; exact hv, hbounds⟩, fun ha => ?_⟩
      exact hnot ((hin pool hpool).mpr ⟨ha, hv⟩).1
    · rintro ⟨⟨pool, hpool, hv, hbounds⟩, hnot⟩
      rw [(h.pools.version pool hpool).1] at hv
      obtain ⟨run, hrunmem, hlo, hhi⟩ := mem_complement.mpr ⟨hbounds, fun ha => hnot ((hin pool hpool).mp ⟨ha, hv⟩).1⟩
      obtain ⟨hfirst, hlast⟩ := hrun pool hpool _ run hrunmem
      refine ⟨_, mem_flatMap.mpr ⟨pool, hpool, List.mem_map_of_mem hrunmem⟩, ?_⟩
      rw [IpamAvailabilityRange.Has, hfirst, hlast]
      exact ⟨hv, hlo, hhi⟩
  refine ⟨⟨h.pools.set _ s.allocations, fun r hr => ?_, ?_, fun r hr a ha hhas => ((hmem a).mp ⟨r, hr, hhas⟩).2 ha⟩, hmem⟩
  · rw [hranges] at hr
    obtain ⟨pool, hpool, hr⟩ := mem_flatMap.mp hr
    obtain ⟨run, hrunmem, rfl⟩ := List.mem_map.mp hr
    obtain ⟨hfirst, hlast⟩ := hrun pool hpool _ run hrunmem
    obtain ⟨hlo, hle, hhi⟩ := complement_bounds hrunmem
    refine ⟨pool, hpool, rfl, ?_, ?_, ?_, ?_, ?_⟩
    · rw [hfirst]
      rfl
    · rw [hlast]
      rfl
    · rw [hfirst, hlast]
      exact hle
    · rw [hfirst]
      exact hlo
    · rw [hlast]
      exact hhi
  · rw [hranges, pairwise_flatMap]
    have hsub : ∀ pool ∈ s.pools, ∀ l : List ℕ, ∀ r ∈ (complement pool.firstIp.value pool.lastIp.value l).map (fun ipRange =>
        (⟨pool.id, IPAddress.ofInt ipRange.1, IPAddress.ofInt ipRange.2⟩ : IpamAvailabilityRange)), ∀ a, r.Has a → pool.Has a := by
      intro pool hpool l r hr a hhas
      obtain ⟨run, hrunmem, rfl⟩ := List.mem_map.mp hr
      obtain ⟨hfirst, hlast⟩ := hrun pool hpool _ run hrunmem
      rw [IpamAvailabilityRange.Has, hfirst, hlast] at hhas
      obtain ⟨hlo, -, hhi⟩ := complement_bounds hrunmem
      exact ⟨by rw [(h.pools.version pool hpool).1]; exact hhas.1, hlo.trans hhas.2.1, hhas.2.2.trans hhi⟩
    refine ⟨fun pool hpool => pairwise_map.mpr ((complement_pairwise _ _ _).imp_of_mem fun {run run'} hr hr' hlt a => ?_),
      h.pools.disjoint.imp_of_mem fun {pool pool'} hpool hpool' hd r hr r' hr' a => ?_⟩
    · obtain ⟨hfirst, hlast⟩ := hrun pool hpool _ run hr
      obtain ⟨hfirst', hlast'⟩ := hrun pool hpool _ run' hr'
      rw [IpamAvailabilityRange.Has, IpamAvailabilityRange.Has, hfirst, hlast, hfirst', hlast']
      rintro ⟨⟨-, -, hhi⟩, ⟨-, hlo, -⟩⟩
      dsimp only at hhi hlo
      omega
    · rintro ⟨hra, hra'⟩
      exact hd a ⟨hsub pool hpool _ r hr a hra, hsub pool' hpool' _ r' hr' a hra'⟩

/-- The ranges from which an automatic allocation takes its address. -/
def candidates (s : IpamSubnet) : IpamSubnet := if s.ranges = [] then s.rebuildAvailabilityRanges else s

theorem getFirstRange_of_nil (h : s.ranges = []) (row : ℕ) : s.getFirstRange row = none := by
  rw [getFirstRange, h]
  rfl

theorem getFirstRange_of_ne (h : s.ranges ≠ []) (row : ℕ) :
    ∃ r ∈ s.ranges, s.getFirstRange row = some r := by
  have hlt : row % s.ranges.length < s.ranges.length := Nat.mod_lt _ (length_pos_of_ne_nil h)
  exact ⟨_, getElem_mem hlt, getElem?_eq_getElem hlt⟩

/-- `_generate_ip` reads a row of the candidates. -/
theorem generateIp_spec (s : IpamSubnet) (row : ℕ) :
    (s.candidates.ranges = [] ∧ s.generateIp row = .error .ipAddressGenerationFailure) ∨
      ∃ r ∈ s.candidates.ranges, s.generateIp row = .ok (s.candidates, r.firstIp, r.allocationPoolId) := by
  rw [candidates]
  by_cases hempty : s.ranges = []
  · rw [if_pos hempty, generateIp, getFirstRange_of_nil hempty]
    by_cases hempty' : s.rebuildAvailabilityRanges.ranges = []
    · rw [getFirstRange_of_nil hempty']
      exact Or.inl ⟨hempty', rfl⟩
    · obtain ⟨r, hr, hfirst⟩ := getFirstRange_of_ne hempty' row
      rw [hfirst]
      exact Or.inr ⟨r, hr, rfl⟩
  · rw [if_neg hempty, generateIp]
    obtain ⟨r, hr, hfirst⟩ := getFirstRange_of_ne hempty row
    rw [hfirst]
    exact Or.inr ⟨r, hr, rfl⟩

/-- The operations after which the ranges are as they should be. -/
def Sound (s : IpamSubnet) : Action → Prop
  | .allocate request => (∀ pool ∈ s.pools, pool.firstIp.v6 = true → 2 ^ 32 ≤ pool.firstIp.value) ∧
    match request with
    | .specific ip => isEui64Address ip = true → ∀ r ∈ s.ranges, ¬ r.Has ip
    | .any _ => ∀ r ∈ s.candidates.ranges, isEui64Address r.firstIp = false
  | .deallocate _ => True
  | .updateAllocationPools pools => s.noPoolChanges pools = true ∨
    ∀ pool ∈ pools, ∀ a ∈ s.allocations, ¬ Between ⟨s.cidr.v6, pool.1⟩ ⟨s.cidr.v6, pool.2⟩ a

/-- The pools of an update are valid. -/
def Valid (s : IpamSubnet) : Action → Prop
  | .allocate _ | .deallocate _ => True
  | .updateAllocationPools pools => ValidPools s.cidr pools

/-- What was deallocated since the ranges were made, after an operation. -/
def recycledAfter (s : IpamSubnet) (recycled : List IPAddress) : Action → List IPAddress
  | .allocate (.specific _) => recycled
  | .allocate (.any _) => if s.ranges = [] then [] else recycled
  | .deallocate ip => ip :: recycled
  | .updateAllocationPools pools => if s.noPoolChanges pools then recycled else []

theorem Inv.candidates (h : s.Inv)
    (hlow : ∀ pool ∈ s.pools, pool.firstIp.v6 = true → 2 ^ 32 ≤ pool.firstIp.value) :
    s.candidates.Inv ∧ s.candidates.pools = s.pools ∧ s.candidates.cidr = s.cidr ∧ s.candidates.allocations = s.allocations := by
  rw [IpamSubnet.candidates]
  split
  case isTrue hempty => exact ⟨(h.rebuild hlow hempty).1, rfl, rfl, rfl⟩
  case isFalse => exact ⟨h, rfl, rfl, rfl⟩

/-- The allocation of an address whose ranges have been taken out. -/
theorem Inv.allocated (h : s.Inv) {rows : List IpamAvailabilityRange}
    (hrows : s.Without ip rows) : Inv { s with ranges := rows, allocations := ip :: s.allocations } := by
  refine ⟨h.pools.set _ _, hrows.inPool, hrows.disjoint, fun r hr a ha hhas => ?_⟩
  obtain ⟨⟨r', hr', hhas'⟩, hne⟩ := (hrows.mem a).mp ⟨r, hr, hhas⟩
  rcases mem_cons.mp ha with rfl | ha
  · exact hne rfl
  · exact h.free r' hr' a ha hhas'

variable {recycled : List IPAddress}

theorem Covers.allocated (h : s.Covers recycled)
    {rows : List IpamAvailabilityRange} (hrows : s.Without ip rows) :
    Covers { s with ranges := rows, allocations := ip :: s.allocations } recycled := by
  intro pool hpool a ha hnone
  by_cases heq : a = ip
  · exact Or.inl (by rw [heq]; exact mem_cons_self)
  · refine (h pool hpool a ha fun r hr hhas => ?_).imp_left (mem_cons_of_mem _)
    obtain ⟨r', hr', hhas'⟩ := (hrows.mem a).mpr ⟨⟨r, hr, hhas⟩, heq⟩
    exact hnone r' hr' hhas'

/-- **A specific allocation.** -/
theorem Inv.allocate_specific (h : s.Inv) (hsound : s.Sound (.allocate (.specific ip)))
    {s' : IpamSubnet} {a : IPAddress} (hok : s.allocate (.specific ip) = .ok (s', a)) : a = ip ∧ ip ∉ s.allocations ∧
      ∃ rows, s' = { s with ranges := rows, allocations := ip :: s.allocations } ∧ s.Without ip rows := by
  obtain ⟨rows, hrows, hwithout⟩ := h.allocateSpecificIp hsound.1 hsound.2 none false nofun nofun
  rw [allocate] at hok
  by_cases hin : ip ∈ s.allocations
  · rw [if_pos hin] at hok
    cases hok
  · rw [if_neg hin] at hok
    by_cases hcheck : (!checkSubnetIp s.cidr ip) = true
    · rw [if_pos hcheck] at hok
      cases hok
    · rw [if_neg hcheck, hrows] at hok
      have hcreate : createAllocation { s with ranges := rows } ip =
          .ok { s with ranges := rows, allocations := ip :: s.allocations } := if_neg hin
      dsimp only [bind, Except.bind, pure, Except.pure] at hok
      rw [hcreate] at hok
      cases hok
      exact ⟨rfl, hin, rows, rfl, hwithout⟩

/-- **An automatic allocation.** -/
theorem Inv.allocate_any (h : s.Inv) {row : ℕ} (hsound : s.Sound (.allocate (.any row))) :
    (s.candidates.ranges = [] ∧ s.allocate (.any row) = .error .ipAddressGenerationFailure) ∨
      ∃ ip rows, s.allocate (.any row) = .ok ({ s.candidates with ranges := rows, allocations := ip :: s.allocations }, ip) ∧
        s.candidates.Without ip rows ∧ ∃ r ∈ s.candidates.ranges, r.Has ip := by
  obtain ⟨hinv, hpools, -, hallocations⟩ := h.candidates hsound.1
  rcases s.generateIp_spec row with ⟨hempty, herror⟩ | ⟨r, hr, hgen⟩
  · refine Or.inl ⟨hempty, ?_⟩
    rw [allocate, herror]
    rfl
  · right
    obtain ⟨pool, hpool, hof⟩ := hinv.inPool r hr
    have hhas : r.Has r.firstIp := ⟨rfl, le_rfl, hof.le⟩
    have hnot : r.firstIp ∉ s.candidates.allocations := fun hin => hinv.free r hr _ hin hhas
    obtain ⟨rows, hrows, hwithout⟩ := hinv.allocateSpecificIp
      (by rw [hpools]; exact hsound.1) (fun heui => absurd (hsound.2 r hr) (by rw [heui]; nofun)) (some r.allocationPoolId) true
      (fun id hid => ⟨r, hr, Option.mem_some.mp hid, hhas⟩) fun _ => ⟨r, hr, hhas⟩
    refine ⟨r.firstIp, rows, ?_, hwithout, r, hr, hhas⟩
    have hcreate : createAllocation { s.candidates with ranges := rows } r.firstIp =
        .ok { s.candidates with ranges := rows, allocations := r.firstIp :: s.candidates.allocations } := if_neg hnot
    rw [allocate, hgen]
    dsimp only [bind, Except.bind, pure, Except.pure]
    rw [hrows]
    dsimp only
    rw [hcreate, hallocations]

/-! ## 5. Runs -/

/-- An address of a pool that is not allocated. -/
def Unallocated (s : IpamSubnet) (a : IPAddress) : Prop := (∃ pool ∈ s.pools, pool.Has a) ∧ a ∉ s.allocations

/-- An address of a range is not allocated. -/
theorem Inv.unallocated (h : s.Inv) {r : IpamAvailabilityRange} (hr : r ∈ s.ranges) {a : IPAddress} (ha : r.Has a) :
    s.Unallocated a := by
  obtain ⟨pool, hpool, hof⟩ := h.inPool r hr
  refine ⟨⟨pool, hpool, ?_, hof.low.trans ha.2.1, ha.2.2.trans hof.high⟩, fun hin => h.free r hr a hin ha⟩
  rw [(h.pools.version pool hpool).1, ha.1, hof.first]

/-- Nothing is left for an automatic allocation exactly when every address of every pool is allocated. -/
theorem Inv.candidates_nil_iff (h : s.Inv)
    (hlow : ∀ pool ∈ s.pools, pool.firstIp.v6 = true → 2 ^ 32 ≤ pool.firstIp.value) :
    s.candidates.ranges = [] ↔ ∀ a, ¬ s.Unallocated a := by
  obtain ⟨hinv, hpools, -, hallocations⟩ := h.candidates hlow
  constructor
  · intro hempty a ha
    by_cases hranges : s.ranges = []
    · rw [IpamSubnet.candidates, if_pos hranges] at hempty
      obtain ⟨r, hr, -⟩ := ((h.rebuild hlow hranges).2 a).mpr ha
      rw [hempty] at hr
      cases hr
    · rw [IpamSubnet.candidates, if_neg hranges] at hempty
      exact hranges hempty
  · intro hnone
    refine eq_nil_iff_forall_not_mem.mpr fun r hr => hnone r.firstIp ?_
    obtain ⟨pool, hpool, hof⟩ := hinv.inPool r hr
    have hun := hinv.unallocated hr (a := r.firstIp) ⟨rfl, le_rfl, hof.le⟩
    rw [Unallocated, hpools, hallocations] at hun
    exact hun

/-- After a rebuild nothing has been deallocated. -/
theorem Covers.candidates (h : s.Inv) (hcovers : s.Covers recycled)
    (hlow : ∀ pool ∈ s.pools, pool.firstIp.v6 = true → 2 ^ 32 ≤ pool.firstIp.value) :
    s.candidates.Covers (if s.ranges = [] then [] else recycled) := by
  rw [IpamSubnet.candidates]
  by_cases hempty : s.ranges = []
  · rw [if_pos hempty, if_pos hempty]
    intro pool hpool a ha hnone
    by_contra hnot
    obtain ⟨r, hr, hhas⟩ := ((h.rebuild hlow hempty).2 a).mpr ⟨⟨pool, hpool, ha⟩, fun hin => hnot (Or.inl hin)⟩
    exact hnone r hr hhas
  · rw [if_neg hempty, if_neg hempty]
    exact hcovers

/-- **What one operation keeps.** -/
theorem Inv.step {s s' : IpamSubnet} {a : Action} (h : s.Inv) (hcovers : s.Covers recycled)
    (hvalid : s.Valid a) (hsound : s.Sound a) (hstep : s.step a = some s') :
    s'.Inv ∧ s'.Covers (s.recycledAfter recycled a) := by
  cases a with
  | allocate request =>
    cases request with
    | specific ip =>
      rw [IpamSubnet.step] at hstep
      cases hok : s.allocate (.specific ip) with
      | error e =>
        rw [hok] at hstep
        cases hstep
      | ok r =>
        rw [hok] at hstep
        cases hstep
        obtain ⟨t, b⟩ := r
        obtain ⟨-, -, rows, heq, hwithout⟩ := h.allocate_specific hsound hok
        dsimp only
        rw [heq]
        exact ⟨h.allocated hwithout, hcovers.allocated hwithout⟩
    | any row =>
      obtain ⟨hinv, -, -, hallocations⟩ := h.candidates hsound.1
      rw [IpamSubnet.step] at hstep
      rcases h.allocate_any hsound with ⟨-, herror⟩ | ⟨ip, rows, hok, hwithout, -⟩
      · rw [herror] at hstep
        cases hstep
      · rw [hok, ← hallocations] at hstep
        cases hstep
        exact ⟨hinv.allocated hwithout, (Covers.candidates h hcovers hsound.1).allocated hwithout⟩
  | deallocate ip =>
    rw [IpamSubnet.step, deallocate] at hstep
    split at hstep
    case isTrue =>
      cases hstep
      refine ⟨⟨h.pools.set _ _, h.inPool, h.disjoint, fun r hr a ha => h.free r hr a (mem_of_mem_filter ha)⟩,
        fun pool hpool a ha hnone => ?_⟩
      rw [recycledAfter]
      by_cases heq : a = ip
      · exact Or.inr (by rw [heq]; exact mem_cons_self)
      · exact (hcovers pool hpool a ha hnone).imp (fun hin => mem_filter.mpr ⟨hin, decide_eq_true heq⟩)
          (mem_cons_of_mem _)
    case isFalse => cases hstep
  | updateAllocationPools pools =>
    cases hstep
    rw [updateAllocationPools, recycledAfter]
    by_cases hno : s.noPoolChanges pools = true
    · rw [if_pos hno, if_pos hno]
      exact ⟨h, hcovers⟩
    · rw [if_neg hno, if_neg hno]
      obtain ⟨hinv, hcov, -, -⟩ := createAllocationPools_spec (s := { s with pools := [], ranges := [] }) rfl rfl hvalid
        (hsound.resolve_left hno)
      exact ⟨hinv, hcov⟩

/-- A step and what was deallocated since the ranges were made. -/
def stepRecycled (s : IpamSubnet × List IPAddress) (a : Action) : Option (IpamSubnet × List IPAddress) :=
  (s.1.step a).map fun s' => (s', s.1.recycledAfter s.2 a)

theorem createFromSubnetRequest_inv {cidr : IPNetwork} {pools : List (ℕ × ℕ)} (hpools : ValidPools cidr pools) :
    (createFromSubnetRequest cidr pools).Inv ∧ (createFromSubnetRequest cidr pools).Covers [] := by
  obtain ⟨hinv, hcovers, -, -⟩ := createAllocationPools_spec (s := ⟨cidr, [], [], [], 0⟩) rfl rfl hpools fun _ _ _ h => nomatch h
  exact ⟨hinv, hcovers⟩

/-- **The ranges are disjoint, lie in their pools and hold no allocated address, and an automatic allocation takes an
address that is not allocated.** -/
theorem ranges_exact {cidr : IPNetwork} {pools : List (ℕ × ℕ)} (hpools : ValidPools cidr pools) {s : IpamSubnet}
    (h : Reach step (fun s a => s.Valid a ∧ s.Sound a) (createFromSubnetRequest cidr pools) s) :
    s.Inv ∧ ∀ row, s.Sound (.allocate (.any row)) → s.allocate (.any row) = .error .ipAddressGenerationFailure ∨
      ∃ s' ip, s.allocate (.any row) = .ok (s', ip) ∧ s.Unallocated ip := by
  have hinv : s.Inv ∧ ∃ recycled, s.Covers recycled := by
    refine h.invariant (I := fun s => s.Inv ∧ ∃ recycled, s.Covers recycled)
      ⟨(createFromSubnetRequest_inv hpools).1, [], (createFromSubnetRequest_inv hpools).2⟩ ?_
    rintro t a u ⟨ht, recycled, hcovers⟩ ⟨hvalid, hsound⟩ hstep
    obtain ⟨hu, hcovers'⟩ := ht.step hcovers hvalid hsound hstep
    exact ⟨hu, _, hcovers'⟩
  refine ⟨hinv.1, fun row hsound => ?_⟩
  rcases hinv.1.allocate_any hsound with ⟨-, herror⟩ | ⟨ip, rows, hok, -, r, hr, hhas⟩
  · exact Or.inl herror
  · obtain ⟨hcand, hp, -, ha⟩ := hinv.1.candidates hsound.1
    have hun := hcand.unallocated hr hhas
    rw [Unallocated, hp, ha] at hun
    exact Or.inr ⟨_, ip, hok, hun⟩

/-- Automatic allocations one after the other. -/
def allocateMany : IpamSubnet → List ℕ → Except IpamError (IpamSubnet × List IPAddress)
  | s, [] => .ok (s, [])
  | s, row :: rows => do
    let (s, ip) ← s.allocate (.any row)
    let (s, ips) ← allocateMany s rows
    return (s, ip :: ips)

/-- Each of them is one after which the ranges are as they should be. -/
def SoundAll : IpamSubnet → List ℕ → Prop
  | _, [] => True
  | s, row :: rows => s.Sound (.allocate (.any row)) ∧ ∀ s' ip, s.allocate (.any row) = .ok (s', ip) → SoundAll s' rows

theorem Inv.allocateMany (h : s.Inv) (rows : List ℕ) (hsound : s.SoundAll rows) (free : Finset IPAddress)
    (hfree : ∀ a ∈ free, s.Unallocated a) (hle : rows.length ≤ free.card) :
    ∃ s' ips, s.allocateMany rows = .ok (s', ips) ∧ ips.Nodup ∧ ips.length = rows.length ∧ ∀ ip ∈ ips, s.Unallocated ip := by
  induction rows generalizing s free with
  | nil => exact ⟨s, [], rfl, nodup_nil, rfl, nofun⟩
  | cons row rows ih =>
    obtain ⟨hfirst, hrest⟩ := hsound
    obtain ⟨hcand, hp, hc, ha⟩ := h.candidates hfirst.1
    rcases h.allocate_any hfirst with ⟨hempty, -⟩ | ⟨ip, ranges, hok, hwithout, r, hr, hhas⟩
    · obtain ⟨a, hmem⟩ := Finset.card_pos.mp (lt_of_lt_of_le (Nat.succ_pos _) hle)
      exact absurd (hfree a hmem) ((h.candidates_nil_iff hfirst.1).mp hempty a)
    · have hun := hcand.unallocated hr hhas
      rw [Unallocated, hp, ha] at hun
      have hnext := hcand.allocated hwithout
      rw [ha] at hnext
      have hafter : ∀ a, Unallocated { s.candidates with ranges := ranges, allocations := ip :: s.allocations } a ↔
          s.Unallocated a ∧ a ≠ ip := fun a => by
        rw [Unallocated, Unallocated]
        dsimp only
        rw [hp, mem_cons, not_or]
        tauto
      obtain ⟨s', ips, hmany, hnodup, hlen, hall⟩ := ih hnext (hrest _ _ hok) (free.erase ip)
        (fun a hmem => (hafter a).mpr ⟨hfree a (Finset.mem_of_mem_erase hmem), Finset.ne_of_mem_erase hmem⟩)
        (by
          have := Finset.pred_card_le_card_erase (s := free) (a := ip)
          rw [length_cons] at hle
          omega)
      refine ⟨s', ip :: ips, ?_, nodup_cons.mpr ⟨fun hin => ((hafter ip).mp (hall ip hin)).2 rfl, hnodup⟩, ?_, ?_⟩
      · rw [IpamSubnet.allocateMany, hok]
        dsimp only [bind, Except.bind]
        rw [hmany]
        rfl
      · rw [length_cons, length_cons, hlen]
      · intro a hmem
        rcases mem_cons.mp hmem with rfl | hmem
        · exact hun
        · exact ((hafter a).mp (hall a hmem)).1

/-- **No address is wasted.** -/
theorem nothing_wasted {cidr : IPNetwork} {pools : List (ℕ × ℕ)} (hpools : ValidPools cidr pools) {s : IpamSubnet}
    {recycled : List IPAddress} (h : Reach stepRecycled (fun s a => s.1.Valid a ∧ s.1.Sound a)
      (createFromSubnetRequest cidr pools, []) (s, recycled)) :
    s.Covers recycled ∧
      (∀ row, s.Sound (.allocate (.any row)) →
        (s.allocate (.any row) = .error .ipAddressGenerationFailure ↔ ∀ a, ¬ s.Unallocated a)) ∧
      ∀ rows, s.SoundAll rows → ∀ free : Finset IPAddress, (∀ a ∈ free, s.Unallocated a) → rows.length ≤ free.card →
        ∃ s' ips, s.allocateMany rows = .ok (s', ips) ∧ ips.Nodup ∧ ips.length = rows.length ∧ ∀ ip ∈ ips, s.Unallocated ip := by
  obtain ⟨hinv, hcovers⟩ : s.Inv ∧ s.Covers recycled := by
    refine h.invariant (I := fun t => t.1.Inv ∧ t.1.Covers t.2) (createFromSubnetRequest_inv hpools) ?_
    rintro ⟨t, d⟩ a ⟨u, d'⟩ ⟨ht, hd⟩ ⟨hvalid, hsound⟩ hstep
    obtain ⟨u', hu, heq⟩ := Option.map_eq_some_iff.mp hstep
    cases heq
    exact ht.step hd hvalid hsound hu
  refine ⟨hcovers, fun row hsound => ?_, fun rows hsound free hfree hle => hinv.allocateMany rows hsound free hfree hle⟩
  rw [← hinv.candidates_nil_iff hsound.1]
  rcases hinv.allocate_any hsound with ⟨hempty, herror⟩ | ⟨ip, ranges, hok, -, r, hr, -⟩
  · exact iff_of_true herror hempty
  · refine iff_of_false (fun herror => ?_) fun hempty => ?_
    · rw [hok] at herror
      cases herror
    · rw [hempty] at hr
      cases hr

/-- 10.0.0.0/24 -/
def cidr24 : IPNetwork := ⟨false, 0x0A000000, 0xFFFFFF00, 0x0A0000FF⟩

/-- From 10.0.0.2 to 10.0.0.3. -/
def twoAddresses : List (ℕ × ℕ) := [(0x0A000002, 0x0A000003)]

theorem validPools_twoAddresses : ValidPools cidr24 twoAddresses :=
  ⟨by decide, by decide, pairwise_singleton _ _⟩

/-- The state after an automatic allocation. -/
def oneAllocated : IpamSubnet :=
  ⟨cidr24, [⟨0, ⟨false, 0x0A000002⟩, ⟨false, 0x0A000003⟩⟩], [⟨0, ⟨false, 0x0A000003⟩, ⟨false, 0x0A000003⟩⟩],
    [⟨false, 0x0A000002⟩], 1⟩

theorem step_twoAddresses : (createFromSubnetRequest cidr24 twoAddresses).step (.allocate (.any 0)) = some oneAllocated := by decide

theorem valid_twoAddresses : (createFromSubnetRequest cidr24 twoAddresses).Valid (.allocate (.any 0)) := trivial

theorem sound_twoAddresses : (createFromSubnetRequest cidr24 twoAddresses).Sound (.allocate (.any 0)) :=
  ⟨by decide, by decide⟩

theorem ranges_exact_twoAddresses : oneAllocated.Inv ∧ ∀ row, oneAllocated.Sound (.allocate (.any row)) →
    oneAllocated.allocate (.any row) = .error .ipAddressGenerationFailure ∨
      ∃ s' ip, oneAllocated.allocate (.any row) = .ok (s', ip) ∧ oneAllocated.Unallocated ip :=
  ranges_exact validPools_twoAddresses (.tail .refl ⟨valid_twoAddresses, sound_twoAddresses⟩ step_twoAddresses)

theorem nothing_wasted_twoAddresses : oneAllocated.Covers [] ∧
    (∀ row, oneAllocated.Sound (.allocate (.any row)) →
      (oneAllocated.allocate (.any row) = .error .ipAddressGenerationFailure ↔ ∀ a, ¬ oneAllocated.Unallocated a)) ∧
    ∀ rows, oneAllocated.SoundAll rows → ∀ free : Finset IPAddress, (∀ a ∈ free, oneAllocated.Unallocated a) →
      rows.length ≤ free.card → ∃ s' ips, oneAllocated.allocateMany rows = .ok (s', ips) ∧ ips.Nodup ∧
        ips.length = rows.length ∧ ∀ ip ∈ ips, oneAllocated.Unallocated ip :=
  nothing_wasted validPools_twoAddresses (.tail .refl ⟨valid_twoAddresses, sound_twoAddresses⟩
    (by rw [stepRecycled, step_twoAddresses]; rfl))

/-- An update of the pools makes a full range beside the allocation. -/
theorem allocated_in_range : ∃ s, Reach step (fun s a => s.Valid a) (createFromSubnetRequest cidr24 twoAddresses) s ∧
    ∃ r ∈ s.ranges, ∃ a ∈ s.allocations, r.Has a := by
  have hvalid : ValidPools cidr24 [(0x0A000002, 0x0A00000A)] := ⟨by decide, by decide, pairwise_singleton _ _⟩
  refine ⟨_, .tail (.tail .refl valid_twoAddresses step_twoAddresses) (a := .updateAllocationPools [(0x0A000002, 0x0A00000A)]) hvalid rfl, ?_⟩
  decide

/-- The one address of the pools is allocated, and the failure is another one. -/
theorem exhausted_not_reported : ∃ s, Reach step (fun s a => s.Valid a) (createFromSubnetRequest cidr24 twoAddresses) s ∧
    (∀ a, ¬ s.Unallocated a) ∧ s.allocate (.any 0) = .error .dbDuplicateEntry := by
  have hvalid : ValidPools cidr24 [(0x0A000002, 0x0A000002)] := ⟨by decide, by decide, pairwise_singleton _ _⟩
  refine ⟨_, .tail (.tail .refl valid_twoAddresses step_twoAddresses) (a := .updateAllocationPools [(0x0A000002, 0x0A000002)]) hvalid rfl,
    ?_, by decide⟩
  rintro ⟨v, x⟩ ⟨⟨pool, hpool, hv, hlo, hhi⟩, hnot⟩
  cases mem_singleton.mp (show pool ∈ [_] from hpool)
  dsimp only at hv hlo hhi
  obtain rfl : v = false := hv
  obtain rfl : x = 0x0A000002 := Nat.le_antisymm hhi hlo
  exact hnot (by decide)

end IpamSubnet

end Mitaka.Neutron
