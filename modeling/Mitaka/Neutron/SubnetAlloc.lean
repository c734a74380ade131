/-
  Subject: The allocator of subnets from a subnet pool (neutron/ipam/subnet_alloc.py).

  `Netaddr` is what the allocator calls of netaddr: the CIDRs of a compacted set
  difference, and the CIDRs of a list that match an address. `Netaddr.Exact` says that
  they are exact. `allocateSubnet` decides a request on the stored subnets that the
  transaction has read:
  * an any-request fails for lack of space iff no block of its prefix length inside the
    prefixes is free (`lacksSpace_any_iff`);
  * a specific request fails for lack of space iff its CIDR is not inside the prefixes
    or meets a stored subnet (`lacksSpace_specific_iff`);
  * what is allocated is inside the prefixes and free (`allocateSubnet_ok`).
-/
import Mitaka.Lib.Dyadic

namespace Mitaka.Neutron.SubnetAlloc

open List

/-! ## 1. Networks -/

/-- `netaddr.IPNetwork` for addresses of `w` bits. -/
structure IPNetwork (w : ℕ) where
  value : ℕ
  prefixlen : ℕ
  value_lt : value < 2 ^ w
  prefixlen_le : prefixlen ≤ w
  deriving DecidableEq, Repr

namespace IPNetwork

variable {w : ℕ}

def block (n : IPNetwork w) : Block := ⟨w - n.prefixlen, n.value / 2 ^ (w - n.prefixlen)⟩

/-- The address is in the network. -/
def Has (n : IPNetwork w) (a : ℕ) : Prop := n.block.Has a

instance (n : IPNetwork w) (a : ℕ) : Decidable (n.Has a) := inferInstanceAs (Decidable (n.block.Has a))

/-- The first address. -/
def first (n : IPNetwork w) : ℕ := n.value / 2 ^ (w - n.prefixlen) * 2 ^ (w - n.prefixlen)

theorem first_le (n : IPNetwork w) : n.first ≤ n.value := Nat.div_mul_le_self _ _

theorem has_value (n : IPNetwork w) : n.Has n.value := rfl

theorem has_first (n : IPNetwork w) : n.Has n.first := n.block.has_first

/-- `next(prefix.subnet(prefixlen))` -/
def subnet (n : IPNetwork w) (prefixlen : ℕ) (h : prefixlen ≤ w) : IPNetwork w :=
  ⟨n.first, prefixlen, lt_of_le_of_lt n.first_le n.value_lt, h⟩

theorem level_le {n m : IPNetwork w} (h : m.prefixlen ≤ n.prefixlen) : n.block.level ≤ m.block.level :=
  Nat.sub_le_sub_left h _

theorem prefixlen_le_of_level {n m : IPNetwork w} (h : n.block.level ≤ m.block.level) : m.prefixlen ≤ n.prefixlen := by
  have := n.prefixlen_le
  have := m.prefixlen_le
  rw [block, block] at h
  dsimp only at h
  omega

/-- A network that holds an address of a longer prefix holds all its addresses. -/
theorem Has.nested {n m : IPNetwork w} {a : ℕ} (hn : n.Has a) (hm : m.Has a) (hle : m.prefixlen ≤ n.prefixlen) {x : ℕ}
    (hx : n.Has x) : m.Has x := Block.Has.nested hn hm (level_le hle) hx

end IPNetwork

/-- What the allocator calls of netaddr. -/
structure Netaddr (w : ℕ) where
  /-- `IPSet(prefixes).difference(IPSet(allocations))`, compacted, `iter_cidrs()` -/
  differenceCidrs : List (IPNetwork w) → List (IPNetwork w) → List (IPNetwork w)
  allMatchingCidrs : IPNetwork w → List (IPNetwork w) → List (IPNetwork w)

variable {w : ℕ}

/-- The address is in a network of the list. -/
def Covers (l : List (IPNetwork w)) (a : ℕ) : Prop := ∃ n ∈ l, n.Has a

theorem IPNetwork.Has.lt {n : IPNetwork w} {a : ℕ} (h : n.Has a) : a < 2 ^ w := by
  have hlt := n.value_lt
  have hpow : 2 ^ n.prefixlen * 2 ^ (w - n.prefixlen) = 2 ^ w := by
    rw [← Nat.pow_add, Nat.add_sub_cancel' n.prefixlen_le]
  rw [← hpow, ← Nat.div_lt_iff_lt_mul (Nat.two_pow_pos _)] at hlt ⊢
  exact lt_of_eq_of_lt h hlt

theorem Covers.lt {l : List (IPNetwork w)} {a : ℕ} (h : Covers l a) : a < 2 ^ w :=
  h.elim fun _ h => h.2.lt

/-- Set difference, compaction and containment are exact. -/
structure Netaddr.Exact (net : Netaddr w) : Prop where
  difference : ∀ prefixes allocations a,
    Covers (net.differenceCidrs prefixes allocations) a ↔ Covers prefixes a ∧ ¬ Covers allocations a
  disjoint : ∀ prefixes allocations,
    (net.differenceCidrs prefixes allocations).Pairwise fun n m => ∀ a, n.Has a → ¬ m.Has a
  compact : ∀ prefixes allocations, Block.Compact ((net.differenceCidrs prefixes allocations).map IPNetwork.block)
  matching : ∀ n l, (net.allMatchingCidrs n l).Perm (l.filter fun m => m.Has n.value)

/-! ## 2. The allocator -/

/-- A row of the table of subnets. -/
structure Subnet (w : ℕ) (Tenant : Type) where
  id : ℕ
  tenantId : Tenant
  cidr : IPNetwork w

/-- The pool, without its hash. -/
structure SubnetPool (w : ℕ) (Tenant : Type) where
  tenantId : Tenant
  ipVersion : ℕ
  prefixes : List (IPNetwork w)
  minPrefixlen : ℕ
  maxPrefixlen : ℕ
  defaultQuota : Option ℕ

inductive SubnetRequest (w : ℕ) (Tenant : Type)
  | any (tenantId : Tenant) (subnetId : ℕ) (prefixlen : ℕ) (le : prefixlen ≤ w)
  | specific (tenantId : Tenant) (subnetId : ℕ) (subnetCidr : IPNetwork w)

namespace SubnetRequest

variable {Tenant : Type}

def tenantId : SubnetRequest w Tenant → Tenant
  | any tenantId .. => tenantId
  | specific tenantId .. => tenantId

def prefixlen : SubnetRequest w Tenant → ℕ
  | any _ _ prefixlen _ => prefixlen
  | specific _ _ subnetCidr => subnetCidr.prefixlen

end SubnetRequest

inductive Error
  | maxPrefixSubnetAllocationError (prefixlen maxPrefixlen : ℕ)
  | minPrefixSubnetAllocationError (prefixlen minPrefixlen : ℕ)
  | subnetPoolQuotaExceeded
  | subnetAllocationError (reason : String)
  deriving DecidableEq, Repr

/-- `_PREFIX_VERSION_INFO[ip_version]['quota_units']` -/
def ipVersionSubnetpoolQuotaUnit (ipVersion : ℕ) : ℤ := if ipVersion = 4 then 32 else 64

-- `Q` and `pow2` are Python's floats and `math.pow(2, ·)`
variable {Tenant : Type} [DecidableEq Tenant] {Q : Type} [Zero Q] [Add Q] [NatCast Q] [LT Q] [DecidableLT Q]
  (pow2 : ℤ → Q) (net : Netaddr w) (subnetpool : SubnetPool w Tenant)

def numQuotaUnitsInPrefixlen (prefixlen : ℕ) (quotaUnit : ℤ) : Q := pow2 (quotaUnit - prefixlen)

/-- The units of the subnets of the pool's tenant. -/
def allocationsUsedByTenant (subnets : List (Subnet w Tenant)) (quotaUnit : ℤ) : Q :=
  (subnets.filter fun s => s.tenantId = subnetpool.tenantId).foldl
    (fun value s => value + numQuotaUnitsInPrefixlen pow2 s.cidr.prefixlen quotaUnit) 0

def checkSubnetpoolTenantQuota (subnets : List (Subnet w Tenant)) (prefixlen : ℕ) : Except Error Unit :=
  let quotaUnit := ipVersionSubnetpoolQuotaUnit subnetpool.ipVersion
  match subnetpool.defaultQuota with
  | none | some 0 => .ok ()
  | some quota =>
    if (quota : Q) < allocationsUsedByTenant pow2 subnetpool subnets quotaUnit +
        numQuotaUnitsInPrefixlen pow2 prefixlen quotaUnit then .error .subnetPoolQuotaExceeded
    else .ok ()

/-- The free CIDRs, the smallest first. -/
def getAvailablePrefixList (subnets : List (Subnet w Tenant)) : List (IPNetwork w) :=
  (net.differenceCidrs subnetpool.prefixes (subnets.map Subnet.cidr)).mergeSort
    fun n m => decide (m.prefixlen ≤ n.prefixlen)

def insufficientPrefixSpace (prefixlen : ℕ) : Error :=
  .subnetAllocationError s!"Insufficient prefix space to allocate subnet size /{prefixlen}"

def cannotAllocate : Error :=
  .subnetAllocationError "Cannot allocate requested subnet from the available set of prefixes"

def allocateAnySubnet (subnets : List (Subnet w Tenant)) (prefixlen : ℕ) (h : prefixlen ≤ w) :
    Except Error (IPNetwork w) := do
  checkSubnetpoolTenantQuota pow2 subnetpool subnets prefixlen
  match (getAvailablePrefixList net subnetpool subnets).find? fun n => n.prefixlen ≤ prefixlen with
  | some n => .ok (n.subnet prefixlen h)
  | none => .error (insufficientPrefixSpace prefixlen)

def allocateSpecificSubnet (subnets : List (Subnet w Tenant)) (cidr : IPNetwork w) : Except Error (IPNetwork w) := do
  checkSubnetpoolTenantQuota pow2 subnetpool subnets cidr.prefixlen
  match net.allMatchingCidrs cidr (getAvailablePrefixList net subnetpool subnets) with
  | [n] => if n.prefixlen ≤ cidr.prefixlen then .ok cidr else .error cannotAllocate
  | _ => .error cannotAllocate

def allocateSubnet (subnets : List (Subnet w Tenant)) (request : SubnetRequest w Tenant) : Except Error (Subnet w Tenant) := do
  if subnetpool.maxPrefixlen < request.prefixlen then
    .error (.maxPrefixSubnetAllocationError request.prefixlen subnetpool.maxPrefixlen)
  else if request.prefixlen < subnetpool.minPrefixlen then
    .error (.minPrefixSubnetAllocationError request.prefixlen subnetpool.minPrefixlen)
  else match request with
    | .any tenantId subnetId prefixlen h => do
      let cidr ← allocateAnySubnet pow2 net subnetpool subnets prefixlen h
      .ok ⟨subnetId, tenantId, cidr⟩
    | .specific tenantId subnetId subnetCidr => do
      let cidr ← allocateSpecificSubnet pow2 net subnetpool subnets subnetCidr
      .ok ⟨subnetId, tenantId, cidr⟩

/-! ## 3. Space -/

/-- The network lies inside the prefixes and meets no stored subnet. -/
structure Free (prefixes : List (IPNetwork w)) (subnets : List (Subnet w Tenant)) (n : IPNetwork w) : Prop where
  inside : ∀ a, n.Has a → Covers prefixes a
  disjoint : ∀ s ∈ subnets, ∀ a, n.Has a → ¬ s.cidr.Has a

/-- The request passes the checks made before space is looked for. -/
structure Admitted (subnets : List (Subnet w Tenant)) (prefixlen : ℕ) : Prop where
  max : prefixlen ≤ subnetpool.maxPrefixlen
  min : subnetpool.minPrefixlen ≤ prefixlen
  quota : checkSubnetpoolTenantQuota pow2 subnetpool subnets prefixlen = .ok ()

variable {pow2 net subnetpool}

omit [DecidableEq Tenant] in
theorem mem_getAvailablePrefixList {subnets : List (Subnet w Tenant)} {n : IPNetwork w} :
    n ∈ getAvailablePrefixList net subnetpool subnets ↔
      n ∈ net.differenceCidrs subnetpool.prefixes (subnets.map Subnet.cidr) := mem_mergeSort

omit [DecidableEq Tenant] in
theorem covers_cidrs {subnets : List (Subnet w Tenant)} {a : ℕ} :
    Covers (subnets.map Subnet.cidr) a ↔ ∃ s ∈ subnets, s.cidr.Has a :=
  ⟨fun ⟨_, hn, ha⟩ => by
    obtain ⟨s, hs, rfl⟩ := List.mem_map.mp hn
    exact ⟨s, hs, ha⟩, fun ⟨s, hs, ha⟩ => ⟨s.cidr, List.mem_map_of_mem hs, ha⟩⟩

omit [DecidableEq Tenant] in
theorem Free.iff_covers (hnet : net.Exact) {subnets : List (Subnet w Tenant)} {n : IPNetwork w} :
    Free subnetpool.prefixes subnets n ↔ ∀ a, n.Has a → Covers (getAvailablePrefixList net subnetpool subnets) a := by
  have hcov : ∀ a, Covers (getAvailablePrefixList net subnetpool subnets) a ↔
      Covers subnetpool.prefixes a ∧ ¬ ∃ s ∈ subnets, s.cidr.Has a := fun a => by
    rw [← covers_cidrs, ← hnet.difference]
    exact exists_congr fun n => and_congr_left' mem_getAvailablePrefixList
  constructor
  · intro h a ha
    exact (hcov a).mpr ⟨h.inside a ha, fun ⟨s, hs, has⟩ => h.disjoint s hs a ha has⟩
  · intro h
    exact ⟨fun a ha => ((hcov a).mp (h a ha)).1, fun s hs a ha has => ((hcov a).mp (h a ha)).2 ⟨s, hs, has⟩⟩

omit [DecidableEq Tenant] in
/-- **A network is free iff an available prefix holds it.** -/
theorem Free.iff_exists (hnet : net.Exact) {subnets : List (Subnet w Tenant)} {n : IPNetwork w} :
    Free subnetpool.prefixes subnets n ↔
      ∃ m ∈ getAvailablePrefixList net subnetpool subnets, m.prefixlen ≤ n.prefixlen ∧ m.Has n.value := by
  rw [Free.iff_covers hnet]
  constructor
  · intro h
    obtain ⟨b, hb, hle, hhas⟩ := (hnet.compact subnetpool.prefixes (subnets.map Subnet.cidr)).exists_covers n.block
      fun a ha => by
        obtain ⟨m, hm, hma⟩ := h a ha
        exact ⟨m.block, List.mem_map_of_mem (mem_getAvailablePrefixList.mp hm), hma⟩
    obtain ⟨m, hm, rfl⟩ := List.mem_map.mp hb
    exact ⟨m, mem_getAvailablePrefixList.mpr hm, IPNetwork.prefixlen_le_of_level hle, hhas _ n.has_value⟩
  · rintro ⟨m, hm, hle, hhas⟩ a ha
    exact ⟨m, hm, n.has_value.nested hhas hle ha⟩

omit [DecidableEq Tenant] in
variable (subnetpool) in
/-- The available prefixes that match are the one that holds the address, if there is one. -/
theorem matching_eq (hnet : net.Exact) (subnets : List (Subnet w Tenant)) (cidr : IPNetwork w) :
    (net.allMatchingCidrs cidr (getAvailablePrefixList net subnetpool subnets) = [] ∧
      ∀ n ∈ getAvailablePrefixList net subnetpool subnets, ¬ n.Has cidr.value) ∨
    ∃ n ∈ getAvailablePrefixList net subnetpool subnets, n.Has cidr.value ∧
      net.allMatchingCidrs cidr (getAvailablePrefixList net subnetpool subnets) = [n] ∧
      ∀ m ∈ getAvailablePrefixList net subnetpool subnets, m.Has cidr.value → m = n := by
  have hperm := hnet.matching cidr (getAvailablePrefixList net subnetpool subnets)
  have hdisjoint : (getAvailablePrefixList net subnetpool subnets).Pairwise fun n m => ∀ a, n.Has a → ¬ m.Has a :=
    (hnet.disjoint subnetpool.prefixes (subnets.map Subnet.cidr)).perm (mergeSort_perm _ _).symm
      fun h a ha hb => h a hb ha
  generalize getAvailablePrefixList net subnetpool subnets = available at hperm hdisjoint ⊢
  cases hmatched : available.filter (fun m => m.Has cidr.value) with
  | nil =>
    rw [hmatched] at hperm
    refine .inl ⟨hperm.eq_nil, fun n hn hhas => ?_⟩
    exact absurd (mem_filter.mpr ⟨hn, decide_eq_true hhas⟩) (hmatched ▸ not_mem_nil)
  | cons n rest =>
    have hmem : ∀ m ∈ n :: rest, m ∈ available ∧ m.Has cidr.value := fun m hm =>
      (mem_filter.mp (hmatched ▸ hm)).imp_right of_decide_eq_true
    have hpair := hdisjoint.filter fun m => decide (m.Has cidr.value)
    rw [hmatched] at hpair
    have hrest : rest = [] := eq_nil_iff_forall_not_mem.mpr fun m hm =>
      (pairwise_cons.mp hpair).1 m hm _ (hmem n mem_cons_self).2 (hmem m (mem_cons_of_mem _ hm)).2
    subst hrest
    rw [hmatched] at hperm
    refine .inr ⟨n, (hmem n mem_cons_self).1, (hmem n mem_cons_self).2, perm_singleton.mp hperm,
      fun m hm hhas => ?_⟩
    have hin : m ∈ available.filter fun m => m.Has cidr.value := mem_filter.mpr ⟨hm, decide_eq_true hhas⟩
    rw [hmatched] at hin
    exact mem_singleton.mp hin

/-- The outcome of an any-request that passes the checks. -/
theorem Admitted.allocateSubnet_any {subnets : List (Subnet w Tenant)} {prefixlen : ℕ}
    (ha : Admitted pow2 subnetpool subnets prefixlen) (tenantId : Tenant) (subnetId : ℕ) (h : prefixlen ≤ w) :
    allocateSubnet pow2 net subnetpool subnets (.any tenantId subnetId prefixlen h) =
      match (getAvailablePrefixList net subnetpool subnets).find? fun n => n.prefixlen ≤ prefixlen with
      | some n => .ok ⟨subnetId, tenantId, n.subnet prefixlen h⟩
      | none => .error (insufficientPrefixSpace prefixlen) := by
  rw [allocateSubnet, SubnetRequest.prefixlen, if_neg (Nat.not_lt.mpr ha.max), if_neg (Nat.not_lt.mpr ha.min),
    allocateAnySubnet, ha.quota]
  cases (getAvailablePrefixList net subnetpool subnets).find? fun n => n.prefixlen ≤ prefixlen <;> rfl

/-- The outcome of a specific request that passes the checks. -/
theorem Admitted.allocateSubnet_specific (hnet : net.Exact) {subnets : List (Subnet w Tenant)} {cidr : IPNetwork w}
    (ha : Admitted pow2 subnetpool subnets cidr.prefixlen) (tenantId : Tenant) (subnetId : ℕ) :
    (Free subnetpool.prefixes subnets cidr ∧
      allocateSubnet pow2 net subnetpool subnets (.specific tenantId subnetId cidr) = .ok ⟨subnetId, tenantId, cidr⟩) ∨
    (¬ Free subnetpool.prefixes subnets cidr ∧
      allocateSubnet pow2 net subnetpool subnets (.specific tenantId subnetId cidr) = .error cannotAllocate) := by
  rw [allocateSubnet, SubnetRequest.prefixlen, if_neg (Nat.not_lt.mpr ha.max), if_neg (Nat.not_lt.mpr ha.min),
    allocateSpecificSubnet, ha.quota, Free.iff_exists hnet]
  rcases matching_eq subnetpool hnet subnets cidr with ⟨hnil, hnone⟩ | ⟨n, hn, hhas, heq, huniq⟩
  · refine .inr ⟨fun ⟨m, hm, _, hhas⟩ => hnone m hm hhas, ?_⟩
    rw [hnil]
    rfl
  · rw [heq]
    by_cases hle : n.prefixlen ≤ cidr.prefixlen
    · refine .inl ⟨⟨n, hn, hle, hhas⟩, ?_⟩
      dsimp only [bind, Except.bind]
      rw [if_pos hle]
    · -- the one prefix that holds the address is too long
      refine .inr ⟨fun ⟨m, hm, hle', hhas'⟩ => hle (huniq m hm hhas' ▸ hle'), ?_⟩
      dsimp only [bind, Except.bind]
      rw [if_neg hle]

/-- The request is refused for lack of space. -/
def LacksSpace (r : Except Error (Subnet w Tenant)) : Prop := ∃ reason, r = .error (.subnetAllocationError reason)

theorem checkSubnetpoolTenantQuota_cases (subnets : List (Subnet w Tenant)) (prefixlen : ℕ) :
    checkSubnetpoolTenantQuota pow2 subnetpool subnets prefixlen = .ok () ∨
      checkSubnetpoolTenantQuota pow2 subnetpool subnets prefixlen = .error .subnetPoolQuotaExceeded := by
  unfold checkSubnetpoolTenantQuota
  dsimp only
  split
  · exact .inl rfl
  · exact .inl rfl
  · split
    · exact .inr rfl
    · exact .inl rfl

variable (net) in
/-- A request that does not pass the checks is refused, and not for lack of space. -/
theorem allocateSubnet_of_not_admitted {subnets : List (Subnet w Tenant)} {request : SubnetRequest w Tenant}
    (h : ¬ Admitted pow2 subnetpool subnets request.prefixlen) :
    ∃ e, allocateSubnet pow2 net subnetpool subnets request = .error e ∧ ∀ reason, e ≠ .subnetAllocationError reason := by
  unfold allocateSubnet
  split
  · exact ⟨_, rfl, nofun⟩
  next hmax =>
  split
  · exact ⟨_, rfl, nofun⟩
  next hmin =>
  have hquota : checkSubnetpoolTenantQuota pow2 subnetpool subnets request.prefixlen = .error .subnetPoolQuotaExceeded :=
    (checkSubnetpoolTenantQuota_cases subnets request.prefixlen).resolve_left fun hok =>
      h ⟨Nat.not_lt.mp hmax, Nat.not_lt.mp hmin, hok⟩
  refine ⟨.subnetPoolQuotaExceeded, ?_, nofun⟩
  cases request with
  | any =>
    dsimp only
    rw [SubnetRequest.prefixlen] at hquota
    rw [allocateAnySubnet, hquota]
    rfl
  | specific =>
    dsimp only
    rw [SubnetRequest.prefixlen] at hquota
    rw [allocateSpecificSubnet, hquota]
    rfl

theorem LacksSpace.admitted {subnets : List (Subnet w Tenant)} {request : SubnetRequest w Tenant}
    (h : LacksSpace (allocateSubnet pow2 net subnetpool subnets request)) :
    Admitted pow2 subnetpool subnets request.prefixlen := by
  by_contra hna
  obtain ⟨reason, h⟩ := h
  obtain ⟨e, he, hne⟩ := allocateSubnet_of_not_admitted net hna
  rw [he] at h
  exact hne reason (Except.error.inj h)

/-- **An any-request lacks space iff no block of its prefix length is free.** -/
theorem lacksSpace_any_iff (hnet : net.Exact) {subnets : List (Subnet w Tenant)} {tenantId : Tenant} {subnetId prefixlen : ℕ}
    {h : prefixlen ≤ w} :
    LacksSpace (allocateSubnet pow2 net subnetpool subnets (.any tenantId subnetId prefixlen h)) ↔
      Admitted pow2 subnetpool subnets prefixlen ∧
        ¬ ∃ n : IPNetwork w, n.prefixlen = prefixlen ∧ Free subnetpool.prefixes subnets n := by
  refine ⟨fun hl => ⟨hl.admitted, ?_⟩, fun ⟨ha, hno⟩ => ?_⟩
  · rintro ⟨n, rfl, hfree⟩
    obtain ⟨m, hm, hle, -⟩ := (Free.iff_exists hnet).mp hfree
    have ha : Admitted pow2 subnetpool subnets n.prefixlen := hl.admitted
    obtain ⟨reason, hreason⟩ := hl
    rw [ha.allocateSubnet_any] at hreason
    have hsome : ((getAvailablePrefixList net subnetpool subnets).find? fun m => m.prefixlen ≤ n.prefixlen).isSome :=
      find?_isSome.mpr ⟨m, hm, decide_eq_true hle⟩
    obtain ⟨m', hm'⟩ := Option.isSome_iff_exists.mp hsome
    rw [hm'] at hreason
    cases hreason
  · rw [ha.allocateSubnet_any]
    split
    next n hn =>
      have hle := find?_some hn
      exact absurd ⟨n.subnet prefixlen h, rfl, (Free.iff_exists hnet).mpr
        ⟨n, mem_of_find?_eq_some hn, of_decide_eq_true hle, n.has_first⟩⟩ hno
    next => exact ⟨_, rfl⟩

/-- **A specific request lacks space iff its CIDR is not free.** -/
theorem lacksSpace_specific_iff (hnet : net.Exact) {subnets : List (Subnet w Tenant)} {tenantId : Tenant} {subnetId : ℕ}
    {cidr : IPNetwork w} :
    LacksSpace (allocateSubnet pow2 net subnetpool subnets (.specific tenantId subnetId cidr)) ↔
      Admitted pow2 subnetpool subnets cidr.prefixlen ∧ ¬ Free subnetpool.prefixes subnets cidr := by
  constructor
  · intro hl
    refine ⟨hl.admitted, fun hfree => ?_⟩
    rcases Admitted.allocateSubnet_specific hnet hl.admitted tenantId subnetId with ⟨-, hok⟩ | ⟨hno, -⟩
    · obtain ⟨reason, hreason⟩ := hl
      rw [hok] at hreason
      cases hreason
    · exact hno hfree
  · rintro ⟨ha, hno⟩
    rcases ha.allocateSubnet_specific hnet tenantId subnetId with ⟨hfree, -⟩ | ⟨-, herror⟩
    · exact absurd hfree hno
    · exact ⟨_, herror⟩

/-- **What is allocated is free**, and of the length asked for. -/
theorem allocateSubnet_ok (hnet : net.Exact) {subnets : List (Subnet w Tenant)} {request : SubnetRequest w Tenant}
    {row : Subnet w Tenant} (h : allocateSubnet pow2 net subnetpool subnets request = .ok row) :
    Free subnetpool.prefixes subnets row.cidr ∧ row.cidr.prefixlen = request.prefixlen := by
  have ha : Admitted pow2 subnetpool subnets request.prefixlen := by
    by_contra hna
    obtain ⟨e, he, -⟩ := allocateSubnet_of_not_admitted net hna
    rw [he] at h
    cases h
  cases request with
  | any tenantId subnetId prefixlen hle =>
    have ha : Admitted pow2 subnetpool subnets prefixlen := ha
    rw [ha.allocateSubnet_any] at h
    split at h
    next n hn =>
      cases h
      have hlen := find?_some hn
      exact ⟨(Free.iff_exists hnet).mpr ⟨n, mem_of_find?_eq_some hn, of_decide_eq_true hlen, n.has_first⟩, rfl⟩
    next => cases h
  | specific tenantId subnetId cidr =>
    rcases Admitted.allocateSubnet_specific hnet ha tenantId subnetId with ⟨hfree, hok⟩ | ⟨-, herror⟩
    · rw [hok] at h
      cases h
      exact ⟨hfree, rfl⟩
    · rw [herror] at h
      cases h

/-! ## 4. An exact netaddr -/

namespace Netaddr

def ofBlock (w : ℕ) (b : Block) : Option (IPNetwork w) :=
  if h : b.level ≤ w ∧ b.index * 2 ^ b.level < 2 ^ w then some ⟨b.index * 2 ^ b.level, w - b.level, h.2, Nat.sub_le _ _⟩
  else none

theorem block_of_ofBlock {b : Block} {n : IPNetwork w} (h : ofBlock w b = some n) : n.block = b := by
  obtain ⟨hb, h⟩ := Option.dite_none_right_eq_some.mp h
  cases h
  rw [IPNetwork.block]
  dsimp only
  rw [Nat.sub_sub_self hb.1, Nat.mul_div_cancel _ (Nat.two_pow_pos _)]

def inside (prefixes allocations : List (IPNetwork w)) (b : Block) : Bool :=
  (prefixes.any fun p => b.Sub p.block) && allocations.all fun x => ¬ (b.Sub x.block ∨ x.block.Sub b)

def outside (prefixes allocations : List (IPNetwork w)) (b : Block) : Bool :=
  (allocations.any fun x => b.Sub x.block) || prefixes.all fun p => ¬ (b.Sub p.block ∨ p.block.Sub b)

/-- The difference by decomposition, and the matches by a test of each network. -/
def decomposing (w : ℕ) : Netaddr w where
  differenceCidrs prefixes allocations :=
    (Block.decompose (inside prefixes allocations) (outside prefixes allocations) w 0).filterMap (ofBlock w)
  allMatchingCidrs n l := l.filter fun m => m.Has n.value

theorem decompose_spec (prefixes allocations : List (IPNetwork w)) :
    Block.Decomposes (fun a => Covers prefixes a ∧ ¬ Covers allocations a) ⟨w, 0⟩
      (Block.decompose (inside prefixes allocations) (outside prefixes allocations) w 0) := by
  refine Block.decompose_spec (fun b hb a ha => ?_) (fun b hb a ha hS => ?_) (fun i => ?_) w 0
  · obtain ⟨hp, hx⟩ := Bool.and_eq_true_iff.mp hb
    obtain ⟨p, hp, hsub⟩ := List.any_eq_true.mp hp
    refine ⟨⟨p, hp, (of_decide_eq_true hsub).has ha⟩, fun ⟨x, hmem, hxa⟩ => ?_⟩
    exact of_decide_eq_true (List.all_eq_true.mp hx x hmem) (ha.sub_or_sub hxa)
  · rcases Bool.or_eq_true_iff.mp hb with hx | hp
    · obtain ⟨x, hmem, hsub⟩ := List.any_eq_true.mp hx
      exact hS.2 ⟨x, hmem, (of_decide_eq_true hsub).has ha⟩
    · obtain ⟨p, hmem, hpa⟩ := hS.1
      exact of_decide_eq_true (List.all_eq_true.mp hp p hmem) (ha.sub_or_sub hpa)
  · -- a single number is in an allocation, else in a prefix, else in neither
    by_cases hx : ∃ x ∈ allocations, (⟨0, i⟩ : Block).Sub x.block
    · obtain ⟨x, hmem, hsub⟩ := hx
      exact .inr (Bool.or_eq_true_iff.mpr (.inl (List.any_eq_true.mpr ⟨x, hmem, decide_eq_true hsub⟩)))
    by_cases hp : ∃ p ∈ prefixes, (⟨0, i⟩ : Block).Sub p.block
    · obtain ⟨p, hmem, hsub⟩ := hp
      refine .inl (Bool.and_eq_true_iff.mpr ⟨List.any_eq_true.mpr ⟨p, hmem, decide_eq_true hsub⟩, ?_⟩)
      exact List.all_eq_true.mpr fun x hmem => decide_eq_true fun h => hx ⟨x, hmem, h.elim id Block.Sub.of_zero⟩
    · refine .inr (Bool.or_eq_true_iff.mpr (.inr (List.all_eq_true.mpr fun p hmem => decide_eq_true fun h => ?_)))
      exact hp ⟨p, hmem, h.elim id Block.Sub.of_zero⟩

theorem exists_ofBlock {prefixes allocations : List (IPNetwork w)} {b : Block}
    (hb : b ∈ Block.decompose (inside prefixes allocations) (outside prefixes allocations) w 0) :
    ∃ n, ofBlock w b = some n := by
  have hspec := decompose_spec prefixes allocations
  have hfirst := hspec.sub hb b.has_first
  rw [Block.Has, Nat.div_eq_zero_iff_lt (Nat.two_pow_pos w)] at hfirst
  exact ⟨_, dif_pos ⟨hspec.level b hb, hfirst⟩⟩

/-- **The decomposing netaddr is exact.** -/
theorem decomposing_exact (w : ℕ) : (decomposing w).Exact where
  difference prefixes allocations a := by
    have hspec := decompose_spec prefixes allocations
    constructor
    · rintro ⟨n, hn, ha⟩
      obtain ⟨b, hb, hbn⟩ := mem_filterMap.mp hn
      rw [IPNetwork.Has, block_of_ofBlock hbn] at ha
      exact ((hspec.exact a).mp ⟨b, hb, ha⟩).2
    · intro h
      obtain ⟨b, hb, ha⟩ := (hspec.exact a).mpr ⟨Nat.div_eq_of_lt h.1.lt, h⟩
      obtain ⟨n, hn⟩ := exists_ofBlock hb
      exact ⟨n, mem_filterMap.mpr ⟨b, hb, hn⟩, by rw [IPNetwork.Has, block_of_ofBlock hn]; exact ha⟩
  disjoint prefixes allocations := by
    refine (decompose_spec prefixes allocations).disjoint.filterMap _ fun b c hbc n hn m hm a hna hma => ?_
    rw [IPNetwork.Has, block_of_ofBlock hn] at hna
    rw [IPNetwork.Has, block_of_ofBlock hm] at hma
    exact hbc a hna hma
  compact prefixes allocations k i hl hr := by
    have hmem : ∀ b, b ∈ ((decomposing w).differenceCidrs prefixes allocations).map IPNetwork.block →
        b ∈ Block.decompose (inside prefixes allocations) (outside prefixes allocations) w 0 := fun b hb => by
      obtain ⟨n, hn, rfl⟩ := List.mem_map.mp hb
      obtain ⟨c, hc, hcn⟩ := mem_filterMap.mp hn
      rw [block_of_ofBlock hcn]
      exact hc
    exact (decompose_spec prefixes allocations).compact k i (hmem _ hl) (hmem _ hr)
  matching _ _ := .refl _

end Netaddr

end Mitaka.Neutron.SubnetAlloc
