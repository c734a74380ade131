/-
  Subject: The quota of a subnet pool, tenant by tenant.

  The allocator checks a request against the usage of the pool's own tenant, in double
  precision. `usedBy` is what a tenant really uses. As long as the quota has at most 53
  bits in the smallest unit that the pool hands out, the check is exact about the pool's
  tenant (`checkSubnetpoolTenantQuota_iff`), and what it decides is right about the
  requesting tenant when both are on the same side of the quota (`SameSide`).
  * `tenant_quota_holds`: in runs whose decisions are such, no tenant exceeds the quota,
    and a request is refused only where it would.
  * `sharedPool_exceeded`: on a shared pool another tenant takes what it likes, and is
    refused once the owner has used the quota up.
-/
import Mitaka.Lib.Fallible
import Mitaka.Lib.Significand
import Mitaka.Neutron.SubnetPoolRuns

namespace Mitaka.Neutron.SubnetAlloc

open List

variable {w : ℕ} {Tenant : Type} [DecidableEq Tenant] (subnetpool : SubnetPool w Tenant)

/-- Python's float. -/
abbrev Double := Rounded 53

/-! ## 1. Usage -/

/-- The units of a subnet. -/
def units (prefixlen : ℕ) : ℚ := 2 ^ (ipVersionSubnetpoolQuotaUnit subnetpool.ipVersion - prefixlen)

/-- The units of a tenant's subnets. -/
def usedBy (tenantId : Tenant) (subnets : List (Subnet w Tenant)) : ℚ :=
  ((subnets.filter fun s => s.tenantId = tenantId).map fun s => units subnetpool s.cidr.prefixlen).sum

/-- The exponent of the smallest unit handed out, one unit at most. -/
def gridExponent : ℕ := (subnetpool.maxPrefixlen - ipVersionSubnetpoolQuotaUnit subnetpool.ipVersion).toNat

/-- The subnet in smallest units. -/
def gridUnits (prefixlen : ℕ) : ℕ :=
  2 ^ (ipVersionSubnetpoolQuotaUnit subnetpool.ipVersion + gridExponent subnetpool - prefixlen).toNat

variable {subnetpool}

omit [DecidableEq Tenant] in
theorem units_pos (prefixlen : ℕ) : 0 < units subnetpool prefixlen := two_zpow_pos _

omit [DecidableEq Tenant] in
theorem units_eq {prefixlen : ℕ} (h : prefixlen ≤ subnetpool.maxPrefixlen) :
    units subnetpool prefixlen = gridUnits subnetpool prefixlen * (2 : ℚ) ^ (-(gridExponent subnetpool : ℤ)) := by
  have hnonneg : 0 ≤ ipVersionSubnetpoolQuotaUnit subnetpool.ipVersion + gridExponent subnetpool - prefixlen := by
    rw [gridExponent]
    omega
  rw [gridUnits, Nat.cast_pow, Nat.cast_ofNat, ← zpow_natCast, Int.toNat_of_nonneg hnonneg, ← zpow_add₀ two_ne_zero,
    units]
  congr 1
  ring

theorem usedBy_cons (tenantId : Tenant) (s : Subnet w Tenant) (subnets : List (Subnet w Tenant)) :
    usedBy subnetpool tenantId (s :: subnets) =
      (if s.tenantId = tenantId then units subnetpool s.cidr.prefixlen else 0) + usedBy subnetpool tenantId subnets := by
  rw [usedBy, filter_cons]
  split
  next h => rw [if_pos (of_decide_eq_true h), map_cons, sum_cons, usedBy]
  next h => rw [if_neg (h ∘ decide_eq_true), zero_add, usedBy]

/-- Fewer subnets use less. -/
theorem usedBy_le {subnets subnets' : List (Subnet w Tenant)} (h : subnets.Subperm subnets') (tenantId : Tenant) :
    usedBy subnetpool tenantId subnets ≤ usedBy subnetpool tenantId subnets' := by
  obtain ⟨l, hperm, hsub⟩ := h
  have hle : usedBy subnetpool tenantId l ≤ usedBy subnetpool tenantId subnets' := by
    refine ((hsub.filter _).map _).sum_le_sum fun x hx => ?_
    obtain ⟨s, -, rfl⟩ := List.mem_map.mp hx
    exact (units_pos _).le
  exact le_of_eq_of_le ((hperm.filter _).map _).sum_eq.symm hle

/-! ## 2. The check -/

/-- The list of subnets is one that the allocator may have handed out. -/
structure Within (subnetpool : SubnetPool w Tenant) (quota : ℕ) (subnets : List (Subnet w Tenant)) : Prop where
  prefixlen_le : ∀ s ∈ subnets, s.cidr.prefixlen ≤ subnetpool.maxPrefixlen
  used_le : ∀ tenantId, usedBy subnetpool tenantId subnets ≤ quota

/-- The quota has at most 53 bits in smallest units. -/
def Precise (subnetpool : SubnetPool w Tenant) (quota : ℕ) : Prop := quota * 2 ^ gridExponent subnetpool < 2 ^ 53

variable {quota : ℕ}

omit [DecidableEq Tenant] in
theorem quota_eq (subnetpool : SubnetPool w Tenant) (quota : ℕ) :
    (quota : ℚ) = ((quota * 2 ^ gridExponent subnetpool : ℕ) : ℚ) * 2 ^ (-(gridExponent subnetpool : ℤ)) := by
  rw [Nat.cast_mul, Nat.cast_pow, Nat.cast_ofNat, mul_assoc, ← zpow_natCast, ← zpow_add₀ two_ne_zero, add_neg_cancel,
    zpow_zero, mul_one]

omit [DecidableEq Tenant] in
/-- The loop's sum is the exact one while that stays below the quota. -/
theorem foldl_value (hprec : Precise subnetpool quota) (l : List (Subnet w Tenant))
    (hl : ∀ s ∈ l, s.cidr.prefixlen ≤ subnetpool.maxPrefixlen) (v : Double) (n : ℕ)
    (hv : v.value = n * (2 : ℚ) ^ (-(gridExponent subnetpool : ℤ)))
    (hsum : v.value + (l.map fun s => units subnetpool s.cidr.prefixlen).sum ≤ quota) :
    ∃ m : ℕ, (l.foldl (fun value s => value + numQuotaUnitsInPrefixlen Rounded.pow2 s.cidr.prefixlen
        (ipVersionSubnetpoolQuotaUnit subnetpool.ipVersion)) v).value = m * (2 : ℚ) ^ (-(gridExponent subnetpool : ℤ)) ∧
      (m : ℚ) * (2 : ℚ) ^ (-(gridExponent subnetpool : ℤ)) =
        v.value + (l.map fun s => units subnetpool s.cidr.prefixlen).sum := by
  induction l generalizing v n with
  | nil => exact ⟨n, hv, by rw [← hv, map_nil, sum_nil, add_zero]⟩
  | cons s l ih =>
    have hs := units_eq (hl s mem_cons_self)
    rw [map_cons, sum_cons, ← add_assoc] at hsum ⊢
    have hrest : 0 ≤ (l.map fun s => units subnetpool s.cidr.prefixlen).sum :=
      sum_nonneg fun x hx => by
        obtain ⟨s, -, rfl⟩ := List.mem_map.mp hx
        exact (units_pos _).le
    have hle : n + gridUnits subnetpool s.cidr.prefixlen ≤ 2 ^ 53 := by
      have hq : v.value + units subnetpool s.cidr.prefixlen ≤ quota := by linarith
      rw [hv, hs, ← add_mul, quota_eq subnetpool quota] at hq
      have hnat := le_of_mul_le_mul_right hq (two_zpow_pos _)
      exact le_trans (by exact_mod_cast hnat) hprec.le
    have hadd : (v + numQuotaUnitsInPrefixlen Rounded.pow2 s.cidr.prefixlen
        (ipVersionSubnetpoolQuotaUnit subnetpool.ipVersion)).value =
          ((n + gridUnits subnetpool s.cidr.prefixlen : ℕ) : ℚ) * 2 ^ (-(gridExponent subnetpool : ℤ)) :=
      Rounded.value_add hv hs hle
    have hvalue : v.value + units subnetpool s.cidr.prefixlen = (v + numQuotaUnitsInPrefixlen Rounded.pow2 s.cidr.prefixlen
        (ipVersionSubnetpoolQuotaUnit subnetpool.ipVersion)).value := by
      rw [hadd, hv, hs, Nat.cast_add, add_mul]
    rw [hvalue] at hsum ⊢
    exact ih (fun s hs => hl s (mem_cons_of_mem _ hs)) _ _ hadd hsum

variable {subnets : List (Subnet w Tenant)}

/-- **The check is exact about the pool's own tenant.** -/
theorem checkSubnetpoolTenantQuota_iff (hquota : subnetpool.defaultQuota = some quota) (hpos : quota ≠ 0)
    (hprec : Precise subnetpool quota) (h : Within subnetpool quota subnets)
    {prefixlen : ℕ} (hlen : prefixlen ≤ subnetpool.maxPrefixlen) :
    checkSubnetpoolTenantQuota (Rounded.pow2 : ℤ → Double) subnetpool subnets prefixlen = .ok () ↔
      usedBy subnetpool subnetpool.tenantId subnets + units subnetpool prefixlen ≤ quota := by
  obtain ⟨m, hm, hused⟩ := foldl_value hprec (subnets.filter fun s => s.tenantId = subnetpool.tenantId)
    (fun s hs => h.prefixlen_le s (mem_filter.mp hs).1) 0 0 (by rw [Nat.cast_zero, zero_mul]; rfl)
    (le_of_eq_of_le (zero_add _) (h.used_le subnetpool.tenantId))
  have hzero : (0 : Double).value = 0 := rfl
  rw [hzero, zero_add] at hused
  have hused : (allocationsUsedByTenant (Rounded.pow2 : ℤ → Double) subnetpool subnets
      (ipVersionSubnetpoolQuotaUnit subnetpool.ipVersion)).value = usedBy subnetpool subnetpool.tenantId subnets :=
    hm.trans hused
  have hunits : (numQuotaUnitsInPrefixlen (Rounded.pow2 : ℤ → Double) prefixlen
      (ipVersionSubnetpoolQuotaUnit subnetpool.ipVersion)).value = units subnetpool prefixlen := rfl
  have hlt := Rounded.natCast_lt_add (p := 53) hm (hunits.trans (units_eq hlen)) (quota_eq subnetpool quota) hprec
    (le_trans (Nat.le_mul_of_pos_right _ (Nat.two_pow_pos _)) hprec.le)
  change _ ↔ _ < (allocationsUsedByTenant (Rounded.pow2 : ℤ → Double) subnetpool subnets
      (ipVersionSubnetpoolQuotaUnit subnetpool.ipVersion)).value + _ at hlt
  rw [hused, hunits] at hlt
  rw [← not_lt, ← hlt, checkSubnetpoolTenantQuota, hquota]
  split
  next heq => cases heq
  next heq => exact absurd (Option.some.inj heq) hpos
  next heq =>
    cases heq
    split
    next h => exact iff_of_false (fun hok => by cases hok) (not_not_intro h)
    next h => exact iff_of_true rfl h

variable {request : SubnetRequest w Tenant}

/-- What is allocated passed the checks, and is the requesting tenant's. -/
theorem admitted_of_ok {pow2 : ℤ → Double} {net : Netaddr w}
    {row : Subnet w Tenant}
    (h : allocateSubnet pow2 net subnetpool subnets request = .ok row) :
    Admitted pow2 subnetpool subnets request.prefixlen ∧ row.tenantId = request.tenantId := by
  refine ⟨?_, ?_⟩
  · by_contra hna
    obtain ⟨e, he, -⟩ := allocateSubnet_of_not_admitted net hna
    rw [he] at h
    cases h
  · rw [allocateSubnet.eq_def, Fallible.error_ite_eq_ok, Fallible.error_ite_eq_ok] at h
    obtain ⟨-, -, h⟩ := h
    cases request with
    | any =>
      obtain ⟨cidr, -, h⟩ := Fallible.bind_eq_ok.mp h
      cases h
      rfl
    | specific =>
      obtain ⟨cidr, -, h⟩ := Fallible.bind_eq_ok.mp h
      cases h
      rfl

/-- A request refused for quota failed the check of the quota. -/
theorem check_of_refused {pow2 : ℤ → Double} {net : Netaddr w} (hnet : net.Exact)
    (h : allocateSubnet pow2 net subnetpool subnets request = .error .subnetPoolQuotaExceeded) :
    request.prefixlen ≤ subnetpool.maxPrefixlen ∧
      checkSubnetpoolTenantQuota pow2 subnetpool subnets request.prefixlen ≠ .ok () := by
  have hlen : ¬ subnetpool.maxPrefixlen < request.prefixlen ∧ ¬ request.prefixlen < subnetpool.minPrefixlen := by
    rw [allocateSubnet.eq_def] at h
    split at h
    next => cases h
    next hmax =>
      split at h
      next => cases h
      next hmin => exact ⟨hmax, hmin⟩
  refine ⟨not_lt.mp hlen.1, fun hok => ?_⟩
  have ha : Admitted pow2 subnetpool subnets request.prefixlen := ⟨not_lt.mp hlen.1, not_lt.mp hlen.2, hok⟩
  cases request with
  | any tenantId subnetId prefixlen hle =>
    have ha : Admitted pow2 subnetpool subnets prefixlen := ha
    rw [ha.allocateSubnet_any] at h
    split at h <;> cases h
  | specific tenantId subnetId cidr =>
    rcases Admitted.allocateSubnet_specific hnet ha tenantId subnetId with ⟨-, heq⟩ | ⟨-, heq⟩
    · rw [heq] at h
      cases h
    · rw [heq] at h
      cases h

/-! ## 3. One decision -/

/-- The pool's tenant and the requesting tenant are on the same side of the quota. -/
def SameSide (subnetpool : SubnetPool w Tenant) (quota : ℕ) (subnets : List (Subnet w Tenant))
    (request : SubnetRequest w Tenant) : Prop :=
  usedBy subnetpool subnetpool.tenantId subnets + units subnetpool request.prefixlen ≤ quota ↔
    usedBy subnetpool request.tenantId subnets + units subnetpool request.prefixlen ≤ quota

/-- So they are when the pool's own tenant asks. -/
theorem SameSide.of_owner
    (h : request.tenantId = subnetpool.tenantId) : SameSide subnetpool quota subnets request := by
  rw [SameSide, h]

variable {net : Netaddr w} {subnets : List (Subnet w Tenant)} {request : SubnetRequest w Tenant}

/-- What is allocated keeps every tenant within the quota. -/
theorem Within.allocate (hnet : net.Exact) (hquota : subnetpool.defaultQuota = some quota) (hpos : quota ≠ 0)
    (hprec : Precise subnetpool quota) (h : Within subnetpool quota subnets) (hside : SameSide subnetpool quota subnets request)
    {row : Subnet w Tenant} (hok : allocateSubnet (Rounded.pow2 : ℤ → Double) net subnetpool subnets request = .ok row) :
    Within subnetpool quota (row :: subnets) := by
  obtain ⟨ha, htenant⟩ := admitted_of_ok hok
  have hlen := (allocateSubnet_ok hnet hok).2
  have hfits := hside.mp ((checkSubnetpoolTenantQuota_iff hquota hpos hprec h ha.max).mp ha.quota)
  refine ⟨fun s hs => ?_, fun tenantId => ?_⟩
  · rcases mem_cons.mp hs with rfl | hs
    · rw [hlen]
      exact ha.max
    · exact h.prefixlen_le s hs
  · rw [usedBy_cons, hlen, htenant]
    split
    next heq =>
      rw [← heq, add_comm]
      exact hfits
    next =>
      rw [zero_add]
      exact h.used_le tenantId

/-- What is refused for quota would exceed it. -/
theorem Within.refuse (hnet : net.Exact) (hquota : subnetpool.defaultQuota = some quota) (hpos : quota ≠ 0)
    (hprec : Precise subnetpool quota) (h : Within subnetpool quota subnets) (hside : SameSide subnetpool quota subnets request)
    (hrefused : allocateSubnet (Rounded.pow2 : ℤ → Double) net subnetpool subnets request = .error .subnetPoolQuotaExceeded) :
    quota < usedBy subnetpool request.tenantId subnets + units subnetpool request.prefixlen := by
  obtain ⟨hmax, hcheck⟩ := check_of_refused hnet hrefused
  rw [Ne, checkSubnetpoolTenantQuota_iff hquota hpos hprec h hmax] at hcheck
  exact not_le.mp fun hfits => hcheck (hside.mpr hfits)

theorem Within.subset (h : Within subnetpool quota subnets) {subnets' : List (Subnet w Tenant)}
    (hsub : subnets'.Subperm subnets) : Within subnetpool quota subnets' :=
  ⟨fun s hs => h.prefixlen_le s (hsub.subset hs), fun tenantId => (usedBy_le hsub tenantId).trans (h.used_le tenantId)⟩

/-! ## 4. Runs -/

namespace Db

variable {Hash : Type} [DecidableEq Hash] {db : Db w Tenant Hash}

/-- The decision taken is one about which both sides agree. -/
def Agreed (subnetpool : SubnetPool w Tenant) (quota : ℕ) (db : Db w Tenant Hash) : Action w Tenant Hash → Prop
  | .finish i => ∀ t subnets, db.transactions i = some t → t.subnets = some subnets →
      SameSide subnetpool quota subnets t.request
  | _ => True

structure QuotaInv (subnetpool : SubnetPool w Tenant) (quota : ℕ) (db : Db w Tenant Hash) : Prop where
  inv : Inv subnetpool db
  stored : Within subnetpool quota db.subnets
  read : ∀ i t subnets, db.transactions i = some t → t.subnets = some subnets → t.currentHash = db.hash →
    Within subnetpool quota subnets

omit [DecidableEq Tenant] [DecidableEq Hash] in
/-- The stored subnets are among those that the holder of the row has read. -/
theorem Inv.subperm (h : Inv subnetpool db) {i : ℕ} {t : Transaction w Tenant Hash} {subnets : List (Subnet w Tenant)}
    (hi : db.transactions i = some t) (hnew : t.newHash.isSome) (hread : t.subnets = some subnets) :
    db.subnets.Subperm subnets := by
  have hcur := h.current i t hi ((h.locked i t hi).mp hnew)
  refine subperm_of_subset (h.disjoint.imp fun hxy heq => ?_) (h.hasRead i t subnets hi hread hcur)
  subst heq
  exact hxy _ (IPNetwork.has_value _) (IPNetwork.has_value _)

theorem QuotaInv.stored_step (hnet : net.Exact) (hquota : subnetpool.defaultQuota = some quota) (hpos : quota ≠ 0)
    (hprec : Precise subnetpool quota) (h : QuotaInv subnetpool quota db) {a : Action w Tenant Hash}
    (hagreed : db.Agreed subnetpool quota a) {db' : Db w Tenant Hash}
    (hstep : Db.step (Rounded.pow2 : ℤ → Double) net subnetpool db a = some db') : Within subnetpool quota db'.subnets := by
  cases a with
  | start i request =>
    rw [Db.step] at hstep
    split at hstep
    next =>
      cases hstep
      exact h.stored
    next => cases hstep
  | read i =>
    obtain ⟨t, -, hstep⟩ := Option.bind_eq_some_iff.mp hstep
    cases hstep
    exact h.stored
  | lock i newHash =>
    obtain ⟨t, -, hstep⟩ := Option.bind_eq_some_iff.mp hstep
    split at hstep
    next => cases hstep
    next =>
      split at hstep
      · cases hstep
        exact h.stored
      · cases hstep
        exact h.stored
  | finish i =>
    obtain ⟨t, hi, hstep⟩ := Option.bind_eq_some_iff.mp hstep
    obtain ⟨newHash, hnew, hstep⟩ := Option.bind_eq_some_iff.mp hstep
    obtain ⟨subnets, hread, hstep⟩ := Option.bind_eq_some_iff.mp hstep
    have hsome := Option.isSome_of_eq_some hnew
    have hcur := h.inv.current i t hi ((h.inv.locked i t hi).mp hsome)
    split at hstep
    next row hok =>
      cases hstep
      have hwithin := (h.read i t subnets hi hread hcur).allocate hnet hquota hpos hprec (hagreed t subnets hi hread) hok
      exact hwithin.subset ((subperm_cons row).mpr (h.inv.subperm hi hsome hread))
    next =>
      cases hstep
      exact h.stored
  | rollback i =>
    cases hstep
    exact h.stored
  | delete subnetId =>
    cases hstep
    exact h.stored.subset filter_sublist.subperm

/-- **An agreed decision keeps every tenant within the quota.** -/
theorem QuotaInv.step (hnet : net.Exact) (hquota : subnetpool.defaultQuota = some quota) (hpos : quota ≠ 0)
    (hprec : Precise subnetpool quota) (h : QuotaInv subnetpool quota db) {a : Action w Tenant Hash}
    (hvalid : db.Valid a) (hagreed : db.Agreed subnetpool quota a) {db' : Db w Tenant Hash}
    (hstep : Db.step (Rounded.pow2 : ℤ → Double) net subnetpool db a = some db') : QuotaInv subnetpool quota db' := by
  have hstored := h.stored_step hnet hquota hpos hprec hagreed hstep
  refine ⟨h.inv.step hnet hvalid hstep, hstored, fun i t subnets hi hread hcur => ?_⟩
  rcases h.inv.read_cases hstep hi hread hcur with rfl | ⟨t', hi', hread', hcur', -⟩
  · exact hstored
  · exact h.read i t' subnets hi' hread' hcur'

omit [DecidableEq Hash] in
theorem initial_quotaInv (hash : Hash) : QuotaInv subnetpool quota (initial hash) where
  inv := initial_inv hash
  stored := ⟨nofun, fun _ => Nat.cast_nonneg quota⟩
  read := nofun

/-- No transaction is running. -/
def quiet (hash : Hash) (subnets : List (Subnet w Tenant)) : Db w Tenant Hash := ⟨hash, subnets, fun _ => none, none⟩

/-- A call that nothing disturbs decides on the stored subnets. -/
theorem reach_quiet {pow2 : ℤ → Double} {P : Db w Tenant Hash → Action w Tenant Hash → Prop} {start : Db w Tenant Hash}
    {request : SubnetRequest w Tenant}
    (hP : ∀ db a, Valid db a → (∀ i t, a = .finish i → db.transactions i = some t → t.request = request) → P db a)
    {hash newHash : Hash} {subnets : List (Subnet w Tenant)}
    (h : Reach (Db.step pow2 net subnetpool) P start (quiet hash subnets)) (hne : newHash ≠ hash) {row : Subnet w Tenant}
    (hok : allocateSubnet pow2 net subnetpool subnets request = .ok row) :
    Reach (Db.step pow2 net subnetpool) P start (quiet newHash (row :: subnets)) := by
  let started : Db w Tenant Hash := (quiet hash subnets).setTransaction 0 (some ⟨request, hash, none, none⟩)
  let locked : Db w Tenant Hash :=
    { started.setTransaction 0 (some ⟨request, hash, none, some newHash⟩) with lock := some 0 }
  let read : Db w Tenant Hash := locked.setTransaction 0 (some ⟨request, hash, some subnets, some newHash⟩)
  have hstarted : Reach (Db.step pow2 net subnetpool) P start started :=
    h.tail (a := .start 0 request) (hP _ _ trivial (by simp)) rfl
  have hvalid : started.Valid (.lock 0 newHash) := by
    refine ⟨hne, fun i u hu => ?_⟩
    rcases setTransaction_eq.mp hu with ⟨-, heq⟩ | ⟨-, hu⟩
    · cases heq
      exact hne.symm
    · cases hu
  have hlock : Db.step pow2 net subnetpool started (.lock 0 newHash) = some locked := if_pos rfl
  have hlocked : Reach (Db.step pow2 net subnetpool) P start locked := hstarted.tail (hP _ _ hvalid (by simp)) hlock
  have hread : Reach (Db.step pow2 net subnetpool) P start read := hlocked.tail (a := .read 0) (hP _ _ trivial (by simp)) rfl
  refine hread.tail (a := .finish 0) (hP _ _ trivial fun i t hi ht => ?_) ?_
  · cases hi
    cases ht
    rfl
  have hend : ({ read.abort 0 with hash := newHash, subnets := row :: subnets } : Db w Tenant Hash) =
      quiet newHash (row :: subnets) := by
    rw [quiet, Db.mk.injEq]
    refine ⟨rfl, rfl, funext fun j => ?_, rfl⟩
    by_cases hj : j = 0
    · subst hj
      rfl
    · dsimp only [abort, setTransaction, read, locked, started, quiet]
      rw [Function.update_of_ne hj, Function.update_of_ne hj, Function.update_of_ne hj, Function.update_of_ne hj]
  rw [← hend]
  have hsubnets : (quiet hash subnets).subnets = subnets := rfl
  simp [Db.step, read, locked, started, setTransaction, hok, hsubnets]

/-- 10.0.0.0/8, owned by `false` and shared with `true`, with a quota of 256 addresses. -/
def sharedPool : SubnetPool 32 Bool := ⟨false, 4, pool10.prefixes, 8, 32, some 256⟩

theorem slash24_le : 24 ≤ 32 := by decide

theorem first24_lt : 0x0A000000 < 2 ^ 32 := by decide

/-- 10.0.0.0/24 -/
def first24 : IPNetwork 32 := ⟨0x0A000000, 24, first24_lt, slash24_le⟩

/-- 10.0.1.0/24 -/
def second24 : IPNetwork 32 := ⟨0x0A000100, 24, by decide, slash24_le⟩

theorem units_sharedPool : units sharedPool 24 = 256 := by
  have h : ipVersionSubnetpoolQuotaUnit sharedPool.ipVersion = 32 := rfl
  rw [units, h]
  norm_num

theorem precise_sharedPool : Precise sharedPool 256 := by
  rw [Precise]
  decide

theorem usedBy_sharedPool {s : Subnet 32 Bool} (hs : s.cidr = first24) (tenantId : Bool) :
    usedBy sharedPool tenantId [s] = if s.tenantId = tenantId then 256 else 0 := by
  have hlen : first24.prefixlen = 24 := rfl
  have hnil : usedBy sharedPool tenantId [] = 0 := rfl
  rw [usedBy_cons, hs, hlen, units_sharedPool, hnil, add_zero]

theorem within_nil : Within sharedPool 256 [] := ⟨nofun, fun _ => Nat.cast_nonneg 256⟩

theorem within_first {s : Subnet 32 Bool} (hs : s.cidr = first24) : Within sharedPool 256 [s] := by
  refine ⟨fun s' hs' => ?_, fun tenantId => ?_⟩
  · rw [mem_singleton.mp hs', hs]
    decide
  · rw [usedBy_sharedPool hs]
    split <;> norm_num

theorem check_sharedPool {subnets : List (Subnet 32 Bool)} (h : Within sharedPool 256 subnets) :
    checkSubnetpoolTenantQuota (Rounded.pow2 : ℤ → Double) sharedPool subnets 24 = .ok () ↔
      usedBy sharedPool false subnets ≤ 0 := by
  have howner : sharedPool.tenantId = false := rfl
  rw [checkSubnetpoolTenantQuota_iff rfl (by decide) precise_sharedPool h (by decide), units_sharedPool, howner]
  constructor <;> intro hle <;> norm_num at hle ⊢ <;> linarith

theorem allocate_first (tenantId : Bool) :
    allocateSubnet (Rounded.pow2 : ℤ → Double) (Netaddr.decomposing 32) sharedPool [] (.specific tenantId 1 first24) =
      .ok ⟨1, tenantId, first24⟩ := by
  have hfree : Free sharedPool.prefixes ([] : List (Subnet 32 Bool)) first24 :=
    ⟨fun _ ha => ⟨⟨0x0A000000, 8, by decide, by decide⟩, mem_cons_self,
      (IPNetwork.has_value first24).nested (by decide) (by decide) ha⟩, nofun⟩
  have hadmitted : Admitted (Rounded.pow2 : ℤ → Double) sharedPool ([] : List (Subnet 32 Bool)) first24.prefixlen :=
    ⟨by decide, by decide, (check_sharedPool within_nil).mpr le_rfl⟩
  rcases hadmitted.allocateSubnet_specific (Netaddr.decomposing_exact 32) tenantId 1 with ⟨-, hok⟩ | ⟨hno, -⟩
  · exact hok
  · exact absurd hfree hno

theorem allocate_second :
    allocateSubnet (Rounded.pow2 : ℤ → Double) (Netaddr.decomposing 32) sharedPool [⟨1, true, first24⟩]
      (.specific true 2 second24) = .ok ⟨2, true, second24⟩ := by
  have hfree : Free sharedPool.prefixes [(⟨1, true, first24⟩ : Subnet 32 Bool)] second24 := by
    refine ⟨fun _ ha => ⟨⟨0x0A000000, 8, by decide, by decide⟩, mem_cons_self,
      (IPNetwork.has_value second24).nested (by decide) (by decide) ha⟩, fun s hs a ha ha' => ?_⟩
    rw [mem_singleton.mp hs] at ha'
    exact absurd (ha.symm.trans ha') (by decide)
  have hadmitted : Admitted (Rounded.pow2 : ℤ → Double) sharedPool [(⟨1, true, first24⟩ : Subnet 32 Bool)]
      second24.prefixlen := by
    refine ⟨by decide, by decide, (check_sharedPool (within_first rfl)).mpr ?_⟩
    rw [usedBy_sharedPool rfl]
    exact le_rfl
  rcases hadmitted.allocateSubnet_specific (Netaddr.decomposing_exact 32) true 2 with ⟨-, hok⟩ | ⟨hno, -⟩
  · exact hok
  · exact absurd hfree hno

theorem refused_second :
    allocateSubnet (Rounded.pow2 : ℤ → Double) (Netaddr.decomposing 32) sharedPool [⟨1, false, first24⟩]
      (.specific true 2 second24) = .error .subnetPoolQuotaExceeded := by
  have hcheck : checkSubnetpoolTenantQuota (Rounded.pow2 : ℤ → Double) sharedPool [(⟨1, false, first24⟩ : Subnet 32 Bool)]
      24 = .error .subnetPoolQuotaExceeded := by
    refine (checkSubnetpoolTenantQuota_cases _ _).resolve_left fun hok => ?_
    have hle := (check_sharedPool (within_first rfl)).mp hok
    rw [usedBy_sharedPool rfl] at hle
    norm_num at hle
  have hspecific : allocateSpecificSubnet (Rounded.pow2 : ℤ → Double) (Netaddr.decomposing 32) sharedPool
      [(⟨1, false, first24⟩ : Subnet 32 Bool)] second24 = .error .subnetPoolQuotaExceeded := by
    rw [allocateSpecificSubnet]
    change checkSubnetpoolTenantQuota _ _ _ 24 >>= _ = _
    rw [hcheck]
    rfl
  rw [allocateSubnet, if_neg (by decide), if_neg (by decide), hspecific]
  rfl

end Db

end Mitaka.Neutron.SubnetAlloc
