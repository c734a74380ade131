/-
  Subject: neutron/ipam/drivers/neutrondb_ipam/driver.py and db_api.py: the allocation pools,
           availability ranges and allocations of one subnet.

  An operation that raises leaves the tables as they are: its transaction is rolled back.
-/
import Mitaka.Lib.FreeRuns

namespace Mitaka.Neutron

/-! ## 1. Addresses -/

/-- An address; two of them are equal when their texts are. -/
structure IPAddress where
  v6 : Bool
  value : ℕ
  deriving DecidableEq

/-- `netaddr.IPAddress(value)` without a version: small numbers are IPv4 addresses. -/
def IPAddress.ofInt (value : ℕ) : IPAddress := ⟨decide (2 ^ 32 ≤ value), value⟩

/-- `is_eui64_address`. -/
def isEui64Address (ip : IPAddress) : Bool := ip.v6 && ((ip.value &&& 0xffff000000) ^^^ 0xfffe000000) == 0

/-- A network. -/
structure IPNetwork where
  v6 : Bool
  network : ℕ
  netmask : ℕ
  /-- `net[-1]` -/
  last : ℕ
  deriving DecidableEq

/-- `check_subnet_ip`. -/
def checkSubnetIp (cidr : IPNetwork) (ip : IPAddress) : Bool :=
  ip ≠ ⟨cidr.v6, cidr.network⟩ && (cidr.v6 || ip ≠ ⟨cidr.v6, cidr.last⟩) && cidr.netmask &&& ip.value == cidr.network

/-! ## 2. The tables -/

structure IpamAllocationPool where
  id : ℕ
  firstIp : IPAddress
  lastIp : IPAddress
  deriving DecidableEq

structure IpamAvailabilityRange where
  allocationPoolId : ℕ
  firstIp : IPAddress
  lastIp : IPAddress
  deriving DecidableEq

inductive IpamError
  | ipAddressAlreadyAllocated
  | invalidIpForSubnet
  | ipAddressGenerationFailure
  | ipAddressAllocationNotFound
  /-- `RetryRequest(IPAllocationFailed())` -/
  | retryRequest
  /-- an allocation of this address is there already -/
  | dbDuplicateEntry
  /-- `netaddr.IPRange` of two versions, or with the ends exchanged -/
  | addrFormatError
  deriving DecidableEq

/-- The rows of one subnet. -/
structure IpamSubnet where
  cidr : IPNetwork
  pools : List IpamAllocationPool
  ranges : List IpamAvailabilityRange
  allocations : List IPAddress
  /-- the pool ids from here on are free -/
  nextPoolId : ℕ
  deriving DecidableEq

namespace IpamSubnet

/-- `create_allocation_pools`: a pool and a range for each. -/
def createAllocationPools (s : IpamSubnet) : List (ℕ × ℕ) → IpamSubnet
  | [] => s
  | pool :: pools =>
    let first : IPAddress := ⟨s.cidr.v6, pool.1⟩
    let last : IPAddress := ⟨s.cidr.v6, pool.2⟩
    createAllocationPools
      { s with
        pools := s.pools ++ [⟨s.nextPoolId, first, last⟩]
        ranges := s.ranges ++ [⟨s.nextPoolId, first, last⟩]
        nextPoolId := s.nextPoolId + 1 } pools

/-- `create_from_subnet_request`. -/
def createFromSubnetRequest (cidr : IPNetwork) (pools : List (ℕ × ℕ)) : IpamSubnet :=
  createAllocationPools ⟨cidr, [], [], [], 0⟩ pools

/-- `netaddr.IPRange(first, last)`: the version and the numbers. -/
def ipRange (first last : IPAddress) : Except IpamError (Bool × ℕ × ℕ) :=
  if first.v6 = last.v6 ∧ first.value ≤ last.value then .ok (first.v6, first.value, last.value)
  else .error .addrFormatError

/-- One of the new ranges in `_allocate_specific_ip`: the row is adjusted, or another one created. -/
def storeRange (rows : IpamAvailabilityRange × List IpamAvailabilityRange) (newRange : ℕ × ℕ) :
    IpamAvailabilityRange × List IpamAvailabilityRange :=
  let firstIp := IPAddress.ofInt newRange.1
  let lastIp := IPAddress.ofInt newRange.2
  if rows.1.firstIp = firstIp ∨ rows.1.lastIp = lastIp then
    ({ rows.1 with firstIp := firstIp, lastIp := lastIp }, rows.2)
  else (rows.1, rows.2 ++ [⟨rows.1.allocationPoolId, firstIp, lastIp⟩])

/-- One row in `_allocate_specific_ip`: whether the address is in it, and the rows there are instead. -/
def allocateFromRange (ip : IPAddress) (dbRange : IpamAvailabilityRange) :
    Except IpamError (Bool × List IpamAvailabilityRange) := do
  let (v6, lo, hi) ← ipRange dbRange.firstIp dbRange.lastIp
  let finalIpSet := if ip.v6 = v6 then complement lo hi [ip.value] else [(lo, hi)]
  if finalIpSet = [] then return (true, [])
  else if finalIpSet = [(lo, hi)] then return (false, [dbRange])
  else
    let (row, created) := finalIpSet.foldl storeRange (dbRange, [])
    return (true, row :: created)

/-- `_allocate_specific_ip`. -/
def allocateSpecificIp (s : IpamSubnet) (ip : IPAddress) (allocationPoolId : Option ℕ) (autoGenerated : Bool) :
    Except IpamError IpamSubnet :=
  if isEui64Address ip then .ok s
  else do
    let rows ← s.ranges.mapM fun dbRange =>
      if ∀ id ∈ allocationPoolId, dbRange.allocationPoolId = id then allocateFromRange ip dbRange
      else .ok (false, [dbRange])
    if autoGenerated && !rows.any Prod.fst then .error .retryRequest
    else .ok { s with ranges := rows.flatMap Prod.snd }

/-- `_rebuild_availability_ranges`. -/
def rebuildAvailabilityRanges (s : IpamSubnet) : IpamSubnet :=
  { s with
    ranges := s.ranges ++ s.pools.flatMap fun pool =>
      (complement pool.firstIp.value pool.lastIp.value
        ((s.allocations.filter fun ip => ip.v6 = pool.firstIp.v6).map IPAddress.value)).map fun ipRange =>
          ⟨pool.id, IPAddress.ofInt ipRange.1, IPAddress.ofInt ipRange.2⟩ }

/-- `get_first_range`: the query has no order, so `row` says which row comes first. -/
def getFirstRange (s : IpamSubnet) (row : ℕ) : Option IpamAvailabilityRange := s.ranges[row % s.ranges.length]?

/-- `_generate_ip`. -/
def generateIp (s : IpamSubnet) (row : ℕ) : Except IpamError (IpamSubnet × IPAddress × ℕ) :=
  match s.getFirstRange row with
  | some ipRange => .ok (s, ipRange.firstIp, ipRange.allocationPoolId)
  | none =>
    match s.rebuildAvailabilityRanges.getFirstRange row with
    | some ipRange => .ok (s.rebuildAvailabilityRanges, ipRange.firstIp, ipRange.allocationPoolId)
    | none => .error .ipAddressGenerationFailure

/-- `create_allocation`; the address is part of the primary key. -/
def createAllocation (s : IpamSubnet) (ip : IPAddress) : Except IpamError IpamSubnet :=
  if ip ∈ s.allocations then .error .dbDuplicateEntry else .ok { s with allocations := ip :: s.allocations }

inductive AddressRequest
  | specific (address : IPAddress)
  /-- any address; `row` is the row that the database returns first -/
  | any (row : ℕ)
  deriving DecidableEq

/-- `allocate`. -/
def allocate (s : IpamSubnet) : AddressRequest → Except IpamError (IpamSubnet × IPAddress)
  | .specific ip => do
    -- `_verify_ip`
    if ip ∈ s.allocations then throw .ipAddressAlreadyAllocated
    if !checkSubnetIp s.cidr ip then throw .invalidIpForSubnet
    let s ← s.allocateSpecificIp ip none false
    let s ← s.createAllocation ip
    return (s, ip)
  | .any row => do
    let (s, ip, allPoolId) ← s.generateIp row
    let s ← s.allocateSpecificIp ip (some allPoolId) true
    let s ← s.createAllocation ip
    return (s, ip)

/-- `deallocate`. -/
def deallocate (s : IpamSubnet) (ip : IPAddress) : Except IpamError IpamSubnet :=
  if ip ∈ s.allocations then .ok { s with allocations := s.allocations.filter (· ≠ ip) }
  else .error .ipAddressAllocationNotFound

/-- `_no_pool_changes`. -/
def noPoolChanges (s : IpamSubnet) (pools : List (ℕ × ℕ)) : Bool :=
  pools.map (fun pool => (s.cidr.v6, pool.1, pool.2)) =
    s.pools.map fun pool => (pool.firstIp.v6, pool.firstIp.value, pool.lastIp.value)

/-- `update_allocation_pools`; the ranges of a pool are deleted with it. -/
def updateAllocationPools (s : IpamSubnet) (pools : List (ℕ × ℕ)) : IpamSubnet :=
  if s.noPoolChanges pools then s else createAllocationPools { s with pools := [], ranges := [] } pools

/-! ## 3. Runs -/

inductive Action
  | allocate (request : AddressRequest)
  | deallocate (ip : IPAddress)
  | updateAllocationPools (pools : List (ℕ × ℕ))
  deriving DecidableEq

/-- One operation; not enabled where it raises. -/
def step (s : IpamSubnet) : Action → Option IpamSubnet
  | .allocate request => ((s.allocate request).toOption).map Prod.fst
  | .deallocate ip => (s.deallocate ip).toOption
  | .updateAllocationPools pools => some (s.updateAllocationPools pools)

end IpamSubnet

end Mitaka.Neutron
