/-
  Subject: swift/common/ring/builder.py: the replica plan of a `RingBuilder` and the
           parts its devices want.

  Numbers are exact. `fuel` bounds the rounds of each `while` loop; the walks over the
  tiers go down one level a step, and there are four.
-/
import Mitaka.Swift.WeightedReplicas

namespace Mitaka.Swift.Ring

/-! ## 1. The tree of tiers -/

/-- `tiers_for_dev`. -/
def Dev.tiersForDev (d : Dev) : List Tier := d.tiers.tail

/-- The child of `tier` that the device is in. -/
def Dev.childOf (d : Dev) (tier : Tier) : Option Tier :=
  ((d.tiers.zip d.tiersForDev).find? fun e => e.1 = tier).map Prod.snd

/-- The order of two children of one tier: they differ in the last entry only. -/
def Tier.le : Tier → Tier → Bool
  | .region r, .region r' => r ≤ r'
  | .zone _ z, .zone _ z' => z ≤ z'
  | .server _ _ ip, .server _ _ ip' => ip ≤ ip'
  | .device _ _ _ id, .device _ _ _ id' => id ≤ id'
  | _, _ => true

/-- `sorted(tier2children[tier])`, of the devices with a weight. -/
def Builder.subTiers (b : Builder) (tier : Tier) : List Tier :=
  (((b.iterDevs.filter fun d => d.weight ≠ 0).filterMap fun d => d.childOf tier).dedup).insertionSort
    fun t t' => t.le t'

/-! ## 2. `_build_max_replicas_by_tier` and `_build_wanted_replicas_by_tier` -/

inductive PlanError
  | ring (e : RingError)
  /-- 'More than replicanths (%s) than devices (%s) in tier (%s)' -/
  | moreThanDevices (replicanths : ℚ) (devices : ℕ) (tier : Tier)
  /-- 'Device %s has zero weight and should not want any replicas' -/
  | zeroWeight (tier : Tier)
  /-- '%s != %s at tier %s' -/
  | partsAtTier (partsAtTier totalParts : ℤ) (tierName : String)
  deriving DecidableEq

/-- A computation that has not ended, that has raised, or that has a result. -/
abbrev Planned (α : Type) : Type := ExceptT PlanError Option α

/-- The fuel has run out. -/
def notEnded {α : Type} : Planned α := ExceptT.mk none

def ofRing {α : Type} (r : Option (Except RingError α)) : Planned α := ExceptT.mk (r.map (·.mapError .ring))

/-- `walk_tree`. -/
def walkTree (bound : ℚ → ℚ) (subTiers : Tier → List Tier) : ℕ → Tier → ℚ → Dict Tier ℚ
  | 0, tier, replicaCount => [(tier, if tier.len = 4 then min 1 replicaCount else replicaCount)]
  | n + 1, tier, replicaCount =>
    let replicaCount := if tier.len = 4 then min 1 replicaCount else replicaCount
    (tier, replicaCount) :: (subTiers tier).flatMap fun subTier =>
      walkTree bound subTiers n subTier (bound (replicaCount / (subTiers tier).length))

/-- `_build_max_replicas_by_tier`. -/
def Builder.buildMaxReplicasByTier (b : Builder) (bound : ℚ → ℚ) : Dict Tier ℚ :=
  walkTree bound b.subTiers 4 .cluster b.replicas

/-- `num_devices`. -/
def Builder.numDevices (b : Builder) (tier : Tier) : ℕ :=
  (b.iterDevs.filter fun d => 0 < d.weight ∧ tier ∈ d.tiers).length

/-- What `place_replicas` reads: the weighted replicas, the least and the greatest
    dispersed ones, and the numbers of devices. -/
structure Bounds where
  weighted : Tier → ℚ
  dispersedMin : Tier → ℚ
  dispersedMax : Tier → ℚ
  numDevices : Tier → ℕ

/-- One round over `tiers_to_spread`. -/
def Bounds.spread (c : Bounds) (relWeight : ℚ) (deviceLimited : Bool) (toPlace : Dict Tier ℚ)
    (tiersToSpread : List Tier) : Dict Tier ℚ :=
  tiersToSpread.foldl (fun toPlace t =>
    let replicas := valueAt toPlace t + c.weighted t * relWeight
    let replicas :=
      if replicas < c.dispersedMin t then c.dispersedMin t
      else if c.dispersedMax t < replicas ∧ deviceLimited = false then c.dispersedMax t
      else replicas
    toPlace.set t (if (c.numDevices t : ℚ) < replicas then c.numDevices t else replicas)) toPlace

/-- The `while` loop of `place_replicas`. -/
def Bounds.placeLoop (c : Bounds) (replicanths : ℚ) (subTiers : List Tier) :
    ℕ → ℚ → List Tier → Bool → Dict Tier ℚ → Planned (Dict Tier ℚ)
  | 0, _, _, _, _ => notEnded
  | fuel + 1, remaining, tiersToSpread, deviceLimited, toPlace =>
    let total := (tiersToSpread.map c.weighted).sum
    if total = 0 then throw (.ring .zeroDivision)
    else
      let toPlace := c.spread (remaining / total) deviceLimited toPlace tiersToSpread
      let remaining := replicanths - (toPlace.map Prod.snd).sum
      if remaining < -eps then
        c.placeLoop replicanths subTiers fuel remaining
          (subTiers.filter fun t => c.dispersedMin t < valueAt toPlace t) deviceLimited toPlace
      else if eps < remaining then
        let roomy := subTiers.filter fun t =>
          valueAt toPlace t < c.numDevices t ∧ valueAt toPlace t < c.dispersedMax t
        if roomy = [] then
          c.placeLoop replicanths subTiers fuel remaining
            (subTiers.filter fun t => valueAt toPlace t < c.numDevices t) true toPlace
        else c.placeLoop replicanths subTiers fuel remaining roomy deviceLimited toPlace
      else pure toPlace

/-- `place_replicas`: a tier, and then its sub-tiers. -/
def Bounds.placeReplicas (c : Bounds) (subTiers : Tier → List Tier) (fuel : ℕ) :
    ℕ → Dict Tier ℚ → Tier → ℚ → Planned (Dict Tier ℚ)
  | 0, wanted, tier, replicanths =>
    if (c.numDevices tier : ℚ) < replicanths then throw (.moreThanDevices replicanths (c.numDevices tier) tier)
    else pure (wanted.set tier replicanths)
  | n + 1, wanted, tier, replicanths => do
    if (c.numDevices tier : ℚ) < replicanths then throw (.moreThanDevices replicanths (c.numDevices tier) tier)
    let wanted := Dict.set wanted tier replicanths
    if subTiers tier = [] then return wanted
    let toPlace ← c.placeLoop replicanths (subTiers tier) fuel replicanths (subTiers tier) false []
    (subTiers tier).foldlM (fun wanted t => c.placeReplicas subTiers fuel n wanted t (valueAt toPlace t)) wanted

/-- `_build_wanted_replicas_by_tier`. -/
def Builder.buildWantedReplicasByTier (b : Builder) (fuel : ℕ) : Planned (Dict Tier ℚ) := do
  let weighted ← ofRing (b.buildWeightedReplicasByTier fuel)
  let maxReplicas := b.buildMaxReplicasByTier id
  let bounds : Bounds :=
    { weighted := valueAt weighted
      dispersedMin := fun t => (⌊valueAt maxReplicas t⌋ : ℚ)
      dispersedMax := fun t => (⌈valueAt maxReplicas t⌉ : ℚ)
      numDevices := b.numDevices }
  let wanted ← bounds.placeReplicas b.subTiers fuel 4 [] .cluster b.replicas
  ofRing (some (checkTotals b.replicas wanted))

/-! ## 3. The replica plan -/

/-- `get_required_overload`. -/
def Builder.getRequiredOverload (b : Builder) (weighted wanted : Dict Tier ℚ) : Except PlanError ℚ :=
  b.iterDevs.foldlM (fun maxOverload dev =>
    if dev.weight = 0 then
      if valueAt wanted dev.tier = 0 then .ok maxOverload else .error (.zeroWeight dev.tier)
    else if valueAt weighted dev.tier = 0 then .error (.ring .zeroDivision)
    else
      let required := (valueAt wanted dev.tier - valueAt weighted dev.tier) / valueAt weighted dev.tier
      .ok (if maxOverload < required then required else maxOverload)) 0

/-- `_build_target_replicas_by_tier`, with the builder's `overload`. -/
def Builder.buildTargetReplicasByTier (b : Builder) (overload : ℚ) (fuel : ℕ) : Planned (Dict Tier ℚ) := do
  let weighted ← ofRing (b.buildWeightedReplicasByTier fuel)
  let wanted ← b.buildWantedReplicasByTier fuel
  let maxOverload ← ExceptT.mk (some (b.getRequiredOverload weighted wanted))
  if maxOverload ≤ 0 then return wanted
  let effective := min overload maxOverload
  let target : Dict Tier ℚ := weighted.map fun e =>
    (e.1, (valueAt wanted e.1 - e.2) / maxOverload * effective + e.2)
  ofRing (some (checkTotals b.replicas target))

/-- The plan of a tier. -/
structure TierPlan where
  min : ℤ
  target : ℚ
  max : ℤ
  deriving DecidableEq

/-- `replica_plan`, zero where it says nothing. -/
def planAt (plan : Dict Tier TierPlan) (tier : Tier) : TierPlan := (plan.get tier).getD ⟨0, 0, 0⟩

/-- `_build_replica_plan`. -/
def Builder.buildReplicaPlan (b : Builder) (overload : ℚ) (fuel : ℕ) : Planned (Dict Tier TierPlan) := do
  let target ← b.buildTargetReplicasByTier overload fuel
  return target.map fun e => (e.1, ⟨⌊e.2 + eps⌋, e.2, ⌈e.2 - eps⌉⟩)

/-! ## 4. `_set_parts_wanted` -/

/-- `parts_by_tier[t]`. -/
def partsAt (partsByTier : Dict Tier ℤ) (tier : Tier) : ℤ := (partsByTier.get tier).getD 0

/-- The floors of the targets, and what is left of `parts`. -/
def placeFloors (plan : Dict Tier TierPlan) (ringParts : ℕ) (subTiers : List Tier) (parts : ℤ) :
    Dict Tier ℤ × ℤ :=
  subTiers.foldl (fun (acc : Dict Tier ℤ × ℤ) t =>
    let placed := min acc.2 ⌊(planAt plan t).target * ringParts⌋
    (acc.1.set t placed, acc.2 - placed)) ([], parts)

/-- The parts left over, one to a tier, round and round. -/
def throwAbout (order : List Tier) (left : ℕ) (toPlace : Dict Tier ℤ) : Dict Tier ℤ :=
  (List.range left).foldl (fun toPlace i =>
    match order[i % order.length]? with
    | some t => toPlace.set t (partsAt toPlace t + 1)
    | none => toPlace) toPlace

/-- `place_parts`. -/
def placeParts (plan : Dict Tier TierPlan) (ringParts : ℕ) (subTiers : Tier → List Tier) :
    ℕ → Dict Tier ℤ → Tier → ℤ → Dict Tier ℤ
  | 0, partsByTier, tier, parts => partsByTier.set tier parts
  | n + 1, partsByTier, tier, parts =>
    let (floors, left) := placeFloors plan ringParts (subTiers tier) parts
    let order := (subTiers tier).insertionSort fun t t' => (planAt plan t).target ≤ (planAt plan t').target
    let toPlace := throwAbout order left.toNat floors
    (subTiers tier).foldl (fun partsByTier t => placeParts plan ringParts subTiers n partsByTier t (partsAt toPlace t))
      (partsByTier.set tier parts)

/-- `int(self.replicas * self.parts)`. -/
def Builder.totalParts (b : Builder) : ℤ := ⌊b.replicas * b.parts⌋

/-- `parts_by_tier`. -/
def Builder.partsByTier (b : Builder) (plan : Dict Tier TierPlan) : Dict Tier ℤ :=
  placeParts plan b.parts b.subTiers 4 [] .cluster b.totalParts

/-- The parts at a level. -/
def partsAtLevel (partsByTier : Dict Tier ℤ) (len : ℕ) : ℤ :=
  ((partsByTier.filter fun e => e.1.len = len).map Prod.snd).sum

/-- `_set_parts_wanted`: the new `parts_wanted` of the devices, from their `parts`. -/
def Builder.setPartsWanted (b : Builder) (devParts : ℕ → ℤ) (plan : Dict Tier TierPlan) :
    Except PlanError (Dev → ℚ) :=
  let partsByTier := b.partsByTier plan
  match tierNames.find? fun e => partsAtLevel partsByTier e.1 ≠ b.totalParts with
  | some (len, name) => .error (.partsAtTier (partsAtLevel partsByTier len) b.totalParts name)
  | none => .ok fun dev =>
    if dev.weight = 0 then -(b.parts * b.replicas) else partsAt partsByTier dev.tier - devParts dev.id

end Mitaka.Swift.Ring
