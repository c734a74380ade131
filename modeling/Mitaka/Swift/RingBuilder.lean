/-
  Subject: swift/common/ring/builder.py: the devices and tiers of a `RingBuilder`, and
           `_build_weighted_replicas_by_tier`.

  Numbers are exact. The loop of `_build_weighted_replicas_by_tier` keeps a dictionary of
  the replicas of each device and a list of the devices that still have room; `fuel` bounds
  its rounds.
-/
import Mitaka.Lib.Dict
import Mitaka.Lib.Table

namespace Mitaka.Swift.Ring

/-! ## 1. Devices and tiers -/

structure Dev where
  id : ℕ
  region : ℕ
  zone : ℕ
  ip : String
  weight : ℚ
  deriving DecidableEq

/-- A tuple of at most four entries. -/
inductive Tier
  | cluster
  | region (region : ℕ)
  | zone (region zone : ℕ)
  | server (region zone : ℕ) (ip : String)
  | device (region zone : ℕ) (ip : String) (id : ℕ)
  deriving DecidableEq

/-- `len(tier)`. -/
def Tier.len : Tier → ℕ
  | .cluster => 0
  | .region _ => 1
  | .zone _ _ => 2
  | .server _ _ _ => 3
  | .device _ _ _ _ => 4

/-- `dev_tier`. -/
def Dev.tier (d : Dev) : Tier := .device d.region d.zone d.ip d.id

/-- `dev_tier[:i]`, for every `i`. -/
def Dev.tiers (d : Dev) : List Tier :=
  [.cluster, .region d.region, .zone d.region d.zone, .server d.region d.zone d.ip, d.tier]

/-- A builder, as far as its plan depends on it. A device stands in `devs` at its id. -/
structure Builder where
  partPower : ℕ
  replicas : ℚ
  devs : List (Option Dev)
  ids : ∀ (i : ℕ) d, devs[i]? = some (some d) → d.id = i

/-- `parts`. -/
def Builder.parts (b : Builder) : ℕ := 2 ^ b.partPower

/-- `_iter_devs`. -/
def Builder.iterDevs (b : Builder) : List Dev := b.devs.reduceOption

inductive RingError
  | emptyRing
  | zeroDivision
  /-- `RingValidationError`: the replicas at a tier, those of the ring and the name of the tier -/
  | validation (replicasAtTier replicas : ℚ) (tierName : String)
  deriving DecidableEq

/-! ## 2. `_build_weighted_replicas_by_tier` -/

/-- `1e-10`. -/
def eps : ℚ := 1 / 10 ^ 10

/-- `weight_of_one_part`. -/
def Builder.weightOfOnePart (b : Builder) : Except RingError ℚ :=
  let total := (b.iterDevs.map Dev.weight).sum
  if total = 0 then .error .emptyRing else .ok (b.parts * b.replicas / total)

/-- `weighted_replicas_for_dev[d]`. -/
def forDevice (replicasForDev : Dict ℕ ℚ) (d : ℕ) : ℚ := (replicasForDev.get d).getD 0

/-- The first loop: what each device gets by its weight, and the devices with room. -/
def assignByWeight (parts : ℕ) (weightOfOnePart : ℚ) (devs : List Dev) : Dict ℕ ℚ × List ℕ :=
  devs.foldl (fun acc dev =>
    if dev.weight = 0 then acc
    else
      let weightedReplicas := dev.weight * weightOfOnePart / parts
      if weightedReplicas < 1 then (acc.1.set dev.id weightedReplicas, acc.2 ++ [dev.id])
      else (acc.1.set dev.id 1, acc.2)) ([], [])

/-- The assignments of one round to the devices with room. -/
def stretch (relWeight : ℚ) (replicasForDev : Dict ℕ ℚ) (devicesWithRoom : List ℕ) : Dict ℕ ℚ :=
  devicesWithRoom.foldl (fun acc d => acc.set d (min 1 (forDevice acc d * (relWeight + 1)))) replicasForDev

/-- The `while` loop. -/
def spreadReplicas (replicas : ℚ) : ℕ → Dict ℕ ℚ → List ℕ → Option (Except RingError (Dict ℕ ℚ))
  | 0, _, _ => none
  | fuel + 1, replicasForDev, devicesWithRoom =>
    let remaining := replicas - (replicasForDev.map Prod.snd).sum
    if remaining < eps then some (.ok replicasForDev)
    else
      let devicesWithRoom := devicesWithRoom.filter fun d => forDevice replicasForDev d < 1
      let total := (devicesWithRoom.map (forDevice replicasForDev)).sum
      if total = 0 then some (.error .zeroDivision)
      else spreadReplicas replicas fuel (stretch (remaining / total) replicasForDev devicesWithRoom) devicesWithRoom

/-- The sums over the devices of each tier. -/
def sumByTier (devs : List Dev) (replicasForDev : Dict ℕ ℚ) : Dict Tier ℚ :=
  devs.foldl (fun acc dev =>
    if dev.weight = 0 then acc
    else dev.tiers.foldl (fun acc tier => acc.set tier ((acc.get tier).getD 0 + forDevice replicasForDev dev.id)) acc) []

/-- `tiers`, with their lengths. -/
def tierNames : List (ℕ × String) := [(0, "cluster"), (1, "regions"), (2, "zones"), (3, "servers"), (4, "devices")]

/-- `replicas_at_tier`. -/
def replicasAtTier (replicasByTier : Dict Tier ℚ) (len : ℕ) : ℚ :=
  ((replicasByTier.filter fun e => e.1.len = len).map Prod.snd).sum

/-- At every level the replicas are those of the ring. -/
def checkTotals (replicas : ℚ) (replicasByTier : Dict Tier ℚ) : Except RingError (Dict Tier ℚ) :=
  match tierNames.find? fun e => eps < |replicas - replicasAtTier replicasByTier e.1| with
  | some (len, name) => .error (.validation (replicasAtTier replicasByTier len) replicas name)
  | none => .ok replicasByTier

/-- `_build_weighted_replicas_by_tier`; nothing where the loop has not ended. -/
def Builder.buildWeightedReplicasByTier (b : Builder) (fuel : ℕ) : Option (Except RingError (Dict Tier ℚ)) :=
  match b.weightOfOnePart with
  | .error e => some (.error e)
  | .ok weightOfOnePart =>
    let (replicasForDev, devicesWithRoom) := assignByWeight b.parts weightOfOnePart b.iterDevs
    (spreadReplicas b.replicas fuel replicasForDev devicesWithRoom).map fun r =>
      r.bind fun replicasForDev => checkTotals b.replicas (sumByTier b.iterDevs replicasForDev)

end Mitaka.Swift.Ring
