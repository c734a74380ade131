/-
  Subject: swift/common/ring/builder.py, `RingBuilder.rebalance`: the gatherers of
           replicas that should move, and `_reassign_parts`.

  The fields of a device that a rebalance changes, `parts` and `parts_wanted`, are maps
  from its id (`Work`); the device itself goes when it is removed. What `random` decides
  is an argument (`Choices`). An exception in the middle leaves the table as it is then.
-/
import Mitaka.Swift.PartsWanted

namespace Mitaka.Swift.Ring

/-! ## 1. The builder and its table -/

/-- The entry of a replica that is on no device. -/
def NONE_DEV : ℕ := 2 ^ 16 - 1

def MAX_BALANCE_GATHER_COUNT : ℕ := 3

/-- A builder with its assignments. The ids of devices fit into the entries of the table,
    and only devices of the builder are removed. -/
structure RingBuilder extends Builder where
  minPartHours : ℕ
  overload : ℚ
  replica2part2dev : Option (List (List ℕ))
  lastPartMoves : Option (List ℕ)
  lastPartMovesEpoch : ℤ
  lastPartGatherStart : ℕ
  removeDevs : List ℕ
  devParts : ℕ → ℤ
  fits : devs.length ≤ NONE_DEV
  removes : ∀ d ∈ removeDevs, d < devs.length

/-- What a rebalance works on. -/
structure Work where
  replica2part2dev : List (List ℕ)
  lastPartMoves : List ℕ
  lastPartGatherStart : ℕ
  devParts : ℕ → ℤ
  partsWanted : ℕ → ℚ
  assignParts : Dict ℕ (List ℕ)

inductive RebalanceError
  /-- 'Replica count of %s requires more than %s devices' -/
  | tooFewDevices (replicas : ℚ) (numDevices : ℕ)
  | plan (e : PlanError)
  /-- `self.devs[dev_id]` is `None`, or there is no such entry -/
  | noDevice (id : ℕ)
  /-- 'no home for %s/%s' -/
  | noHome (part replica : ℕ)
  deriving DecidableEq

/-- An exception, with what there was when it was raised. -/
abbrev Raising (α : Type) : Type := Except (RebalanceError × Work) α

/-- `self.devs[dev_id]`, to read a field of it. -/
def devAt (devs : List (Option Dev)) (id : ℕ) : Except RebalanceError Dev :=
  match devs[id]? with
  | some (some d) => .ok d
  | _ => .error (.noDevice id)

/-- `self._replica2part2dev[replica][part]`, where there is such an entry. -/
def slot (table : List (List ℕ)) (replica part : ℕ) : Option ℕ := (table[replica]?).bind (·[part]?)

def setSlot (table : List (List ℕ)) (replica part dev : ℕ) : List (List ℕ) :=
  table.modify replica fun part2dev => part2dev.set part dev

/-- The hours since a part was last moved. -/
def age (lastPartMoves : List ℕ) (part : ℕ) : ℕ := lastPartMoves.getD part 0

/-- `assign_parts[part].append(replica)`. -/
def appendTo (assignParts : Dict ℕ (List ℕ)) (part replica : ℕ) : Dict ℕ (List ℕ) :=
  assignParts.set part ((assignParts.get part).getD [] ++ [replica])

/-- The replicas of a part that are on a device, with its id: `_replicas_for_part` without
    `NONE_DEV`, and in the same order `_devs_for_part`. -/
def heldSlots (table : List (List ℕ)) (part : ℕ) : List (ℕ × ℕ) :=
  table.zipIdx.filterMap fun e => (e.1[part]?).bind fun d => if d = NONE_DEV then none else some (e.2, d)

/-- The same, with the devices. -/
def held (devs : List (Option Dev)) (table : List (List ℕ)) (part : ℕ) :
    Except RebalanceError (List (Dev × ℕ)) :=
  (heldSlots table part).mapM fun s => (devAt devs s.2).map fun d => (d, s.1)

/-- `replicas_at_tier[tier] += n`, for the tiers of a device. -/
def countTiers (n : ℤ) (dev : Dev) (atTier : Tier → ℤ) : Tier → ℤ :=
  fun t => if t ∈ dev.tiersForDev then atTier t + n else atTier t

/-- `replicas_at_tier`. -/
def replicasAtTiers (held : List (Dev × ℕ)) : Tier → ℤ :=
  held.foldl (fun atTier dr => countTiers 1 dr.1 atTier) fun _ => 0

/-! ## 2. Before the gatherers -/

/-- `_update_last_part_moves`. -/
def updateLastPartMoves (now epoch : ℤ) (lastPartMoves : List ℕ) : List ℕ :=
  let elapsedHours := (now - epoch) / 3600
  if elapsedHours ≤ 0 then lastPartMoves
  else lastPartMoves.map fun last =>
    if last + elapsedHours.toNat < 0xff then last + elapsedHours.toNat else 0xff

/-- `desired_lengths`. -/
def desiredLengths (replicas : ℚ) (parts : ℕ) : List ℕ :=
  List.replicate ⌊replicas⌋.toNat parts ++
    if Int.fract replicas = 0 then [] else [⌊parts * Int.fract replicas⌋.toNat]

/-- A row of the table, cut or filled up to the desired length. -/
def resize (part2dev : List ℕ) (desiredLength : ℕ) : List ℕ :=
  part2dev.take desiredLength ++ List.replicate (desiredLength - part2dev.length) NONE_DEV

/-- The entries that are cut off. -/
def cutOff (table : List (List ℕ)) (desired : List ℕ) : List ℕ :=
  (table.drop desired.length).flatten ++
    (desired.zipIdx.flatMap fun e => (table.getD e.2 []).drop e.1)

/-- The entries that are new, as parts and replicas. -/
def newEntries (table : List (List ℕ)) (desired : List ℕ) : List (ℕ × ℕ) :=
  desired.zipIdx.flatMap fun e =>
    (List.range' (table.getD e.2 []).length (e.1 - (table.getD e.2 []).length)).map fun part => (part, e.2)

/-- `_adjust_replica2part2dev_size`. -/
def adjustReplica2part2devSize (devs : List (Option Dev)) (desired : List ℕ) (w : Work) : Raising Work :=
  match (cutOff w.replica2part2dev desired).foldlM (fun parts id => (devAt devs id).map fun d =>
    Function.update parts d.id (parts d.id - 1)) w.devParts with
  | .error e => .error (e, w)
  | .ok devParts => .ok { w with
      replica2part2dev := desired.zipIdx.map fun e => resize (w.replica2part2dev.getD e.2 []) e.1
      devParts := devParts
      assignParts := (newEntries w.replica2part2dev desired).foldl (fun assignParts e =>
        appendTo assignParts e.1 e.2) w.assignParts }

/-- `_each_part_replica`. -/
def eachPartReplica (table : List (List ℕ)) : List (ℕ × ℕ) :=
  table.zipIdx.flatMap fun e => (List.range e.1.length).map fun part => (part, e.2)

/-- One entry of the loop over the replicas on removed devices. -/
def gatherFailed (devIds : List ℕ) (w : Work) (e : ℕ × ℕ) : Work :=
  match slot w.replica2part2dev e.2 e.1 with
  | none => w
  | some devId =>
    if devId ∈ devIds then
      { w with
        replica2part2dev := setSlot w.replica2part2dev e.2 e.1 NONE_DEV
        lastPartMoves := w.lastPartMoves.set e.1 0
        assignParts := appendTo w.assignParts e.1 e.2 }
    else w

/-- `_gather_parts_from_failed_devices`. -/
def gatherPartsFromFailedDevices (removeDevs : List ℕ) (w : Work) : Work :=
  let devIds := removeDevs.filter fun d => w.devParts d ≠ 0
  (eachPartReplica w.replica2part2dev).foldl (gatherFailed devIds) w

/-- The devices without the removed ones. -/
def withoutDevs (devs : List (Option Dev)) (removeDevs : List ℕ) : List (Option Dev) :=
  removeDevs.foldl (fun devs id => devs.set id none) devs

/-! ## 3. Gathering -/

/-- A replica is taken off its device and the part counts as moved. -/
def Work.pick (w : Work) (part : ℕ) (dev : Dev) (replica : ℕ) : Work where
  replica2part2dev := setSlot w.replica2part2dev replica part NONE_DEV
  lastPartMoves := w.lastPartMoves.set part 0
  lastPartGatherStart := w.lastPartGatherStart
  devParts := Function.update w.devParts dev.id (w.devParts dev.id - 1)
  partsWanted := Function.update w.partsWanted dev.id (w.partsWanted dev.id + 1)
  assignParts := appendTo w.assignParts part replica

/-- `sort(key=lambda dr: dr[0]['parts_wanted'])`. -/
def sortByWanted (w : Work) (l : List (Dev × ℕ)) : List (Dev × ℕ) :=
  l.insertionSort fun x y => w.partsWanted x.1.id ≤ w.partsWanted y.1.id

section Gather

variable (devs : List (Option Dev)) (plan : Dict Tier TierPlan) (minPartHours : ℕ)

/-- One replica of `_gather_parts_for_dispersion`: min_part_hours is ignored when the device
    has more than one replica of the part. -/
def disperseReplica (part : ℕ) (acc : Work × (Tier → ℤ)) (dr : Dev × ℕ) : Work × (Tier → ℤ) :=
  if age acc.1.lastPartMoves part < minPartHours ∧ ¬ 1 < acc.2 dr.1.tier then acc
  else (acc.1.pick part dr.1 dr.2, countTiers (-1) dr.1 acc.2)

/-- One part of `_gather_parts_for_dispersion`. -/
def dispersePart (w : Work) (part : ℕ) : Raising Work :=
  if age w.lastPartMoves part < minPartHours then .ok w
  else
    match held devs w.replica2part2dev part with
    | .error e => .error (e, w)
    | .ok held =>
      let atTier := replicasAtTiers held
      let undispersed := held.filter fun dr =>
        ¬ dr.1.tiersForDev.all fun t => atTier t ≤ (planAt plan t).max
      .ok ((sortByWanted w undispersed).foldl (disperseReplica minPartHours part) (w, atTier)).1

/-- `_gather_parts_for_dispersion`. -/
def gatherPartsForDispersion (parts : ℕ) (w : Work) : Raising Work :=
  (List.range parts).foldlM (dispersePart devs plan minPartHours) w

/-- One replica on an overweight device: it is taken when no other one of the part was, and
    its tiers let it go. -/
def balanceReplica (stays : (Tier → ℤ) → Dev → Bool) (part : ℕ) (acc : Work × (Tier → ℤ)) (dr : Dev × ℕ) :
    Work × (Tier → ℤ) :=
  if age acc.1.lastPartMoves part < minPartHours then acc
  else if stays acc.2 dr.1 then acc
  else (acc.1.pick part dr.1 dr.2, countTiers (-1) dr.1 acc.2)

/-- One part of the two gatherers below. -/
def balancePart (stays : (Tier → ℤ) → Dev → Bool) (w : Work) (part : ℕ) : Raising Work :=
  if age w.lastPartMoves part < minPartHours then .ok w
  else
    match held devs w.replica2part2dev part with
    | .error e => .error (e, w)
    | .ok held =>
      let overweight := held.filter fun dr => w.partsWanted dr.1.id < 0
      .ok ((sortByWanted w overweight).foldl (balanceReplica minPartHours stays part)
        (w, replicasAtTiers held)).1

/-- The parts from `start` on, round the ring. -/
def partsFrom (parts start : ℕ) : List ℕ := (List.range parts).map fun offset => (start + offset) % parts

/-- `_gather_parts_for_balance_can_disperse`: a replica stays when one of its tiers has no
    fewer than its least and fewer than its most replicas. -/
def gatherPartsForBalanceCanDisperse (parts start : ℕ) (w : Work) : Raising Work :=
  (partsFrom parts start).foldlM (balancePart devs minPartHours fun atTier dev =>
    dev.tiersForDev.any fun t => (planAt plan t).min ≤ atTier t ∧ atTier t < (planAt plan t).max) w

/-- `_gather_parts_for_balance_forced`: no replica stays. -/
def gatherPartsForBalanceForced (parts start : ℕ) (w : Work) : Raising Work :=
  (partsFrom parts start).foldlM (balancePart devs minPartHours fun _ _ => false) w

/-- `_gather_parts_for_balance`, with the random half turn. -/
def gatherPartsForBalance (parts randomHalf : ℕ) (w : Work) : Raising Work := do
  let start := (w.lastPartGatherStart + parts / 4 + randomHalf) % parts
  let w ← gatherPartsForBalanceCanDisperse devs plan minPartHours parts start
    { w with lastPartGatherStart := start }
  if w.assignParts = [] then gatherPartsForBalanceForced devs minPartHours parts start w else return w

end Gather

/-! ## 4. `_reassign_parts` -/

/-- The random numbers of one round: the half turn, the order of the parts, and the
    second entry of a device's sort key. -/
structure Choices where
  randomHalf : ℕ
  shuffle : List (ℕ × List ℕ) → List (ℕ × List ℕ)
  perm : ∀ l, (shuffle l).Perm l
  sortKey : ℕ → ℕ

/-- `_sort_key_for`, compared. -/
def sortKeyLe (wanted : ℕ → ℚ) (sortKey : ℕ → ℕ) (d d' : Dev) : Bool :=
  wanted d.id < wanted d'.id || wanted d.id = wanted d'.id &&
    (sortKey d.id < sortKey d'.id || sortKey d.id = sortKey d'.id && d.id ≤ d'.id)

/-- `available_devs`. -/
def availableDevs (devs : List (Option Dev)) (wanted : ℕ → ℚ) (sortKey : ℕ → ℕ) : List Dev :=
  (devs.reduceOption.filter fun d => d.weight ≠ 0).insertionSort fun d d' => sortKeyLe wanted sortKey d d'

/-- `tier2children[tier]`, by the greatest sort key of their devices. -/
def childTiers (available : List Dev) (tier : Tier) : List Tier :=
  (available.filterMap fun d => d.childOf tier).dedup

/-- `parts_available_in_tier`. -/
def partsAvailable (devs : List (Option Dev)) (wanted : ℕ → ℚ) : Tier → ℚ :=
  devs.reduceOption.foldl (fun room d => fun t =>
    if t ∈ d.tiersForDev then room t + max (wanted d.id) 0 else room t) fun _ => 0

/-- The way down from a tier: the roomiest of the children that may take a replica. -/
def findTier (available : List Dev) (plan : Dict Tier TierPlan) (atTier : Tier → ℤ) (room : Tier → ℚ) :
    ℕ → Tier → Option Tier
  | 0, tier => some tier
  | n + 1, tier =>
    (((childTiers available tier).filter fun t => atTier t < (planAt plan t).max).argmax room).bind
      (findTier available plan atTier room n)

/-- A new home for one replica. -/
def placeReplica (available : List Dev) (plan : Dict Tier TierPlan) (part : ℕ)
    (acc : Work × (Tier → ℚ) × (Tier → ℤ)) (replica : ℕ) : Raising (Work × (Tier → ℚ) × (Tier → ℤ)) :=
  let (w, room, atTier) := acc
  match (findTier available plan atTier room 4 .cluster).bind fun tier =>
    (available.filter fun d => tier ∈ d.tiersForDev).getLast? with
  | none => .error (.noHome part replica, w)
  | some dev => .ok
    ({ w with
        replica2part2dev := setSlot w.replica2part2dev replica part dev.id
        devParts := Function.update w.devParts dev.id (w.devParts dev.id + 1)
        partsWanted := Function.update w.partsWanted dev.id (w.partsWanted dev.id - 1) },
      fun t => if t ∈ dev.tiersForDev then room t - 1 else room t, countTiers 1 dev atTier)

/-- One part of `_reassign_parts`. -/
def reassignPart (devs : List (Option Dev)) (available : List Dev) (plan : Dict Tier TierPlan)
    (acc : Work × (Tier → ℚ)) (e : ℕ × List ℕ) : Raising (Work × (Tier → ℚ)) :=
  let w := { acc.1 with lastPartMoves := acc.1.lastPartMoves.set e.1 0 }
  match held devs w.replica2part2dev e.1 with
  | .error err => .error (err, w)
  | .ok held =>
    (e.2.foldlM (placeReplica available plan e.1) (w, acc.2, replicasAtTiers held)).map fun r => (r.1, r.2.1)

/-- `_reassign_parts`. -/
def reassignParts (devs : List (Option Dev)) (plan : Dict Tier TierPlan) (sortKey : ℕ → ℕ)
    (reassign : List (ℕ × List ℕ)) (w : Work) : Raising Work :=
  let available := availableDevs devs w.partsWanted sortKey
  (reassign.foldlM (reassignPart devs available plan) (w, partsAvailable devs w.partsWanted)).map Prod.fst

/-! ## 5. `rebalance` -/

/-- The rounds of gathering and assigning. -/
def gatherRounds (devs : List (Option Dev)) (plan : Dict Tier TierPlan) (minPartHours parts : ℕ)
    (choices : ℕ → Choices) : ℕ → ℕ → Work → Raising Work
  | 0, _, w => .ok w
  | n + 1, gatherCount, w => do
    let w ← gatherPartsForBalance devs plan minPartHours parts (choices gatherCount).randomHalf w
    if w.assignParts = [] then return w
    let w ← reassignParts devs plan (choices gatherCount).sortKey
      ((choices gatherCount).shuffle w.assignParts) { w with assignParts := [] }
    if devs.reduceOption.all fun d => ¬ w.partsWanted d.id < 0 then return w
    gatherRounds devs plan minPartHours parts choices n (gatherCount + 1) w

/-- How a rebalance ends: refused before it touches the table, or with the last state it
    reached, after an exception or not. -/
inductive Ended
  | refused (e : RebalanceError)
  | reached (error : Option RebalanceError) (w : Work)

def Ended.of : Raising Work → Ended
  | .ok w => .reached none w
  | .error (e, w) => .reached (some e) w

/-- `_last_part_moves` after `_update_last_part_moves`. -/
def RingBuilder.updatedMoves (b : RingBuilder) (now : ℤ) : List ℕ :=
  updateLastPartMoves now b.lastPartMovesEpoch (b.lastPartMoves.getD (List.replicate b.parts 0))

/-- `_replica2part2dev`, empty before the first rebalance. -/
def RingBuilder.table (b : RingBuilder) : List (List ℕ) := b.replica2part2dev.getD []

/-- The work a rebalance starts with. -/
def RingBuilder.start (b : RingBuilder) (now : ℤ) (partsWanted : Dev → ℚ) : Work where
  replica2part2dev := b.table
  lastPartMoves := b.updatedMoves now
  lastPartGatherStart := b.lastPartGatherStart
  devParts := b.devParts
  partsWanted id := match devAt b.devs id with
    | .ok d => partsWanted d
    | .error _ => 0
  assignParts := []

/-- All that a rebalance does to the table. -/
def RingBuilder.move (b : RingBuilder) (now : ℤ) (choices : ℕ → Choices) (plan : Dict Tier TierPlan)
    (partsWanted : Dev → ℚ) : Raising Work := do
  let w ← adjustReplica2part2devSize b.devs (desiredLengths b.replicas b.parts) (b.start now partsWanted)
  let w := gatherPartsFromFailedDevices b.removeDevs w
  let devs := withoutDevs b.devs b.removeDevs
  let w ← gatherPartsForDispersion devs plan b.minPartHours b.parts w
  gatherRounds devs plan b.minPartHours b.parts choices MAX_BALANCE_GATHER_COUNT 0 w

/-- `rebalance`; nothing where a loop of the plan has not ended. -/
def RingBuilder.rebalance (b : RingBuilder) (fuel : ℕ) (now : ℤ) (choices : ℕ → Choices) : Option Ended :=
  let numDevices := (b.iterDevs.filter fun d => 0 < d.weight).length
  if (numDevices : ℚ) < b.replicas then some (.refused (.tooFewDevices b.replicas numDevices))
  else
    (b.buildReplicaPlan b.overload fuel).run.map fun
      | .error e => .refused (.plan e)
      | .ok plan =>
        match b.setPartsWanted b.devParts plan with
        | .error e => .refused (.plan e)
        | .ok partsWanted => .of (b.move now choices plan partsWanted)

end Mitaka.Swift.Ring
