/-
  Subject: swift/common/ring/builder.py: `get_ring`, which keeps the ring it has built,
           and the calls that change what the ring is built from.

  `none` is a call that raises; it changes nothing. A rebalance is that of
  `RingBuilder.rebalance`: it drops the ring once it has counted the devices.
-/
import Mitaka.Lib.Sweep
import Mitaka.Swift.RebalanceMoves

namespace Mitaka.Swift.Ring

open List

/-! ## 1. The builder with its ring -/

/-- What a ring file holds. -/
structure RingData where
  replica2part2devId : List (List ℕ)
  devs : List (Option Dev)
  partShift : ℤ
  deriving DecidableEq

/-- A builder, as far as `get_ring` depends on it. -/
structure CachingBuilder where
  partPower : ℕ
  devs : List (Option Dev)
  replica2part2dev : Option (List (List ℕ))
  removeDevs : List ℕ
  ring : Option RingData
  ids : AtIds devs

/-- `RingBuilder(part_power, …)`. -/
def CachingBuilder.new (partPower : ℕ) : CachingBuilder where
  partPower := partPower
  devs := []
  replica2part2dev := none
  removeDevs := []
  ring := none
  ids i d h := by simp at h

/-- The devices of a ring, each at its id. -/
def ringDevs (devs : List (Option Dev)) : List (Option Dev) :=
  devs.reduceOption.foldl (fun acc dev => acc.set dev.id (some dev)) (replicate devs.length none)

/-- `get_ring`. -/
def CachingBuilder.getRing (s : CachingBuilder) : RingData × CachingBuilder :=
  match s.ring with
  | some ring => (ring, s)
  | none =>
    let ring : RingData := ⟨s.replica2part2dev.getD [], ringDevs s.devs, 32 - s.partPower⟩
    (ring, { s with ring := some ring })

/-- The id of a device that comes without one: the first hole. -/
def nextId (devs : List (Option Dev)) : ℕ := devs.idxOf none

/-- `self.devs`, with holes up to an id, and a device there. -/
def putDev (devs : List (Option Dev)) (id : ℕ) (dev : Dev) : List (Option Dev) :=
  (devs ++ replicate (id + 1 - devs.length) none).set id (some { dev with id := id })

variable {devs : List (Option Dev)}

theorem AtIds.set (h : AtIds devs) {id : ℕ} {dev : Dev} (hid : dev.id = id) :
    AtIds (devs.set id (some dev)) := by
  intro i d hi
  rw [getElem?_set] at hi
  split at hi
  · next heq =>
    split at hi
    · obtain rfl := Option.some.inj (Option.some.inj hi)
      exact hid.trans heq
    · cases hi
  · exact h i d hi

theorem AtIds.putDev (h : AtIds devs) (id : ℕ) (dev : Dev) :
    AtIds (putDev devs id dev) := by
  refine AtIds.set (fun i d hi => ?_) rfl
  rw [getElem?_append] at hi
  split at hi
  · exact h i d hi
  · rw [getElem?_replicate] at hi
    split at hi
    · cases Option.some.inj hi
    · cases hi

/-- `add_dev`. -/
def CachingBuilder.addDev (s : CachingBuilder) (id : Option ℕ) (dev : Dev) : Option CachingBuilder :=
  let id := id.getD (nextId s.devs)
  if (devAt s.devs id).isOk then none
  else some { s with devs := putDev s.devs id dev, ids := s.ids.putDev id dev }

/-- `self.devs[dev_id]['weight'] = weight`. -/
def CachingBuilder.withWeight (s : CachingBuilder) (id : ℕ) (weight : ℚ) : Option CachingBuilder :=
  match h : s.devs[id]? with
  | some (some d) =>
    some { s with devs := s.devs.set id (some { d with weight := weight }), ids := s.ids.set (s.ids id d h) }
  | _ => none

/-- `set_dev_weight`. -/
def CachingBuilder.setDevWeight (s : CachingBuilder) (id : ℕ) (weight : ℚ) : Option CachingBuilder :=
  if id ∈ s.removeDevs then none else s.withWeight id weight

/-- `remove_dev`. -/
def CachingBuilder.removeDev (s : CachingBuilder) (id : ℕ) : Option CachingBuilder :=
  (s.withWeight id 0).map fun s => { s with removeDevs := s.removeDevs ++ [id] }

/-- Every entry twice. -/
def double (part2dev : List ℕ) : List ℕ := part2dev.flatMap fun dev => [dev, dev]

/-- `increase_partition_power`. -/
def CachingBuilder.increasePartitionPower (s : CachingBuilder) : Option CachingBuilder :=
  s.replica2part2dev.map fun table =>
    { s with replica2part2dev := some (table.map double), partPower := s.partPower + 1 }

inductive Call
  | addDev (id : Option ℕ) (dev : Dev)
  | setDevWeight (id : ℕ) (weight : ℚ)
  | removeDev (id : ℕ)
  | rebalance
  | increasePartitionPower
  | getRing

/-- The calls with one outcome. -/
def CachingBuilder.call (s : CachingBuilder) : Call → Option CachingBuilder
  | .addDev id dev => s.addDev id dev
  | .setDevWeight id weight => s.setDevWeight id weight
  | .removeDev id => s.removeDev id
  | .rebalance => none
  | .increasePartitionPower => s.increasePartitionPower
  | .getRing => some s.getRing.2

/-- What a rebalance may leave, by what `RingBuilder.rebalance` makes of the builder. -/
inductive Rebalances (s : CachingBuilder) (b : RingBuilder) : Ended → CachingBuilder → Prop
  /-- there are too few devices: the ring is not dropped yet -/
  | tooFew {replicas : ℚ} {numDevices : ℕ} : Rebalances s b (.refused (.tooFewDevices replicas numDevices)) s
  | refused {e : PlanError} : Rebalances s b (.refused (.plan e)) { s with ring := none }
  | reached {error : Option RebalanceError} {w : Work} {s' : CachingBuilder} :
      s'.ring = none → s'.partPower = s.partPower → s'.replica2part2dev = some w.replica2part2dev →
      s'.devs = withoutDevs s.devs s.removeDevs ∨ error ≠ none ∧ s'.devs = s.devs →
      Rebalances s b (.reached error w) s'

/-- One call, which may raise. -/
inductive Step (s : CachingBuilder) : Call → CachingBuilder → Prop
  | returns {call : Call} {s' : CachingBuilder} : s.call call = some s' → Step s call s'
  | raises {call : Call} : call ≠ .rebalance → s.call call = none → Step s call s
  | rebalance {b : RingBuilder} {fuel : ℕ} {now : ℤ} {choices : ℕ → Choices} {ended : Ended}
      {s' : CachingBuilder} :
      b.partPower = s.partPower → b.devs = s.devs → b.replica2part2dev = s.replica2part2dev →
      b.removeDevs = s.removeDevs → b.rebalance fuel now choices = some ended →
      Rebalances s b ended s' → Step s .rebalance s'

/-- The calls of a run from a new builder, each with the states before and after it. -/
inductive Trace : List (CachingBuilder × Call × CachingBuilder) → CachingBuilder → Prop
  | new {partPower : ℕ} : partPower ≤ 32 → Trace [] (.new partPower)
  | step {calls : List (CachingBuilder × Call × CachingBuilder)} {s s' : CachingBuilder} {call : Call} :
      Trace calls s → Step s call s' → Trace (calls ++ [(s, call, s')]) s'

/-! ## 2. What a ring is used for -/

/-- The partition of a hash: `>> self._part_shift`, which raises for a negative shift. -/
def RingData.getPart (r : RingData) (hash : ℕ) : Option ℕ :=
  if 0 ≤ r.partShift then some (hash >>> r.partShift.toNat) else none

/-- `_get_part_nodes`; nothing where a device is missing. -/
def RingData.getPartNodes (r : RingData) (part : ℕ) : Option (List Dev) :=
  (sweep (fun id => id) (r.replica2part2devId.filterMap (·[part]?)) []).mapM fun id => r.devs[id]?.join

/-! ## 3. Coherence -/

/-- What the builder has now. -/
def CachingBuilder.current (s : CachingBuilder) : RingData :=
  ⟨s.replica2part2dev.getD [], s.devs, 32 - s.partPower⟩

/-- `get_ring` returns what the builder has now. -/
def CachingBuilder.Coherent (s : CachingBuilder) : Prop := s.getRing.1 = s.current

/-- Every hash has the same devices in two rings. -/
def SameDevices (r r' : RingData) : Prop :=
  ∀ hash < 2 ^ 32, ∃ part part', r.getPart hash = some part ∧ r'.getPart hash = some part' ∧
    r'.getPartNodes part' = r.getPartNodes part

/-- A call keeps its promises: the ring is that of the builder afterwards, and an increase
    of the partition power moves nothing. -/
def Keeps (s : CachingBuilder) (call : Call) (s' : CachingBuilder) : Prop :=
  s'.Coherent ∧ (call = .increasePartitionPower → s.replica2part2dev.isSome = true →
    SameDevices s.getRing.1 s'.getRing.1)

/-- The call changes nothing that a ring is built from. -/
def Call.Idle (s : CachingBuilder) : Call → Prop
  | .addDev id _ => (devAt s.devs (id.getD (nextId s.devs))).isOk = true
  | .setDevWeight id weight => id ∈ s.removeDevs ∨ ∀ d, s.devs[id]? = some (some d) → d.weight = weight
  | .removeDev id => ∀ d, s.devs[id]? = some (some d) → d.weight = 0
  | .rebalance => True
  | .increasePartitionPower => s.replica2part2dev = none
  | .getRing => True

/-- No ring is kept when the call changes what it is built from, and the partition power
    does not go above 32. -/
def Call.InTime (s : CachingBuilder) (call : Call) : Prop :=
  (s.ring = none ∨ call.Idle s) ∧
    (call = .increasePartitionPower → s.replica2part2dev.isSome = true → s.partPower < 32)

theorem ringDevs_eq (hids : AtIds devs) : ringDevs devs = devs := by
  have hfold : ∀ (l : List Dev) (acc : List (Option Dev)), (∀ d ∈ l, devs[d.id]? = some (some d)) →
      acc.length = devs.length →
      ∀ i : ℕ, (l.foldl (fun acc dev => acc.set dev.id (some dev)) acc)[i]? =
        if ∃ d ∈ l, d.id = i then devs[i]? else acc[i]? := by
    intro l
    induction l with
    | nil => intro acc _ _ i; simp
    | cons x l ih =>
      intro acc hl hlen i
      rw [foldl_cons, ih _ (fun d hd => hl d (mem_cons_of_mem _ hd)) (by rwa [length_set])]
      by_cases hrest : ∃ d ∈ l, d.id = i
      · obtain ⟨d, hd, hi⟩ := hrest
        rw [if_pos ⟨d, hd, hi⟩, if_pos ⟨d, mem_cons_of_mem _ hd, hi⟩]
      · rw [if_neg hrest, getElem?_set]
        by_cases hx : x.id = i
        · have hget := hl x mem_cons_self
          rw [if_pos hx, ← hx, hget, if_pos (hlen ▸ (List.getElem?_eq_some_iff.mp hget).1),
            if_pos ⟨x, mem_cons_self, rfl⟩]
        · have hno : ¬ ∃ d ∈ x :: l, d.id = i := fun ⟨d, hd, hi⟩ =>
            (mem_cons.mp hd).elim (fun e => hx (e ▸ hi)) fun hd => hrest ⟨d, hd, hi⟩
          rw [if_neg hx, if_neg hno]
  have hmem : ∀ d, d ∈ devs.reduceOption ↔ devs[d.id]? = some (some d) := fun d => by
    rw [reduceOption_mem_iff, mem_iff_getElem?]
    exact ⟨fun ⟨i, hi⟩ => hids i d hi ▸ hi, fun h => ⟨d.id, h⟩⟩
  refine ext_getElem? fun i => ?_
  rw [ringDevs, hfold _ _ (fun d hd => (hmem d).mp hd) (length_replicate)]
  split
  · rfl
  · next hno =>
    rw [getElem?_replicate]
    split
    · next hlt =>
      cases hd : devs[i] with
      | none => rw [getElem?_eq_getElem hlt, hd]
      | some d =>
        have hget : devs[i]? = some (some d) := by rw [getElem?_eq_getElem hlt, hd]
        exact absurd ⟨d, (hmem d).mpr (hids i d hget ▸ hget), hids i d hget⟩ hno
    · next hge => rw [getElem?_eq_none (not_lt.mp hge)]

variable {s : CachingBuilder}

theorem coherent_iff : s.Coherent ↔ ∀ ring ∈ s.ring, ring = s.current := by
  rw [CachingBuilder.Coherent, CachingBuilder.getRing]
  cases s.ring with
  | some ring => simp
  | none => simp [ringDevs_eq s.ids, CachingBuilder.current]

/-! ## 4. One call -/

theorem devAt_isOk {id : ℕ} :
    (devAt devs id).isOk = true ↔ ∃ d, devs[id]? = some (some d) := by
  constructor
  · intro h
    cases hd : devAt devs id with
    | ok d => exact ⟨d, devAt_eq_ok.mp hd⟩
    | error e => rw [hd] at h; cases h
  · rintro ⟨d, hd⟩
    rw [devAt_eq_ok.mpr hd]
    rfl

theorem getElem?_putDev (devs : List (Option Dev)) (id : ℕ) (dev : Dev) :
    (putDev devs id dev)[id]? = some (some { dev with id := id }) := by
  rw [putDev, getElem?_set_self]
  rw [length_append, length_replicate]
  omega

variable {s s' : CachingBuilder}

theorem CachingBuilder.withWeight_spec {id : ℕ} {weight : ℚ}
    (h : s.withWeight id weight = some s') :
    s'.ring = s.ring ∧ s'.partPower = s.partPower ∧ s'.replica2part2dev = s.replica2part2dev ∧
      (s'.devs = s.devs ↔ ∀ d, s.devs[id]? = some (some d) → d.weight = weight) := by
  rw [withWeight] at h
  split at h
  · next d hd =>
    obtain rfl := Option.some.inj h
    refine ⟨rfl, rfl, rfl, fun heq d' hd' => ?_, fun hw => ?_⟩
    · have hself : (s.devs.set id (some { d with weight := weight }))[id]? = some (some { d with weight := weight }) :=
        getElem?_set_self (List.getElem?_eq_some_iff.mp hd).1
      dsimp only at heq
      rw [heq, hd'] at hself
      exact congrArg Dev.weight (Option.some.inj (Option.some.inj hself))
    · have hsame : ({ d with weight := weight } : Dev) = d := by rw [← hw d hd]
      obtain ⟨hlt, hget⟩ := List.getElem?_eq_some_iff.mp hd
      dsimp only
      rw [hsame, ← hget]
      exact set_getElem_self hlt
  · cases h

/-- **What a call leaves alone**: the ring, and what it is built from only when it is idle. -/
theorem CachingBuilder.call_spec {call : Call} (hne : call ≠ .getRing)
    (h : s.call call = some s') : s'.ring = s.ring ∧ (s'.current = s.current ↔ call.Idle s) := by
  cases call with
  | addDev id dev =>
    rw [CachingBuilder.call, addDev] at h
    split at h
    · cases h
    · next hfree =>
      obtain rfl := Option.some.inj h
      refine ⟨rfl, iff_of_false (fun heq => hfree ?_) hfree⟩
      have hdevs : putDev s.devs (id.getD (nextId s.devs)) dev = s.devs := congrArg RingData.devs heq
      exact devAt_isOk.mpr ⟨_, hdevs ▸ getElem?_putDev _ _ _⟩
  | setDevWeight id weight =>
    rw [CachingBuilder.call, setDevWeight] at h
    split at h
    · cases h
    · next hnot =>
      obtain ⟨hring, hpower, htable, hdevs⟩ := withWeight_spec h
      refine ⟨hring, ?_⟩
      rw [current, current, hpower, htable, RingData.mk.injEq, Call.Idle, or_iff_right hnot, ← hdevs]
      simp
  | removeDev id =>
    rw [CachingBuilder.call, removeDev] at h
    obtain ⟨s1, h1, rfl⟩ := Option.map_eq_some_iff.mp h
    obtain ⟨hring, hpower, htable, hdevs⟩ := withWeight_spec h1
    refine ⟨hring, ?_⟩
    rw [current, current, hpower, htable, RingData.mk.injEq, Call.Idle, ← hdevs]
    simp
  | rebalance => cases h
  | increasePartitionPower =>
    rw [CachingBuilder.call, increasePartitionPower] at h
    obtain ⟨table, htable, rfl⟩ := Option.map_eq_some_iff.mp h
    refine ⟨rfl, iff_of_false (fun heq => ?_) (fun hnone => by rw [Call.Idle, htable] at hnone; cases hnone)⟩
    have hshift := congrArg RingData.partShift heq
    simp only [current] at hshift
    omega
  | getRing => exact absurd rfl hne

theorem getElem?_double (part2dev : List ℕ) (part : ℕ) : (double part2dev)[part]? = part2dev[part / 2]? := by
  induction part2dev generalizing part with
  | nil => simp [double]
  | cons dev part2dev ih =>
    rw [double, flatMap_cons, ← double]
    match part with
    | 0 => rfl
    | 1 => rfl
    | part + 2 =>
      rw [show (part + 2) / 2 = part / 2 + 1 by omega, getElem?_cons_succ, ← ih]
      rfl

/-- **Twice the partitions, the same devices.** -/
theorem sameDevices_double {table : List (List ℕ)} {partPower : ℕ}
    (hpower : partPower < 32) :
    SameDevices ⟨table, devs, 32 - partPower⟩ ⟨table.map double, devs, 32 - (partPower + 1 : ℕ)⟩ := by
  intro hash _
  have hshift : (32 - (partPower : ℤ)).toNat = (32 - ((partPower + 1 : ℕ) : ℤ)).toNat + 1 := by omega
  refine ⟨hash >>> (32 - (partPower : ℤ)).toNat, hash >>> (32 - ((partPower + 1 : ℕ) : ℤ)).toNat,
    if_pos (by dsimp only; omega), if_pos (by dsimp only; omega), ?_⟩
  have hentry : ∀ row : List ℕ, (double row)[hash >>> (32 - ((partPower + 1 : ℕ) : ℤ)).toNat]? =
      row[hash >>> (32 - (partPower : ℤ)).toNat]? := fun row => by
    rw [getElem?_double, hshift, Nat.shiftRight_succ]
  rw [RingData.getPartNodes, RingData.getPartNodes, filterMap_map]
  dsimp only
  rw [show ((·[hash >>> (32 - ((partPower + 1 : ℕ) : ℤ)).toNat]?) ∘ double : List ℕ → Option ℕ) = _ from
    funext hentry]

theorem CachingBuilder.coherent_getRing (s : CachingBuilder) (h : s.Coherent) : s.getRing.2.Coherent := by
  rw [Coherent, getRing] at h
  rw [coherent_iff, getRing]
  cases hr : s.ring with
  | some ring =>
    rw [hr] at h
    exact fun r hmem => (Option.some.inj (hr.symm.trans hmem)).symm.trans h
  | none =>
    rw [hr] at h
    exact fun r hmem => (Option.some.inj hmem).symm.trans h

theorem CachingBuilder.withWeight_eq_none {id : ℕ} {weight : ℚ}
    (h : s.withWeight id weight = none) (d : Dev) : s.devs[id]? ≠ some (some d) := by
  intro hd
  rw [withWeight] at h
  split at h
  · cases h
  · next hno => exact hno d hd

/-- A call that raises is idle. -/
theorem Call.idle_of_raises {call : Call} (h : s.call call = none) : call.Idle s := by
  cases call with
  | addDev id dev =>
    rw [CachingBuilder.call, CachingBuilder.addDev] at h
    split at h
    · assumption
    · cases h
  | setDevWeight id weight =>
    rw [CachingBuilder.call, CachingBuilder.setDevWeight] at h
    split at h
    · exact Or.inl ‹_›
    · exact Or.inr fun d hd => absurd hd (CachingBuilder.withWeight_eq_none h d)
  | removeDev id =>
    rw [CachingBuilder.call, CachingBuilder.removeDev] at h
    exact fun d hd => absurd hd (CachingBuilder.withWeight_eq_none (Option.map_eq_none_iff.mp h) d)
  | rebalance => trivial
  | increasePartitionPower => exact Option.map_eq_none_iff.mp h
  | getRing => trivial

/-- **A step keeps its promises exactly when it is in time.** -/
theorem Step.keeps_iff {call : Call} (h : Step s call s') (hcoh : s.Coherent) :
    Keeps s call s' ↔ call.InTime s := by
  cases h with
  | returns h =>
    by_cases hget : call = .getRing
    · subst hget
      obtain rfl := Option.some.inj h
      exact iff_of_true ⟨s.coherent_getRing hcoh, fun h => by cases h⟩ ⟨Or.inr trivial, fun h => by cases h⟩
    · obtain ⟨hring, hidle⟩ := CachingBuilder.call_spec hget h
      have hfirst : s'.Coherent ↔ s.ring = none ∨ call.Idle s := by
        rw [coherent_iff, hring, ← hidle]
        cases hr : s.ring with
        | none => exact iff_of_true (fun _ hm => nomatch hm) (Or.inl rfl)
        | some ring =>
          have hcurrent : ring = s.current := coherent_iff.mp hcoh ring hr
          rw [or_iff_right (Option.some_ne_none ring), hcurrent]
          exact ⟨fun hall => (hall _ rfl).symm, fun heq r hm => (Option.some.inj hm).symm.trans heq.symm⟩
      refine (and_congr_right fun hcoh' => ?_).trans (and_congr_left' hfirst)
      refine forall_congr' fun hinc => forall_congr' fun hsome => ?_
      subst hinc
      obtain ⟨table, htable, rfl⟩ := Option.map_eq_some_iff.mp h
      have hbefore : s.getRing.1 = ⟨table, s.devs, 32 - s.partPower⟩ := by
        rw [hcoh, CachingBuilder.current, htable]
        rfl
      rw [hbefore, hcoh']
      refine ⟨fun hsame => ?_, fun hpower => sameDevices_double hpower⟩
      obtain ⟨-, part', -, hpart', -⟩ := hsame 0 (by norm_num)
      rw [RingData.getPart] at hpart'
      split at hpart'
      · next hle =>
        simp only [CachingBuilder.current] at hle
        omega
      · cases hpart'
  | raises _ h =>
    refine iff_of_true ⟨hcoh, fun hinc hsome => ?_⟩ ⟨Or.inr (Call.idle_of_raises h), fun hinc hsome => ?_⟩ <;>
    · subst hinc
      rw [Option.map_eq_none_iff.mp h] at hsome
      cases hsome
  | rebalance _ _ _ _ _ hends =>
    refine iff_of_true ⟨?_, fun h => by cases h⟩ ⟨Or.inr trivial, fun h => by cases h⟩
    have hnone : ∀ t : CachingBuilder, t.ring = none → t.Coherent := fun t ht =>
      coherent_iff.mpr fun r hr => by rw [ht] at hr; cases hr
    cases hends with
    | tooFew => exact hcoh
    | refused => exact hnone _ rfl
    | reached hring => exact hnone _ hring

/-! ## 5. Runs -/

/-- **The ring of a builder is coherent in a run exactly as long as every call is in
    time.** -/
theorem trace_keeps_iff {calls : List (CachingBuilder × Call × CachingBuilder)} {s : CachingBuilder}
    (h : Trace calls s) : (∀ x ∈ calls, Keeps x.1 x.2.1 x.2.2) ↔ ∀ x ∈ calls, x.2.1.InTime x.1 := by
  have hrun : ((∀ x ∈ calls, Keeps x.1 x.2.1 x.2.2) ↔ ∀ x ∈ calls, x.2.1.InTime x.1) ∧
      ((∀ x ∈ calls, Keeps x.1 x.2.1 x.2.2) → s.Coherent) := by
    induction h with
    | new => exact ⟨by simp, fun _ => coherent_iff.mpr fun _ hr => nomatch hr⟩
    | @step calls s s' call _ hstep ih =>
      have hsplit : ∀ P : CachingBuilder × Call × CachingBuilder → Prop,
          (∀ x ∈ calls ++ [(s, call, s')], P x) ↔ (∀ x ∈ calls, P x) ∧ P (s, call, s') := fun P => by
        simp only [mem_append, mem_singleton, or_imp, forall_and, forall_eq]
      rw [hsplit, hsplit]
      refine ⟨?_, fun hall => hall.2.1⟩
      rw [← ih.1]
      exact and_congr_right fun hall => hstep.keeps_iff (ih.2 hall)
  exact hrun.1

/-- A builder with one device, and the ring it has kept. -/
def oneDevice (weight : ℚ) (ring : Option RingData) : CachingBuilder where
  partPower := 8
  devs := [some ⟨0, 0, 0, "a", weight⟩]
  replica2part2dev := none
  removeDevs := []
  ring := ring
  ids i d h := by
    obtain ⟨hlt, hd⟩ := List.getElem?_eq_some_iff.mp h
    obtain rfl : i = 0 := by simpa using hlt
    rw [← Option.some.inj hd]

/-- The device is added, the ring is read, and the device gets another weight. -/
theorem trace_oneDevice :
    let ring : RingData := ⟨[], [some ⟨0, 0, 0, "a", 1⟩], 24⟩
    Trace [(.new 8, .addDev none ⟨0, 0, 0, "a", 1⟩, oneDevice 1 none),
      (oneDevice 1 none, .getRing, oneDevice 1 (some ring)),
      (oneDevice 1 (some ring), .setDevWeight 0 2, oneDevice 2 (some ring))] (oneDevice 2 (some ring)) :=
  (((Trace.new (by decide)).step (.returns rfl)).step (.returns rfl)).step (.returns rfl)

theorem trace_keeps_iff_oneDevice :
    let ring : RingData := ⟨[], [some ⟨0, 0, 0, "a", 1⟩], 24⟩
    let calls := [(CachingBuilder.new 8, Call.addDev none ⟨0, 0, 0, "a", 1⟩, oneDevice 1 none),
      (oneDevice 1 none, .getRing, oneDevice 1 (some ring)),
      (oneDevice 1 (some ring), .setDevWeight 0 2, oneDevice 2 (some ring))]
    (∀ x ∈ calls, Keeps x.1 x.2.1 x.2.2) ↔ ∀ x ∈ calls, x.2.1.InTime x.1 :=
  trace_keeps_iff trace_oneDevice

/-- **A ring that is kept goes stale**: it still has the old weight. -/
theorem kept_ring_stale : ¬ ∀ calls s, Trace calls s → ∀ x ∈ calls, Keeps x.1 x.2.1 x.2.2 := by
  intro hall
  have hcoherent := (hall _ _ trace_oneDevice _ (.tail _ (.tail _ (.head _)))).1
  exact absurd hcoherent (by unfold CachingBuilder.Coherent; decide)

end Mitaka.Swift.Ring
