/-
  Subject: keystone/models/revoke_model.py, `RevokeTree.remove_event`.

  Events with the same keys share a leaf, which has the latest of their times. An event
  is removed with its leaf when its time is the one that is stored. **A later event keeps
  the leaf of an earlier one; without it the leaf is removed for all the events that share
  it** (`removeEvent_spec`), so that the tree forgets those that are left.
-/
import Mitaka.Keystone.RevokeTree

namespace Mitaka.Keystone

/-- `attr_keys`. -/
def RevokeEvent.attrKeys (event : RevokeEvent) : List Str := EVENT_NAMES.map event.keyForName

/-- `remove_event`; none is the `KeyError` of a leaf without a time. -/
def removeEvent (revokeMap : RevokeMap EVENT_NAMES) (event : RevokeEvent) : Option (RevokeMap EVENT_NAMES) :=
  KeyTree.remove event.keyForName (fun issuedBefore => event.issuedBefore = issuedBefore) EVENT_NAMES revokeMap

/-- Another event with the same keys has a later time. -/
def Outlived (event : RevokeEvent) (events : List RevokeEvent) : Prop :=
  ∃ other ∈ events, other.attrKeys = event.attrKeys ∧ event.issuedBefore < other.issuedBefore

instance (event : RevokeEvent) (events : List RevokeEvent) : Decidable (Outlived event events) :=
  inferInstanceAs (Decidable (∃ other ∈ events, _))

/-! ## 1. The leaves of a tree -/

variable {events : List RevokeEvent}

/-- The leaf of some events has the latest time. -/
theorem leaf_eq_some_iff {t : DateTime} :
    (KeyTree.build RevokeEvent.keyForName RevokeEvent.latest ([] : List EventName) events).value = some t ↔
      (∃ e ∈ events, e.issuedBefore = t) ∧ ∀ e ∈ events, e.issuedBefore ≤ t := by
  have hany := fun issuedAt => any_leaf issuedAt events
  cases hv : (KeyTree.build RevokeEvent.keyForName RevokeEvent.latest ([] : List EventName) events).value with
  | none =>
    refine ⟨nofun, fun ⟨⟨e, he, _⟩, _⟩ => ?_⟩
    have h := (hany e.issuedBefore).mpr ⟨e, he, le_rfl⟩
    rw [hv] at h
    cases h
  | some w =>
    have hany : ∀ issuedAt, issuedAt ≤ w ↔ ∃ e ∈ events, issuedAt ≤ e.issuedBefore := fun issuedAt => by
      rw [← hany issuedAt, hv, Option.any_some, decide_eq_true_iff]
    have hle : ∀ e ∈ events, e.issuedBefore ≤ w := fun e he => (hany _).mpr ⟨e, he, le_rfl⟩
    obtain ⟨e, he, hwe⟩ := (hany w).mp le_rfl
    rw [Option.some.injEq]
    constructor
    · rintro rfl
      exact ⟨⟨e, he, le_antisymm (hle e he) hwe⟩, hle⟩
    · rintro ⟨⟨f, hf, rfl⟩, hmax⟩
      exact le_antisymm (hwe.trans (hmax e he)) (hle f hf)

theorem pruned_revokeTree (events : List RevokeEvent) : KeyTree.Pruned EVENT_NAMES (revokeTree events) :=
  KeyTree.pruned_build RevokeEvent.keyForName RevokeEvent.latest EVENT_NAMES events

/-- The leaf of a path has the latest time of the events with its keys. -/
theorem lookup_revokeTree {path : List Str} {t : DateTime} :
    KeyTree.lookup EVENT_NAMES (revokeTree events) path = some t ↔
      (∃ e ∈ events, e.attrKeys = path ∧ e.issuedBefore = t) ∧ ∀ e ∈ events, e.attrKeys = path → e.issuedBefore ≤ t := by
  have hfilter : ∀ e, e ∈ events.filter (fun e => path = EVENT_NAMES.map e.keyForName) ↔ e ∈ events ∧ e.attrKeys = path :=
    fun e => by
      rw [List.mem_filter, decide_eq_true_iff]
      exact and_congr_right fun _ => eq_comm
  have hlookup : KeyTree.lookup EVENT_NAMES (revokeTree events) path =
      (KeyTree.build RevokeEvent.keyForName RevokeEvent.latest ([] : List EventName)
        (events.filter fun e => path = EVENT_NAMES.map e.keyForName)).value :=
    KeyTree.lookup_build RevokeEvent.keyForName RevokeEvent.latest EVENT_NAMES events path
  rw [hlookup, leaf_eq_some_iff]
  simp only [hfilter, and_assoc, and_imp]

theorem lookup_revokeTree_none {path : List Str} :
    KeyTree.lookup EVENT_NAMES (revokeTree events) path = none ↔ ∀ e ∈ events, e.attrKeys ≠ path := by
  have hlookup : KeyTree.lookup EVENT_NAMES (revokeTree events) path =
      (KeyTree.build RevokeEvent.keyForName RevokeEvent.latest ([] : List EventName)
        (events.filter fun e => path = EVENT_NAMES.map e.keyForName)).value :=
    KeyTree.lookup_build RevokeEvent.keyForName RevokeEvent.latest EVENT_NAMES events path
  rw [hlookup]
  constructor
  · intro h e he hpath
    have hne : events.filter (fun e => path = EVENT_NAMES.map e.keyForName) ≠ [] :=
      List.ne_nil_of_mem (List.mem_filter.mpr ⟨he, decide_eq_true hpath.symm⟩)
    have hsome : KeyTree.truthy ([] : List EventName) (KeyTree.build RevokeEvent.keyForName RevokeEvent.latest _ _) = true :=
      KeyTree.truthy_build RevokeEvent.keyForName RevokeEvent.latest hne
    rw [KeyTree.truthy, h] at hsome
    cases hsome
  · intro h
    have hnil : events.filter (fun e => path = EVENT_NAMES.map e.keyForName) = [] :=
      List.filter_eq_nil_iff.mpr fun e he hpath => h e he (of_decide_eq_true hpath).symm
    rw [hnil]
    rfl

/-! ## 2. Without an event -/

section

variable {before after : List RevokeEvent} {event : RevokeEvent}

theorem mem_with {e : RevokeEvent} : e ∈ before ++ event :: after ↔ e = event ∨ e ∈ before ++ after := by
  rw [List.mem_append, List.mem_cons, List.mem_append, or_left_comm]

theorem outlived_with : Outlived event (before ++ event :: after) ↔ Outlived event (before ++ after) := by
  constructor
  · rintro ⟨other, hmem, hkeys, hlt⟩
    rcases mem_with.mp hmem with rfl | hmem
    · exact absurd hlt (lt_irrefl _)
    · exact ⟨other, hmem, hkeys, hlt⟩
  · rintro ⟨other, hmem, h⟩
    exact ⟨other, mem_with.mpr (Or.inr hmem), h⟩

/-- An event has no part in the leaves of other paths, nor in one that has a later time. -/
theorem lookup_without {path : List Str} (h : path ≠ event.attrKeys ∨ Outlived event (before ++ after)) :
    KeyTree.lookup EVENT_NAMES (revokeTree (before ++ event :: after)) path =
      KeyTree.lookup EVENT_NAMES (revokeTree (before ++ after)) path := by
  refine Option.ext fun t => ?_
  rw [lookup_revokeTree, lookup_revokeTree]
  constructor
  · rintro ⟨⟨e, he, hpath, ht⟩, hmax⟩
    have hmax' : ∀ e ∈ before ++ after, e.attrKeys = path → e.issuedBefore ≤ t := fun e he =>
      hmax e (mem_with.mpr (Or.inr he))
    rcases mem_with.mp he with rfl | he
    · rcases h with h | ⟨other, hother, hkeys, hlt⟩
      · exact absurd hpath.symm h
      · have hle := hmax' other hother (hkeys.trans hpath)
        rw [← ht] at hle
        exact absurd hle (not_le.mpr hlt)
    · exact ⟨⟨e, he, hpath, ht⟩, hmax'⟩
  · rintro ⟨⟨e, he, hpath, ht⟩, hmax⟩
    refine ⟨⟨e, mem_with.mpr (Or.inr he), hpath, ht⟩, fun f hf hfpath => ?_⟩
    rcases mem_with.mp hf with rfl | hf
    · rcases h with h | ⟨other, hother, hkeys, hlt⟩
      · exact absurd hfpath.symm h
      · exact hlt.le.trans (hmax other hother (hkeys.trans hfpath))
    · exact hmax f hf hfpath

theorem lookup_filter {events : List RevokeEvent} (keys path : List Str) :
    KeyTree.lookup EVENT_NAMES (revokeTree (events.filter fun e => e.attrKeys ≠ keys)) path =
      if path = keys then none else KeyTree.lookup EVENT_NAMES (revokeTree events) path := by
  have hmem : ∀ e, e ∈ events.filter (fun e => e.attrKeys ≠ keys) ↔ e ∈ events ∧ e.attrKeys ≠ keys := fun e => by
    rw [List.mem_filter, decide_eq_true_iff]
  by_cases hpath : path = keys
  · rw [if_pos hpath, lookup_revokeTree_none]
    intro e he heq
    exact ((hmem e).mp he).2 (heq.trans hpath)
  · rw [if_neg hpath]
    refine Option.ext fun t => ?_
    rw [lookup_revokeTree, lookup_revokeTree]
    refine and_congr ⟨fun ⟨e, he, h⟩ => ⟨e, ((hmem e).mp he).1, h⟩, fun ⟨e, he, h⟩ => ⟨e, (hmem e).mpr ⟨he, ?_⟩, h⟩⟩
      ⟨fun h e he hkeys => h e ((hmem e).mpr ⟨he, ?_⟩) hkeys, fun h e he => h e ((hmem e).mp he).1⟩
    · exact fun hkeys => hpath (h.1.symm.trans hkeys)
    · exact fun hkeys' => hpath (hkeys.symm.trans hkeys')

/-! ## 3. The removal -/

/-- The leaf of the event is removed unless it has a later time, and nothing else is. -/
theorem removeEvent_lookup (before after : List RevokeEvent) (event : RevokeEvent) :
    ∃ revokeMap, removeEvent (revokeTree (before ++ event :: after)) event = some revokeMap ∧
      KeyTree.Pruned EVENT_NAMES revokeMap ∧
      ∀ path, KeyTree.lookup EVENT_NAMES revokeMap path =
        if path = event.attrKeys ∧ ¬ Outlived event (before ++ after) then none
        else KeyTree.lookup EVENT_NAMES (revokeTree (before ++ event :: after)) path := by
  have hmem : event ∈ before ++ event :: after := mem_with.mpr (Or.inl rfl)
  obtain ⟨t, ht⟩ : ∃ t, KeyTree.lookup EVENT_NAMES (revokeTree (before ++ event :: after)) event.attrKeys = some t :=
    Option.ne_none_iff_exists'.mp fun hnone => lookup_revokeTree_none.mp hnone event hmem rfl
  obtain ⟨⟨e, he, hkeys, hte⟩, hmax⟩ := lookup_revokeTree.mp ht
  have hdrop : event.issuedBefore = t ↔ ¬ Outlived event (before ++ after) := by
    rw [← outlived_with]
    constructor
    · rintro rfl ⟨other, hother, hokeys, hlt⟩
      exact absurd (hmax other hother hokeys) (not_le.mpr hlt)
    · intro hlast
      refine le_antisymm (hmax event hmem rfl) (not_lt.mp fun hlt => hlast ⟨e, he, hkeys, hte ▸ hlt⟩)
  obtain ⟨revokeMap, hrun, hpruned, hlookup⟩ := KeyTree.remove_spec event.keyForName
    (fun issuedBefore => event.issuedBefore = issuedBefore) (pruned_revokeTree _) ht
  refine ⟨revokeMap, hrun, hpruned, fun path => (hlookup path).trans (if_congr ?_ rfl rfl)⟩
  rw [decide_eq_true_iff, hdrop]
  rfl

/-- The tree after the removal is that of the events whose leaf is left. -/
theorem removeEvent_same {revokeMap : RevokeMap EVENT_NAMES}
    (hpruned : KeyTree.Pruned EVENT_NAMES revokeMap)
    (hlookup : ∀ path, KeyTree.lookup EVENT_NAMES revokeMap path =
      if path = event.attrKeys ∧ ¬ Outlived event (before ++ after) then none
      else KeyTree.lookup EVENT_NAMES (revokeTree (before ++ event :: after)) path) :
    KeyTree.Same EVENT_NAMES revokeMap (revokeTree (if Outlived event (before ++ after) then before ++ after
      else (before ++ after).filter fun e => e.attrKeys ≠ event.attrKeys)) := by
  refine (KeyTree.same_iff hpruned (pruned_revokeTree _)).mpr fun path => ?_
  rw [hlookup]
  by_cases hlast : Outlived event (before ++ after)
  · rw [if_pos hlast, if_neg fun h => h.2 hlast, lookup_without (Or.inr hlast)]
  · rw [if_neg hlast, lookup_filter]
    by_cases hpath : path = event.attrKeys
    · rw [if_pos ⟨hpath, hlast⟩, if_pos hpath]
    · rw [if_neg fun h => hpath h.1, if_neg hpath, lookup_without (Or.inl hpath)]

/-- It is the tree of the other events when the leaf has a later time, or is not shared. -/
theorem removeEvent_same_iff {revokeMap : RevokeMap EVENT_NAMES}
    (hpruned : KeyTree.Pruned EVENT_NAMES revokeMap)
    (hlookup : ∀ path, KeyTree.lookup EVENT_NAMES revokeMap path =
      if path = event.attrKeys ∧ ¬ Outlived event (before ++ after) then none
      else KeyTree.lookup EVENT_NAMES (revokeTree (before ++ event :: after)) path) :
    KeyTree.Same EVENT_NAMES revokeMap (revokeTree (before ++ after)) ↔
      Outlived event (before ++ after) ∨ ∀ other ∈ before ++ after, other.attrKeys ≠ event.attrKeys := by
  rw [KeyTree.same_iff hpruned (pruned_revokeTree _)]
  constructor
  · intro hsame
    by_cases hlast : Outlived event (before ++ after)
    · exact Or.inl hlast
    · have h := hsame event.attrKeys
      rw [hlookup, if_pos ⟨rfl, hlast⟩] at h
      exact Or.inr (lookup_revokeTree_none.mp h.symm)
  · intro h path
    rw [hlookup]
    by_cases hpath : path = event.attrKeys ∧ ¬ Outlived event (before ++ after)
    · rw [if_pos hpath]
      refine (lookup_revokeTree_none.mpr fun other hother => ?_).symm
      rw [hpath.1]
      exact h.resolve_left hpath.2 other hother
    · rw [if_neg hpath]
      refine lookup_without ?_
      rw [not_and_or, not_not] at hpath
      exact hpath

end

/-- **The removal of an event.** -/
theorem removeEvent_spec (before after : List RevokeEvent) (event : RevokeEvent) :
    ∃ revokeMap, removeEvent (revokeTree (before ++ event :: after)) event = some revokeMap ∧
      KeyTree.Pruned EVENT_NAMES revokeMap ∧
      (∀ path ≠ event.attrKeys, KeyTree.lookup EVENT_NAMES revokeMap path =
        KeyTree.lookup EVENT_NAMES (revokeTree (before ++ event :: after)) path) ∧
      KeyTree.Same EVENT_NAMES revokeMap (revokeTree (if Outlived event (before ++ after) then before ++ after
        else (before ++ after).filter fun e => e.attrKeys ≠ event.attrKeys)) ∧
      (KeyTree.Same EVENT_NAMES revokeMap (revokeTree (before ++ after)) ↔
        Outlived event (before ++ after) ∨ ∀ other ∈ before ++ after, other.attrKeys ≠ event.attrKeys) := by
  obtain ⟨revokeMap, hrun, hpruned, hlookup⟩ := removeEvent_lookup before after event
  refine ⟨revokeMap, hrun, hpruned, fun path hpath => ?_, removeEvent_same hpruned hlookup,
    removeEvent_same_iff hpruned hlookup⟩
  rw [hlookup, if_neg fun h => hpath h.1]

/-- The tokens of a user are revoked twice. With the later event the earlier one is forgotten. -/
theorem removeEvent_forgets :
    ∃ before after event, ¬ ∃ revokeMap, removeEvent (revokeTree (before ++ event :: after)) event = some revokeMap ∧
      KeyTree.Same EVENT_NAMES revokeMap (revokeTree (before ++ after)) := by
  refine ⟨[userEvent ['u']], [], { userEvent ['u'] with issuedBefore := { epoch with hour := 1 } }, ?_⟩
  rintro ⟨revokeMap, hrun, hsame⟩
  obtain ⟨revokeMap', hrun', hpruned, hlookup⟩ := removeEvent_lookup [userEvent ['u']] []
    { userEvent ['u'] with issuedBefore := { epoch with hour := 1 } }
  rw [hrun] at hrun'
  obtain rfl := Option.some.inj hrun'
  rcases (removeEvent_same_iff hpruned hlookup).mp hsame with h | h
  · exact absurd h (by decide)
  · exact h _ List.mem_cons_self rfl

end Mitaka.Keystone
