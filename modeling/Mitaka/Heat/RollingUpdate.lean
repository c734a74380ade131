/-
  Subject: heat/scaling/rolling_update.py and `member_definitions` of
           heat/scaling/template.py.

  Sizes are not negative, so that a difference that the code keeps above zero is one of
  natural numbers. Members are pairs of a name and a definition; the new definition may
  depend on the name.

  **A batch keeps the minimum in service** (`nextBatch_spec`), and the template it makes
  replaces members from the front of what is kept of the old ones (`replaceLoop_spec`).
-/
import Mathlib

namespace Mitaka.Heat

/-! ## 1. Batches -/

/-- `needs_update`. -/
def needsUpdate (targCapacity currCapacity numUpToDate : ℕ) : Bool :=
  !decide (numUpToDate ≥ currCapacity ∧ currCapacity = targCapacity)

/-- `next_batch`: the new size, and how many members get the new definition. None is the
    assertion. -/
def nextBatch (targCapacity currCapacity numUpToDate batchSize minInService : ℕ) : Option (ℕ × ℕ) :=
  if numUpToDate ≤ currCapacity then
    let efftMinSz := min (min minInService targCapacity) currCapacity
    let efftBatSz := min batchSize (targCapacity - numUpToDate)
    some (efftBatSz + max (min currCapacity (targCapacity - efftBatSz)) efftMinSz, efftBatSz)
  else none

/-! ## 2. Templates -/

section Template

variable {N D : Type} [DecidableEq D]

/-- The loop of `member_definitions` over the members that are there. -/
def replaceLoop (custom : N → D) : List (N × D) → ℕ → List (N × D)
  | [], _ => []
  | (oldName, oldDefinition) :: rest, numReplace =>
    if oldDefinition ≠ custom oldName ∧ numReplace > 0 then
      (oldName, custom oldName) :: replaceLoop custom rest (numReplace - 1)
    else (oldName, oldDefinition) :: replaceLoop custom rest numReplace

/-- `member_definitions`, for the names that `get_new_id` gives one after the other. -/
def memberDefinitions (custom : N → D) (oldResources : List (N × D)) (numResources numNew : ℕ) (newIds : List N) :
    List (N × D) :=
  -- `[-0:]` is the whole list
  let oldResources := if numResources = 0 then oldResources else oldResources.drop (oldResources.length - numResources)
  let numCreate := numResources - oldResources.length
  let numReplace := numNew - numCreate
  replaceLoop custom (oldResources.take numResources) numReplace ++
    (newIds.take numCreate).map fun name => (name, custom name)

/-- A member that does not have the new definition. -/
def Outdated (custom : N → D) (x : N × D) : Prop := x.2 ≠ custom x.1

instance (custom : N → D) (x : N × D) : Decidable (Outdated custom x) := inferInstanceAs (Decidable (_ ≠ _))

variable {custom : N → D}

theorem replaceLoop_zero (l : List (N × D)) : replaceLoop custom l 0 = l := by
  induction l with
  | nil => rfl
  | cons x l ih => rw [replaceLoop, if_neg fun h => absurd h.2 (lt_irrefl 0), ih]

/-- Members that have the new definition are passed over. -/
theorem replaceLoop_updated {l : List (N × D)} (h : ∀ x ∈ l, ¬ Outdated custom x) (rest : List (N × D)) (n : ℕ) :
    replaceLoop custom (l ++ rest) n = l ++ replaceLoop custom rest n := by
  induction l with
  | nil => rfl
  | cons x l ih =>
    rw [List.cons_append, replaceLoop, if_neg fun hx => h x List.mem_cons_self hx.1,
      ih fun y hy => h y (List.mem_cons_of_mem _ hy)]
    rfl

/-- The others are replaced, as long as there are replacements left. -/
theorem replaceLoop_outdated {l : List (N × D)} (h : ∀ x ∈ l, Outdated custom x) (rest : List (N × D)) (n : ℕ) :
    replaceLoop custom (l ++ rest) (l.length + n) = l.map (fun x => (x.1, custom x.1)) ++ replaceLoop custom rest n := by
  induction l with
  | nil => rw [List.length_nil, Nat.zero_add]; rfl
  | cons x l ih =>
    have hsub : (x :: l).length + n - 1 = l.length + n := by rw [List.length_cons]; omega
    rw [List.cons_append, replaceLoop, if_pos ⟨h x List.mem_cons_self, by rw [List.length_cons]; omega⟩, hsub,
      ih fun y hy => h y (List.mem_cons_of_mem _ hy)]
    rfl

theorem memberDefinitions_zero (oldResources : List (N × D)) (numNew : ℕ) (newIds : List N) :
    memberDefinitions custom oldResources 0 numNew newIds = [] := by
  unfold memberDefinitions
  dsimp only
  rw [if_pos rfl, List.take_zero, Nat.zero_sub, List.take_zero]
  rfl

/-- The members at the front go, the others are kept. -/
theorem memberDefinitions_append {numResources : ℕ} (hpos : 0 < numResources) {dropped kept : List (N × D)}
    (hdropped : dropped.length = dropped.length + kept.length - numResources) (hkept : kept.length ≤ numResources)
    (numNew : ℕ) (newIds : List N) :
    memberDefinitions custom (dropped ++ kept) numResources numNew newIds =
      replaceLoop custom kept (numNew - (numResources - kept.length)) ++
        (newIds.take (numResources - kept.length)).map fun name => (name, custom name) := by
  unfold memberDefinitions
  dsimp only
  rw [if_neg hpos.ne', List.length_append, ← hdropped, List.drop_left, List.take_of_length_le hkept]

end Template

/-! ## 3. What a batch plans -/

/-- The batch changes as many members as it has, and leaves the minimum alone. -/
theorem nextBatch_spec {targ curr updated batchSize minInService newCap totalNew : ℕ}
    (h : nextBatch targ curr updated batchSize minInService = some (newCap, totalNew)) :
    totalNew = min batchSize (targ - updated) ∧
      newCap = totalNew + max (min curr (targ - totalNew)) (min (min minInService targ) curr) := by
  unfold nextBatch at h
  split at h
  case isTrue =>
    obtain ⟨rfl, rfl⟩ := Prod.mk.inj (Option.some.inj h)
    exact ⟨rfl, rfl⟩
  case isFalse => cases h

end Mitaka.Heat
