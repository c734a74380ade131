/-
  Subject: heat/engine/environment.py, `get_resource_info`: the search that a lookup is, and
           when it comes to an end.

  A lookup tries the entries for a type in their order; a mapping is tried by looking up what it
  stands for. Nothing keeps a mapping from standing for itself over others, or a wildcard from
  matching the longer name that it makes. Only a search that finds something has an effect
  beyond the templates it registers, so failing attempts leave the world as it was.
-/
import Mitaka.Heat.ResourceRegistry
import Mitaka.Lib.Fallback

namespace Mitaka.Heat

open Fallback

/-- A lookup: the world it is made in, the registry, and the type. -/
abbrev Query := World × Scope × List Char

/-- What an entry makes of a type: itself, or another lookup. -/
def ResourceInfo.alternative (w : World) (resourceType : List Char) (info : ResourceInfo) : ResourceInfo ⊕ Query :=
  match info.target resourceType with
  | none => .inl info
  | some target => .inr (w, info.registry, target)

/-- The entries that a lookup tries. -/
def lookupAlternatives (resourceName : Option (List Char)) (q : Query) : Option (List (ResourceInfo ⊕ Query)) :=
  ((q.1.enter q.2.1 q.2.2).candidates q.2.1 q.2.2 resourceName).map
    (List.map (ResourceInfo.alternative (q.1.enter q.2.1 q.2.2) q.2.2))

/-- What a lookup comes to, as the answer of a search. -/
def toAnswer : Except LookupError ResourceInfo → Answer ResourceInfo
  | .ok info => .found info
  | .error (.entityNotFound _) => .missing
  | .error .crash => .broken

section Lookup

variable {n : Option (List Char)} {fuel : ℕ} {w w' : World} {s : Scope} {t name : List Char} {infos : List ResourceInfo}
  {info : ResourceInfo} {r : Except LookupError ResourceInfo}

theorem alternative_eq_inl {q : ResourceInfo} (h : info.alternative w t = .inl q) : q = info ∧ info.isEnd = true := by
  rw [ResourceInfo.alternative] at h
  cases htarget : info.target t with
  | none =>
    rw [htarget] at h
    exact ⟨(Sum.inl.inj h).symm, ResourceInfo.target_eq_none.mp htarget⟩
  | some target =>
    rw [htarget] at h
    cases h

/-- **A template that is registered** is one of the entries. -/
theorem enter_eq_of_no_end (h : (w.enter s t).candidates s t n = some infos) (hon : ∀ info ∈ infos, info.isEnd = false) :
    w.enter s t = w := by
  by_cases hnew : s ≠ .global ∧ isTemplateName t = true ∧ (w.registries s).get t = none
  · exfalso
    have hget : ((w.enter s t).registries s).get t = some (.info (.new s [t] .other)) := by
      rw [World.enter, if_pos hnew]
      simp only [World.setRegistry, Function.update_self, Dict.get_set, if_true]
    rw [World.candidates, Option.bind_eq_bind, Option.bind_eq_some_iff] at h
    obtain ⟨own, hown, h⟩ := h
    obtain ⟨above, -, h⟩ := Option.bind_eq_some_iff.mp h
    rw [World.iterableBy, World.dynamic, hget, if_pos ⟨hnew.1, hnew.2.1⟩] at hown
    obtain ⟨dynamic, hdynamic, hown⟩ := Option.bind_eq_some_iff.mp hown
    obtain rfl := Option.some.inj hdynamic
    obtain ⟨mapped, -, hown⟩ := Option.bind_eq_some_iff.mp hown
    obtain ⟨exact', -, hown⟩ := Option.bind_eq_some_iff.mp hown
    obtain ⟨globs, -, hown⟩ := Option.bind_eq_some_iff.mp hown
    obtain rfl := Option.some.inj hown
    have hmem : ResourceInfo.new s [t] .other ∈ infos := by
      rw [← Option.some.inj h, List.mem_insertionSort]
      exact List.mem_append_left _ (List.mem_append_left _ (List.mem_append_left _ (List.mem_append_left _ List.mem_cons_self)))
    have hend : (ResourceInfo.new s [t] .other).isEnd = true := by
      simp only [ResourceInfo.new, List.getLastD_cons, List.getLastD_nil, ResourceInfo.isEnd, if_pos hnew.2.1]
    rw [hon _ hmem] at hend
    cases hend
  · rw [World.enter, if_neg hnew]

section TryInfos

variable {lookup : World → Scope → List Char → Option (World × Except LookupError ResourceInfo)} {accepts : World → ResourceInfo → Bool}

/-- A class or a template is taken, where the filter accepts it. -/
theorem tryInfos_end (htarget : info.target t = none) : World.tryInfos lookup s t accepts w (info :: infos) =
    if accepts w info then some (w, .ok info) else World.tryInfos lookup s t accepts w infos := by
  rw [World.tryInfos, htarget]

/-- A mapping is taken for what its target is found to be. -/
theorem tryInfos_mapping {target : List Char} (htarget : info.target t = some target) : World.tryInfos lookup s t accepts w (info :: infos) =
    match lookup w info.registry target with
    | none => none
    | some (w, .error (.entityNotFound _)) => World.tryInfos lookup s t accepts w infos
    | some (w, .error .crash) => some (w, .error .crash)
    | some (w, .ok found) =>
      if accepts w found then some (w.store s t info found, .ok found) else World.tryInfos lookup s t accepts w infos := by
  rewrite [World.tryInfos, htarget]
  rfl

theorem tryInfos_mono {lookup' : World → Scope → List Char → Option (World × Except LookupError ResourceInfo)}
    (hmono : ∀ w s t x, lookup w s t = some x → lookup' w s t = some x) {x : World × Except LookupError ResourceInfo}
    (h : World.tryInfos lookup s t accepts w infos = some x) : World.tryInfos lookup' s t accepts w infos = some x := by
  induction infos generalizing w with
  | nil => exact h
  | cons info infos ih =>
    cases htarget : info.target t with
    | none =>
      rw [tryInfos_end htarget] at h ⊢
      split
      · rename_i hacc
        rwa [if_pos hacc] at h
      · rename_i hacc
        rw [if_neg hacc] at h
        exact ih h
    | some target =>
      rw [tryInfos_mapping htarget] at h ⊢
      cases hl : lookup w info.registry target with
      | none =>
        rw [hl] at h
        cases h
      | some y =>
        rw [hl] at h
        rw [hmono _ _ _ _ hl]
        obtain ⟨w₁, r⟩ := y
        cases r with
        | error e =>
          cases e with
          | crash => exact h
          | entityNotFound name => exact ih h
        | ok found =>
          dsimp only at h ⊢
          split
          · rename_i hacc
            rwa [if_pos hacc] at h
          · rename_i hacc
            rw [if_neg hacc] at h
            exact ih h

end TryInfos

theorem lookup_succ {x : World × Except LookupError ResourceInfo} (h : World.lookup n fuel w s t = some x) :
    World.lookup n (fuel + 1) w s t = some x := by
  induction fuel generalizing w s t x with
  | zero => cases h
  | succ fuel ih =>
    rw [World.lookup] at h ⊢
    cases hc : (w.enter s t).candidates s t n with
    | none =>
      rw [hc] at h
      exact h
    | some infos =>
      rw [hc] at h
      exact tryInfos_mono (fun _ _ _ _ => ih) h

/-- **A deeper lookup** comes to the same. -/
theorem lookup_mono {fuel' : ℕ} (hle : fuel ≤ fuel') {x : World × Except LookupError ResourceInfo} (h : World.lookup n fuel w s t = some x) :
    World.lookup n fuel' w s t = some x := by
  induction hle with
  | refl => exact h
  | step _ ih => exact lookup_succ ih

/-- The loop over the entries is the search of their alternatives; what comes to nothing changes nothing. -/
theorem tryInfos_eq (hlookup : ∀ w s t, (World.lookup n fuel w s t).map (fun a => toAnswer a.2) = search (lookupAlternatives n) fuel (w, s, t))
    (hkeep : ∀ w s t w' name, World.lookup n fuel w s t = some (w', .error (.entityNotFound name)) → w' = w) (w : World) (infos : List ResourceInfo) :
    (World.tryInfos (World.lookup n fuel) s t (fun _ _ => true) w infos).map (fun a => toAnswer a.2) =
        tryAll (search (lookupAlternatives n) fuel) (infos.map (ResourceInfo.alternative w t)) ∧
      ∀ w' name, World.tryInfos (World.lookup n fuel) s t (fun _ _ => true) w infos = some (w', .error (.entityNotFound name)) →
        w' = w ∧ name = t := by
  induction infos with
  | nil =>
    refine ⟨rfl, fun w' name h => ?_⟩
    cases h
    exact ⟨rfl, rfl⟩
  | cons info infos ih =>
    rw [List.map_cons]
    cases htarget : info.target t with
    | none =>
      have halt : info.alternative w t = .inl info := by rw [ResourceInfo.alternative, htarget]
      rw [halt, tryInfos_end htarget, if_pos rfl]
      exact ⟨rfl, by simp⟩
    | some target =>
      have halt : info.alternative w t = .inr (w, info.registry, target) := by rw [ResourceInfo.alternative, htarget]
      rw [halt, tryInfos_mapping htarget, tryAll, ← hlookup]
      cases hl : World.lookup n fuel w info.registry target with
      | none => exact ⟨rfl, by simp⟩
      | some a =>
        obtain ⟨w₁, r⟩ := a
        cases r with
        | ok found =>
          dsimp only
          rw [if_pos rfl]
          refine ⟨rfl, fun w' name h => ?_⟩
          cases h
        | error e =>
          cases e with
          | crash =>
            refine ⟨rfl, fun w' name h => ?_⟩
            cases h
          | entityNotFound name =>
            obtain rfl := hkeep _ _ _ _ _ hl
            exact ih

/-- **A lookup is a search**, and changes nothing where it finds nothing. -/
theorem lookup_eq_search (n : Option (List Char)) (fuel : ℕ) (w : World) (s : Scope) (t : List Char) :
    (World.lookup n fuel w s t).map (fun a => toAnswer a.2) = search (lookupAlternatives n) fuel (w, s, t) ∧
      ∀ w' name, World.lookup n fuel w s t = some (w', .error (.entityNotFound name)) → w' = w ∧ name = t := by
  induction fuel generalizing w s t with
  | zero => exact ⟨rfl, nofun⟩
  | succ fuel ih =>
    rw [World.lookup, search, lookupAlternatives]
    dsimp only
    cases hc : (w.enter s t).candidates s t n with
    | none =>
      refine ⟨rfl, fun w' name h => ?_⟩
      cases h
    | some infos =>
      obtain ⟨hloop, hkeep⟩ := tryInfos_eq (fun w s t => (ih w s t).1) (fun w s t w' name h => ((ih w s t).2 w' name h).1) (w.enter s t) infos
      refine ⟨hloop, fun w' name h => ?_⟩
      obtain ⟨rfl, rfl⟩ := hkeep w' name h
      dsimp only at h
      rw [h] at hloop
      refine ⟨enter_eq_of_no_end hc fun info hinfo => Bool.eq_false_iff.mpr fun hend => ?_, rfl⟩
      obtain ⟨q, hq, -⟩ := all_missing hloop.symm _ (List.mem_map_of_mem hinfo)
      rw [ResourceInfo.alternative, ResourceInfo.target_eq_none.mpr hend] at hq
      cases hq

/-- Without a filter, `get_resource_info` is the lookup. -/
theorem getResourceInfo_eq_lookup (fuel : ℕ) (w : World) (s : Scope) (t : List Char) (n : Option (List Char)) :
    w.getResourceInfo fuel s t n none none = World.lookup n (fuel + 1) w s t := rfl

/-- The answers of the search are the results of lookups. -/
theorem answers_iff {a : Answer ResourceInfo} : Answers (lookupAlternatives n) (w, s, t) a ↔
    ∃ fuel w' r, w.getResourceInfo fuel s t n none none = some (w', r) ∧ toAnswer r = a := by
  constructor
  · rintro ⟨fuel, h⟩
    have h' := search_succ h
    rw [← (lookup_eq_search n (fuel + 1) w s t).1] at h'
    obtain ⟨⟨w', r⟩, hl, hr⟩ := Option.map_eq_some_iff.mp h'
    exact ⟨fuel, w', r, hl, hr⟩
  · rintro ⟨fuel, w', r, hl, rfl⟩
    refine ⟨fuel + 1, ?_⟩
    rw [← (lookup_eq_search n (fuel + 1) w s t).1]
    exact Option.map_eq_some_iff.mpr ⟨(w', r), hl, rfl⟩

/-- Only classes and templates are found. -/
theorem isEnd_of_found (h : Answers (lookupAlternatives n) (w, s, t) (.found info)) : info.isEnd = true := by
  refine found_of_ends (P := fun info => info.isEnd = true) (fun q l b hq hb => ?_) h
  obtain ⟨infos, -, rfl⟩ := Option.map_eq_some_iff.mp hq
  obtain ⟨i, -, hi⟩ := List.mem_map.mp hb
  obtain ⟨rfl, hend⟩ := alternative_eq_inl hi
  exact hend

end Lookup

/-- A mapping from `A` to `B` and one back. -/
def crossedMappings : List (List Char × Snippet) := [("A".toList, .text "B".toList), ("B".toList, .text "A".toList)]

/-- A single mapping that leads to a lookup without an answer has none. -/
theorem lookup_none_of_mapping {n : Option (List Char)} {fuel : ℕ} {w : World} {s : Scope} {t target : List Char} {info : ResourceInfo}
    (hc : (w.enter s t).candidates s t n = some [info]) (htarget : info.target t = some target)
    (h : World.lookup n fuel (w.enter s t) info.registry target = none) : World.lookup n (fuel + 1) w s t = none := by
  rw [World.lookup, hc]
  dsimp only
  rw [tryInfos_mapping htarget, h]

end Mitaka.Heat
