/-
  Subject: heat/engine/environment.py, `get_resource_info` and `get_class_to_instantiate`:
           calls through one environment, one after another, and what the others see of them.

  A lookup reads and writes the registry it is made in and the global one, and the marks of their
  entries; so environments see of each other what is done to the global registry. Calls whose
  stores are not noticed do nothing to it.
-/
import Mitaka.Heat.ResourceSharing

namespace Mitaka.Heat

open Fallback List Option

/-! ## 1. What a lookup depends on -/

/-- The registries that lookups in a user environment go to. -/
def Within (id : ℕ) (s : Scope) : Prop := s = .user id ∨ s = .global

/-- Worlds that are the same for a user environment. -/
structure Alike (id : ℕ) (w w' : World) : Prop where
  registries : ∀ s, Within id s → w'.registries s = w.registries s
  flags : w'.userResource = w.userResource

/-- The registries of a user environment have entries of their own. -/
structure Own (id : ℕ) (w : World) : Prop where
  nodup : ∀ s, Within id s → Dict.KeysNodup (w.registries s)
  within : ∀ s, Within id s → ∀ path i, (w.registries s).entryAt path = some (.info i) → Within id i.registry

/-- `w` with an entry more. -/
def World.put (w : World) (s : Scope) (t : List Char) (i : ResourceInfo) (flag : Bool) : World :=
  ⟨Function.update w.registries s ((w.registries s).set t (.info i)), Function.update w.userResource i flag⟩

/-- A lookup leaves all registries but those of its environment. -/
def Elsewhere (id : ℕ) (w w' : World) : Prop := ∀ s, ¬ Within id s → w'.registries s = w.registries s

section Frame

variable {id : ℕ} {s : Scope} {t : List Char} {n : Option (List Char)} {l : List ResourceInfo} {i found : ResourceInfo} {w w' a a' : World}
  {fuel : ℕ} {flag : Bool} {r : Except LookupError ResourceInfo} {rt : Option RegistryType} {ig : Option ResourceInfo}

theorem Alike.put (h : Alike id w w') (hs : Within id s) : Alike id (w.put s t i flag) (w'.put s t i flag) := by
  refine ⟨fun s' hs' => ?_, ?_⟩
  · rw [World.put, World.put]
    dsimp only
    rw [h.registries s hs]
    by_cases hss : s' = s
    · subst hss
      rw [Function.update_self, Function.update_self]
    · rw [Function.update_of_ne hss, Function.update_of_ne hss, h.registries s' hs']
  · rw [World.put, World.put, h.flags]

theorem Own.put (h : Own id w) (hi : Within id i.registry) : Own id (w.put s t i flag) := by
  refine ⟨fun s' hs' => ?_, fun s' hs' path j hj => ?_⟩
  · rw [World.put]
    dsimp only
    by_cases hss : s' = s
    · subst hss
      rw [Function.update_self]
      exact (h.nodup s' hs').set _ _
    · rw [Function.update_of_ne hss]
      exact h.nodup s' hs'
  · rw [World.put] at hj
    dsimp only at hj
    by_cases hss : s' = s
    · subst hss
      rw [Function.update_self] at hj
      rcases entryAt_set hj with ⟨-, rfl⟩ | hj
      · exact hi
      · exact h.within s' hs' path j hj
    · rw [Function.update_of_ne hss] at hj
      exact h.within s' hs' path j hj

theorem elsewhere_put (hs : Within id s) : Elsewhere id w (w.put s t i flag) := by
  intro s' hs'
  rw [World.put]
  exact Function.update_of_ne (fun e : s' = s => hs' (e.symm ▸ hs)) _ _

theorem Elsewhere.trans (h : Elsewhere id w w') (h' : Elsewhere id w' a) : Elsewhere id w a := fun s hs => (h' s hs).trans (h s hs)

theorem enter_eq (w : World) (s : Scope) (t : List Char) :
    w.enter s t = if s ≠ .global ∧ isTemplateName t = true ∧ (w.registries s).get t = none then w.put s t (.new s [t] .other) true else w := rfl

/-- Whether a mapping is stored. -/
def storesNew (r : Registry) (flags : ResourceInfo → Bool) (t : List Char) (i found : ResourceInfo) : Bool :=
  ! flags found && ! i.isEnd && ! (match r.get t with
    | some (.info old) => old.path == i.path && old.value == i.value && flags old == flags i
    | _ => false)

theorem store_eq (w : World) (s : Scope) (t : List Char) (i found : ResourceInfo) :
    w.store s t i found = if storesNew (w.registries s) w.userResource t i found then w.put s t i (s != .global) else w := by
  rw [World.store, storesNew]
  by_cases hmaps : (! w.userResource found && ! i.isEnd) = true
  · have hcls : i.impl ≠ .cls .other := by
      intro he
      rw [ResourceInfo.isEnd, he] at hmaps
      simp at hmaps
    have hplace : World.registerInfo.place w s [t] i = some (w.put s t i (s != .global)) := by
      rw [World.registerInfo.place, if_neg hcls]
      rfl
    rw [if_pos hmaps, hmaps, World.registerInfo, Registry.entryAt]
    cases hget : (w.registries s).get t with
    | none =>
      dsimp only
      rw [hplace]
      rfl
    | some e =>
      cases e with
      | item _ =>
        dsimp only
        rw [hplace]
        rfl
      | dict _ =>
        dsimp only
        rw [hplace]
        rfl
      | info old =>
        dsimp only
        rw [World.same]
        by_cases hsame : (old.path == i.path && old.value == i.value && w.userResource old == w.userResource i) = true
        · rw [if_pos hsame, if_neg (by rw [hsame]; exact Bool.false_ne_true)]
          rfl
        · rw [if_neg hsame, if_pos (by rw [Bool.eq_false_iff.mpr hsame]; rfl), hplace]
          rfl
  · rw [if_neg hmaps, Bool.eq_false_iff.mpr hmaps]
    rfl

/-- One environment's part of a world, before and after. -/
structure FrameStep (id : ℕ) (w a a' : World) : Prop where
  alike : Alike id a a'
  own : Own id a
  elsewhere : Elsewhere id w a

theorem FrameStep.enter (h : Alike id w w') (hown : Own id w) (hs : Within id s) : FrameStep id w (w.enter s t) (w'.enter s t) := by
  rw [enter_eq, enter_eq, h.registries s hs]
  split
  · exact ⟨h.put hs, hown.put hs, elsewhere_put hs⟩
  · exact ⟨h, hown, fun _ _ => rfl⟩

theorem FrameStep.store (h : Alike id w w') (hown : Own id w) (hs : Within id s) (hi : Within id i.registry) :
    FrameStep id w (w.store s t i found) (w'.store s t i found) := by
  rw [store_eq, store_eq, h.registries s hs, h.flags]
  split
  · exact ⟨h.put hs, hown.put hi, elsewhere_put hs⟩
  · exact ⟨h, hown, fun _ _ => rfl⟩

theorem Alike.candidates (h : Alike id w w') (hs : Within id s) : w'.candidates s t n = w.candidates s t n := by
  rw [World.candidates, World.candidates, iterableBy_congr (h.registries s hs), iterableBy_congr (h.registries .global (Or.inr rfl))]
  have hlt : w'.lt = w.lt := by
    funext a b
    rw [World.lt, World.lt, h.flags]
  rw [hlt]

theorem Own.mem_candidates (h : Own id w) (hs : Within id s) (hl : w.candidates s t n = some l) (hi : i ∈ l) : Within id i.registry := by
  obtain ⟨own, above, hown, habove, rfl⟩ := candidates_eq_some.mp hl
  rw [mem_insertionSort] at hi
  rcases mem_append.mp hi with hi | hi
  · obtain ⟨path, hpath⟩ := located_of_mem (h.nodup s hs) hown hi
    exact h.within s hs path i hpath
  · split at habove
    · obtain rfl := Option.some.inj habove
      cases hi
    · obtain ⟨path, hpath⟩ := located_of_mem (h.nodup .global (Or.inr rfl)) habove hi
      exact h.within .global (Or.inr rfl) path i hpath

/-- Two runs of one computation in worlds that are the same for an environment. -/
def SameRun (id : ℕ) (w : World) (x x' : Option (World × Except LookupError ResourceInfo)) : Prop :=
  (x = none ∧ x' = none) ∨ ∃ a a' r, x = some (a, r) ∧ x' = some (a', r) ∧ FrameStep id w a a'

theorem SameRun.elsewhere {x x' : Option (World × Except LookupError ResourceInfo)} (h : SameRun id w x x') (hw : Elsewhere id w' w) :
    SameRun id w' x x' := by
  rcases h with h | ⟨a, a', r, hx, hx', hstep⟩
  · exact Or.inl h
  · exact Or.inr ⟨a, a', r, hx, hx', hstep.alike, hstep.own, hw.trans hstep.elsewhere⟩

theorem tryInfos_frame (hlookup : ∀ w w' s t, Within id s → Alike id w w' → Own id w →
      SameRun id w (World.lookup n fuel w s t) (World.lookup n fuel w' s t))
    {accepts : World → ResourceInfo → Bool} (haccepts : ∀ w w' : World, w'.userResource = w.userResource → accepts w' = accepts w)
    (hs : Within id s) (h : Alike id w w') (hown : Own id w) (hl : ∀ i ∈ l, Within id i.registry) :
    SameRun id w (World.tryInfos (World.lookup n fuel) s t accepts w l) (World.tryInfos (World.lookup n fuel) s t accepts w' l) := by
  induction l generalizing w w' with
  | nil => exact Or.inr ⟨w, w', _, rfl, rfl, h, hown, fun _ _ => rfl⟩
  | cons i l ih =>
    have hrest := fun j hj => hl j (mem_cons_of_mem i hj)
    cases htarget : i.target t with
    | none =>
      rw [tryInfos_end htarget, tryInfos_end htarget, haccepts w w' h.flags]
      split
      · exact Or.inr ⟨w, w', _, rfl, rfl, h, hown, fun _ _ => rfl⟩
      · exact ih h hown hrest
    | some target =>
      rw [tryInfos_mapping htarget, tryInfos_mapping htarget]
      rcases hlookup w w' i.registry target (hl i mem_cons_self) h hown with ⟨hx, hx'⟩ | ⟨a, a', r, hx, hx', hstep⟩
      · rw [hx, hx']
        exact Or.inl ⟨rfl, rfl⟩
      · rw [hx, hx']
        cases r with
        | error e =>
          cases e with
          | crash => exact Or.inr ⟨a, a', _, rfl, rfl, hstep⟩
          | entityNotFound name => exact (ih hstep.alike hstep.own hrest).elsewhere hstep.elsewhere
        | ok found =>
          dsimp only
          rw [haccepts a a' hstep.alike.flags]
          split
          · have hstore : FrameStep id a (a.store s t i found) (a'.store s t i found) :=
              .store hstep.alike hstep.own hs (hl i mem_cons_self)
            exact Or.inr ⟨_, _, _, rfl, rfl, hstore.alike, hstore.own, hstep.elsewhere.trans hstore.elsewhere⟩
          · exact (ih hstep.alike hstep.own hrest).elsewhere hstep.elsewhere

/-- **A lookup depends** on the registries of its environment, and changes no others. -/
theorem lookup_frame (hs : Within id s) (h : Alike id w w') (hown : Own id w) :
    SameRun id w (World.lookup n fuel w s t) (World.lookup n fuel w' s t) := by
  induction fuel generalizing w w' s t with
  | zero => exact Or.inl ⟨rfl, rfl⟩
  | succ fuel ih =>
    have henter : FrameStep id w (w.enter s t) (w'.enter s t) := .enter h hown hs
    rw [World.lookup, World.lookup, henter.alike.candidates hs]
    cases hc : (w.enter s t).candidates s t n with
    | none => exact Or.inr ⟨_, _, _, rfl, rfl, henter⟩
    | some infos =>
      exact (tryInfos_frame (fun w w' s t hs h hown => ih hs h hown) (fun _ _ _ => rfl) hs henter.alike henter.own
        fun i hi => henter.own.mem_candidates hs hc hi).elsewhere henter.elsewhere

theorem getResourceInfo_frame (hs : Within id s) (h : Alike id w w') (hown : Own id w) :
    SameRun id w (w.getResourceInfo fuel s t n rt ig) (w'.getResourceInfo fuel s t n rt ig) := by
  have henter : FrameStep id w (w.enter s t) (w'.enter s t) := .enter h hown hs
  rw [World.getResourceInfo, World.getResourceInfo, henter.alike.candidates hs]
  cases hc : (w.enter s t).candidates s t n with
  | none => exact Or.inr ⟨_, _, _, rfl, rfl, henter⟩
  | some infos =>
    refine (tryInfos_frame (fun w w' s t hs h hown => lookup_frame hs h hown) (fun w w' hflags => ?_) hs henter.alike henter.own
      fun i hi => henter.own.mem_candidates hs hc hi).elsewhere henter.elsewhere
    funext found
    rw [World.accepts, World.accepts]
    congr 1
    cases ig with
    | none => rfl
    | some j => rw [any_some, any_some, World.same, World.same, hflags]

end Frame

/-! ## 2. Lookups whose stores are not noticed -/

/-- Nothing that `get_resource_info` stores is noticed: without a filter it follows the entry that
    decides, with one it may try every entry. -/
def QuietLookup (w₀ w : World) (s : Scope) (t : List Char) (n : Option (List Char)) (rt : Option RegistryType) (ig : Option ResourceInfo) : Prop :=
  if rt = none ∧ ig = none then Quiet w₀ n (w, s, t)
  else ∀ l, (w.enter s t).candidates s t n = some l → ∀ i ∈ l, QuietInfo w₀ n (w, s, t) i

section QuietLookup

variable {s : Scope} {t : List Char} {n : Option (List Char)} {w w₀ a b : World} {fuel : ℕ} {r r' : Except LookupError ResourceInfo}
  {rt : Option RegistryType} {ig : Option ResourceInfo}

theorem Grown.quietLookup_base (h : Grown w₀ w) (hquiet : QuietLookup w w s t n rt ig) : QuietLookup w₀ w s t n rt ig := by
  rw [QuietLookup] at hquiet ⊢
  split
  · rename_i hnone
    rw [if_pos hnone] at hquiet
    exact h.quiet_base hquiet
  · rename_i hsome
    rw [if_neg hsome] at hquiet
    intro l hl i hi target htarget
    exact (hquiet l hl i hi target htarget).imp id fun ⟨hmay, hq⟩ => ⟨h.mayStore_base hmay htarget, h.quiet_base hq⟩

/-- **Such a lookup** lets the registries grow. -/
theorem Grown.getResourceInfo (hfresh : Fresh w₀) (h : Grown w₀ w) (hquiet : QuietLookup w₀ w s t n rt ig)
    (hl : w.getResourceInfo fuel s t n rt ig = some (a, r)) : Grown w₀ a := by
  have henter := h.enter hfresh s t
  by_cases hnone : rt = none ∧ ig = none
  · obtain ⟨rfl, rfl⟩ := hnone
    rw [QuietLookup, if_pos ⟨rfl, rfl⟩] at hquiet
    rw [getResourceInfo_eq_lookup] at hl
    exact h.lookup hfresh hquiet hl
  · rw [QuietLookup, if_neg hnone] at hquiet
    rw [World.getResourceInfo] at hl
    cases hc : (w.enter s t).candidates s t n with
    | none =>
      rw [hc] at hl
      cases hl
      exact henter
    | some infos =>
      rw [hc] at hl
      exact (Grown.tryInfos hfresh henter henter (hquiet infos hc) hl).1

theorem toAnswer_inj (hr : ∀ name, r = .error (.entityNotFound name) → name = t) (hr' : ∀ name, r' = .error (.entityNotFound name) → name = t)
    (h : toAnswer r = toAnswer r') : r = r' := by
  cases r with
  | ok i =>
    cases r' with
    | ok j => exact congrArg Except.ok (Answer.found.inj h)
    | error e' => cases e' <;> cases h
  | error e =>
    cases r' with
    | ok j => cases e <;> cases h
    | error e' =>
      cases e with
      | crash =>
        cases e' with
        | crash => rfl
        | entityNotFound _ => cases h
      | entityNotFound name =>
        cases e' with
        | crash => cases h
        | entityNotFound name' => rw [hr name rfl, hr' name' rfl]

/-- **The lookup in another world** that has grown from the same comes to the same. -/
theorem Grown.getResourceInfo_returns (hfresh : Fresh w₀) (ha : Grown w₀ a) (hb : Grown w₀ b) (hquiet : QuietLookup w₀ a s t n rt ig)
    (hl : ∃ fuel a', a.getResourceInfo fuel s t n rt ig = some (a', r)) : ∃ fuel b', b.getResourceInfo fuel s t n rt ig = some (b', r) := by
  obtain ⟨fuel, a', hl⟩ := hl
  have ha' := ha.enter hfresh s t
  have hb' := hb.enter hfresh s t
  by_cases hnone : rt = none ∧ ig = none
  · obtain ⟨rfl, rfl⟩ := hnone
    obtain ⟨fuel', b', r', hl', hr⟩ := answers_iff.mp (Grown.answers hfresh ha hb (answers_iff.mpr ⟨fuel, a', r, hl, rfl⟩))
    refine ⟨fuel', b', ?_⟩
    rw [hl', toAnswer_inj (t := t) ?_ ?_ hr]
    · rintro name rfl
      exact ((lookup_eq_search n (fuel' + 1) b s t).2 b' name hl').2
    · rintro name rfl
      exact ((lookup_eq_search n (fuel + 1) a s t).2 a' name hl).2
  · rw [QuietLookup, if_neg hnone] at hquiet
    rw [World.getResourceInfo] at hl
    cases hc : (a.enter s t).candidates s t n with
    | none =>
      rw [hc] at hl
      cases hl
      refine ⟨0, b.enter s t, ?_⟩
      rw [World.getResourceInfo, ha.candidates_none hb hfresh hc]
    | some l =>
      rw [hc] at hl
      obtain ⟨l', hl', hmem, hfirst⟩ := ha.choice hb hfresh hc
      have hout := (Grown.tryInfos hfresh ha' ha' (hquiet l hc) hl).2
      have hout' : LoopOutcome n (a.enter s t) t (World.accepts rt ig w₀) l' r := by
        rcases hout with ⟨hall, hr⟩ | ⟨l₁, i, l₂, hsplit, hl₁, hi⟩
        · exact Or.inl ⟨fun i hi => hall i ((hmem i).mpr hi), hr⟩
        · obtain ⟨l₁', l₂', hsplit', hl₁'⟩ := hfirst _ l₁ i l₂ hsplit hl₁ fun hpass => hpass.not_stops hi
          exact Or.inr ⟨l₁', i, l₂', hsplit', hl₁', hi⟩
      obtain ⟨fuel', b', hreturns⟩ := Grown.tryInfos_returns hfresh ha' hb' (fun i hi => hquiet l hc i ((hmem i).mpr hi)) hout'
      refine ⟨fuel', b', ?_⟩
      rw [World.getResourceInfo, hl']
      exact hreturns

theorem getResourceInfo_mono {fuel' : ℕ} (hle : fuel ≤ fuel') {x : World × Except LookupError ResourceInfo}
    (h : w.getResourceInfo fuel s t n rt ig = some x) : w.getResourceInfo fuel' s t n rt ig = some x := by
  rw [World.getResourceInfo] at h ⊢
  cases hc : (w.enter s t).candidates s t n with
  | none =>
    rw [hc] at h
    exact h
  | some infos =>
    rw [hc] at h
    exact tryInfos_mono (fun _ _ _ _ => lookup_mono hle) h

end QuietLookup

/-! ## 3. Calls -/

/-- A call through a registry. -/
inductive RegistryCall where
  | resourceInfo (resourceType : List Char) (resourceName : Option (List Char)) (registryType : Option RegistryType) (ignore : Option ResourceInfo)
  | classToInstantiate (resourceType : TypeField) (resourceName : Option (List Char))

/-- What it returns or raises. -/
inductive CallResult where
  | info (r : Except LookupError ResourceInfo)
  | instantiable (r : Except ValidationError (Option Instantiable))

namespace RegistryCall

def run (fuel : ℕ) (w : World) (s : Scope) : RegistryCall → Option (World × CallResult)
  | .resourceInfo t n rt ig => (w.getResourceInfo fuel s t n rt ig).map fun a => (a.1, .info a.2)
  | .classToInstantiate t n => (w.getClassToInstantiate fuel s t n).map fun a => (a.1, .instantiable a.2)

/-- A call and its result. -/
def Returns (call : RegistryCall) (w : World) (s : Scope) (r : CallResult) : Prop := ∃ fuel w', call.run fuel w s = some (w', r)

/-- Nothing that the call stores is noticed, in the registries of `w₀`. -/
def Quiet (call : RegistryCall) (w₀ w : World) (s : Scope) : Prop :=
  match call with
  | .resourceInfo t n rt ig => QuietLookup w₀ w s t n rt ig
  | .classToInstantiate (.text t) n => t = [] ∨ QuietLookup w₀ w s t n none none
  | _ => True

/-- What `get_class_to_instantiate` makes of a lookup. -/
def instantiated : Except LookupError ResourceInfo → Except ValidationError (Option Instantiable)
  | .ok info => .ok info.getClassToInstantiate
  | .error (.entityNotFound name) => .error (.entityNotFound name)
  | .error .crash => .error .crash

/-- **A call is a lookup**, or nothing but a result. -/
theorem cases (call : RegistryCall) : (∃ r, ∀ fuel w s, call.run fuel w s = some (w, r)) ∨
    ∃ t n rt ig, ∃ f : Except LookupError ResourceInfo → CallResult,
      (∀ fuel w s, call.run fuel w s = (w.getResourceInfo fuel s t n rt ig).map fun a => (a.1, f a.2)) ∧
        ∀ w₀ w s, call.Quiet w₀ w s → QuietLookup w₀ w s t n rt ig := by
  cases call with
  | resourceInfo t n rt ig => exact Or.inr ⟨t, n, rt, ig, .info, fun _ _ _ => rfl, fun _ _ _ => id⟩
  | classToInstantiate t n =>
    cases t with
    | absent => exact Or.inl ⟨.instantiable (.error (.typeRequired n)), fun _ _ _ => rfl⟩
    | other => exact Or.inl ⟨.instantiable (.error (.typeNotString n)), fun _ _ _ => rfl⟩
    | text t =>
      by_cases ht : t = []
      · refine Or.inl ⟨.instantiable (.error (.noType n)), fun fuel w s => ?_⟩
        rw [run, World.getClassToInstantiate, if_pos ht]
        rfl
      · refine Or.inr ⟨t, n, none, none, fun r => .instantiable (instantiated r), fun fuel w s => ?_,
          fun _ _ _ hq => hq.resolve_left ht⟩
        rw [run, World.getClassToInstantiate, if_neg ht, Option.map_map]
        rfl

section Calls

variable {call : RegistryCall} {s : Scope} {w w₀ a b : World} {fuel : ℕ} {r r' : CallResult} {id : ℕ}

/-- Calls whose stores are not noticed let the registries grow. -/
theorem grown (hfresh : Fresh w₀) (h : Grown w₀ w) (hquiet : call.Quiet w₀ w s) (hrun : call.run fuel w s = some (a, r)) : Grown w₀ a := by
  rcases call.cases with ⟨r₁, hcall⟩ | ⟨t, n, rt, ig, f, hcall, hq⟩
  · rw [hcall] at hrun
    cases hrun
    exact h
  · rw [hcall] at hrun
    obtain ⟨⟨a', r₁⟩, hl, he⟩ := map_eq_some_iff.mp hrun
    cases he
    exact h.getResourceInfo hfresh (hq _ _ _ hquiet) hl

theorem quiet_base (h : Grown w₀ w) (hquiet : call.Quiet w w s) : call.Quiet w₀ w s := by
  cases call with
  | resourceInfo t n rt ig => exact h.quietLookup_base hquiet
  | classToInstantiate t n =>
    cases t with
    | absent => trivial
    | other => trivial
    | text t => exact hquiet.imp (fun h => h) h.quietLookup_base

theorem returns_grown (hfresh : Fresh w₀) (ha : Grown w₀ a) (hb : Grown w₀ b) (hquiet : call.Quiet w₀ a s) (h : call.Returns a s r) :
    call.Returns b s r := by
  obtain ⟨fuel, a', hrun⟩ := h
  rcases call.cases with ⟨r₁, hcall⟩ | ⟨t, n, rt, ig, f, hcall, hq⟩
  · rw [hcall] at hrun
    cases hrun
    exact ⟨0, b, hcall _ _ _⟩
  · rw [hcall] at hrun
    obtain ⟨⟨a'', r₁⟩, hl, he⟩ := map_eq_some_iff.mp hrun
    cases he
    obtain ⟨fuel', b', hl'⟩ := Grown.getResourceInfo_returns hfresh ha hb (hq _ _ _ hquiet) ⟨fuel, a'', hl⟩
    exact ⟨fuel', b', by rw [hcall, hl']; rfl⟩

/-- A call has one result. -/
theorem Returns.unique (h : call.Returns w s r) (h' : call.Returns w s r') : r = r' := by
  obtain ⟨fuel, a, hrun⟩ := h
  obtain ⟨fuel', b, hrun'⟩ := h'
  rcases call.cases with ⟨r₁, hcall⟩ | ⟨t, n, rt, ig, f, hcall, -⟩
  · rw [hcall] at hrun hrun'
    cases hrun
    cases hrun'
    rfl
  · rw [hcall] at hrun hrun'
    obtain ⟨⟨a', r₁⟩, hl, he⟩ := map_eq_some_iff.mp hrun
    obtain ⟨⟨b', r₂⟩, hl', he'⟩ := map_eq_some_iff.mp hrun'
    cases he
    cases he'
    have heq := (getResourceInfo_mono (le_max_left fuel fuel') hl).symm.trans (getResourceInfo_mono (le_max_right fuel fuel') hl')
    cases heq
    rfl

/-- **A call depends** on the registries of its environment. -/
theorem returns_frame (h : Alike id w a) (hown : Own id w) : call.Returns a (.user id) r ↔ call.Returns w (.user id) r := by
  rcases call.cases with ⟨r₁, hcall⟩ | ⟨t, n, rt, ig, f, hcall, -⟩
  · constructor
    · rintro ⟨fuel, x, hrun⟩
      rw [hcall] at hrun
      cases hrun
      exact ⟨0, w, hcall _ _ _⟩
    · rintro ⟨fuel, x, hrun⟩
      rw [hcall] at hrun
      cases hrun
      exact ⟨0, a, hcall _ _ _⟩
  · refine exists_congr fun fuel => ?_
    rw [hcall, hcall]
    have hframe : SameRun id w (w.getResourceInfo fuel (.user id) t n rt ig) (a.getResourceInfo fuel (.user id) t n rt ig) :=
      getResourceInfo_frame (Or.inl rfl) h hown
    rcases hframe with ⟨hx, hx'⟩ | ⟨c, c', r₁, hx, hx', -⟩
    · rw [hx, hx']
    · rw [hx, hx']
      constructor
      · rintro ⟨_, he⟩
        cases he
        exact ⟨c, rfl⟩
      · rintro ⟨_, he⟩
        cases he
        exact ⟨c', rfl⟩

/-- A call leaves the registries of other environments. -/
theorem elsewhere (hown : Own id w) (hrun : call.run fuel w (.user id) = some (a, r)) : Elsewhere id w a ∧ Own id a := by
  rcases call.cases with ⟨r₁, hcall⟩ | ⟨t, n, rt, ig, f, hcall, -⟩
  · rw [hcall] at hrun
    cases hrun
    exact ⟨fun _ _ => rfl, hown⟩
  · rw [hcall] at hrun
    obtain ⟨⟨a', r₁⟩, hl, he⟩ := map_eq_some_iff.mp hrun
    cases he
    have hself : Alike id w w := ⟨fun _ _ => rfl, rfl⟩
    rcases getResourceInfo_frame (Or.inl rfl) hself hown with ⟨hx, -⟩ | ⟨c, c', r₂, hx, -, hstep⟩
    · rw [hl] at hx
      cases hx
    · cases hl.symm.trans hx
      exact ⟨hstep.elsewhere, hstep.own⟩

end Calls

end RegistryCall

/-! ## 4. What loading leaves -/

section Load

variable {s : Scope} {w w' : World} {path p : List (List Char)} {r r' : Registry} {f : Registry → Registry} {i : ResourceInfo}

/-- What a change at the end of a path does to the entries, further up. -/
theorem entryAt_updateAt {P : List (List Char) → ResourceInfo → Prop}
    (hf : ∀ r p i, Registry.entryAt (f r) p = some (.info i) → P p i ∨ Registry.entryAt r p = some (.info i))
    (h : Registry.updateAt f path r = some r') (hi : r'.entryAt p = some (.info i)) :
    (∃ p', p = path ++ p' ∧ P p' i) ∨ r.entryAt p = some (.info i) := by
  induction path generalizing r r' p with
  | nil =>
    cases h
    exact (hf r p i hi).imp (fun hp => ⟨p, rfl, hp⟩) id
  | cons key path ih =>
    have hset : ∀ inner inner', Registry.updateAt f path inner = some inner' →
        (∀ q, Registry.entryAt inner q = some (.info i) → r.entryAt (key :: q) = some (.info i)) →
        Registry.entryAt (r.set key (.dict inner')) p = some (.info i) →
        (∃ p', p = key :: path ++ p' ∧ P p' i) ∨ r.entryAt p = some (.info i) := by
      intro inner inner' hinner hdown hi
      cases p with
      | nil => cases hi
      | cons key' q =>
        cases q with
        | nil =>
          rw [Registry.entryAt, Dict.get_set] at hi
          split at hi
          · cases hi
          · exact Or.inr hi
        | cons key'' q =>
          rw [entryAt_cons_cons, Dict.get_set] at hi
          by_cases hkey : key = key'
          · subst hkey
            rw [if_pos rfl] at hi
            rcases ih hinner hi with ⟨p', hp', hP⟩ | hi
            · exact Or.inl ⟨p', by rw [hp']; rfl, hP⟩
            · exact Or.inr (hdown _ hi)
          · rw [if_neg hkey] at hi
            exact Or.inr ((entryAt_cons_cons r key' key'' q).trans hi)
    rw [Registry.updateAt] at h
    cases hget : r.get key with
    | none =>
      rw [hget] at h
      obtain ⟨inner', hinner, rfl⟩ := map_eq_some_iff.mp h
      refine hset [] inner' hinner (fun q hq => ?_) hi
      cases q with
      | nil => cases hq
      | cons k q => cases q <;> cases hq
    | some e =>
      rw [hget] at h
      cases e with
      | info _ => cases h
      | item _ => cases h
      | dict inner =>
        obtain ⟨inner', hinner, rfl⟩ := map_eq_some_iff.mp h
        refine hset inner inner' hinner (fun q hq => ?_) hi
        cases q with
        | nil => cases hq
        | cons k q =>
          rw [entryAt_cons_cons, hget]
          exact hq

theorem keysNodup_updateAt (hf : ∀ r : Registry, Dict.KeysNodup r → Dict.KeysNodup (f r)) (hr : Dict.KeysNodup r)
    (h : Registry.updateAt f path r = some r') : Dict.KeysNodup r' := by
  cases path with
  | nil =>
    cases h
    exact hf r hr
  | cons key path =>
    rw [Registry.updateAt] at h
    cases hget : r.get key with
    | none =>
      rw [hget] at h
      obtain ⟨inner, -, rfl⟩ := map_eq_some_iff.mp h
      exact hr.set _ _
    | some e =>
      rw [hget] at h
      cases e with
      | info _ => cases h
      | item _ => cases h
      | dict inner =>
        obtain ⟨inner', -, rfl⟩ := map_eq_some_iff.mp h
        exact hr.set _ _

/-- Registries without the entries that were removed. -/
theorem Fresh.setRegistry (h : Fresh w) (hnodup : Dict.KeysNodup r)
    (hr : ∀ p i, Registry.entryAt r p = some (.info i) → (w.registries s).entryAt p = some (.info i)) : Fresh (w.setRegistry s r) := by
  refine ⟨fun s' => ?_, fun s' p i hi => ?_, h.marked⟩
  · rw [World.setRegistry]
    dsimp only
    by_cases hs : s' = s
    · subst hs
      rw [Function.update_self]
      exact hnodup
    · rw [Function.update_of_ne hs]
      exact h.nodup s'
  · rw [World.setRegistry] at hi
    dsimp only at hi
    by_cases hs : s' = s
    · subst hs
      rw [Function.update_self] at hi
      exact h.located s' p i (hr p i hi)
    · rw [Function.update_of_ne hs] at hi
      exact h.located s' p i hi

theorem entryAt_erase {k : List Char} (h : Registry.entryAt (r.erase k) p = some (.info i)) : r.entryAt p = some (.info i) := by
  have hget : ∀ k' e, Dict.get (r.erase k) k' = some e → Dict.get r k' = some e := by
    intro k' e he
    rw [Dict.get_erase] at he
    split at he
    · cases he
    · exact he
  cases p with
  | nil => cases h
  | cons k' p =>
    cases p with
    | nil => exact hget _ _ h
    | cons k'' p =>
      rw [entryAt_cons_cons] at h ⊢
      cases hk : Dict.get (r.erase k) k' with
      | none =>
        rw [hk] at h
        cases h
      | some e =>
        rw [hk] at h
        rw [hget _ _ hk]
        exact h

/-- **Removals** take entries away, and nothing else. -/
theorem removeInfo_spec (name : List Char) (r : Registry) :
    (Dict.KeysNodup r → Dict.KeysNodup (World.removeInfo name r)) ∧
      ∀ p i, Registry.entryAt (World.removeInfo name r) p = some (.info i) → r.entryAt p = some (.info i) := by
  have herase : ∀ (r : Registry) k, Dict.KeysNodup r → Dict.KeysNodup (r.erase k) := fun r k hr =>
    hr.sublist (filter_sublist.map Prod.fst)
  rw [World.removeInfo]
  split
  · generalize r.map Prod.fst = names
    induction names generalizing r with
    | nil => exact ⟨id, fun _ _ h => h⟩
    | cons resName names ih =>
      rw [foldl_cons]
      split
      · split
        · obtain ⟨hnodup, hentry⟩ := ih (r.erase resName)
          exact ⟨fun hr => hnodup (herase r resName hr), fun p i h => entryAt_erase (hentry p i h)⟩
        · exact ih r
      · exact ih r
  · exact ⟨herase r name, fun p i h => entryAt_erase h⟩

/-- **Registering** an entry where its path says. -/
theorem Fresh.registerInfo (h : Fresh w) (hpath : path ≠ []) {info : Option ResourceInfo} (hinfo : ∀ i ∈ info, i.registry = s ∧ i.path = path)
    (hw : w.registerInfo s path info = some w') : Fresh w' := by
  cases info with
  | none =>
    obtain ⟨r, hr, rfl⟩ := map_eq_some_iff.mp hw
    refine h.setRegistry (keysNodup_updateAt (fun r => (removeInfo_spec _ r).1) (h.nodup s) hr) fun p i hi => ?_
    refine (entryAt_updateAt (P := fun _ _ => False) (fun r p i h => Or.inr ((removeInfo_spec _ r).2 p i h)) hr hi).resolve_left ?_
    exact fun h => h.elim fun _ h => h.2
  | some info =>
    obtain ⟨hregistry, hinfopath⟩ := hinfo info rfl
    have hplace : World.registerInfo.place w s path info = some w' → Fresh w' := by
      intro hw
      rw [World.registerInfo.place] at hw
      split at hw
      · cases hw
      · obtain ⟨r, hr, rfl⟩ := map_eq_some_iff.mp hw
        have hset : ∀ p i, Registry.entryAt r p = some (.info i) → (p = path ∧ i = info) ∨ (w.registries s).entryAt p = some (.info i) := by
          intro p i hi
          rcases entryAt_updateAt (P := fun p i => p = [path.getLastD []] ∧ i = info) (fun r p i => entryAt_set) hr hi with ⟨p', rfl, rfl, rfl⟩ | hi
          · refine Or.inl ⟨?_, rfl⟩
            rw [getLastD_eq_getLast?, getLast?_eq_some_getLast hpath]
            exact dropLast_append_getLast hpath
          · exact Or.inr hi
        have hnodup : Dict.KeysNodup r := keysNodup_updateAt (fun r hr => hr.set _ _) (h.nodup s) hr
        refine ⟨fun s' => ?_, fun s' p i hi => ?_, fun i hi => ?_⟩
        · change Dict.KeysNodup (Function.update w.registries s r s')
          by_cases hs : s' = s
          · subst hs
            rw [Function.update_self]
            exact hnodup
          · rw [Function.update_of_ne hs]
            exact h.nodup s'
        · change Registry.entryAt (Function.update w.registries s r s') p = _ at hi
          have hplaced : (s' = s ∧ p = path ∧ i = info) ∨ (w.registries s').entryAt p = some (.info i) := by
            by_cases hs : s' = s
            · subst hs
              rw [Function.update_self] at hi
              exact (hset p i hi).imp (⟨rfl, ·⟩) id
            · rw [Function.update_of_ne hs] at hi
              exact Or.inr hi
          dsimp only
          rcases hplaced with ⟨rfl, rfl, rfl⟩ | hold
          · exact ⟨hregistry, hinfopath, Function.update_self _ _ _⟩
          · obtain ⟨hi₁, hi₂, hi₃⟩ := h.located s' p i hold
            refine ⟨hi₁, hi₂, ?_⟩
            by_cases he : i = info
            · subst he
              rw [Function.update_self, ← hi₁, hregistry]
            · rw [Function.update_of_ne he]
              exact hi₃
        · dsimp only
          by_cases he : i = info
          · subst he
            rw [Function.update_self, ← hregistry]
            exact bne_iff_ne.mpr hi
          · rw [Function.update_of_ne he]
            exact h.marked i hi
    rw [World.registerInfo] at hw
    split at hw
    · split at hw
      · cases hw
        exact h
      · exact hplace hw
    · exact hplace hw

theorem Fresh.registerItem (h : Fresh w) {item : Item} (hw : w.registerItem s path item = some w') : Fresh w' := by
  obtain ⟨r, hr, rfl⟩ := map_eq_some_iff.mp hw
  have hleaf : ∀ (r : Registry) p i, Registry.entryAt (r.set (path.getLastD []) (.item item)) p = some (.info i) →
      False ∨ r.entryAt p = some (.info i) := by
    intro r p i hi
    rcases entryAt_set_leaf (fun _ he => by cases he) hi with ⟨-, he⟩ | hi
    · cases he
    · exact Or.inr hi
  refine h.setRegistry (keysNodup_updateAt (fun r hr => hr.set _ _) (h.nodup s) hr) fun p i hi => ?_
  exact (entryAt_updateAt (P := fun _ _ => False) hleaf hr hi).resolve_left fun ⟨_, _, hfalse⟩ => hfalse

theorem Fresh.loadLeaf (h : Fresh w) (hpath : path ≠ []) {snippet : Snippet} (hw : loadLeaf s path w snippet = some w') : Fresh w' := by
  rw [Mitaka.Heat.loadLeaf] at hw
  split at hw
  · obtain ⟨item, -, hw⟩ := bind_eq_some_iff.mp hw
    exact h.registerItem hw
  · refine h.registerInfo hpath (fun i hi => ?_) hw
    obtain rfl := Option.some.inj hi
    exact ⟨rfl, rfl⟩

mutual

theorem Fresh.loadEntry {u v : World} {q : List (List Char)} (h : Fresh u) (hq : q ≠ []) (snippet : Snippet)
    (hv : loadEntry s q u snippet = some v) : Fresh v := by
  cases snippet with
  | null =>
    have hnone : ∀ i ∈ (none : Option ResourceInfo), i.registry = s ∧ i.path = q := fun i hi => by cases hi
    exact h.registerInfo hq hnone hv
  | dict entries =>
    rw [Mitaka.Heat.loadEntry] at hv
    split at hv
    · exact Fresh.loadRegistry h entries hv
    · cases hv
  | text t => exact h.loadLeaf hq hv
  | plugin name => exact h.loadLeaf hq hv
  | other => exact h.loadLeaf hq hv
  | list l => exact h.loadLeaf hq hv

theorem Fresh.loadRegistry {u v : World} {q : List (List Char)} (h : Fresh u) (entries : List (List Char × Snippet))
    (hv : loadRegistry s q u entries = some v) : Fresh v := by
  cases entries with
  | nil =>
    cases hv
    exact h
  | cons e entries =>
    obtain ⟨key, value⟩ := e
    obtain ⟨u', hu', hrest⟩ := bind_eq_some_iff.mp hv
    exact Fresh.loadRegistry (Fresh.loadEntry h (append_ne_nil_of_right_ne_nil _ (cons_ne_nil _ _)) value hu') entries hrest

end

theorem fresh_initial : Fresh World.initial := by
  refine ⟨fun _ => nodup_singleton _, fun s p i hi => ?_, fun _ _ => rfl⟩
  cases p with
  | nil => cases hi
  | cons key p =>
    cases p with
    | nil =>
      rw [World.initial, Registry.entryAt, Dict.get_cons] at hi
      split at hi <;> cases hi
    | cons key' p =>
      rw [World.initial, entryAt_cons_cons, Dict.get_cons] at hi
      split at hi
      · rename_i heq
        split at heq
        · cases heq
          cases p <;> cases hi
        · cases heq
      · cases hi

/-- **Registries that have been loaded**, of any users and in any order, have their entries where they belong. -/
theorem Fresh.load (h : Fresh w) {snippet : List (List Char × Snippet)} (hw : w.load s snippet = some w') : Fresh w' :=
  Fresh.loadRegistry h snippet hw

end Load

/-! ## 5. Runs -/

/-- Calls through one registry, one after another, whose stores are not noticed. -/
inductive QuietRun (s : Scope) : World → List (RegistryCall × CallResult) → World → Prop where
  | nil (w : World) : QuietRun s w [] w
  | cons {w w' w'' : World} {call : RegistryCall} {r : CallResult} {calls : List (RegistryCall × CallResult)} {fuel : ℕ}
      (hquiet : call.Quiet w w s) (hrun : call.run fuel w s = some (w', r)) (hrest : QuietRun s w' calls w'') :
      QuietRun s w ((call, r) :: calls) w''

section Runs

variable {id : ℕ} {w w₀ w' : World} {calls : List (RegistryCall × CallResult)}

theorem QuietRun.grown {s : Scope} (hfresh : Fresh w₀) (h : Grown w₀ w) (hrun : QuietRun s w calls w') :
    Grown w₀ w' ∧ ∀ call r, (call, r) ∈ calls → ∃ a, Grown w₀ a ∧ call.Quiet w₀ a s ∧ call.Returns a s r := by
  induction hrun with
  | nil w => exact ⟨h, fun _ _ hmem => absurd hmem not_mem_nil⟩
  | @cons w w₁ w₂ call r calls fuel hquiet hrun _ ih =>
    have hbase := RegistryCall.quiet_base h hquiet
    obtain ⟨hgrown, hcalls⟩ := ih (RegistryCall.grown hfresh h hbase hrun)
    refine ⟨hgrown, fun call' r' hmem => ?_⟩
    rcases mem_cons.mp hmem with he | hmem
    · cases he
      exact ⟨w, h, hbase, fuel, w₁, hrun⟩
    · exact hcalls call' r' hmem

theorem QuietRun.elsewhere (hown : Own id w) (hrun : QuietRun (.user id) w calls w') : Elsewhere id w w' := by
  induction hrun with
  | nil w => exact fun _ _ => rfl
  | cons _ hrun _ ih =>
    obtain ⟨helse, hown'⟩ := RegistryCall.elsewhere hown hrun
    exact helse.trans (ih hown')

theorem Fresh.own (h : Fresh w) (id : ℕ) : Own id w :=
  ⟨fun s _ => h.nodup s, fun s hs path i hi => by rw [(h.located s path i hi).1]; exact hs⟩

/-- **Lookups keep to their environment**: a run of calls whose stores are not noticed leaves every entry of
    the global registry, its mark and what other environments look up, and each of its lookups
    comes to the same when it is repeated. -/
theorem lookups_isolated (hfresh : Fresh w) (hrun : QuietRun (.user id) w calls w') :
    w'.registries .global = w.registries .global ∧ w'.userResource = w.userResource ∧
      (∀ id', id' ≠ id → ∀ (call : RegistryCall) r, call.Returns w' (.user id') r ↔ call.Returns w (.user id') r) ∧
      ∀ call r, (call, r) ∈ calls → ∀ r', call.Returns w' (.user id) r' ↔ r' = r := by
  obtain ⟨hgrown, hcalls⟩ := QuietRun.grown hfresh hfresh.grown hrun
  refine ⟨hgrown.global, hgrown.flags, fun id' hne call r => ?_, fun call r hmem r' => ?_⟩
  · refine RegistryCall.returns_frame ⟨fun s hs => ?_, hgrown.flags⟩ (hfresh.own id')
    rcases hs with rfl | rfl
    · refine hrun.elsewhere (hfresh.own id) _ ?_
      rintro (he | he)
      · exact hne (Scope.user.inj he)
      · cases he
    · exact hgrown.global
  · obtain ⟨a, ha, hquiet, hreturns⟩ := hcalls call r hmem
    have hagain := RegistryCall.returns_grown hfresh ha hgrown hquiet hreturns
    refine ⟨fun h => h.unique hagain, ?_⟩
    rintro rfl
    exact hagain

/-- A quiet lookup, by the entries that it may follow. -/
theorem Quiet.intro {n : Option (List Char)} {q : Query} {infos : List ResourceInfo}
    (hc : (q.1.enter q.2.1 q.2.2).candidates q.2.1 q.2.2 n = some infos)
    (hinfos : ∀ i ∈ infos, ∀ target, i.target q.2.2 = some target →
      MayStore w n q i target ∧ Quiet w n (q.1.enter q.2.1 q.2.2, i.registry, target)) : Quiet w n q := by
  have hmem : ∀ i, Chosen n q i → i ∈ infos := by
    rintro i ⟨l, l', hl, -⟩
    rw [Option.some.inj (hc.symm.trans hl)]
    exact mem_append_right _ mem_cons_self
  intro q' hreach i hchosen target htarget
  rcases Relation.ReflTransGen.cases_head hreach with rfl | ⟨c, hf, hrest⟩
  · exact (hinfos i (hmem i hchosen) target htarget).1
  · obtain ⟨j, hj, hchosen'⟩ := chosen_of_decides hf
    rw [ResourceInfo.alternative] at hj
    cases htarget' : j.target q.2.2 with
    | none =>
      rw [htarget'] at hj
      cases hj
    | some target' =>
      rw [htarget'] at hj
      obtain rfl := Sum.inr.inj hj
      exact (hinfos j (hmem j hchosen') target' htarget').2 q' hrest i hchosen target htarget

/-- A class of the global registry, and a user's mapping to it. -/
def mappedWorld : World :=
  ((World.initial.load .global [("Srv".toList, .plugin "Srv".toList)]).bind fun w => w.load (.user 0) [("A".toList, .text "Srv".toList)]).getD .initial

theorem fresh_mappedWorld : Fresh mappedWorld := by
  have hload : ∃ w₁ w₂, World.initial.load .global [("Srv".toList, .plugin "Srv".toList)] = some w₁ ∧
      w₁.load (.user 0) [("A".toList, .text "Srv".toList)] = some w₂ ∧ mappedWorld = w₂ := ⟨_, _, rfl, rfl, rfl⟩
  obtain ⟨w₁, w₂, h₁, h₂, he⟩ := hload
  rw [he]
  exact (fresh_initial.load h₁).load h₂

/-- The mapping is looked up, then a template. -/
def mappedCalls : List (RegistryCall × CallResult) :=
  [(.resourceInfo "A".toList none none none, .info (.ok ⟨.global, ["Srv".toList], .cls (.plugin "Srv".toList)⟩)),
    (.resourceInfo "x.yaml".toList none none none, .info (.ok ⟨.user 0, ["x.yaml".toList], .template "x.yaml".toList⟩))]

theorem quietRun_mappedCalls : QuietRun (.user 0) mappedWorld mappedCalls (mappedWorld.enter (.user 0) "x.yaml".toList) := by
  have hsrv : Quiet mappedWorld none (mappedWorld, .user 0, "Srv".toList) := by
    have hc : (mappedWorld.enter (.user 0) "Srv".toList).candidates (.user 0) "Srv".toList none =
        some [⟨.global, ["Srv".toList], .cls (.plugin "Srv".toList)⟩] := rfl
    refine Quiet.intro hc fun i hi target htarget => ?_
    obtain rfl := mem_singleton.mp hi
    cases htarget
  have hA : Quiet mappedWorld none (mappedWorld, .user 0, "A".toList) := by
    have hc : (mappedWorld.enter (.user 0) "A".toList).candidates (.user 0) "A".toList none =
        some [⟨.user 0, ["A".toList], .map "Srv".toList⟩] := rfl
    refine Quiet.intro hc fun i hi target htarget => ?_
    obtain rfl := mem_singleton.mp hi
    cases htarget
    exact ⟨Or.inl ⟨nofun, Or.inl rfl⟩, hsrv⟩
  have hx : Quiet mappedWorld none (mappedWorld, .user 0, "x.yaml".toList) := by
    have hall : ∀ i ∈ [(⟨.user 0, ["x.yaml".toList], .template "x.yaml".toList⟩ : ResourceInfo),
        ⟨.user 0, ["x.yaml".toList], .template "x.yaml".toList⟩], i.isEnd = true := by decide
    refine Quiet.intro rfl fun i hi target htarget => ?_
    have hend := hall i hi
    rw [isEnd_of_target htarget] at hend
    cases hend
  have hrunA : (RegistryCall.resourceInfo "A".toList none none none).run 1 mappedWorld (.user 0) =
      some (mappedWorld, .info (.ok ⟨.global, ["Srv".toList], .cls (.plugin "Srv".toList)⟩)) := rfl
  have hrunx : (RegistryCall.resourceInfo "x.yaml".toList none none none).run 0 mappedWorld (.user 0) =
      some (mappedWorld.enter (.user 0) "x.yaml".toList, .info (.ok ⟨.user 0, ["x.yaml".toList], .template "x.yaml".toList⟩)) := rfl
  exact .cons hA hrunA (.cons hx hrunx (.nil _))

theorem lookups_isolated_mapped : (mappedWorld.enter (.user 0) "x.yaml".toList).registries .global = mappedWorld.registries .global ∧
    (mappedWorld.enter (.user 0) "x.yaml".toList).userResource = mappedWorld.userResource ∧
      (∀ id', id' ≠ 0 → ∀ (call : RegistryCall) r, call.Returns (mappedWorld.enter (.user 0) "x.yaml".toList) (.user id') r ↔
        call.Returns mappedWorld (.user id') r) ∧
      ∀ call r, (call, r) ∈ mappedCalls → ∀ r', call.Returns (mappedWorld.enter (.user 0) "x.yaml".toList) (.user 0) r' ↔ r' = r :=
  lookups_isolated fresh_mappedWorld quietRun_mappedCalls

end Runs

/-- Two classes and a wildcard mapping of the global registry, and a user with a mapping of the same type. -/
def sharedWorld : Option World :=
  (World.initial.load .global [("Srv".toList, .plugin "Srv".toList), ("Own".toList, .plugin "Own".toList), ("N*".toList, .text "Srv".toList)]).bind
    fun w => (w.load (.user 1) [("Net".toList, .text "Own".toList)]).bind fun w =>
      w.load (.user 2) [("resources".toList, .dict [("one".toList, .dict [("Net".toList, .text "Own".toList)])])]

/-- What a lookup of `Net` finds. -/
def World.foundNet (w : World) (s : Scope) (resourceName : Option (List Char)) : Option (World × Option (List (List Char))) :=
  (w.getResourceInfo 2 s "Net".toList resourceName none none).map fun a => (a.1, a.2.toOption.map ResourceInfo.path)

/-- **A lookup in one environment** marks the wildcard of the global registry, which goes before another user's
    own mapping from then on; and a mapping for one resource comes to hold for the others. -/
theorem foundNet_leaks : (sharedWorld.bind fun w => (w.foundNet (.user 1) none).map Prod.snd) = some (some ["Own".toList]) ∧
    (sharedWorld.bind fun w => (w.foundNet (.user 0) none).bind fun a => (a.1.foundNet (.user 1) none).map Prod.snd) = some (some ["Srv".toList]) ∧
    (sharedWorld.bind fun w => (w.foundNet (.user 2) (some "two".toList)).map Prod.snd) = some (some ["Srv".toList]) ∧
    (sharedWorld.bind fun w => (w.foundNet (.user 2) (some "one".toList)).bind fun a => (a.1.foundNet (.user 2) (some "two".toList)).map Prod.snd) =
      some (some ["Own".toList]) := by
  decide +kernel

end Mitaka.Heat
