/-
  Subject: heat/engine/environment.py, `get_resource_info`: what lookups in one environment
           leave for the others, and for themselves.

  A lookup that a mapping answers with a class or template of the global registry stores the
  mapping under the type that was asked for, in the registry it was made in, and marks it as a
  user resource there. Where the mapping is the one that the type has, or a wildcard of the same
  registry over a free name (`Harmless`), the registries have only grown, and no lookup notices.
-/
import Mitaka.Heat.ResourceGrowth

namespace Mitaka.Heat

open Fallback List

/-! ## 1. What a lookup leaves -/

/-- Storing the entry is not noticed: it is the one that the type has, or a wildcard mapping of the
    registry that matches the type, which has no entry and is no template. -/
def Harmless (w : World) (s : Scope) (t : List Char) (i : ResourceInfo) : Prop :=
  s ≠ .global ∧ ((w.registries s).get t = some (.info i) ∨ ((w.registries s).get t = none ∧ isTemplateName t = false ∧
    ∃ g, isGlobName g = true ∧ (w.registries s).get g = some (.info i) ∧ i.matches t = true))

/-- Following comes to a user resource, for which nothing is stored. -/
def EndsOwn (n : Option (List Char)) (q : Query) : Prop :=
  ∃ q' i, Relation.ReflTransGen (Follows (lookupAlternatives n)) q q' ∧ Chosen n q' i ∧ i.isEnd = true ∧ q.1.userResource i = true

/-- A mapping may be followed: storing it is not noticed, or it is not stored. -/
def MayStore (w : World) (n : Option (List Char)) (q : Query) (i : ResourceInfo) (target : List Char) : Prop :=
  Harmless w q.2.1 q.2.2 i ∨ EndsOwn n (q.1.enter q.2.1 q.2.2, i.registry, target)

/-- Nothing that a lookup stores is noticed, in the registries of `w`. -/
def Quiet (w : World) (n : Option (List Char)) (q : Query) : Prop :=
  ∀ q', Relation.ReflTransGen (Follows (lookupAlternatives n)) q q' → ∀ i, Chosen n q' i → ∀ target, i.target q'.2.2 = some target →
    MayStore w n q' i target

section Effects

variable {s : Scope} {t target : List Char} {n : Option (List Char)} {l l' : List ResourceInfo} {i found : ResourceInfo}
  {w w₀ a b : World} {q q' : Query} {fuel : ℕ} {r : Except LookupError ResourceInfo}

/-- **Storing** where it is not noticed. -/
theorem Grown.store (hfresh : Fresh w₀) (h : Grown w₀ w) (hharmless : Harmless w₀ s t i) (hend : i.isEnd = false) :
    Grown w₀ (w.store s t i found) := by
  rw [World.store]
  split
  · obtain ⟨hs, hi⟩ := hharmless
    rw [World.registerInfo, Registry.entryAt]
    have hplace : (w₀.registries s).get t = none → (∃ g, isGlobName g = true ∧ (w₀.registries s).get g = some (.info i) ∧ i.matches t = true) →
        isTemplateName t = false → Grown w₀ ((World.registerInfo.place w s [t] i).getD w) := by
      rintro hfree ⟨g, hg, hget, hmatches⟩ hname
      have hregistry : i.registry = s := (hfresh.located s [g] i hget).1
      have hcls : i.impl ≠ .cls .other := by
        intro he
        rw [ResourceInfo.isEnd, he] at hend
        cases hend
      have hflag : w.userResource i = true := by
        rw [h.flags]
        exact hfresh.marked i (hregistry ▸ hs)
      rw [World.registerInfo.place, if_neg hcls]
      refine h.set hs hfree (Or.inr ⟨hname, g, i, rfl, hg, hget, hmatches⟩) rfl ?_
      exact Function.update_eq_self_iff.mpr (by rw [hflag]; exact bne_iff_ne.mpr hs)
    have hsame : w.same i i = true := by
      rw [World.same, beq_self_eq_true, beq_self_eq_true, beq_self_eq_true]
      rfl
    rcases hi with hi | ⟨hfree, hname, hglob⟩
    · have hget : (w.registries s).get t = some (.info i) := by
        rcases h.entry s hs t with he | ⟨hnone, -⟩
        · exact he.trans hi
        · rw [hi] at hnone
          cases hnone
      rw [hget]
      dsimp only
      rw [if_pos hsame]
      exact h
    · split
      · split
        · exact h
        · exact hplace hfree hglob hname
      · exact hplace hfree hglob hname
  · exact h

theorem EndsOwn.answers (h : EndsOwn n q) : ∃ i, Answers (lookupAlternatives n) q (.found i) ∧ q.1.userResource i = true := by
  obtain ⟨q', i, hreach, hchosen, hend, hflag⟩ := h
  refine ⟨i, ?_, hflag⟩
  have hdecides := hchosen.decides
  rw [ResourceInfo.alternative, ResourceInfo.target_eq_none.mpr hend] at hdecides
  clear hflag
  induction hreach using Relation.ReflTransGen.head_induction_on with
  | refl => exact hdecides.answers_found
  | head hf _ ih => exact Follows.answers_of hf ih

theorem Chosen.follows (h : Chosen n q i) (htarget : i.target q.2.2 = some target) :
    Follows (lookupAlternatives n) q (q.1.enter q.2.1 q.2.2, i.registry, target) := by
  have hdecides := h.decides
  rwa [ResourceInfo.alternative, htarget] at hdecides

/-- What is looked up, of the answer. -/
theorem answers_of_lookup (h : World.lookup n fuel w s t = some (a, r)) : Answers (lookupAlternatives n) (w, s, t) (toAnswer r) :=
  ⟨fuel, by rw [← (lookup_eq_search n fuel w s t).1, h]; rfl⟩

/-- Entries that come to nothing are passed over, and leave the world. -/
theorem tryInfos_append {accepts : World → ResourceInfo → Bool} {x : World × Except LookupError ResourceInfo}
    (hfail : ∀ j ∈ l, Failing (lookupAlternatives n) (j.alternative w t))
    (h : World.tryInfos (World.lookup n fuel) s t accepts w (l ++ l') = some x) :
    World.tryInfos (World.lookup n fuel) s t accepts w l' = some x := by
  induction l with
  | nil => exact h
  | cons j l ih =>
    have hj := hfail j mem_cons_self
    rw [ResourceInfo.alternative] at hj
    cases htarget : j.target t with
    | none =>
      rw [htarget] at hj
      exact hj.elim
    | some target =>
      rw [htarget] at hj
      rw [cons_append, tryInfos_mapping htarget] at h
      cases hl : World.lookup n fuel w j.registry target with
      | none =>
        rw [hl] at h
        cases h
      | some y =>
        obtain ⟨w₁, r⟩ := y
        have hr := Answers.unique (answers_of_lookup hl) (Dead.answers hj)
        rw [hl] at h
        cases r with
        | ok found => cases hr
        | error e =>
          cases e with
          | crash => cases hr
          | entityNotFound name =>
            obtain ⟨rfl, -⟩ := (lookup_eq_search n fuel w j.registry target).2 _ _ hl
            exact ih (fun k hk => hfail k (mem_cons_of_mem _ hk)) h

/-- **A lookup** whose stores are not noticed lets the registries grow. -/
theorem Grown.lookup (hfresh : Fresh w₀) (h : Grown w₀ w) (hquiet : Quiet w₀ n (w, s, t))
    (hl : World.lookup n fuel w s t = some (a, r)) : Grown w₀ a := by
  induction fuel generalizing w s t a r with
  | zero => cases hl
  | succ fuel ih =>
    have henter := h.enter hfresh s t
    rw [World.lookup] at hl
    cases hc : (w.enter s t).candidates s t n with
    | none =>
      rw [hc] at hl
      cases hl
      exact henter
    | some infos =>
      rw [hc] at hl
      dsimp only at hl
      rcases failing_or_decides (lookupAlternatives n) (infos.map (ResourceInfo.alternative (w.enter s t) t)) with hall | ⟨m₁, x, m₂, hmap, hm₁, hx⟩
      · rw [← infos.append_nil] at hl
        have hnil := tryInfos_append (fun j hj => hall _ (List.mem_map_of_mem hj)) hl
        cases hnil
        exact henter
      · obtain ⟨l₁, rest, rfl, rfl, hrest⟩ := map_eq_append_iff.mp hmap
        obtain ⟨i, l₂, rfl, rfl, rfl⟩ := map_eq_cons_iff.mp hrest
        have hchosen : Chosen n (w, s, t) i := ⟨l₁, l₂, hc, fun j hj => hm₁ _ (List.mem_map_of_mem hj), hx⟩
        have hi := tryInfos_append (fun j hj => hm₁ _ (List.mem_map_of_mem hj)) hl
        cases htarget : i.target t with
        | none =>
          rw [tryInfos_end htarget, if_pos rfl] at hi
          cases hi
          exact henter
        | some target =>
          have hfollows := hchosen.follows htarget
          have hmay := hquiet _ .refl i hchosen target htarget
          have hquiet' : Quiet w₀ n (w.enter s t, i.registry, target) := fun q' hreach => hquiet q' (.head hfollows hreach)
          rw [tryInfos_mapping htarget] at hi
          cases hinner : World.lookup n fuel (w.enter s t) i.registry target with
          | none =>
            rw [hinner] at hi
            cases hi
          | some y =>
            obtain ⟨w₁, r₁⟩ := y
            have hgrown := ih henter hquiet' hinner
            rw [hinner] at hi
            cases r₁ with
            | error e =>
              cases e with
              | crash =>
                cases hi
                exact hgrown
              | entityNotFound name =>
                refine absurd ?_ hx
                rw [ResourceInfo.alternative, htarget]
                exact answers_missing.mp (answers_of_lookup hinner)
            | ok found =>
              dsimp only at hi
              rw [if_pos rfl] at hi
              cases hi
              rcases hmay with hharmless | hown
              · refine hgrown.store hfresh hharmless (Bool.eq_false_iff.mpr fun hend => ?_)
                rw [ResourceInfo.target_eq_none.mpr hend] at htarget
                cases htarget
              · obtain ⟨m, hm, hflag⟩ := hown.answers
                cases Answers.unique (answers_of_lookup hinner) hm
                rw [World.store, hgrown.flags, ← henter.flags, hflag]
                exact hgrown

end Effects

/-! ## 2. The same lookups in worlds that have grown -/

section Transfer

variable {s : Scope} {t target : List Char} {n : Option (List Char)} {i : ResourceInfo} {w w₀ a b : World} {q q' : Query}

/-- What is followed in one world is followed in the other. -/
theorem Grown.reach (hfresh : Fresh w₀) (ha : Grown w₀ q.1) (hb : Grown w₀ b) (h : Relation.ReflTransGen (Follows (lookupAlternatives n)) q q') :
    ∃ b', Relation.ReflTransGen (Follows (lookupAlternatives n)) (b, q.2.1, q.2.2) (b', q'.2.1, q'.2.2) ∧ Grown w₀ q'.1 ∧ Grown w₀ b' := by
  induction h with
  | refl => exact ⟨b, .refl, ha, hb⟩
  | @tail c d _ hstep ih =>
    obtain ⟨b', hreach, hc, hb'⟩ := ih
    obtain ⟨i, hi, hchosen⟩ := chosen_of_decides hstep
    obtain ⟨c, s, t⟩ := c
    cases htarget : i.target t with
    | none =>
      rw [ResourceInfo.alternative, htarget] at hi
      cases hi
    | some target =>
      rw [ResourceInfo.alternative, htarget] at hi
      obtain rfl := Sum.inr.inj hi
      exact ⟨b'.enter s t, hreach.tail ((Grown.chosen hfresh hc hb' hchosen).follows htarget), hc.enter hfresh s t, hb'.enter hfresh s t⟩

theorem Grown.endsOwn (hfresh : Fresh w₀) (ha : Grown w₀ a) (hb : Grown w₀ b) (h : EndsOwn n (a, s, t)) : EndsOwn n (b, s, t) := by
  obtain ⟨q', i, hreach, hchosen, hend, hflag⟩ := h
  obtain ⟨b', hreach', ha', hb'⟩ := Grown.reach hfresh ha hb hreach
  refine ⟨_, i, hreach', Grown.chosen hfresh ha' hb' hchosen, hend, ?_⟩
  dsimp only at hflag ⊢
  rw [hb.flags, ← ha.flags]
  exact hflag

theorem Grown.mayStore (hfresh : Fresh w₀) (ha : Grown w₀ a) (hb : Grown w₀ b) (h : MayStore w n (a, s, t) i target) :
    MayStore w n (b, s, t) i target :=
  h.imp id fun hown => Grown.endsOwn hfresh (ha.enter hfresh s t) (hb.enter hfresh s t) hown

theorem Grown.quiet (hfresh : Fresh w₀) (ha : Grown w₀ a) (hb : Grown w₀ b) (h : Quiet w n (a, s, t)) : Quiet w n (b, s, t) := by
  intro q' hreach i hchosen target htarget
  obtain ⟨a', hreach', hb', ha'⟩ := Grown.reach hfresh (q := (b, s, t)) hb ha hreach
  obtain ⟨c, s', t'⟩ := q'
  exact Grown.mayStore hfresh ha' hb' (h _ hreach' i (Grown.chosen hfresh hb' ha' hchosen) target htarget)

/-- What is not noticed in a world that has grown is not noticed in the first. -/
theorem Grown.harmless (h : Grown w₀ w) (hharmless : Harmless w s t i) (hend : i.isEnd = false) : Harmless w₀ s t i := by
  obtain ⟨hs, hi⟩ := hharmless
  have htemplate : ∀ name value, isTemplateName name = true → i ≠ .new s [name] value := by
    rintro name value hname rfl
    rw [new_template s hname] at hend
    cases hend
  refine ⟨hs, ?_⟩
  rcases hi with hi | ⟨hfree, hname, g, hg, hget, hmatches⟩
  · rcases h.entry s hs t with he | ⟨hnone, e, he, hadded⟩
    · exact Or.inl (he.symm.trans hi)
    · cases he.symm.trans hi
      rcases hadded with ⟨hname, hi'⟩ | ⟨hname, g, i', hi', hg, hget, hmatches⟩
      · exact absurd (Entry.info.inj hi') (htemplate t .other hname)
      · cases hi'
        exact Or.inr ⟨hnone, hname, g, hg, hget, hmatches⟩
  · have hfree' : (w₀.registries s).get t = none := by
      rcases h.entry s hs t with he | ⟨hnone, -⟩
      · exact he.symm.trans hfree
      · exact hnone
    refine Or.inr ⟨hfree', hname, ?_⟩
    rcases h.entry s hs g with he | ⟨-, e, he, hadded⟩
    · exact ⟨g, hg, he.symm.trans hget, hmatches⟩
    · cases he.symm.trans hget
      rcases hadded with ⟨hname', hi'⟩ | ⟨-, g', i', hi', hg', hget', -⟩
      · exact absurd (Entry.info.inj hi') (htemplate g .other hname')
      · cases hi'
        exact ⟨g', hg', hget', hmatches⟩

theorem isEnd_of_target (h : i.target t = some target) : i.isEnd = false :=
  Bool.eq_false_iff.mpr fun hend => by
    rw [ResourceInfo.target_eq_none.mpr hend] at h
    cases h

theorem Grown.mayStore_base (h : Grown w₀ w) (hm : MayStore w n q i target) (htarget : i.target q.2.2 = some target) : MayStore w₀ n q i target :=
  hm.imp (fun hharmless => h.harmless hharmless (isEnd_of_target htarget)) id

theorem Grown.quiet_base (h : Grown w₀ w) (hquiet : Quiet w n q) : Quiet w₀ n q := fun q' hreach i hchosen target htarget =>
  h.mayStore_base (hquiet q' hreach i hchosen target htarget) htarget

end Transfer

/-! ## 3. Lookups with a filter -/

/-- All that a lookup with a filter may try. -/
def QuietInfo (w : World) (n : Option (List Char)) (q : Query) (i : ResourceInfo) : Prop :=
  ∀ target, i.target q.2.2 = some target → Dead (lookupAlternatives n) (q.1.enter q.2.1 q.2.2, i.registry, target) ∨
    (MayStore w n q i target ∧ Quiet w n (q.1.enter q.2.1 q.2.2, i.registry, target))

/-- The filter passes over the entry. -/
def Passes (n : Option (List Char)) (w : World) (t : List Char) (accepts : ResourceInfo → Bool) (i : ResourceInfo) : Prop :=
  match i.target t with
  | none => accepts i = false
  | some target => Answers (lookupAlternatives n) (w, i.registry, target) .missing ∨
      ∃ m, Answers (lookupAlternatives n) (w, i.registry, target) (.found m) ∧ accepts m = false

/-- The entry is taken, or raises. -/
def Stops (n : Option (List Char)) (w : World) (t : List Char) (accepts : ResourceInfo → Bool) (i : ResourceInfo)
    (r : Except LookupError ResourceInfo) : Prop :=
  match i.target t with
  | none => accepts i = true ∧ r = .ok i
  | some target => (∃ m, Answers (lookupAlternatives n) (w, i.registry, target) (.found m) ∧ accepts m = true ∧ r = .ok m) ∨
      (Answers (lookupAlternatives n) (w, i.registry, target) .broken ∧ r = .error .crash)

/-- What the loop over the entries comes to. -/
def LoopOutcome (n : Option (List Char)) (w : World) (t : List Char) (accepts : ResourceInfo → Bool) (l : List ResourceInfo)
    (r : Except LookupError ResourceInfo) : Prop :=
  ((∀ i ∈ l, Passes n w t accepts i) ∧ r = .error (.entityNotFound t)) ∨
    ∃ l₁ i l₂, l = l₁ ++ i :: l₂ ∧ (∀ j ∈ l₁, Passes n w t accepts j) ∧ Stops n w t accepts i r

section Filter

variable {s : Scope} {t target : List Char} {n : Option (List Char)} {l l' : List ResourceInfo} {i : ResourceInfo} {w w₀ v a b : World}
  {fuel : ℕ} {r : Except LookupError ResourceInfo} {rt : Option RegistryType} {ig : Option ResourceInfo} {f : ResourceInfo → Bool}

theorem Passes.not_stops (hi : Passes n v t f i) : ¬ Stops n v t f i r := by
  intro hr
  rw [Passes] at hi
  rw [Stops] at hr
  cases htarget : i.target t with
  | none =>
    rw [htarget] at hi hr
    exact Bool.false_ne_true (hi.symm.trans hr.1)
  | some target =>
    rw [htarget] at hi hr
    rcases hi with hi | ⟨m, hm, hf⟩
    · rcases hr with ⟨m, hm, -⟩ | ⟨hb, -⟩
      · cases hi.unique hm
      · cases hi.unique hb
    · rcases hr with ⟨m', hm', hf', -⟩ | ⟨hb, -⟩
      · cases hm.unique hm'
        exact Bool.false_ne_true (hf.symm.trans hf')
      · cases hm.unique hb

theorem LoopOutcome.cons (hi : Passes n v t f i) : LoopOutcome n v t f (i :: l) r ↔ LoopOutcome n v t f l r := by
  rw [LoopOutcome, LoopOutcome]
  refine or_congr (and_congr_left fun _ => forall_mem_cons.trans (and_iff_right hi)) ?_
  constructor
  · rintro ⟨l₁, j, l₂, he, hl₁, hj⟩
    cases l₁ with
    | nil =>
      cases he
      exact absurd hj hi.not_stops
    | cons k l₁ =>
      cases he
      exact ⟨l₁, j, l₂, rfl, fun k hk => hl₁ k (mem_cons_of_mem _ hk), hj⟩
  · rintro ⟨l₁, j, l₂, rfl, hl₁, hj⟩
    exact ⟨i :: l₁, j, l₂, rfl, forall_mem_cons.mpr ⟨hi, hl₁⟩, hj⟩

theorem accepts_congr (h : Grown w₀ w) : World.accepts rt ig w = World.accepts rt ig w₀ := by
  funext found
  rw [World.accepts, World.accepts]
  congr 1
  cases ig with
  | none => rfl
  | some j =>
    rw [Option.any_some, Option.any_some, World.same, World.same, h.flags]

/-- One lookup of the loop: what it comes to in the first world, and that the registries grow. -/
theorem Grown.lookup_info (hfresh : Fresh w₀) (hv : Grown w₀ v) (h : Grown w₀ w) (htarget : i.target t = some target)
    (hquiet : Dead (lookupAlternatives n) (v, i.registry, target) ∨ (Harmless w₀ s t i ∨ EndsOwn n (v, i.registry, target)) ∧
      Quiet w₀ n (v, i.registry, target)) (hl : World.lookup n fuel w i.registry target = some (a, r)) :
    Answers (lookupAlternatives n) (v, i.registry, target) (toAnswer r) ∧ Grown w₀ a ∧ ∀ m, r = .ok m → Grown w₀ (a.store s t i m) := by
  have hanswers := Grown.answers hfresh h hv (answers_of_lookup hl)
  refine ⟨hanswers, ?_⟩
  rcases hquiet with hdead | ⟨hmay, hquiet⟩
  · have hr := hanswers.unique hdead.answers
    cases r with
    | ok m => cases hr
    | error e =>
      cases e with
      | crash => cases hr
      | entityNotFound name =>
        obtain ⟨rfl, -⟩ := (lookup_eq_search n fuel w i.registry target).2 _ _ hl
        exact ⟨h, nofun⟩
  · have hgrown := h.lookup hfresh (Grown.quiet hfresh hv h hquiet) hl
    refine ⟨hgrown, fun m hm => ?_⟩
    subst hm
    rcases hmay with hharmless | hown
    · exact hgrown.store hfresh hharmless (isEnd_of_target htarget)
    · obtain ⟨m', hm', hflag⟩ := hown.answers
      cases hanswers.unique hm'
      rw [World.store, hgrown.flags, ← hv.flags, hflag]
      exact hgrown

/-- **The loop with a filter** comes to its outcome, and lets the registries grow. -/
theorem Grown.tryInfos (hfresh : Fresh w₀) (hv : Grown w₀ v) (h : Grown w₀ w)
    (hquiet : ∀ i ∈ l, ∀ target, i.target t = some target → Dead (lookupAlternatives n) (v, i.registry, target) ∨
      (Harmless w₀ s t i ∨ EndsOwn n (v, i.registry, target)) ∧ Quiet w₀ n (v, i.registry, target))
    (hl : World.tryInfos (World.lookup n fuel) s t (World.accepts rt ig) w l = some (a, r)) :
    Grown w₀ a ∧ LoopOutcome n v t (World.accepts rt ig w₀) l r := by
  induction l generalizing w with
  | nil =>
    cases hl
    exact ⟨h, Or.inl ⟨nofun, rfl⟩⟩
  | cons i l ih =>
    have hrest := fun j hj => hquiet j (mem_cons_of_mem i hj)
    cases htarget : i.target t with
    | none =>
      rw [tryInfos_end htarget, accepts_congr h] at hl
      split at hl
      · rename_i hacc
        cases hl
        refine ⟨h, Or.inr ⟨[], i, l, rfl, nofun, ?_⟩⟩
        rw [Stops, htarget]
        exact ⟨hacc, rfl⟩
      · rename_i hacc
        rw [LoopOutcome.cons]
        · exact ih h hrest hl
        · rw [Passes, htarget]
          exact Bool.eq_false_iff.mpr hacc
    | some target =>
      rw [tryInfos_mapping htarget] at hl
      cases hinner : World.lookup n fuel w i.registry target with
      | none =>
        rw [hinner] at hl
        cases hl
      | some y =>
        obtain ⟨w₁, r₁⟩ := y
        obtain ⟨hanswers, hgrown, hstore⟩ := Grown.lookup_info hfresh hv h htarget (hquiet i mem_cons_self target htarget) hinner
        rw [hinner] at hl
        cases r₁ with
        | error e =>
          cases e with
          | crash =>
            cases hl
            refine ⟨hgrown, Or.inr ⟨[], i, l, rfl, nofun, ?_⟩⟩
            rw [Stops, htarget]
            exact Or.inr ⟨hanswers, rfl⟩
          | entityNotFound name =>
            rw [LoopOutcome.cons]
            · exact ih hgrown hrest hl
            · rw [Passes, htarget]
              exact Or.inl hanswers
        | ok m =>
          dsimp only at hl
          rw [accepts_congr hgrown] at hl
          split at hl
          · rename_i hacc
            cases hl
            refine ⟨hstore m rfl, Or.inr ⟨[], i, l, rfl, nofun, ?_⟩⟩
            rw [Stops, htarget]
            exact Or.inl ⟨m, hanswers, hacc, rfl⟩
          · rename_i hacc
            rw [LoopOutcome.cons]
            · exact ih hgrown hrest hl
            · rw [Passes, htarget]
              exact Or.inr ⟨m, hanswers, Bool.eq_false_iff.mpr hacc⟩

/-- **The outcome of the loop** is what it returns. -/
theorem Grown.tryInfos_returns (hfresh : Fresh w₀) (hv : Grown w₀ v) (h : Grown w₀ w)
    (hquiet : ∀ i ∈ l, ∀ target, i.target t = some target → Dead (lookupAlternatives n) (v, i.registry, target) ∨
      (Harmless w₀ s t i ∨ EndsOwn n (v, i.registry, target)) ∧ Quiet w₀ n (v, i.registry, target))
    (hout : LoopOutcome n v t (World.accepts rt ig w₀) l r) :
    ∃ fuel a, World.tryInfos (World.lookup n fuel) s t (World.accepts rt ig) w l = some (a, r) := by
  induction l generalizing w with
  | nil =>
    rcases hout with ⟨-, rfl⟩ | ⟨l₁, i, l₂, he, -⟩
    · exact ⟨0, w, rfl⟩
    · exact absurd he.symm (append_ne_nil_of_right_ne_nil _ (cons_ne_nil _ _))
  | cons i l ih =>
    have hrest := fun j hj => hquiet j (mem_cons_of_mem i hj)
    -- what the lookup of a mapping comes to here
    have hinner : ∀ target ans, i.target t = some target → Answers (lookupAlternatives n) (v, i.registry, target) ans →
        ∃ fuel a r', World.lookup n fuel w i.registry target = some (a, r') ∧ toAnswer r' = ans ∧ Grown w₀ a := by
      intro target ans htarget hans
      obtain ⟨fuel, a, r', hl, hr⟩ := answers_iff.mp (Grown.answers hfresh hv h hans)
      rw [getResourceInfo_eq_lookup] at hl
      exact ⟨fuel + 1, a, r', hl, hr, (Grown.lookup_info hfresh hv h htarget (hquiet i mem_cons_self target htarget) hl).2.1⟩
    by_cases hpass : Passes n v t (World.accepts rt ig w₀) i
    · rw [LoopOutcome.cons hpass] at hout
      cases htarget : i.target t with
      | none =>
        rw [Passes, htarget] at hpass
        obtain ⟨fuel, a, hl⟩ := ih h hrest hout
        refine ⟨fuel, a, ?_⟩
        rw [tryInfos_end htarget, accepts_congr h, if_neg (Bool.eq_false_iff.mp hpass)]
        exact hl
      | some target =>
        rw [Passes, htarget] at hpass
        rcases hpass with hmissing | ⟨m, hm, hacc⟩
        · obtain ⟨fuel, a, r', hl, hr, hgrown⟩ := hinner target _ htarget hmissing
          obtain ⟨fuel', a', hl'⟩ := ih hgrown hrest hout
          refine ⟨max fuel fuel', a', ?_⟩
          rw [tryInfos_mapping htarget, lookup_mono (le_max_left fuel fuel') hl]
          cases r' with
          | ok m => cases hr
          | error e =>
            cases e with
            | crash => cases hr
            | entityNotFound name => exact tryInfos_mono (fun _ _ _ _ => lookup_mono (le_max_right fuel fuel')) hl'
        · obtain ⟨fuel, a, r', hl, hr, hgrown⟩ := hinner target _ htarget hm
          obtain ⟨fuel', a', hl'⟩ := ih hgrown hrest hout
          refine ⟨max fuel fuel', a', ?_⟩
          rw [tryInfos_mapping htarget, lookup_mono (le_max_left fuel fuel') hl]
          cases r' with
          | error e => cases e <;> cases hr
          | ok m' =>
            cases hr
            dsimp only
            rw [accepts_congr hgrown, if_neg (Bool.eq_false_iff.mp hacc)]
            exact tryInfos_mono (fun _ _ _ _ => lookup_mono (le_max_right fuel fuel')) hl'
    · have hstop : Stops n v t (World.accepts rt ig w₀) i r := by
        rcases hout with ⟨hall, -⟩ | ⟨l₁, j, l₂, he, hl₁, hj⟩
        · exact absurd (hall i mem_cons_self) hpass
        · cases l₁ with
          | nil =>
            cases he
            exact hj
          | cons k l₁ =>
            cases he
            exact absurd (hl₁ i mem_cons_self) hpass
      cases htarget : i.target t with
      | none =>
        rw [Stops, htarget] at hstop
        obtain ⟨hacc, rfl⟩ := hstop
        refine ⟨0, w, ?_⟩
        rw [tryInfos_end htarget, accepts_congr h, if_pos hacc]
      | some target =>
        rw [Stops, htarget] at hstop
        rcases hstop with ⟨m, hm, hacc, rfl⟩ | ⟨hbroken, rfl⟩
        · obtain ⟨fuel, a, r', hl, hr, hgrown⟩ := hinner target _ htarget hm
          cases r' with
          | error e => cases e <;> cases hr
          | ok m' =>
            cases hr
            refine ⟨fuel, a.store s t i m, ?_⟩
            rw [tryInfos_mapping htarget, hl]
            dsimp only
            rw [accepts_congr hgrown, if_pos hacc]
        · obtain ⟨fuel, a, r', hl, hr, -⟩ := hinner target _ htarget hbroken
          cases r' with
          | ok m => cases hr
          | error e =>
            cases e with
            | entityNotFound name => cases hr
            | crash =>
              refine ⟨fuel, a, ?_⟩
              rw [tryInfos_mapping htarget, hl]

end Filter

end Mitaka.Heat
