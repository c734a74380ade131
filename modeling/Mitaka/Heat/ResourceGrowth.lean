/-
  Subject: heat/engine/environment.py, `iterable_by` and the sort of `get_resource_info`: what
           is tried in registries that have more entries than before.

  Two entries that are tried for a type are never sorted alike, in registries as they were loaded.
  A registry has `Grown` when a free name has come to stand for the template it is, or for a
  wildcard mapping of the same registry that matches it. What a lookup tries is then the same, in
  the same order but for repetitions, and so is what it comes to.
-/
import Mitaka.Heat.ResourceLookup

namespace Mitaka.Heat

open Fallback List Option

/-! ## 1. The order of the entries -/

namespace World

/-- What the entries are sorted by. -/
def sortKey (w : World) (info : ResourceInfo) : Bool ×ₗ ℕᵒᵈ ×ₗ List (List Char) :=
  toLex (! w.userResource info, toLex (OrderDual.toDual info.path.length, info.path))

theorem lt_iff (w : World) (a b : ResourceInfo) : w.lt a b = true ↔ w.sortKey a < w.sortKey b := by
  rw [World.lt, sortKey, sortKey, Prod.Lex.toLex_lt_toLex, Prod.Lex.toLex_lt_toLex]
  dsimp only
  by_cases hflag : w.userResource a = w.userResource b
  · rw [if_neg (not_not.mpr hflag), hflag]
    by_cases hlen : a.path.length = b.path.length
    · rw [if_neg (not_not.mpr hlen), hlen]
      simp
    · rw [if_pos hlen]
      simp [hlen]
  · rw [if_pos hflag]
    cases ha : w.userResource a <;> cases hb : w.userResource b <;> simp_all

theorem le_iff (w : World) (a b : ResourceInfo) : (! w.lt b a) = true ↔ w.sortKey a ≤ w.sortKey b := by
  rw [Bool.not_eq_true', Bool.eq_false_iff, Ne, lt_iff, not_lt]

theorem pairwise_sorted (w : World) (l : List ResourceInfo) :
    (l.insertionSort fun a b => ! w.lt b a).Pairwise fun a b => w.sortKey a ≤ w.sortKey b := by
  have htotal : Std.Total fun a b : ResourceInfo => (! w.lt b a) = true :=
    ⟨fun a b => (le_total (w.sortKey a) (w.sortKey b)).imp (le_iff w a b).mpr (le_iff w b a).mpr⟩
  have htrans : IsTrans ResourceInfo fun a b => (! w.lt b a) = true :=
    ⟨fun a b c hab hbc => (le_iff w a c).mpr (((le_iff w a b).mp hab).trans ((le_iff w b c).mp hbc))⟩
  exact (pairwise_insertionSort (fun a b => (! w.lt b a) = true) l).imp fun h => (le_iff w _ _).mp h

end World

/-- **The first entry** with a property is the same in two sorted lists of the same entries. -/
theorem first_of_sorted {β κ : Type} [LinearOrder κ] {key : β → κ} {l l' : List β} (hl : l.Pairwise fun a b => key a ≤ key b)
    (hl' : l'.Pairwise fun a b => key a ≤ key b) (hmem : ∀ x, x ∈ l ↔ x ∈ l') (hinj : ∀ x ∈ l, ∀ y ∈ l, key x = key y → x = y)
    {p : β → Prop} {l₁ l₂ : List β} {x : β} (h : l = l₁ ++ x :: l₂) (hbefore : ∀ y ∈ l₁, p y) (hx : ¬ p x) :
    ∃ l₁' l₂', l' = l₁' ++ x :: l₂' ∧ ∀ y ∈ l₁', p y := by
  classical
  have hfirst : ∀ m : List β, (∃ y ∈ m, ¬ p y) → ∃ m₁ y m₂, m = m₁ ++ y :: m₂ ∧ (∀ z ∈ m₁, p z) ∧ ¬ p y := by
    intro m hm
    induction m with
    | nil =>
      obtain ⟨y, hy, -⟩ := hm
      cases hy
    | cons z m ih =>
      by_cases hz : p z
      · obtain ⟨y, hy, hpy⟩ := hm
        have hym : y ∈ m := (mem_cons.mp hy).resolve_left fun e => hpy (e ▸ hz)
        obtain ⟨m₁, y', m₂, rfl, hm₁, hy'⟩ := ih ⟨y, hym, hpy⟩
        exact ⟨z :: m₁, y', m₂, rfl, forall_mem_cons.mpr ⟨hz, hm₁⟩, hy'⟩
      · exact ⟨[], z, m, rfl, nofun, hz⟩
  have hxl : x ∈ l := h ▸ mem_append_right _ mem_cons_self
  obtain ⟨m₁, y, m₂, hl'eq, hm₁, hy⟩ := hfirst l' ⟨x, (hmem x).mp hxl, hx⟩
  have hyl : y ∈ l := (hmem y).mpr (hl'eq ▸ mem_append_right _ mem_cons_self)
  -- each of the two stands before the other
  have hxy : key x ≤ key y := by
    rw [h] at hyl hl
    rcases mem_append.mp hyl with hy' | hy'
    · exact absurd (hbefore y hy') hy
    · rcases mem_cons.mp hy' with rfl | hy'
      · exact le_rfl
      · exact (pairwise_cons.mp (pairwise_append.mp hl).2.1).1 y hy'
  have hyx : key y ≤ key x := by
    have hx' := (hmem x).mp hxl
    rw [hl'eq] at hx' hl'
    rcases mem_append.mp hx' with hx'' | hx''
    · exact absurd (hm₁ x hx'') hx
    · rcases mem_cons.mp hx'' with rfl | hx''
      · exact le_rfl
      · exact (pairwise_cons.mp (pairwise_append.mp hl').2.1).1 x hx''
  obtain rfl := hinj x hxl y hyl (le_antisymm hxy hyx)
  exact ⟨m₁, m₂, hl'eq, hm₁⟩

/-! ## 2. The entries of a registry -/

section Registry

variable {s : Scope} {r r' : Registry} {t : List Char} {n : Option (List Char)} {l l' : List ResourceInfo} {i : ResourceInfo} {w w' : World}

theorem mem_globs (h : World.globs r t = some l) :
    i ∈ l ↔ ∃ g, (g, Entry.info i) ∈ r ∧ isGlobName g = true ∧ i.matches t = true := by
  obtain ⟨infos, hinfos, rfl⟩ := map_eq_some_iff.mp h
  rw [mem_filter, Fallible.mem_mapM hinfos]
  constructor
  · rintro ⟨⟨⟨g, e⟩, he, hi⟩, hmatches⟩
    obtain ⟨he, hg⟩ := mem_filter.mp he
    cases e with
    | info i' =>
      obtain rfl := Option.some.inj hi
      exact ⟨g, he, hg, hmatches⟩
    | item _ => cases hi
    | dict _ => cases hi
  · rintro ⟨g, he, hg, hmatches⟩
    exact ⟨⟨(g, .info i), mem_filter.mpr ⟨he, hg⟩, rfl⟩, hmatches⟩

theorem globs_isSome : (World.globs r t).isSome = true ↔ ∀ g e, (g, e) ∈ r → isGlobName g = true → (Entry.toInfo e).isSome = true := by
  rw [World.globs, isSome_map, Fallible.mapM_isSome]
  constructor
  · intro h g e he hg
    exact h (g, e) (mem_filter.mpr ⟨he, hg⟩)
  · rintro h ⟨g, e⟩ he
    obtain ⟨he, hg⟩ := mem_filter.mp he
    exact h g e he hg

/-- **The entries of a registry** for a type. -/
theorem iterableBy_eq_some : w.iterableBy s t n = some l ↔ ∃ d m e g, World.dynamic s (w.registries s) t = some d ∧
    World.mapped (w.registries s) t n = some m ∧ World.exact (w.registries s) t = some e ∧ World.globs (w.registries s) t = some g ∧
    l = d ++ m ++ e ++ g := by
  rw [World.iterableBy]
  constructor
  · intro h
    obtain ⟨d, hd, h⟩ := bind_eq_some_iff.mp h
    obtain ⟨m, hm, h⟩ := bind_eq_some_iff.mp h
    obtain ⟨e, he, h⟩ := bind_eq_some_iff.mp h
    obtain ⟨g, hg, h⟩ := bind_eq_some_iff.mp h
    exact ⟨d, m, e, g, hd, hm, he, hg, (Option.some.inj h).symm⟩
  · rintro ⟨d, m, e, g, hd, hm, he, hg, rfl⟩
    rw [hd, hm, he, hg]
    rfl

/-- The entries depend on the registry only. -/
theorem iterableBy_congr (h : w'.registries s = w.registries s) : w'.iterableBy s t n = w.iterableBy s t n := by
  rw [World.iterableBy, World.iterableBy, h]

theorem candidates_eq_some : w.candidates s t n = some l ↔ ∃ own above, w.iterableBy s t n = some own ∧
    (if s = .global then some [] else w.iterableBy .global t n) = some above ∧ l = (own ++ above).insertionSort fun a b => ! w.lt b a := by
  rw [World.candidates]
  constructor
  · intro h
    obtain ⟨own, hown, h⟩ := bind_eq_some_iff.mp h
    obtain ⟨above, habove, h⟩ := bind_eq_some_iff.mp h
    exact ⟨own, above, hown, habove, (Option.some.inj h).symm⟩
  · rintro ⟨own, above, hown, habove, rfl⟩
    rw [hown, habove]
    rfl

/-- Further down a path. -/
theorem entryAt_cons_cons (r : Registry) (key key' : List Char) (path : List (List Char)) :
    r.entryAt (key :: key' :: path) = match r.get key with
      | some (.dict inner) => Registry.entryAt inner (key' :: path)
      | _ => none := by
  rewrite [Registry.entryAt]
  · rfl
  · exact fun h => cons_ne_nil _ _ h

/-- **An entry that is tried** stands in the registry. -/
theorem located_of_mem (hnodup : Dict.KeysNodup (w.registries s)) (h : w.iterableBy s t n = some l) (hi : i ∈ l) :
    ∃ path, (w.registries s).entryAt path = some (.info i) := by
  have hinfo : ∀ e : Entry, e.toInfo = some i → e = .info i := by
    intro e he
    cases e with
    | info i' => exact congrArg Entry.info (Option.some.inj he)
    | item _ => cases he
    | dict _ => cases he
  obtain ⟨d, m, e, g, hd, hm, he, hg, rfl⟩ := iterableBy_eq_some.mp h
  rcases mem_append.mp hi with hi | hi
  · rcases mem_append.mp hi with hi | hi
    · rcases mem_append.mp hi with hi | hi
      · rw [World.dynamic] at hd
        split at hd
        · obtain ⟨i', hi', rfl⟩ := map_eq_some_iff.mp hd
          obtain ⟨e, he, hi'⟩ := bind_eq_some_iff.mp hi'
          obtain rfl := mem_singleton.mp hi
          exact ⟨[t], hinfo e hi' ▸ he⟩
        · obtain rfl := Option.some.inj hd
          cases hi
      · rw [World.mapped] at hm
        split at hm
        · obtain rfl := Option.some.inj hm
          cases hi
        · rename_i name _
          split at hm
          · rename_i resources hresources
            split at hm
            · obtain rfl := Option.some.inj hm
              cases hi
            · rename_i impl himpl
              split at hm
              · obtain rfl := Option.some.inj hm
                cases hi
              · rename_i e he
                obtain ⟨i', hi', rfl⟩ := map_eq_some_iff.mp hm
                obtain rfl := mem_singleton.mp hi
                refine ⟨["resources".toList, name, t], ?_⟩
                rw [entryAt_cons_cons, hresources]
                dsimp only
                rw [entryAt_cons_cons, himpl]
                dsimp only
                rw [Registry.entryAt, he, hinfo e hi']
            · split at hm
              · cases hm
              · obtain rfl := Option.some.inj hm
                cases hi
            · split at hm
              · cases hm
              · obtain rfl := Option.some.inj hm
                cases hi
            · cases hm
          · cases hm
    · rw [World.exact] at he
      split at he
      · obtain rfl := Option.some.inj he
        cases hi
      · rename_i e hget
        split at he
        · obtain ⟨i', hi', rfl⟩ := map_eq_some_iff.mp he
          obtain rfl := mem_singleton.mp hi
          exact ⟨[t], hinfo e hi' ▸ hget⟩
        · obtain rfl := Option.some.inj he
          cases hi
  · obtain ⟨name, hname, -, -⟩ := (mem_globs hg).mp hi
    exact ⟨[name], hnodup.mem_iff.mp hname⟩

/-- An entry that is no dict changes what stands at its own path only. -/
theorem entryAt_set_leaf {j : ResourceInfo} {e : Entry} {path : List (List Char)} (he : ∀ inner, e ≠ .dict inner)
    (h : (Registry.entryAt (r.set t e) path) = some (.info j)) : (path = [t] ∧ e = .info j) ∨ Registry.entryAt r path = some (.info j) := by
  cases path with
  | nil => cases h
  | cons key path =>
    cases path with
    | nil =>
      rw [Registry.entryAt, Dict.get_set] at h
      split at h
      · rename_i heq
        exact Or.inl ⟨congrArg (fun x => [x]) heq.symm, Option.some.inj h⟩
      · exact Or.inr h
    | cons key' path =>
      rw [entryAt_cons_cons, Dict.get_set] at h
      split at h
      · rename_i heq
        split at heq
        · exact absurd (Option.some.inj heq) (he _)
        · right
          rw [entryAt_cons_cons, heq]
          exact h
      · cases h

theorem entryAt_set {j : ResourceInfo} {path : List (List Char)} (h : (Registry.entryAt (r.set t (.info i)) path) = some (.info j)) :
    (path = [t] ∧ j = i) ∨ Registry.entryAt r path = some (.info j) :=
  (entryAt_set_leaf (fun _ he => by cases he) h).imp (fun ⟨hpath, he⟩ => ⟨hpath, (Entry.info.inj he).symm⟩) fun h => h

end Registry

/-! ## 3. Registries as they were loaded -/

/-- Every entry stands where its path says, in its own registry, and those of the user registries are user resources. -/
structure Fresh (w : World) : Prop where
  nodup : ∀ s, Dict.KeysNodup (w.registries s)
  located : ∀ s path i, (w.registries s).entryAt path = some (.info i) → i.registry = s ∧ i.path = path ∧ w.userResource i = (s != .global)
  marked : ∀ i : ResourceInfo, i.registry ≠ .global → w.userResource i = true

section Fresh

variable {s : Scope} {t : List Char} {n : Option (List Char)} {l : List ResourceInfo} {w : World}

theorem new_template (s : Scope) (h : isTemplateName t = true) (value : InfoValue) : ResourceInfo.new s [t] value = ⟨s, [t], .template t⟩ := by
  simp only [ResourceInfo.new, getLastD_cons, getLastD_nil, if_pos h]

theorem enter_userResource (hmarked : ∀ i : ResourceInfo, i.registry ≠ .global → w.userResource i = true) (s : Scope) (t : List Char) :
    (w.enter s t).userResource = w.userResource := by
  rw [World.enter]
  split
  · rename_i hnew
    exact (Function.update_eq_self_iff).mpr (hmarked _ hnew.1).symm
  · rfl

/-- **A template that is registered** stands where it should. -/
theorem Fresh.enter (h : Fresh w) (s : Scope) (t : List Char) : Fresh (w.enter s t) := by
  have hflags := enter_userResource h.marked s t
  by_cases hnew : s ≠ .global ∧ isTemplateName t = true ∧ (w.registries s).get t = none
  · have hregistry : (w.enter s t).registries = Function.update w.registries s ((w.registries s).set t (.info (.new s [t] .other))) := by
      rw [World.enter, if_pos hnew]
      rfl
    refine ⟨fun s' => ?_, fun s' path i hi => ?_, fun i hi => ?_⟩
    · rw [hregistry]
      by_cases hs : s' = s
      · subst hs
        rw [Function.update_self]
        exact (h.nodup s').set _ _
      · rw [Function.update_of_ne hs]
        exact h.nodup s'
    · rw [hflags]
      rw [hregistry] at hi
      by_cases hs : s' = s
      · subst hs
        rw [Function.update_self] at hi
        rcases entryAt_set hi with ⟨rfl, rfl⟩ | hi
        · refine ⟨rfl, rfl, ?_⟩
          rw [h.marked _ hnew.1]
          exact (bne_iff_ne.mpr hnew.1).symm
        · exact h.located s' path i hi
      · rw [Function.update_of_ne hs] at hi
        exact h.located s' path i hi
    · rw [hflags]
      exact h.marked i hi
  · rw [World.enter, if_neg hnew]
    exact h

/-- **No two entries** that are tried for a type are sorted alike. -/
theorem Fresh.sortKey_injOn (h : Fresh w) (hl : w.candidates s t n = some l) : ∀ i ∈ l, ∀ j ∈ l, w.sortKey i = w.sortKey j → i = j := by
  have hplace : ∀ i ∈ l, (i.registry = s ∨ i.registry = .global) ∧ (w.registries i.registry).entryAt i.path = some (.info i) ∧
      w.userResource i = (i.registry != .global) := by
    obtain ⟨own, above, hown, habove, rfl⟩ := candidates_eq_some.mp hl
    intro i hi
    rw [mem_insertionSort] at hi
    have hat : ∀ s' l', w.iterableBy s' t n = some l' → i ∈ l' → i.registry = s' ∧ (w.registries i.registry).entryAt i.path = some (.info i) ∧
        w.userResource i = (i.registry != .global) := by
      intro s' l' hl' hi'
      obtain ⟨path, hpath⟩ := located_of_mem (h.nodup s') hl' hi'
      obtain ⟨rfl, rfl, hflag⟩ := h.located s' path i hpath
      exact ⟨rfl, hpath, hflag⟩
    rcases mem_append.mp hi with hi | hi
    · obtain ⟨hs, hrest⟩ := hat s own hown hi
      exact ⟨Or.inl hs, hrest⟩
    · by_cases hs : s = .global
      · rw [if_pos hs] at habove
        obtain rfl := Option.some.inj habove
        cases hi
      · rw [if_neg hs] at habove
        obtain ⟨hs', hrest⟩ := hat .global above habove hi
        exact ⟨Or.inr hs', hrest⟩
  intro i hi j hj hkey
  obtain ⟨hsi, hati, hflagi⟩ := hplace i hi
  obtain ⟨hsj, hatj, hflagj⟩ := hplace j hj
  have hflag : w.userResource i = w.userResource j := Bool.not_inj (congrArg (fun k => (ofLex k).1) hkey)
  have hpath : i.path = j.path := congrArg (fun k => (ofLex (ofLex k).2).2) hkey
  have hregistry : i.registry = j.registry := by
    have hglobal : i.registry = .global ↔ j.registry = .global := by
      rw [hflagi, hflagj] at hflag
      rw [← bne_eq_false_iff_eq, hflag, bne_eq_false_iff_eq]
    rcases hsi with hi' | hi'
    · rcases hsj with hj' | hj'
      · exact hi'.trans hj'.symm
      · exact (hglobal.mpr hj').trans hj'.symm
    · exact hi'.trans (hglobal.mp hi').symm
  rw [hregistry, hpath, hatj] at hati
  cases hati
  rfl

end Fresh

/-! ## 4. Registries that have grown -/

/-- What may stand under a name that was free: the template it is, or a wildcard mapping of the registry that matches it. -/
def Added (s : Scope) (r : Registry) (t : List Char) (e : Entry) : Prop :=
  (isTemplateName t = true ∧ e = .info (.new s [t] .other)) ∨
    (isTemplateName t = false ∧ ∃ g i, e = .info i ∧ isGlobName g = true ∧ r.get g = some (.info i) ∧ i.matches t = true)

/-- The user registries may have more entries, which lookups do not notice; all else is as it was. -/
structure Grown (w w' : World) : Prop where
  global : w'.registries .global = w.registries .global
  flags : w'.userResource = w.userResource
  nodup : ∀ s, Dict.KeysNodup (w'.registries s)
  entry : ∀ s, s ≠ .global → ∀ t, (w'.registries s).get t = (w.registries s).get t ∨
    ((w.registries s).get t = none ∧ ∃ e, (w'.registries s).get t = some e ∧ Added s (w.registries s) t e)

section Grown

variable {s : Scope} {t : List Char} {n : Option (List Char)} {l l' : List ResourceInfo} {i : ResourceInfo} {w w₀ w' : World} {r r₀ : Registry}

theorem Fresh.grown (h : Fresh w) : Grown w w := ⟨rfl, rfl, h.nodup, fun _ _ _ => Or.inl rfl⟩

/-- One more entry. -/
theorem Grown.set (h : Grown w₀ w) (hs : s ≠ .global) {e : Entry} (hfree : (w₀.registries s).get t = none)
    (he : Added s (w₀.registries s) t e) (hregistries : w'.registries = Function.update w.registries s ((w.registries s).set t e))
    (hflags : w'.userResource = w.userResource) : Grown w₀ w' := by
  refine ⟨?_, hflags.trans h.flags, fun s' => ?_, fun s' hs' u => ?_⟩
  · rw [hregistries, Function.update_of_ne hs.symm]
    exact h.global
  · rw [hregistries]
    by_cases hss : s' = s
    · subst hss
      rw [Function.update_self]
      exact (h.nodup s').set _ _
    · rw [Function.update_of_ne hss]
      exact h.nodup s'
  · rw [hregistries]
    by_cases hss : s' = s
    · subst hss
      rw [Function.update_self, Dict.get_set]
      by_cases hu : t = u
      · subst hu
        rw [if_pos rfl]
        exact Or.inr ⟨hfree, e, rfl, he⟩
      · rw [if_neg hu]
        exact h.entry s' hs' u
    · rw [Function.update_of_ne hss]
      exact h.entry s' hs' u

/-- **A template that is registered** is an entry more. -/
theorem Grown.enter (hfresh : Fresh w₀) (h : Grown w₀ w) (s : Scope) (t : List Char) : Grown w₀ (w.enter s t) := by
  have hmarked : ∀ i : ResourceInfo, i.registry ≠ .global → w.userResource i = true := h.flags ▸ hfresh.marked
  by_cases hnew : s ≠ .global ∧ isTemplateName t = true ∧ (w.registries s).get t = none
  · have hfree : (w₀.registries s).get t = none := by
      rcases h.entry s hnew.1 t with he | ⟨hnone, -⟩
      · rw [← he]
        exact hnew.2.2
      · exact hnone
    refine h.set hnew.1 hfree (Or.inl ⟨hnew.2.1, rfl⟩) ?_ (enter_userResource hmarked s t)
    rw [World.enter, if_pos hnew]
    rfl
  · rw [World.enter, if_neg hnew]
    exact h

/-- Entered worlds have grown from the entered world. -/
theorem Grown.enter_enter (hfresh : Fresh w₀) (h : Grown w₀ w) (s : Scope) (t : List Char) : Grown (w₀.enter s t) (w.enter s t) := by
  have hmarked : ∀ i : ResourceInfo, i.registry ≠ .global → w.userResource i = true := h.flags ▸ hfresh.marked
  have hgrown := h.enter hfresh s t
  have hbase := hfresh.grown.enter hfresh s t
  refine ⟨hgrown.global.trans hbase.global.symm, hgrown.flags.trans hbase.flags.symm, hgrown.nodup, fun s' hs' u => ?_⟩
  rcases hbase.entry s' hs' u with hb | ⟨hnone, e, he, hadded⟩
  · rcases hgrown.entry s' hs' u with hg | ⟨hnone, e, he, hadded⟩
    · exact Or.inl (hg.trans hb.symm)
    · refine Or.inr ⟨hb.trans hnone, e, he, hadded.imp id fun ⟨hname, g, i, hi, hglob, hget, hmatches⟩ => ⟨hname, g, i, hi, hglob, ?_, hmatches⟩⟩
      rcases hbase.entry s' hs' g with hb' | ⟨hnone', -⟩
      · exact hb'.trans hget
      · rw [hget] at hnone'
        cases hnone'
  · -- the name of the template that has just been registered
    left
    have hnew : s' = s ∧ u = t ∧ isTemplateName t = true := by
      rw [World.enter] at he
      split at he
      · rename_i hnew
        dsimp only [World.setRegistry] at he
        by_cases hs : s' = s
        · subst hs
          rw [Function.update_self, Dict.get_set] at he
          by_cases ht : t = u
          · exact ⟨rfl, ht.symm, hnew.2.1⟩
          · rw [if_neg ht, hnone] at he
            cases he
        · rw [Function.update_of_ne hs, hnone] at he
          cases he
      · rw [hnone] at he
        cases he
    obtain ⟨rfl, rfl, htemplate⟩ := hnew
    have hone : ∀ e', Added s' (w₀.registries s') u e' → e' = .info (.new s' [u] .other) := by
      rintro e' (⟨-, rfl⟩ | ⟨hno, -⟩)
      · rfl
      · rw [htemplate] at hno
        cases hno
    have hsome : ((w.enter s' u).registries s').get u ≠ none := by
      intro hn
      rw [World.enter] at hn
      split at hn
      · dsimp only [World.setRegistry] at hn
        rw [Function.update_self, Dict.get_set, if_pos rfl] at hn
        cases hn
      · rename_i hnot
        exact hnot ⟨hs', htemplate, hn⟩
    rcases hgrown.entry s' hs' u with hg | ⟨-, e', he', hadded'⟩
    · exact absurd (hg.trans hnone) hsome
    · rw [he, he', hone e hadded, hone e' hadded']

/-- **The entries** that are tried in a registry that has grown are the same, up to repetitions. -/
theorem Grown.mem_iterableBy (h : Grown w₀ w) (hfresh : Fresh w₀) (hs : s ≠ .global)
    (htemplate : isTemplateName t = true → (w₀.registries s).get t ≠ none) :
    ((w.iterableBy s t n).isSome = true ↔ (w₀.iterableBy s t n).isSome = true) ∧
      ∀ l l₀, w.iterableBy s t n = some l → w₀.iterableBy s t n = some l₀ → ∀ i, i ∈ l ↔ i ∈ l₀ := by
  have hentry := h.entry s hs
  have hdynamic : World.dynamic s (w.registries s) t = World.dynamic s (w₀.registries s) t := by
    rw [World.dynamic, World.dynamic]
    split
    · rename_i hyes
      rcases hentry t with he | ⟨hnone, -⟩
      · rw [he]
      · exact absurd hnone (htemplate hyes.2)
    · rfl
  have hmapped : World.mapped (w.registries s) t n = World.mapped (w₀.registries s) t n := by
    rw [World.mapped, World.mapped]
    rcases hentry "resources".toList with he | ⟨hnone, e, he, hadded⟩
    · rw [he]
    · have hinfo : ∃ i, e = .info i := by
        rcases hadded with ⟨-, rfl⟩ | ⟨-, _, i, rfl, -⟩
        · exact ⟨_, rfl⟩
        · exact ⟨i, rfl⟩
      obtain ⟨i, rfl⟩ := hinfo
      rw [hnone, he]
  have hglobs : (World.globs (w.registries s) t).isSome = true ↔ (World.globs (w₀.registries s) t).isSome = true := by
    rw [globs_isSome, globs_isSome]
    constructor
    · intro hall g e he hg
      have hget := (hfresh.nodup s).mem_iff.mp he
      rcases hentry g with hsame | ⟨hnone, -⟩
      · exact hall g e ((h.nodup s).mem_iff.mpr (hsame.trans hget)) hg
      · rw [hget] at hnone
        cases hnone
    · intro hall g e he hg
      have hget := (h.nodup s).mem_iff.mp he
      rcases hentry g with hsame | ⟨-, e', he', hadded⟩
      · exact hall g e ((hfresh.nodup s).mem_iff.mpr (hsame.symm.trans hget)) hg
      · cases hget.symm.trans he'
        rcases hadded with ⟨-, rfl⟩ | ⟨-, _, i, rfl, -⟩ <;> rfl
  have hglobs' : ∀ m m₀, World.globs (w.registries s) t = some m → World.globs (w₀.registries s) t = some m₀ → ∀ i, i ∈ m ↔ i ∈ m₀ := by
    intro m m₀ hm hm₀ i
    rw [mem_globs hm, mem_globs hm₀]
    constructor
    · rintro ⟨g, he, hg, hmatches⟩
      have hget := (h.nodup s).mem_iff.mp he
      rcases hentry g with hsame | ⟨-, e', he', hadded⟩
      · exact ⟨g, (hfresh.nodup s).mem_iff.mpr (hsame.symm.trans hget), hg, hmatches⟩
      · cases hget.symm.trans he'
        rcases hadded with ⟨htempl, hi⟩ | ⟨-, g', i', hi, hg', hget', -⟩
        · -- a template matches nothing
          obtain rfl := Entry.info.inj hi
          rw [new_template s htempl] at hmatches
          cases hmatches
        · cases hi
          exact ⟨g', (hfresh.nodup s).mem_iff.mpr hget', hg', hmatches⟩
    · rintro ⟨g, he, hg, hmatches⟩
      have hget := (hfresh.nodup s).mem_iff.mp he
      rcases hentry g with hsame | ⟨hnone, -⟩
      · exact ⟨g, (h.nodup s).mem_iff.mpr (hsame.trans hget), hg, hmatches⟩
      · rw [hget] at hnone
        cases hnone
  have hexact : World.exact (w.registries s) t = World.exact (w₀.registries s) t ∨ (World.exact (w₀.registries s) t = some [] ∧
      ∃ i g, World.exact (w.registries s) t = some [i] ∧ (w₀.registries s).get g = some (.info i) ∧ isGlobName g = true ∧ i.matches t = true) := by
    rcases hentry t with he | ⟨hnone, e, he, hadded⟩
    · rw [World.exact, World.exact, he]
      exact Or.inl rfl
    · rcases hadded with ⟨htempl, -⟩ | ⟨-, g, i, rfl, hg, hget, hmatches⟩
      · exact absurd hnone (htemplate htempl)
      · refine Or.inr ⟨?_, i, g, ?_, hget, hg, hmatches⟩
        · rw [World.exact, hnone]
        · rw [World.exact, he]
          rfl
  constructor
  · have hexact' : (World.exact (w.registries s) t).isSome = true ↔ (World.exact (w₀.registries s) t).isSome = true := by
      rcases hexact with he | ⟨he₀, i, g, he, -⟩
      · rw [he]
      · rw [he, he₀]
        exact Iff.rfl
    have hsome : ∀ v : World, (v.iterableBy s t n).isSome = true ↔ (World.dynamic s (v.registries s) t).isSome = true ∧
        (World.mapped (v.registries s) t n).isSome = true ∧ (World.exact (v.registries s) t).isSome = true ∧
        (World.globs (v.registries s) t).isSome = true := by
      intro v
      simp only [isSome_iff_exists, iterableBy_eq_some]
      constructor
      · rintro ⟨_, d, m, e, g, hd, hm, he, hg, -⟩
        exact ⟨⟨d, hd⟩, ⟨m, hm⟩, ⟨e, he⟩, g, hg⟩
      · rintro ⟨⟨d, hd⟩, ⟨m, hm⟩, ⟨e, he⟩, g, hg⟩
        exact ⟨_, d, m, e, g, hd, hm, he, hg, rfl⟩
    rw [hsome, hsome, hdynamic, hmapped, hexact', hglobs]
  · intro l l₀ hl hl₀ i
    obtain ⟨d, m, e, g, hd, hm, he, hg, rfl⟩ := iterableBy_eq_some.mp hl
    obtain ⟨d₀, m₀, e₀, g₀, hd₀, hm₀, he₀, hg₀, rfl⟩ := iterableBy_eq_some.mp hl₀
    rw [hdynamic] at hd
    rw [hmapped] at hm
    obtain rfl := Option.some.inj (hd.symm.trans hd₀)
    obtain rfl := Option.some.inj (hm.symm.trans hm₀)
    have hgi := hglobs' g g₀ hg hg₀ i
    simp only [mem_append]
    rcases hexact with hsame | ⟨hnil, j, name, hone, hget, hname, hmatches⟩
    · rw [hsame] at he
      obtain rfl := Option.some.inj (he.symm.trans he₀)
      rw [hgi]
    · -- the entry that is new for the type is a wildcard that matched before
      obtain rfl := Option.some.inj (hnil.symm.trans he₀)
      obtain rfl := Option.some.inj (hone.symm.trans he)
      have hj : j ∈ g₀ := (mem_globs hg₀).mpr ⟨name, (hfresh.nodup s).mem_iff.mpr hget, hname, hmatches⟩
      rw [hgi, mem_singleton]
      constructor
      · rintro ((hi | rfl) | hi)
        · exact Or.inl (Or.inl hi)
        · exact Or.inr hj
        · exact Or.inr hi
      · rintro ((hi | hi) | hi)
        · exact Or.inl (Or.inl hi)
        · cases hi
        · exact Or.inr hi

end Grown

/-! ## 5. Searches in registries that have grown -/

/-- The entry that decides a lookup. -/
def Chosen (n : Option (List Char)) (q : Query) (i : ResourceInfo) : Prop :=
  ∃ l l', (q.1.enter q.2.1 q.2.2).candidates q.2.1 q.2.2 n = some (l ++ i :: l') ∧
    (∀ j ∈ l, Failing (lookupAlternatives n) (j.alternative (q.1.enter q.2.1 q.2.2) q.2.2)) ∧
    ¬ Failing (lookupAlternatives n) (i.alternative (q.1.enter q.2.1 q.2.2) q.2.2)

section Search

variable {s : Scope} {t : List Char} {n : Option (List Char)} {l l' : List ResourceInfo} {i : ResourceInfo} {w₀ a b : World} {q : Query}

theorem Chosen.decides (h : Chosen n q i) : Decides (lookupAlternatives n) q (i.alternative (q.1.enter q.2.1 q.2.2) q.2.2) := by
  obtain ⟨l, l', hl, hfail, hlive⟩ := h
  refine ⟨l.map (ResourceInfo.alternative (q.1.enter q.2.1 q.2.2) q.2.2), l'.map (ResourceInfo.alternative (q.1.enter q.2.1 q.2.2) q.2.2),
    ?_, ?_, hlive⟩
  · rw [lookupAlternatives, hl, map_some, map_append, map_cons]
  · intro x hx
    obtain ⟨j, hj, rfl⟩ := List.mem_map.mp hx
    exact hfail j hj

theorem chosen_of_decides {x : ResourceInfo ⊕ Query} (h : Decides (lookupAlternatives n) q x) :
    ∃ i, x = i.alternative (q.1.enter q.2.1 q.2.2) q.2.2 ∧ Chosen n q i := by
  obtain ⟨m, m', hm, hfail, hlive⟩ := h
  obtain ⟨infos, hinfos, hmap⟩ := map_eq_some_iff.mp hm
  obtain ⟨l, l₂, rfl, rfl, hl₂⟩ := map_eq_append_iff.mp hmap
  obtain ⟨i, l', rfl, rfl, rfl⟩ := map_eq_cons_iff.mp hl₂
  exact ⟨i, rfl, l, l', hinfos, fun j hj => hfail _ (List.mem_map_of_mem hj), hlive⟩

theorem enter_get_ne_none (hs : s ≠ .global) (ht : isTemplateName t = true) : ((a.enter s t).registries s).get t ≠ none := by
  intro hn
  rw [World.enter] at hn
  split at hn
  · dsimp only [World.setRegistry] at hn
    rw [Function.update_self, Dict.get_set, if_pos rfl] at hn
    cases hn
  · rename_i hnot
    exact hnot ⟨hs, ht, hn⟩

/-- **What is tried** in a world that has grown: the same entries, in the same order but for repetitions. -/
theorem Grown.candidates (h : Grown w₀ a) (hfresh : Fresh w₀) (s : Scope) (t : List Char) (n : Option (List Char)) :
    (((a.enter s t).candidates s t n).isSome = true ↔ ((w₀.enter s t).candidates s t n).isSome = true) ∧
      ∀ l l₀, (a.enter s t).candidates s t n = some l → (w₀.enter s t).candidates s t n = some l₀ →
        (∀ i, i ∈ l ↔ i ∈ l₀) ∧ l.Pairwise fun i j => (w₀.enter s t).sortKey i ≤ (w₀.enter s t).sortKey j := by
  have hgrown := h.enter_enter hfresh s t
  have hbase := hfresh.enter s t
  have hglobal : (a.enter s t).iterableBy .global t n = (w₀.enter s t).iterableBy .global t n := iterableBy_congr hgrown.global
  have hown : (((a.enter s t).iterableBy s t n).isSome = true ↔ ((w₀.enter s t).iterableBy s t n).isSome = true) ∧
      ∀ l l₀, (a.enter s t).iterableBy s t n = some l → (w₀.enter s t).iterableBy s t n = some l₀ → ∀ i, i ∈ l ↔ i ∈ l₀ := by
    by_cases hs : s = .global
    · subst hs
      rw [hglobal]
      refine ⟨Iff.rfl, fun l l₀ hl hl₀ i => ?_⟩
      rw [Option.some.inj (hl.symm.trans hl₀)]
    · exact hgrown.mem_iterableBy hbase hs fun ht => enter_get_ne_none hs ht
  have hsome : ∀ v : World, (v.candidates s t n).isSome = true ↔ (v.iterableBy s t n).isSome = true ∧
      (if s = .global then some [] else v.iterableBy .global t n).isSome = true := by
    intro v
    simp only [isSome_iff_exists, candidates_eq_some]
    constructor
    · rintro ⟨_, own, above, ho, ha, -⟩
      exact ⟨⟨own, ho⟩, above, ha⟩
    · rintro ⟨⟨own, ho⟩, above, ha⟩
      exact ⟨_, own, above, ho, ha, rfl⟩
  refine ⟨by rw [hsome, hsome, hglobal, hown.1], fun l l₀ hl hl₀ => ?_⟩
  have hsorted : ∀ i j : ResourceInfo, (a.enter s t).sortKey i ≤ (a.enter s t).sortKey j → (w₀.enter s t).sortKey i ≤ (w₀.enter s t).sortKey j := by
    intro i j hij
    rwa [World.sortKey, World.sortKey, hgrown.flags] at hij
  obtain ⟨own, above, ho, ha, rfl⟩ := candidates_eq_some.mp hl
  obtain ⟨own₀, above₀, ho₀, ha₀, rfl⟩ := candidates_eq_some.mp hl₀
  rw [hglobal] at ha
  obtain rfl := Option.some.inj (ha.symm.trans ha₀)
  refine ⟨fun i => ?_, (World.pairwise_sorted _ _).imp fun h => hsorted _ _ h⟩
  rw [mem_insertionSort, mem_insertionSort, mem_append, mem_append, hown.2 own own₀ ho ho₀ i]

/-- **Two worlds that have grown from one** try the same, and the same first. -/
theorem Grown.choice (ha : Grown w₀ a) (hb : Grown w₀ b) (hfresh : Fresh w₀) (hl : (a.enter s t).candidates s t n = some l) :
    ∃ l', (b.enter s t).candidates s t n = some l' ∧ (∀ i, i ∈ l ↔ i ∈ l') ∧
      ∀ (p : ResourceInfo → Prop) l₁ i l₂, l = l₁ ++ i :: l₂ → (∀ j ∈ l₁, p j) → ¬ p i → ∃ l₁' l₂', l' = l₁' ++ i :: l₂' ∧ ∀ j ∈ l₁', p j := by
  obtain ⟨hsome, hsame⟩ := ha.candidates hfresh s t n
  obtain ⟨hsome', hsame'⟩ := hb.candidates hfresh s t n
  have h₀ : ((w₀.enter s t).candidates s t n).isSome = true := hsome.mp (by rw [hl]; rfl)
  obtain ⟨l₀, hl₀⟩ := isSome_iff_exists.mp h₀
  obtain ⟨l', hl'⟩ := isSome_iff_exists.mp (hsome'.mpr h₀)
  obtain ⟨hmem, hsorted⟩ := hsame l l₀ hl hl₀
  obtain ⟨hmem', hsorted'⟩ := hsame' l' l₀ hl' hl₀
  have hinj := (hfresh.enter s t).sortKey_injOn hl₀
  refine ⟨l', hl', fun i => (hmem i).trans (hmem' i).symm, fun p l₁ i l₂ hsplit hbefore hi => ?_⟩
  exact first_of_sorted hsorted hsorted' (fun i => (hmem i).trans (hmem' i).symm)
    (fun i hi j hj hkey => hinj i ((hmem i).mp hi) j ((hmem j).mp hj) hkey) hsplit hbefore hi

theorem Grown.candidates_none (ha : Grown w₀ a) (hb : Grown w₀ b) (hfresh : Fresh w₀) (h : (a.enter s t).candidates s t n = none) :
    (b.enter s t).candidates s t n = none := by
  cases hl : (b.enter s t).candidates s t n with
  | none => rfl
  | some l =>
    obtain ⟨l', hl', -⟩ := hb.choice ha hfresh hl
    rw [h] at hl'
    cases hl'

/-- **Dead types** are dead in every world that has grown from the same. -/
theorem Grown.dead (hfresh : Fresh w₀) (h : Dead (lookupAlternatives n) q) (ha : Grown w₀ q.1) (hb : Grown w₀ b) :
    Dead (lookupAlternatives n) (b, q.2.1, q.2.2) := by
  induction h generalizing b with
  | @intro q m hm hon _ ih =>
    obtain ⟨a, s, t⟩ := q
    obtain ⟨l, hl, rfl⟩ := map_eq_some_iff.mp hm
    obtain ⟨l', hl', hmem, -⟩ := ha.choice hb hfresh hl
    refine .intro (l := l'.map (ResourceInfo.alternative (b.enter s t) t)) (by rw [lookupAlternatives, hl']; rfl) (fun i hi => ?_) fun q' hq' => ?_
    · obtain ⟨j, hj, he⟩ := List.mem_map.mp hi
      obtain ⟨rfl, hend⟩ := alternative_eq_inl he
      refine hon i (List.mem_map.mpr ⟨i, (hmem i).mpr hj, ?_⟩)
      rw [ResourceInfo.alternative, ResourceInfo.target_eq_none.mpr hend]
    · obtain ⟨j, hj, he⟩ := List.mem_map.mp hq'
      cases htarget : j.target t with
      | none =>
        rw [ResourceInfo.alternative, htarget] at he
        cases he
      | some target =>
        rw [ResourceInfo.alternative, htarget] at he
        obtain rfl := Sum.inr.inj he
        have hq : Sum.inr (a.enter s t, j.registry, target) ∈ l.map (ResourceInfo.alternative (a.enter s t) t) :=
          List.mem_map.mpr ⟨j, (hmem j).mpr hj, by rw [ResourceInfo.alternative, htarget]⟩
        exact ih _ hq (ha.enter hfresh s t) (hb.enter hfresh s t)

theorem Grown.failing (hfresh : Fresh w₀) (ha : Grown w₀ a) (hb : Grown w₀ b) (h : Failing (lookupAlternatives n) (i.alternative a t)) :
    Failing (lookupAlternatives n) (i.alternative b t) := by
  rw [ResourceInfo.alternative] at h ⊢
  cases htarget : i.target t with
  | none =>
    rw [htarget] at h
    exact h
  | some target =>
    rw [htarget] at h
    exact Grown.dead hfresh h ha hb

/-- **The entry that decides** is the same. -/
theorem Grown.chosen (hfresh : Fresh w₀) (ha : Grown w₀ a) (hb : Grown w₀ b) (h : Chosen n (a, s, t) i) : Chosen n (b, s, t) i := by
  obtain ⟨l, l', hl, hfail, hlive⟩ := h
  obtain ⟨m, hm, -, hfirst⟩ := ha.choice hb hfresh hl
  have ha' := ha.enter hfresh s t
  have hb' := hb.enter hfresh s t
  obtain ⟨m₁, m₂, rfl, hm₁⟩ := hfirst (fun j => Failing (lookupAlternatives n) (j.alternative (a.enter s t) t)) l i l' rfl hfail hlive
  exact ⟨m₁, m₂, hm, fun j hj => Grown.failing hfresh ha' hb' (hm₁ j hj), fun hf => hlive (Grown.failing hfresh hb' ha' hf)⟩

/-- **A search comes to the same** in every world that has grown from the same. -/
theorem Grown.answers {r : Answer ResourceInfo} (hfresh : Fresh w₀) (ha : Grown w₀ a) (hb : Grown w₀ b)
    (h : Answers (lookupAlternatives n) (a, s, t) r) : Answers (lookupAlternatives n) (b, s, t) r := by
  obtain ⟨fuel, hfuel⟩ := h
  induction fuel generalizing a b s t with
  | zero => cases hfuel
  | succ fuel ih =>
    rcases node_cases (lookupAlternatives n) (a, s, t) with hnone | hdead | ⟨x, hx⟩
    · obtain rfl := Answers.unique ⟨fuel + 1, hfuel⟩ (answers_broken_of_none hnone)
      refine answers_broken_of_none ?_
      rw [lookupAlternatives, ha.candidates_none hb hfresh (map_eq_none_iff.mp hnone)]
      rfl
    · obtain rfl := Answers.unique ⟨fuel + 1, hfuel⟩ hdead.answers
      exact (Grown.dead hfresh hdead ha hb).answers
    · obtain ⟨i, rfl, hi⟩ := chosen_of_decides hx
      have hi' := (Grown.chosen hfresh ha hb hi).decides
      dsimp only at hx hi'
      cases htarget : i.target t with
      | none =>
        have halt : ∀ v, i.alternative v t = .inl i := fun v => by rw [ResourceInfo.alternative, htarget]
        rw [halt] at hx hi'
        obtain rfl := Answers.unique ⟨fuel + 1, hfuel⟩ hx.answers_found
        exact hi'.answers_found
      | some target =>
        have halt : ∀ v, i.alternative v t = .inr (v, i.registry, target) := fun v => by rw [ResourceInfo.alternative, htarget]
        rw [halt] at hx hi'
        exact Follows.answers_of hi' (ih (ha.enter hfresh s t) (hb.enter hfresh s t) (Follows.search hx hfuel))

end Search

end Mitaka.Heat
