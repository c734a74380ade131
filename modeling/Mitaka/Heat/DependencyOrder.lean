/-
  Subject: heat/engine/dependencies.py, `Graph.toposort`, `Dependencies.__getitem__` and
           `translate`: what is iterated, also of graphs with cycles, and parts and
           translations of a graph.

  A graph `Represents` nodes and a relation when its two directions of an edge are that
  relation; copies, reversals, translations and parts do. What iterating yields depends on
  nothing else: the nodes that are not above a cycle, each behind all that it requires, and the
  exception where a node is left.
-/
import Mitaka.Heat.Dependencies
import Mitaka.Lib.Fallible

namespace Mitaka.Heat

open List

/-! ## 1. Iterating -/

namespace Graph

variable {κ : Type} [DecidableEq κ]

/-- The loop of `toposort`, by what it yields, and whether it ends with the exception. -/
def yieldsLoop : ℕ → Graph κ → List κ × Bool
  | 0, _ => ([], false)
  | n + 1, g =>
    match g.find? fun e => e.2.require.isEmpty with
    | none => ([], true)
    | some (key, _) => (key :: (yieldsLoop n (g.delItem key)).1, (yieldsLoop n (g.delItem key)).2)

/-- `toposort`, as a consumer sees it. -/
def yields (g : Graph κ) : List κ × Bool := yieldsLoop g.length g

omit [DecidableEq κ] in
/-- `copy`. -/
def copy (g : Graph κ) : Graph κ := g.map fun e => (e.1, ⟨e.2.require, e.2.satisfy⟩)

omit [DecidableEq κ] in
/-- `edges`; a node by itself has an edge to `None`. -/
def edges (g : Graph κ) : List (κ × Option κ) :=
  g.flatMap fun e => if e.2.require = [] ∧ e.2.satisfy = [] then [(e.1, none)] else e.2.require.map fun rqd => (e.1, some rqd)

/-- `get_edges`, at most so many levels deep. -/
def getEdges (g : Graph κ) : ℕ → κ → Option (List (κ × Option κ))
  | 0, _ => none
  | n + 1, key => ((g.node key).satisfy.mapM fun rqr => (getEdges g n rqr).map fun edges => (rqr, some key) :: edges).map List.flatten

end Graph

/-- `Dependencies.__iter__`. -/
def iterate {κ : Type} [DecidableEq κ] (g : Graph κ) : List κ × Bool := g.copy.yields

/-- `Dependencies.__reversed__`. -/
def iterateReversed {κ : Type} [DecidableEq κ] (g : Graph κ) : List κ × Bool := g.reverseCopy.yields

/-- `Dependencies.translate`. -/
def translate {κ κ' : Type} [DecidableEq κ'] (transform : κ → κ') (g : Graph κ) : Graph κ' :=
  ofEdges (g.edges.map fun e => (transform e.1, e.2.map transform))

/-- `Dependencies.__getitem__`; the outer `none` is a recursion that has not ended, the inner one the `KeyError`. -/
def getItem {κ : Type} [DecidableEq κ] (fuel : ℕ) (g : Graph κ) (last : κ) : Option (Option (Graph κ)) :=
  if (g.get last).isNone then some none
  else if (g.node last).satisfy = [] then some (some (ofEdges [(last, none)]))
  else (g.getEdges fuel last).map fun edges => some (ofEdges edges)

section

variable {κ : Type} [DecidableEq κ]

/-! ## 2. Above a cycle -/

/-- On a cycle, or above one. -/
def AboveCycle (R : κ → κ → Prop) (k : κ) : Prop := ∃ c, Relation.ReflTransGen R k c ∧ Relation.TransGen R c c

variable {R : κ → κ → Prop}

omit [DecidableEq κ] in
theorem AboveCycle.of_requires {k r : κ} (hr : R k r) (h : AboveCycle R r) : AboveCycle R k := by
  obtain ⟨c, hc, hcycle⟩ := h
  exact ⟨c, .head hr hc, hcycle⟩

omit [DecidableEq κ] in
/-- What is above a cycle requires something that is. -/
theorem AboveCycle.exists_requires {k : κ} (h : AboveCycle R k) : ∃ r, R k r ∧ AboveCycle R r := by
  obtain ⟨c, hc, hcycle⟩ := h
  rcases Relation.ReflTransGen.cases_head hc with rfl | ⟨r, hr, hrest⟩
  · obtain ⟨r, hr, hrest⟩ := Relation.TransGen.head'_iff.mp hcycle
    exact ⟨r, hr, k, hrest, hcycle⟩
  · exact ⟨r, hr, c, hrest, hcycle⟩

omit [DecidableEq κ] in
theorem acyclic_iff : Acyclic R ↔ ∀ k, ¬ AboveCycle R k :=
  ⟨fun h _ ⟨c, _, hc⟩ => h c hc, fun h k hk => h k ⟨k, .refl, hk⟩⟩

omit [DecidableEq κ] in
/-- **Nodes that all require one another** are above cycles. -/
theorem aboveCycle_of_stuck {l : List κ} (h : ∀ k ∈ l, ∃ r ∈ l, R k r) : ∀ k ∈ l, AboveCycle R k := by
  classical
  intro k hk
  by_contra hnot
  -- below k there is no cycle, so one of the nodes below it requires none of them
  have hacyclic : Acyclic fun a b => R a b ∧ Relation.ReflTransGen R k a := by
    intro c hc
    have hreach : Relation.ReflTransGen R k c := by
      obtain ⟨r, hr, -⟩ := Relation.TransGen.head'_iff.mp hc
      exact hr.2
    exact hnot ⟨c, hreach, Relation.TransGen.mono (fun _ _ hab => hab.1) _ _ hc⟩
  have hne : l.filter (fun x => Relation.ReflTransGen R k x) ≠ [] :=
    ne_nil_of_mem (mem_filter.mpr ⟨hk, decide_eq_true Relation.ReflTransGen.refl⟩)
  obtain ⟨m, hm, hmin⟩ := hacyclic.exists_minimal hne
  obtain ⟨hml, hreach⟩ := mem_filter.mp hm
  obtain ⟨r, hr, hmr⟩ := h m hml
  have hkm : Relation.ReflTransGen R k m := of_decide_eq_true hreach
  exact hmin r (mem_filter.mpr ⟨hr, decide_eq_true (hkm.tail hmr)⟩) ⟨hmr, hkm⟩

/-! ## 3. What is yielded -/

/-- What iterating nodes with a relation comes to. -/
structure Iterates (N : κ → Prop) (R : κ → κ → Prop) (out : List κ × Bool) : Prop where
  nodup : out.1.Nodup
  mem : ∀ k, k ∈ out.1 ↔ N k ∧ ¬ AboveCycle R k
  behind : ∀ before k after, out.1 = before ++ k :: after → ∀ r, R k r → r ∈ before
  raises : out.2 = true ↔ ∃ k, N k ∧ AboveCycle R k

variable {g : Graph κ}

/-- **The loop**, over a graph whose missing requirements are above no cycle. -/
theorem yieldsLoop_spec {n : ℕ} (h : Remaining R g) (hn : g.length = n)
    (hgone : ∀ k, (g.get k).isSome = true → ∀ r, R k r → (g.get r).isSome = true ∨ ¬ AboveCycle R r) :
    (Graph.yieldsLoop n g).1.Nodup ∧ (∀ k, k ∈ (Graph.yieldsLoop n g).1 ↔ (g.get k).isSome = true ∧ ¬ AboveCycle R k) ∧
      (Graph.yieldsLoop n g).1.Pairwise (fun a b => ¬ R a b) ∧
      ((Graph.yieldsLoop n g).2 = true ↔ ∃ k, (g.get k).isSome = true ∧ AboveCycle R k) := by
  induction n generalizing g with
  | zero =>
    obtain rfl := eq_nil_of_length_eq_zero hn
    refine ⟨nodup_nil, fun k => ⟨nofun, fun hk => ?_⟩, List.Pairwise.nil, ⟨nofun, fun ⟨k, hk, _⟩ => ?_⟩⟩
    · cases hk.1
    · cases hk
  | succ n ih =>
    rw [Graph.yieldsLoop]
    cases hfind : g.find? fun e => e.2.require.isEmpty with
    | none =>
      -- every node that is left requires another one that is left
      have hall := find?_eq_none.mp hfind
      have hstuck : ∀ k ∈ g.map Prod.fst, ∃ r ∈ g.map Prod.fst, R k r := by
        intro k hk
        obtain ⟨nd, hnd⟩ := Option.isSome_iff_exists.mp (Dict.mem_keys_iff.mp hk)
        have hne := hall (k, nd) (h.nodup.mem_iff.mpr hnd)
        obtain ⟨r, hr⟩ := exists_mem_of_ne_nil nd.require fun e => hne (by rw [e]; rfl)
        obtain ⟨hkr, hsome⟩ := (h.require k nd hnd r).mp hr
        exact ⟨r, Dict.mem_keys_iff.mpr hsome, hkr⟩
      have habove := aboveCycle_of_stuck hstuck
      have hkeys : ∀ k, (g.get k).isSome = true → AboveCycle R k := fun k hk => habove k (Dict.mem_keys_iff.mpr hk)
      have hsome : ∃ k, (g.get k).isSome = true := by
        cases g with
        | nil => cases hn
        | cons e g => exact ⟨e.1, Dict.mem_keys_iff.mp mem_cons_self⟩
      obtain ⟨k₀, hk₀⟩ := hsome
      exact ⟨nodup_nil, fun k => ⟨nofun, fun hk => absurd (hkeys k hk.1) hk.2⟩, List.Pairwise.nil,
        ⟨fun _ => ⟨k₀, hk₀, hkeys k₀ hk₀⟩, fun _ => rfl⟩⟩
    | some e =>
      obtain ⟨key, nd⟩ := e
      dsimp only
      have hget : g.get key = some nd := h.nodup.mem_iff.mp (mem_of_find?_eq_some hfind)
      have hready : nd.require = [] := by
        have hp := find?_some hfind
        exact List.isEmpty_iff.mp hp
      have hkey : (g.get key).isSome = true := by
        rw [hget]
        rfl
      -- all that it requires has been yielded
      have hfree : ¬ AboveCycle R key := by
        intro hcycle
        obtain ⟨r, hr, hrc⟩ := hcycle.exists_requires
        rcases hgone key hkey r hr with hsome | hnot
        · have hmem := (h.require key nd hget r).mpr ⟨hr, hsome⟩
          rw [hready] at hmem
          cases hmem
        · exact hnot hrc
      obtain ⟨hrem, hsome⟩ := h.delItem hget hready
      have hlen := length_delItem h hget hready
      obtain ⟨hnodup, hmem, hsorted, hraises⟩ := ih hrem (by omega) (by
        intro k hk r hr
        obtain ⟨-, hk⟩ := (hsome k).mp hk
        by_cases hrk : r = key
        · exact Or.inr (hrk ▸ hfree)
        · exact (hgone k hk r hr).imp (fun hs => (hsome r).mpr ⟨hrk, hs⟩) id)
      refine ⟨nodup_cons.mpr ⟨fun hin => ((hsome key).mp ((hmem key).mp hin).1).1 rfl, hnodup⟩, fun k => ?_,
        pairwise_cons.mpr ⟨fun b hb hr => ?_, hsorted⟩, hraises.trans ⟨?_, ?_⟩⟩
      · rw [mem_cons, hmem, hsome]
        constructor
        · rintro (rfl | ⟨⟨-, hk⟩, hno⟩)
          · exact ⟨hkey, hfree⟩
          · exact ⟨hk, hno⟩
        · rintro ⟨hk, hno⟩
          by_cases hkk : k = key
          · exact Or.inl hkk
          · exact Or.inr ⟨⟨hkk, hk⟩, hno⟩
      · have hb' := ((hsome b).mp ((hmem b).mp hb).1).2
        have hmem := (h.require key nd hget b).mpr ⟨hr, hb'⟩
        rw [hready] at hmem
        cases hmem
      · rintro ⟨k, hk, hcycle⟩
        exact ⟨k, ((hsome k).mp hk).2, hcycle⟩
      · rintro ⟨k, hk, hcycle⟩
        exact ⟨k, (hsome k).mpr ⟨fun e => hfree (e ▸ hcycle), hk⟩, hcycle⟩

/-- A graph of these nodes and this relation. -/
structure Represents (N : κ → Prop) (R : κ → κ → Prop) (g : Graph κ) : Prop where
  isGraph : IsGraph R g
  nodes : ∀ k, (g.get k).isSome = true ↔ N k

variable {N : κ → Prop}

/-- **Iterating** depends on the nodes and the relation. -/
theorem Represents.iterates (h : Represents N R g) : Iterates N R g.yields := by
  have hends : ∀ k r, R k r → (g.get k).isSome = true ∧ (g.get r).isSome = true := h.isGraph.mem
  obtain ⟨hnodup, hmem, hsorted, hraises⟩ := yieldsLoop_spec h.isGraph.remaining rfl fun k _ r hr => Or.inl (hends k r hr).2
  have hmem' : ∀ k, k ∈ g.yields.1 ↔ N k ∧ ¬ AboveCycle R k := fun k => (hmem k).trans (and_congr_left fun _ => h.nodes k)
  refine ⟨hnodup, hmem', fun before k after he r hr => ?_, hraises.trans (exists_congr fun k => and_congr_left fun _ => h.nodes k)⟩
  have hk : k ∈ g.yields.1 := he ▸ mem_append_right _ mem_cons_self
  have hfree := ((hmem' k).mp hk).2
  have hr' : r ∈ g.yields.1 := (hmem' r).mpr ⟨(h.nodes r).mp (hends k r hr).2, fun hcycle => hfree (hcycle.of_requires hr)⟩
  rw [he] at hr'
  rcases mem_append.mp hr' with hr' | hr'
  · exact hr'
  · exfalso
    rcases mem_cons.mp hr' with rfl | hr'
    · exact hfree ⟨r, .refl, .single hr⟩
    · have hpair : (before ++ k :: after).Pairwise fun a b => ¬ R a b := he ▸ hsorted
      exact (pairwise_cons.mp (pairwise_append.mp hpair).2.1).1 r hr' hr

/-! ## 4. Copies, translations and parts -/

theorem represents_ofEdges (edges : List (κ × Option κ)) : Represents (Mentions edges) (Requires edges) (ofEdges edges) :=
  ⟨isGraph_ofEdges edges, (ofEdges_spec edges).2.1⟩

omit [DecidableEq κ] in
theorem copy_eq (g : Graph κ) : g.copy = g := by
  rw [Graph.copy]
  exact List.map_id g

theorem Represents.reverseCopy (h : Represents N R g) :
    Represents N (fun a b => R b a) g.reverseCopy :=
  ⟨h.isGraph.reverseCopy, fun k => by rw [get_reverseCopy, Option.isSome_map, h.nodes]⟩

theorem Represents.congr {N N' : κ → Prop} {R R' : κ → κ → Prop} (h : Represents N R g) (hN : ∀ k, N k ↔ N' k)
    (hR : ∀ a b, R a b ↔ R' a b) : Represents N' R' g := by
  obtain rfl : N = N' := funext fun k => propext (hN k)
  obtain rfl : R = R' := funext fun a => funext fun b => propext (hR a b)
  exact h

/-- **The edges** of a graph are its relation, and its nodes are mentioned. -/
theorem Represents.edges (h : Represents N R g) :
    (∀ k, Mentions g.edges k ↔ N k) ∧ ∀ a b, Requires g.edges a b ↔ R a b := by
  have hnode : ∀ k nd, (k, nd) ∈ g → IsNode R k nd := fun k nd hk => h.isGraph.node_of_get (h.isGraph.nodup.mem_iff.mp hk)
  have hmem : ∀ a b, (a, b) ∈ g.edges ↔ ∃ nd, (a, nd) ∈ g ∧ ((nd.require = [] ∧ nd.satisfy = [] ∧ b = none) ∨ ∃ r ∈ nd.require, b = some r) := by
    intro a b
    rw [Graph.edges, mem_flatMap]
    constructor
    · rintro ⟨⟨k, nd⟩, hk, hb⟩
      dsimp only at hb
      split at hb
      · rename_i hempty
        cases mem_singleton.mp hb
        exact ⟨nd, hk, Or.inl ⟨hempty.1, hempty.2, rfl⟩⟩
      · obtain ⟨r, hr, he⟩ := List.mem_map.mp hb
        cases he
        exact ⟨nd, hk, Or.inr ⟨r, hr, rfl⟩⟩
    · rintro ⟨nd, hk, ⟨hreq, hsat, rfl⟩ | ⟨r, hr, rfl⟩⟩
      · refine ⟨(a, nd), hk, ?_⟩
        rw [if_pos ⟨hreq, hsat⟩]
        exact mem_singleton_self _
      · refine ⟨(a, nd), hk, ?_⟩
        rw [if_neg fun hempty => not_mem_nil (hempty.1 ▸ hr)]
        exact List.mem_map_of_mem hr
  have hrequires : ∀ a b, Requires g.edges a b ↔ R a b := by
    intro a b
    rw [Requires, hmem]
    constructor
    · rintro ⟨nd, hk, ⟨-, -, he⟩ | ⟨r, hr, he⟩⟩
      · cases he
      · cases he
        exact ((hnode a nd hk).require b).mp hr
    · intro hab
      obtain ⟨nd, hnd⟩ := Option.isSome_iff_exists.mp (h.isGraph.mem a b hab).1
      exact ⟨nd, h.isGraph.nodup.mem_iff.mpr hnd, Or.inr ⟨b, ((h.isGraph.node_of_get hnd).require b).mpr hab, rfl⟩⟩
  refine ⟨fun k => ?_, hrequires⟩
  rw [← h.nodes]
  constructor
  · rintro ⟨⟨a, b⟩, he, hk⟩
    obtain ⟨nd, hnd, hb⟩ := (hmem a b).mp he
    rcases hk with rfl | hk
    · rw [h.isGraph.nodup.mem_iff.mp hnd]
      rfl
    · rcases hb with ⟨-, -, hb⟩ | ⟨r, hr, hb⟩
      · dsimp only at hk
        rw [hb] at hk
        cases hk
      · dsimp only at hk
        rw [hb] at hk
        cases hk
        exact (h.isGraph.mem a k (((hnode a nd hnd).require k).mp hr)).2
  · intro hk
    obtain ⟨nd, hnd⟩ := Option.isSome_iff_exists.mp hk
    have hnode' := h.isGraph.node_of_get hnd
    have hin := h.isGraph.nodup.mem_iff.mpr hnd
    by_cases hreq : nd.require = []
    · by_cases hsat : nd.satisfy = []
      · exact ⟨(k, none), (hmem k none).mpr ⟨nd, hin, Or.inl ⟨hreq, hsat, rfl⟩⟩, Or.inl rfl⟩
      · -- it is the end of another node's edge
        obtain ⟨d, hd⟩ := exists_mem_of_ne_nil _ hsat
        exact ⟨(d, some k), (hrequires d k).mpr ((hnode'.satisfy d).mp hd), Or.inr rfl⟩
    · obtain ⟨r, hr⟩ := exists_mem_of_ne_nil _ hreq
      exact ⟨(k, some r), (hrequires k r).mpr ((hnode'.require r).mp hr), Or.inl rfl⟩

/-- **A translation** has the images of the nodes and of the relation. -/
theorem Represents.translate {κ' : Type} [DecidableEq κ'] (transform : κ → κ')
    (h : Represents N R g) :
    Represents (fun k' => ∃ k, N k ∧ transform k = k') (Relation.Map R transform transform) (translate transform g) := by
  obtain ⟨hmention, hrequires⟩ := h.edges
  refine (represents_ofEdges _).congr (fun k' => ?_) fun a' b' => ?_
  · constructor
    · rintro ⟨e', he', hk'⟩
      obtain ⟨⟨a, b⟩, he, rfl⟩ := List.mem_map.mp he'
      rcases hk' with rfl | hk'
      · exact ⟨a, (hmention a).mp ⟨(a, b), he, Or.inl rfl⟩, rfl⟩
      · obtain ⟨k, hk, rfl⟩ := Option.map_eq_some_iff.mp hk'.symm
        exact ⟨k, (hmention k).mp ⟨(a, b), he, Or.inr hk.symm⟩, rfl⟩
    · rintro ⟨k, hk, rfl⟩
      obtain ⟨⟨a, b⟩, he, hk⟩ := (hmention k).mpr hk
      refine ⟨(transform a, b.map transform), List.mem_map_of_mem he, ?_⟩
      rcases hk with rfl | hk
      · exact Or.inl rfl
      · right
        dsimp only at hk ⊢
        rw [← hk]
        rfl
  · constructor
    · intro hab
      obtain ⟨⟨a, b⟩, he, heq⟩ := List.mem_map.mp hab
      obtain ⟨rfl, hb⟩ := Prod.mk.inj heq
      obtain ⟨b, rfl, rfl⟩ := Option.map_eq_some_iff.mp hb
      exact ⟨a, b, (hrequires a b).mp he, rfl, rfl⟩
    · rintro ⟨a, b, hab, rfl, rfl⟩
      exact List.mem_map.mpr ⟨(a, some b), (hrequires a b).mpr hab, rfl⟩

omit [DecidableEq κ] in
/-- Along an injective translation, what is above a cycle is the image of what is. -/
theorem aboveCycle_map {κ' : Type} {transform : κ → κ'} (hinj : Function.Injective transform) {k : κ} :
    AboveCycle (Relation.Map R transform transform) (transform k) ↔ AboveCycle R k := by
  have hdown : ∀ a' b', Relation.ReflTransGen (Relation.Map R transform transform) a' b' → ∀ a, a' = transform a →
      ∃ b, b' = transform b ∧ Relation.ReflTransGen R a b := by
    intro a' b' hab
    induction hab with
    | refl => exact fun a ha => ⟨a, ha, .refl⟩
    | tail _ hstep ih =>
      intro a ha
      obtain ⟨b, rfl, hb⟩ := ih a ha
      obtain ⟨x, y, hxy, hx, rfl⟩ := hstep
      obtain rfl := hinj hx
      exact ⟨y, rfl, hb.tail hxy⟩
  have hup : ∀ a b, Relation.ReflTransGen R a b → Relation.ReflTransGen (Relation.Map R transform transform) (transform a) (transform b) :=
    fun a b hab => Relation.ReflTransGen.lift transform (fun x y hxy => ⟨x, y, hxy, rfl, rfl⟩) a b hab
  constructor
  · rintro ⟨c', hc, hcycle⟩
    obtain ⟨c, rfl, hkc⟩ := hdown _ _ hc k rfl
    refine ⟨c, hkc, ?_⟩
    obtain ⟨d', ⟨x, y, hxy, hx, rfl⟩, hback⟩ := Relation.TransGen.head'_iff.mp hcycle
    obtain rfl := hinj hx
    obtain ⟨b, hb, hyb⟩ := hdown _ _ hback y rfl
    obtain rfl := hinj hb
    exact Relation.TransGen.head'_iff.mpr ⟨y, hxy, hyb⟩
  · rintro ⟨c, hc, hcycle⟩
    obtain ⟨d, hcd, hback⟩ := Relation.TransGen.head'_iff.mp hcycle
    exact ⟨transform c, hup _ _ hc, Relation.TransGen.head'_iff.mpr ⟨transform d, ⟨c, d, hcd, rfl, rfl⟩, hup _ _ hback⟩⟩

/-- The edges that `get_edges` collects: those towards a node that leads to `last`. -/
theorem getEdges_spec {keys : List κ} (hg : IsGraph R g) (hR : Acyclic R) (hsorted : Sorted R g keys) {n : ℕ}
    {key : κ} (hkey : key ∈ keys) (hn : keys.length - keys.idxOf key ≤ n) :
    ∃ l, g.getEdges n key = some l ∧ ∀ a b, (a, b) ∈ l ↔ ∃ c, b = some c ∧ R a c ∧ Relation.ReflTransGen R c key := by
  induction n generalizing key with
  | zero =>
    have hlt := idxOf_lt_length_of_mem hkey
    omega
  | succ n ih =>
    -- the nodes that require it stand behind it
    have hrqr : ∀ rqr ∈ (g.node key).satisfy, ∃ l, g.getEdges n rqr = some l ∧
        ∀ a b, (a, b) ∈ l ↔ ∃ c, b = some c ∧ R a c ∧ Relation.ReflTransGen R c rqr := by
      intro rqr hrqr
      have hr := ((hg.node key).satisfy rqr).mp hrqr
      have hmem : rqr ∈ keys := (hsorted.mem rqr).mpr (hg.mem rqr key hr).1
      have hlt := hsorted.idxOf_lt (fun k hk => hR k (.single hk)) hr hmem hkey
      have hbound := idxOf_lt_length_of_mem hmem
      exact ih hmem (by omega)
    have hall : ∀ rqr ∈ (g.node key).satisfy, ((g.getEdges n rqr).map fun edges => (rqr, some key) :: edges).isSome = true := by
      intro rqr hmem
      obtain ⟨l, hl, -⟩ := hrqr rqr hmem
      rw [hl]
      rfl
    obtain ⟨ls, hls⟩ := Option.isSome_iff_exists.mp (Fallible.mapM_isSome.mpr hall)
    refine ⟨ls.flatten, by rw [Graph.getEdges, hls]; rfl, fun a b => ?_⟩
    rw [mem_flatten]
    constructor
    · rintro ⟨m, hm, hab⟩
      obtain ⟨rqr, hmem, he⟩ := (Fallible.mem_mapM hls).mp hm
      obtain ⟨l, hl, hspec⟩ := hrqr rqr hmem
      have hr := ((hg.node key).satisfy rqr).mp hmem
      rw [hl] at he
      obtain rfl := Option.some.inj he
      rcases mem_cons.mp hab with he | hab
      · cases he
        exact ⟨key, rfl, hr, .refl⟩
      · obtain ⟨c, rfl, hac, hc⟩ := (hspec a b).mp hab
        exact ⟨c, rfl, hac, hc.tail hr⟩
    · rintro ⟨c, rfl, hac, hc⟩
      rcases Relation.ReflTransGen.cases_tail hc with rfl | ⟨rqr, hcr, hr⟩
      · have hmem : a ∈ (g.node key).satisfy := ((hg.node key).satisfy a).mpr hac
        obtain ⟨l, hl, -⟩ := hrqr a hmem
        refine ⟨(a, some key) :: l, (Fallible.mem_mapM hls).mpr ⟨a, hmem, ?_⟩, mem_cons_self⟩
        rw [hl]
        rfl
      · have hmem : rqr ∈ (g.node key).satisfy := ((hg.node key).satisfy rqr).mpr hr
        obtain ⟨l, hl, hspec⟩ := hrqr rqr hmem
        refine ⟨(rqr, some key) :: l, (Fallible.mem_mapM hls).mpr ⟨rqr, hmem, ?_⟩, mem_cons_of_mem _ ((hspec a (some c)).mpr ⟨c, rfl, hac, hcr⟩)⟩
        rw [hl]
        rfl

/-- **A part of a graph** is what is induced by a node and all that requires it, directly or not. -/
theorem Represents.getItem (h : Represents N R g) (hR : Acyclic R) {last : κ} (hlast : N last) :
    ∃ fuel part, getItem fuel g last = some (some part) ∧
      Represents (fun k => Relation.ReflTransGen R k last)
        (fun a b => R a b ∧ Relation.ReflTransGen R a last ∧ Relation.ReflTransGen R b last) part := by
  have hsome := (h.nodes last).mpr hlast
  have hnone : ((g.get last).isNone) = false := by
    obtain ⟨nd, hnd⟩ := Option.isSome_iff_exists.mp hsome
    rw [hnd]
    rfl
  obtain ⟨keys, -, hsorted⟩ := toposort_of_acyclic h.isGraph hR
  obtain ⟨l, hl, hspec⟩ := getEdges_spec h.isGraph hR hsorted ((hsorted.mem last).mpr hsome) (Nat.sub_le keys.length _)
  have hstem : (g.node last).satisfy = [] ↔ ∀ a, ¬ R a last := by
    rw [eq_nil_iff_forall_not_mem]
    exact forall_congr' fun a => not_congr ((h.isGraph.node last).satisfy a)
  by_cases hsat : (g.node last).satisfy = []
  · have hnot := hstem.mp hsat
    have honly : ∀ k, Relation.ReflTransGen R k last ↔ k = last := by
      intro k
      constructor
      · intro hk
        rcases Relation.ReflTransGen.cases_tail hk with rfl | ⟨c, -, hc⟩
        · rfl
        · exact absurd hc (hnot c)
      · rintro rfl
        exact .refl
    refine ⟨0, ofEdges [(last, none)], ?_, (represents_ofEdges _).congr (fun k => ?_) fun a b => ?_⟩
    · rw [Heat.getItem, hnone, if_neg Bool.false_ne_true, if_pos hsat]
    · rw [honly]
      constructor
      · rintro ⟨e, he, hk⟩
        cases mem_singleton.mp he
        rcases hk with rfl | hk
        · rfl
        · cases hk
      · rintro rfl
        exact ⟨_, mem_singleton_self _, Or.inl rfl⟩
    · constructor
      · intro hab
        cases mem_singleton.mp hab
      · rintro ⟨hab, -, hb⟩
        rw [(honly b).mp hb] at hab
        exact absurd hab (hnot a)
  · refine ⟨keys.length, ofEdges l, ?_, (represents_ofEdges _).congr (fun k => ?_) fun a b => ?_⟩
    · rw [Heat.getItem, hnone, if_neg Bool.false_ne_true, if_neg hsat, hl]
      rfl
    · constructor
      · rintro ⟨⟨a, b⟩, he, hk⟩
        obtain ⟨c, rfl, hac, hc⟩ := (hspec a b).mp he
        rcases hk with rfl | hk
        · exact .head hac hc
        · cases hk
          exact hc
      · intro hk
        rcases Relation.ReflTransGen.cases_head hk with rfl | ⟨c, hkc, hc⟩
        · -- something requires it
          obtain ⟨a, ha⟩ := exists_mem_of_ne_nil _ hsat
          exact ⟨(a, some k), (hspec a (some k)).mpr ⟨k, rfl, ((h.isGraph.node k).satisfy a).mp ha, .refl⟩, Or.inr rfl⟩
        · exact ⟨(k, some c), (hspec k (some c)).mpr ⟨c, rfl, hkc, hc⟩, Or.inl rfl⟩
    · rw [Requires, hspec]
      constructor
      · rintro ⟨c, he, hac, hc⟩
        cases he
        exact ⟨hac, .head hac hc, hc⟩
      · rintro ⟨hab, -, hb⟩
        exact ⟨b, rfl, hab, hb⟩

/-- Iterating a translation is translating what is iterated. -/
def Commutes {κ' : Type} (transform : κ → κ') (out : List κ × Bool) (out' : List κ' × Bool) : Prop :=
  (∀ k', k' ∈ out'.1 ↔ ∃ k ∈ out.1, transform k = k') ∧ out'.2 = out.2

omit [DecidableEq κ] in
theorem Iterates.commutes {κ' : Type} {transform : κ → κ'} (hinj : Function.Injective transform)
    {out : List κ × Bool} {out' : List κ' × Bool} (h : Iterates N R out)
    (h' : Iterates (fun k' => ∃ k, N k ∧ transform k = k') (Relation.Map R transform transform) out') : Commutes transform out out' := by
  refine ⟨fun k' => ?_, ?_⟩
  · rw [h'.mem]
    constructor
    · rintro ⟨⟨k, hk, rfl⟩, hfree⟩
      exact ⟨k, (h.mem k).mpr ⟨hk, fun hcycle => hfree ((aboveCycle_map hinj).mpr hcycle)⟩, rfl⟩
    · rintro ⟨k, hk, rfl⟩
      obtain ⟨hk, hfree⟩ := (h.mem k).mp hk
      exact ⟨⟨k, hk, rfl⟩, fun hcycle => hfree ((aboveCycle_map hinj).mp hcycle)⟩
  · rw [Bool.eq_iff_iff, h'.raises, h.raises]
    constructor
    · rintro ⟨_, ⟨k, hk, rfl⟩, hcycle⟩
      exact ⟨k, hk, (aboveCycle_map hinj).mp hcycle⟩
    · rintro ⟨k, hk, hcycle⟩
      exact ⟨transform k, ⟨k, hk, rfl⟩, (aboveCycle_map hinj).mpr hcycle⟩

/-- **Dependencies**, of any edges: iterating them and iterating them reversed yield each node that is not above
    a cycle once, behind all that it requires, and raise where there is a cycle; a translation does
    the same with the images; and without a cycle the part of a node is what is induced by it and
    all that requires it. -/
theorem dependencies_spec {κ' : Type} [DecidableEq κ'] (edges : List (κ × Option κ)) (transform : κ → κ') (hinj : Function.Injective transform) :
    Iterates (Mentions edges) (Requires edges) (iterate (ofEdges edges)) ∧
      Iterates (Mentions edges) (fun a b => Requires edges b a) (iterateReversed (ofEdges edges)) ∧
      ((iterate (ofEdges edges)).2 = true ↔ ¬ Acyclic (Requires edges)) ∧
      ((iterateReversed (ofEdges edges)).2 = true ↔ ¬ Acyclic (Requires edges)) ∧
      Represents (fun k' => ∃ k, Mentions edges k ∧ transform k = k') (Relation.Map (Requires edges) transform transform)
        (translate transform (ofEdges edges)) ∧
      Commutes transform (iterate (ofEdges edges)) (iterate (translate transform (ofEdges edges))) ∧
      Commutes transform (iterateReversed (ofEdges edges)) (iterateReversed (translate transform (ofEdges edges))) ∧
      (Acyclic (Requires edges) → ∀ last, Mentions edges last → ∃ fuel part, getItem fuel (ofEdges edges) last = some (some part) ∧
        Represents (fun k => Relation.ReflTransGen (Requires edges) k last) (fun a b => Requires edges a b ∧
          Relation.ReflTransGen (Requires edges) a last ∧ Relation.ReflTransGen (Requires edges) b last) part) := by
  have hg := represents_ofEdges edges
  have ht := hg.translate transform
  have hiter : Iterates (Mentions edges) (Requires edges) (iterate (ofEdges edges)) := by
    rw [iterate, copy_eq]
    exact hg.iterates
  have hrev : Iterates (Mentions edges) (fun a b => Requires edges b a) (iterateReversed (ofEdges edges)) := hg.reverseCopy.iterates
  have hnode : ∀ k, Relation.TransGen (Requires edges) k k → Mentions edges k := by
    intro k hk
    obtain ⟨r, hr, -⟩ := Relation.TransGen.head'_iff.mp hk
    exact (hg.nodes k).mp (hg.isGraph.mem k r hr).1
  have hiter' : Iterates (fun k' => ∃ k, Mentions edges k ∧ transform k = k') (Relation.Map (Requires edges) transform transform)
      (iterate (translate transform (ofEdges edges))) := by
    rw [iterate, copy_eq]
    exact ht.iterates
  have hrev' : Iterates (fun k' => ∃ k, Mentions edges k ∧ transform k = k') (Relation.Map (fun a b => Requires edges b a) transform transform)
      (iterateReversed (translate transform (ofEdges edges))) := by
    refine (ht.reverseCopy.congr (fun _ => Iff.rfl) fun a b => ?_).iterates
    constructor
    · rintro ⟨x, y, hxy, rfl, rfl⟩
      exact ⟨y, x, hxy, rfl, rfl⟩
    · rintro ⟨x, y, hxy, rfl, rfl⟩
      exact ⟨y, x, hxy, rfl, rfl⟩
  refine ⟨hiter, hrev, ?_, ?_, ht, hiter.commutes hinj hiter', hrev.commutes hinj hrev', fun hR last hlast => hg.getItem hR hlast⟩
  · rw [hiter.raises, acyclic_iff, not_forall]
    constructor
    · rintro ⟨k, -, hk⟩
      exact ⟨k, not_not.mpr hk⟩
    · rintro ⟨k, hk⟩
      obtain ⟨c, hkc, hc⟩ := not_not.mp hk
      exact ⟨c, hnode c hc, c, .refl, hc⟩
  · rw [hrev.raises, Acyclic, not_forall]
    have hswap : ∀ c, Relation.TransGen (fun a b => Requires edges b a) c c ↔ Relation.TransGen (Requires edges) c c := fun c =>
      Relation.transGen_swap
    constructor
    · rintro ⟨k, -, c, -, hc⟩
      exact ⟨c, not_not.mpr ((hswap c).mp hc)⟩
    · rintro ⟨k, hk⟩
      have hk' := not_not.mp hk
      exact ⟨k, hnode k hk', k, .refl, (hswap k).mpr hk'⟩

/-- A node above a cycle of two, and one by itself. -/
def cycleEdges : List (ℕ × Option ℕ) := [(3, some 1), (1, some 2), (2, some 1), (4, none)]

theorem dependencies_spec_cycle :
    Iterates (Mentions cycleEdges) (Requires cycleEdges) (iterate (ofEdges cycleEdges)) ∧
      Iterates (Mentions cycleEdges) (fun a b => Requires cycleEdges b a) (iterateReversed (ofEdges cycleEdges)) ∧
      ((iterate (ofEdges cycleEdges)).2 = true ↔ ¬ Acyclic (Requires cycleEdges)) ∧
      ((iterateReversed (ofEdges cycleEdges)).2 = true ↔ ¬ Acyclic (Requires cycleEdges)) ∧
      Represents (fun k' => ∃ k, Mentions cycleEdges k ∧ k + 1 = k') (Relation.Map (Requires cycleEdges) Nat.succ Nat.succ)
        (translate Nat.succ (ofEdges cycleEdges)) ∧
      Commutes Nat.succ (iterate (ofEdges cycleEdges)) (iterate (translate Nat.succ (ofEdges cycleEdges))) ∧
      Commutes Nat.succ (iterateReversed (ofEdges cycleEdges)) (iterateReversed (translate Nat.succ (ofEdges cycleEdges))) ∧
      (Acyclic (Requires cycleEdges) → ∀ last, Mentions cycleEdges last → ∃ fuel part, getItem fuel (ofEdges cycleEdges) last = some (some part) ∧
        Represents (fun k => Relation.ReflTransGen (Requires cycleEdges) k last) (fun a b => Requires cycleEdges a b ∧
          Relation.ReflTransGen (Requires cycleEdges) a last ∧ Relation.ReflTransGen (Requires cycleEdges) b last) part) :=
  dependencies_spec cycleEdges Nat.succ Nat.succ_injective

/-- Only the node by itself is yielded; reversed, the one above the cycle too. -/
example : iterate (ofEdges cycleEdges) = ([4], true) ∧ iterateReversed (ofEdges cycleEdges) = ([3, 4], true) := by decide

end

end Mitaka.Heat
