/-
  Subject: heat/engine/dependencies.py, `Node`, `Graph` and `Dependencies`.

  A graph is a dict of nodes with both directions of every edge; looking up a missing
  key puts an empty node there. The sets of a node are lists.

  `get_delItem` says what deleting a key does to the other nodes. The graph of a list of
  edges has their relation (`isGraph_ofEdges`); a graph is sorted whenever its relation
  has no cycle (`toposort_of_acyclic`).
-/
import Mitaka.Lib.Dict

namespace Mitaka.Heat

open List

/-! ## 1. Graphs -/

/-- `Node`. -/
structure Node (κ : Type) where
  require : List κ
  satisfy : List κ

/-- An empty node, which is put in for a missing key. -/
def Node.empty {κ : Type} : Node κ := ⟨[], []⟩

/-- `Node.reverse_copy`. -/
def Node.reverseCopy {κ : Type} (n : Node κ) : Node κ := ⟨n.satisfy, n.require⟩

/-- `Graph`. -/
abbrev Graph (κ : Type) := Dict κ (Node κ)

namespace Graph

variable {κ : Type} [DecidableEq κ]

/-- `self[key]`, the node. -/
def node (g : Graph κ) (key : κ) : Node κ := (g.get key).getD Node.empty

/-- `self[key]`, the graph afterwards. -/
def touch (g : Graph κ) (key : κ) : Graph κ := if (g.get key).isSome then g else g.set key Node.empty

/-- `if key in src_node: src_node -= key` -/
def release (key : κ) (g : Graph κ) (src : κ) : Graph κ :=
  let g := g.touch src
  let srcNode := g.node src
  if key ∈ srcNode.require then g.set src { srcNode with require := srcNode.require.filter (· ≠ key) } else g

/-- `__delitem__`. -/
def delItem (g : Graph κ) (key : κ) : Graph κ :=
  let g := g.touch key
  Dict.erase ((g.node key).satisfy.foldl (release key) g) key

omit [DecidableEq κ] in
/-- `reverse_copy`. -/
def reverseCopy (g : Graph κ) : Graph κ := g.map fun e => (e.1, e.2.reverseCopy)

/-- The loop of `toposort`; `none` is the `CircularDependencyException`. -/
def toposortLoop : Nat → Graph κ → Option (List κ)
  | 0, _ => some []
  | n + 1, g =>
    match g.find? fun e => e.2.require.isEmpty with
    | none => none
    | some (key, _) => (toposortLoop n (g.delItem key)).map (key :: ·)

/-- `toposort`. -/
def toposort (g : Graph κ) : Option (List κ) := toposortLoop g.length g

/-! ## 2. Looking up -/

theorem get_touch (g : Graph κ) (key k : κ) :
    (g.touch key).get k = if k = key then some (g.node key) else g.get k := by
  rw [touch, node]
  by_cases hsome : (g.get key).isSome = true
  · rw [if_pos hsome]
    by_cases hk : k = key
    · subst hk
      obtain ⟨n, hn⟩ := Option.isSome_iff_exists.mp hsome
      rw [if_pos rfl, hn]
      rfl
    · rw [if_neg hk]
  · rw [if_neg hsome, Dict.get_set, Option.not_isSome_iff_eq_none.mp hsome]
    by_cases hk : k = key
    · rw [if_pos hk, if_pos hk.symm]
      rfl
    · rw [if_neg hk, if_neg (Ne.symm hk)]

theorem node_touch (g : Graph κ) (key k : κ) : (g.touch key).node k = g.node k := by
  rw [node, get_touch]
  by_cases hk : k = key
  · rw [if_pos hk, hk]
    rfl
  · rw [if_neg hk, node]

theorem get_release (key : κ) (g : Graph κ) (src k : κ) : (release key g src).get k =
    if k = src then some { g.node src with require := (g.node src).require.filter (· ≠ key) } else g.get k := by
  rw [release]
  dsimp only
  rw [node_touch]
  by_cases hmem : key ∈ (g.node src).require
  · rw [if_pos hmem, Dict.get_set, get_touch]
    by_cases hk : k = src
    · rw [if_pos hk.symm, if_pos hk]
    · rw [if_neg (Ne.symm hk), if_neg hk, if_neg hk]
  · have hfilter : (g.node src).require.filter (· ≠ key) = (g.node src).require :=
      filter_eq_self.mpr fun x hx => decide_eq_true fun e => hmem (e ▸ hx)
    rw [if_neg hmem, get_touch, hfilter]

theorem get_foldl_release (key : κ) (l : List κ) (g : Graph κ) (k : κ) : (l.foldl (release key) g).get k =
    if k ∈ l then some { g.node k with require := (g.node k).require.filter (· ≠ key) } else g.get k := by
  induction l generalizing g with
  | nil => rw [if_neg not_mem_nil, foldl_nil]
  | cons src l ih =>
    rw [foldl_cons, ih, node, get_release]
    by_cases hk : k = src
    · subst hk
      rw [if_pos rfl, if_pos mem_cons_self]
      by_cases hl : k ∈ l
      · rw [if_pos hl]
        simp [List.filter_filter]
      · rw [if_neg hl]
    · have hmem : k ∈ src :: l ↔ k ∈ l := by simp [hk]
      rw [if_neg hk]
      exact if_congr hmem.symm rfl rfl

/-- **Deleting a key.** -/
theorem get_delItem (g : Graph κ) (key k : κ) : (g.delItem key).get k =
    if k = key then none
    else if k ∈ (g.node key).satisfy then some { g.node k with require := (g.node k).require.filter (· ≠ key) }
    else g.get k := by
  rw [delItem]
  dsimp only
  rw [Dict.get_erase, get_foldl_release, node_touch, node_touch, get_touch]
  by_cases hk : k = key
  · rw [if_pos hk.symm, if_pos hk]
  · rw [if_neg (Ne.symm hk), if_neg hk, if_neg hk]

theorem satisfy_delItem {g : Graph κ} {key k d : κ} (hd : d ∈ ((g.delItem key).node k).satisfy) :
    d ∈ (g.node k).satisfy := by
  rw [node, get_delItem] at hd
  split at hd
  · cases hd
  · split at hd
    · exact hd
    · exact hd

end Graph

/-! ## 3. Graphs of edges -/

section

variable {κ : Type} [DecidableEq κ]

/-- `Dependencies.__iadd__`, for an edge `(requirer, required)`. -/
def addEdge (g : Graph κ) : κ × Option κ → Graph κ
  | (requirer, none) => g.touch requirer
  | (requirer, some required) =>
    let g : Graph κ := g.set required { g.node required with satisfy := (g.node required).satisfy.insert requirer }
    g.set requirer { g.node requirer with require := (g.node requirer).require.insert required }

/-- `Dependencies.__init__`. -/
def ofEdges (edges : List (κ × Option κ)) : Graph κ := edges.foldl addEdge []

/-- The nodes that the edges mention. -/
def Mentions (edges : List (κ × Option κ)) (k : κ) : Prop := ∃ e ∈ edges, k = e.1 ∨ some k = e.2

/-- The edges of one key in a graph. -/
structure IsNode (R : κ → κ → Prop) (k : κ) (n : Node κ) : Prop where
  require : ∀ r, r ∈ n.require ↔ R k r
  satisfy : ∀ d, d ∈ n.satisfy ↔ R d k

variable {g : Graph κ}

theorem keysNodup_touch (h : Dict.KeysNodup g) (k : κ) : Dict.KeysNodup (g.touch k) := by
  rw [Graph.touch]
  split
  · exact h
  · exact h.set _ _

theorem node_set (g : Graph κ) (k : κ) (n : Node κ) (k' : κ) :
    Graph.node (g.set k n) k' = if k = k' then n else g.node k' := by
  rw [Graph.node, Dict.get_set]
  by_cases hk : k = k'
  · rw [if_pos hk, if_pos hk]
    rfl
  · rw [if_neg hk, if_neg hk, Graph.node]

/-- One more edge. -/
theorem addEdge_spec {edges : List (κ × Option κ)} {e : κ × Option κ}
    (hnode : ∀ k, IsNode (fun a b => (a, some b) ∈ edges) k (g.node k))
    (hkey : ∀ k, (g.get k).isSome = true ↔ Mentions edges k) (hnodup : Dict.KeysNodup g) :
    (∀ k, IsNode (fun a b => (a, some b) ∈ edges ++ [e]) k ((addEdge g e).node k)) ∧
      (∀ k, ((addEdge g e).get k).isSome = true ↔ Mentions (edges ++ [e]) k) ∧ Dict.KeysNodup (addEdge g e) := by
  have hmention : ∀ k, Mentions (edges ++ [e]) k ↔ Mentions edges k ∨ k = e.1 ∨ some k = e.2 := fun k => by
    constructor
    · rintro ⟨x, hx, h⟩
      rcases mem_append.mp hx with hx | hx
      · exact Or.inl ⟨x, hx, h⟩
      · exact Or.inr (mem_singleton.mp hx ▸ h)
    · rintro (⟨x, hx, h⟩ | h)
      · exact ⟨x, mem_append_left _ hx, h⟩
      · exact ⟨e, mem_append_right _ (mem_singleton_self e), h⟩
  obtain ⟨requirer, required⟩ := e
  cases required with
  | none =>
    refine ⟨fun k => ⟨fun r => ?_, fun d => ?_⟩, fun k => ?_, keysNodup_touch hnodup _⟩
    · rw [addEdge, Graph.node_touch, (hnode k).require]
      simp
    · rw [addEdge, Graph.node_touch, (hnode k).satisfy]
      simp
    · rw [addEdge, Graph.get_touch, hmention]
      by_cases hk : k = requirer
      · simp [hk]
      · rw [if_neg hk, hkey]
        simp [hk]
  | some required =>
    refine ⟨fun k => ?_, fun k => ?_, (hnodup.set _ _).set _ _⟩
    · have hnodes : (addEdge g (requirer, some required)).node k =
          { require := if requirer = k then (g.node k).require.insert required else (g.node k).require
            satisfy := if required = k then (g.node k).satisfy.insert requirer else (g.node k).satisfy } := by
        rw [addEdge]
        dsimp only
        rw [node_set, node_set, node_set]
        by_cases h1 : requirer = k
        · subst h1
          by_cases h2 : required = requirer
          · simp [h2]
          · simp [h2]
        · by_cases h2 : required = k
          · subst h2
            simp [h1]
          · simp [h1, h2]
      rw [hnodes]
      refine ⟨fun r => ?_, fun d => ?_⟩
      · dsimp only
        split
        case isTrue h1 =>
          rw [mem_insert_iff, (hnode k).require, mem_append, mem_singleton, h1]
          simp [or_comm]
        case isFalse h1 =>
          rw [(hnode k).require, mem_append, mem_singleton]
          simp [Ne.symm h1]
      · dsimp only
        split
        case isTrue h1 =>
          rw [mem_insert_iff, (hnode k).satisfy, mem_append, mem_singleton, h1]
          simp [or_comm]
        case isFalse h1 =>
          rw [(hnode k).satisfy, mem_append, mem_singleton]
          simp [Ne.symm h1]
    · rw [addEdge, Dict.get_set, hmention]
      by_cases h1 : requirer = k
      · simp [h1]
      · rw [if_neg h1, Dict.get_set]
        by_cases h2 : required = k
        · simp [h2]
        · rw [if_neg h2, hkey]
          simp [Ne.symm h1, Ne.symm h2]

/-- **The graph of the edges has their relation.** -/
theorem ofEdges_spec (edges : List (κ × Option κ)) :
    (∀ k, IsNode (fun a b => (a, some b) ∈ edges) k ((ofEdges edges).node k)) ∧
      (∀ k, ((ofEdges edges).get k).isSome = true ↔ Mentions edges k) ∧ Dict.KeysNodup (ofEdges edges) := by
  induction edges using reverseRecOn with
  | nil =>
    refine ⟨fun k => ⟨fun r => ?_, fun d => ?_⟩, fun k => ?_, nodup_nil⟩
    · simp [ofEdges, Graph.node, Node.empty]
    · simp [ofEdges, Graph.node, Node.empty]
    · simp [ofEdges, Mentions]
  | append_singleton edges e ih =>
    rw [ofEdges, foldl_append]
    exact addEdge_spec ih.1 ih.2.1 ih.2.2

/-! ## 4. Sorting -/

/-- A graph of the relation without the keys that are gone. -/
structure Remaining (R : κ → κ → Prop) (g : Graph κ) : Prop where
  nodup : Dict.KeysNodup g
  require : ∀ k n, g.get k = some n → ∀ r, r ∈ n.require ↔ R k r ∧ (g.get r).isSome = true
  satisfy : ∀ k n, g.get k = some n → ∀ d, d ∈ n.satisfy ↔ R d k
  closed : ∀ k d, (g.get k).isSome = true → R d k → (g.get d).isSome = true

theorem keysNodup_release (h : Dict.KeysNodup g) (key src : κ) :
    Dict.KeysNodup (Graph.release key g src) := by
  rw [Graph.release]
  split
  · exact (keysNodup_touch h src).set _ _
  · exact keysNodup_touch h src

theorem keysNodup_delItem (h : Dict.KeysNodup g) (key : κ) : Dict.KeysNodup (g.delItem key) := by
  have hfold : ∀ (l : List κ) (g : Graph κ), Dict.KeysNodup g → Dict.KeysNodup (l.foldl (Graph.release key) g) := fun l => by
    induction l with
    | nil => exact fun _ h => h
    | cons src l ih => exact fun g h => ih _ (keysNodup_release h key src)
  exact (hfold _ _ (keysNodup_touch h key)).sublist (filter_sublist.map _)

variable {R : κ → κ → Prop}

/-- **A key without requirements is deleted.** -/
theorem Remaining.delItem (h : Remaining R g) {key : κ} {n : Node κ}
    (hkey : g.get key = some n) (hready : n.require = []) :
    Remaining R (g.delItem key) ∧ ∀ k, ((g.delItem key).get k).isSome = true ↔ k ≠ key ∧ (g.get k).isSome = true := by
  have hn : g.node key = n := by rw [Graph.node, hkey]; rfl
  have hnone : ∀ r, R key r → (g.get r).isSome = false := fun r hr => by
    by_contra hsome
    have hmem := (h.require key n hkey r).mpr ⟨hr, Bool.not_eq_false _ ▸ hsome⟩
    rw [hready] at hmem
    cases hmem
  have hsome : ∀ k, ((g.delItem key).get k).isSome = true ↔ k ≠ key ∧ (g.get k).isSome = true := fun k => by
    rw [Graph.get_delItem, hn]
    by_cases hk : k = key
    · simp [hk]
    · rw [if_neg hk]
      by_cases hd : k ∈ n.satisfy
      · have := h.closed key k (by rw [hkey]; rfl) ((h.satisfy key n hkey k).mp hd)
        simp [hk, hd, this]
      · simp [hk, hd]
  refine ⟨⟨keysNodup_delItem h.nodup key, fun k m hm r => ?_, fun k m hm d => ?_, fun k d hk hd => ?_⟩, hsome⟩
  · rw [hsome r]
    rw [Graph.get_delItem, hn] at hm
    split at hm
    · cases hm
    · split at hm
      case isTrue hd =>
        have hk := h.closed key k (by rw [hkey]; rfl) ((h.satisfy key n hkey k).mp hd)
        obtain ⟨m', hm'⟩ := Option.isSome_iff_exists.mp hk
        obtain rfl := Option.some.inj hm
        have hnode : g.node k = m' := by rw [Graph.node, hm']; rfl
        rw [mem_filter, hnode, h.require k m' hm']
        simp only [decide_eq_true_iff]
        tauto
      case isFalse hd =>
        rw [h.require k m hm]
        have hne : R k r → r ≠ key := fun hr he => hd ((h.satisfy key n hkey k).mpr (he ▸ hr))
        tauto
  · rw [Graph.get_delItem, hn] at hm
    split at hm
    · cases hm
    · split at hm
      case isTrue hd' =>
        have hk := h.closed key k (by rw [hkey]; rfl) ((h.satisfy key n hkey k).mp hd')
        obtain ⟨m', hm'⟩ := Option.isSome_iff_exists.mp hk
        obtain rfl := Option.some.inj hm
        have hnode : g.node k = m' := by rw [Graph.node, hm']; rfl
        rw [hnode]
        exact h.satisfy k m' hm' d
      case isFalse => exact h.satisfy k m hm d
  · obtain ⟨hkk, hk⟩ := (hsome k).mp hk
    refine (hsome d).mpr ⟨fun e => ?_, h.closed k d hk hd⟩
    have := hnone k (e ▸ hd)
    rw [hk] at this
    cases this

theorem length_delItem (h : Remaining R g) {key : κ} {n : Node κ}
    (hkey : g.get key = some n) (hready : n.require = []) : (g.delItem key).length + 1 = g.length := by
  obtain ⟨hrem, hsome⟩ := h.delItem hkey hready
  have hperm : (g.map Prod.fst).Perm (key :: (g.delItem key).map Prod.fst) := by
    refine (perm_ext_iff_of_nodup h.nodup (nodup_cons.mpr ⟨fun hm => ?_, hrem.nodup⟩)).mpr fun k => ?_
    · exact ((hsome key).mp (Dict.mem_keys_iff.mp hm)).1 rfl
    · rw [mem_cons, Dict.mem_keys_iff, Dict.mem_keys_iff, hsome]
      by_cases hk : k = key
      · simp [hk, hkey]
      · simp [hk]
  have := hperm.length_eq
  rw [length_cons, length_map, length_map] at this
  exact this.symm

/-- No key requires itself, directly or not. -/
def Acyclic (R : κ → κ → Prop) : Prop := ∀ k, ¬ Relation.TransGen R k k

omit [DecidableEq κ] in
theorem Acyclic.of_rank (rank : κ → ℕ) (h : ∀ a b, R a b → rank b < rank a) : Acyclic R := by
  intro k hk
  have hlt : ∀ b, Relation.TransGen R k b → rank b < rank k := fun b hb => by
    induction hb with
    | single hr => exact h _ _ hr
    | tail _ hr ih => exact (h _ _ hr).trans ih
  exact Nat.lt_irrefl _ (hlt k hk)

omit [DecidableEq κ] in
/-- Some key requires none of the others. -/
theorem Acyclic.exists_minimal (h : Acyclic R) {l : List κ} (hl : l ≠ []) :
    ∃ m ∈ l, ∀ k ∈ l, ¬ R m k := by
  let r : {k // k ∈ l} → {k // k ∈ l} → Prop := fun a b => Relation.TransGen R b.1 a.1
  have htrans : IsTrans _ r := ⟨fun _ _ _ hab hbc => hbc.trans hab⟩
  have hirrefl : Std.Irrefl r := ⟨fun a ha => h a.1 ha⟩
  have hfinite : Finite {k // k ∈ l} := finite_toSet l
  have hwf : WellFounded r := Finite.wellFounded_of_trans_of_irrefl r
  obtain ⟨k, hk⟩ := exists_mem_of_ne_nil l hl
  obtain ⟨m, -, hm⟩ := hwf.has_min Set.univ ⟨⟨k, hk⟩, trivial⟩
  exact ⟨m.1, m.2, fun x hx hr => hm ⟨x, hx⟩ trivial (Relation.TransGen.single hr)⟩

/-- A sorted list of the keys of a graph. -/
structure Sorted (R : κ → κ → Prop) (g : Graph κ) (keys : List κ) : Prop where
  nodup : keys.Nodup
  mem : ∀ k, k ∈ keys ↔ (g.get k).isSome = true
  sorted : keys.Pairwise fun a b => ¬ R a b

theorem toposortLoop_of_acyclic (hR : Acyclic R) {n : Nat} (h : Remaining R g)
    (hn : g.length = n) : ∃ keys, Graph.toposortLoop n g = some keys ∧ Sorted R g keys := by
  induction n generalizing g with
  | zero =>
    obtain rfl := eq_nil_of_length_eq_zero hn
    exact ⟨[], rfl, nodup_nil, fun k => by simp, List.Pairwise.nil⟩
  | succ n ih =>
    have hne : g.map Prod.fst ≠ [] := fun e => by
      rw [map_eq_nil_iff.mp e] at hn
      cases hn
    obtain ⟨m, hm, hmin⟩ := hR.exists_minimal hne
    obtain ⟨nm, hnm⟩ := Option.isSome_iff_exists.mp (Dict.mem_keys_iff.mp hm)
    have hempty : nm.require = [] := eq_nil_iff_forall_not_mem.mpr fun r hr => by
      obtain ⟨hr, hsome⟩ := (h.require m nm hnm r).mp hr
      exact hmin r (Dict.mem_keys_iff.mpr hsome) hr
    have hfind : (g.find? fun e => e.2.require.isEmpty).isSome = true :=
      find?_isSome.mpr ⟨(m, nm), (h.nodup.mem_iff).mpr hnm, by simp [hempty]⟩
    obtain ⟨⟨key, node⟩, hkey⟩ := Option.isSome_iff_exists.mp hfind
    have hget : g.get key = some node := (h.nodup.mem_iff).mp (mem_of_find?_eq_some hkey)
    have hready : node.require = [] := by
      have hp := find?_some hkey
      simpa using hp
    obtain ⟨hrem, hsome⟩ := h.delItem hget hready
    obtain ⟨keys, hkeys, hsorted⟩ := ih hrem (by have := length_delItem h hget hready; omega)
    refine ⟨key :: keys, ?_, nodup_cons.mpr ⟨fun hm => ?_, hsorted.nodup⟩, fun k => ?_, ?_⟩
    · rw [Graph.toposortLoop, hkey]
      dsimp only
      rw [hkeys]
      rfl
    · exact ((hsome key).mp ((hsorted.mem key).mp hm)).1 rfl
    · rw [mem_cons, hsorted.mem, hsome]
      by_cases hk : k = key
      · simp [hk, hget]
      · simp [hk]
    · refine pairwise_cons.mpr ⟨fun b hb hr => ?_, hsorted.sorted⟩
      have hb' := ((hsome b).mp ((hsorted.mem b).mp hb)).2
      have hmem := (h.require key node hget b).mpr ⟨hr, hb'⟩
      rw [hready] at hmem
      cases hmem

/-- The relation of a list of edges. -/
def Requires (edges : List (κ × Option κ)) (a b : κ) : Prop := (a, some b) ∈ edges

/-- A graph of a relation, in some order of its nodes and of their edges. -/
structure IsGraph (R : κ → κ → Prop) (g : Graph κ) : Prop where
  nodup : Dict.KeysNodup g
  node : ∀ k, IsNode R k (g.node k)
  mem : ∀ a b, R a b → (g.get a).isSome = true ∧ (g.get b).isSome = true

/-- **The graph of a list of edges** is one of its relation. -/
theorem isGraph_ofEdges (edges : List (κ × Option κ)) : IsGraph (Requires edges) (ofEdges edges) := by
  obtain ⟨hnode, hkey, hnodup⟩ := ofEdges_spec edges
  exact ⟨hnodup, hnode, fun a b hab => ⟨(hkey a).mpr ⟨_, hab, Or.inl rfl⟩, (hkey b).mpr ⟨_, hab, Or.inr rfl⟩⟩⟩

theorem IsGraph.node_of_get (h : IsGraph R g) {k : κ} {n : Node κ}
    (hk : g.get k = some n) : IsNode R k n := by
  have hnode := h.node k
  rw [Graph.node, hk] at hnode
  exact hnode

theorem IsGraph.remaining (h : IsGraph R g) : Remaining R g := by
  refine ⟨h.nodup, fun k n hk r => ?_, fun k n hk => (h.node_of_get hk).satisfy, fun k d _ hd => (h.mem d k hd).1⟩
  rw [(h.node_of_get hk).require]
  exact ⟨fun hr => ⟨hr, (h.mem k r hr).2⟩, fun hr => hr.1⟩

theorem get_reverseCopy (g : Graph κ) (k : κ) : g.reverseCopy.get k = (g.get k).map Node.reverseCopy := by
  induction g with
  | nil => rfl
  | cons e g ih =>
    rw [Graph.reverseCopy, map_cons, Dict.get_cons, Dict.get_cons]
    by_cases hk : e.1 = k
    · rw [if_pos hk, if_pos hk]
      rfl
    · rw [if_neg hk, if_neg hk]
      exact ih

/-- **The reversed graph** has the reversed relation. -/
theorem IsGraph.reverseCopy (h : IsGraph R g) :
    IsGraph (fun a b => R b a) g.reverseCopy := by
  refine ⟨?_, fun k => ?_, fun a b hab => ?_⟩
  · rw [Dict.KeysNodup, Graph.reverseCopy, List.map_map]
    exact h.nodup
  · have hnode : g.reverseCopy.node k = (g.node k).reverseCopy := by
      rw [Graph.node, Graph.node, get_reverseCopy]
      cases g.get k <;> rfl
    rw [hnode]
    exact ⟨(h.node k).satisfy, (h.node k).require⟩
  · rw [get_reverseCopy, get_reverseCopy, Option.isSome_map, Option.isSome_map]
    exact (h.mem b a hab).symm

/-- **A graph without a cycle is sorted.** -/
theorem toposort_of_acyclic (hg : IsGraph R g) (hR : Acyclic R) :
    ∃ keys, g.toposort = some keys ∧ Sorted R g keys :=
  toposortLoop_of_acyclic hR hg.remaining rfl

/-- **A position for every key**, behind those of what it requires. -/
theorem Sorted.idxOf_lt {keys : List κ} (h : Sorted R g keys)
    (hirrefl : ∀ k, ¬ R k k) {a b : κ} (hab : R a b) (ha : a ∈ keys) (hb : b ∈ keys) :
    keys.idxOf b < keys.idxOf a := by
  by_contra hle
  have hne : a ≠ b := fun e => hirrefl a (by rw [← e] at hab; exact hab)
  have hlt : keys.idxOf a < keys.idxOf b :=
    lt_of_le_of_ne (not_lt.mp hle) fun e => hne (idxOf_inj ha |>.mp e)
  have hpair := pairwise_iff_getElem.mp h.sorted _ _ (idxOf_lt_length_of_mem ha)
    (idxOf_lt_length_of_mem hb) hlt
  rw [getElem_idxOf, getElem_idxOf] at hpair
  exact hpair hab

end

end Mitaka.Heat
