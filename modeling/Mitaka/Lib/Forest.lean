/-
  Subject: A forest as a list of nodes that name their parent: down from a node, level by
           level, and up from a node.

  Both loops remember what they have examined and give up when they meet it again, which
  in a forest does not happen: `subtree_spec` and `parents_spec` say that they return the
  nodes below and above.
-/
import Mathlib

namespace Mitaka

open List

variable {α ι : Type*} [DecidableEq ι]

/-- A list of nodes with their ids and parents. -/
structure Nodes (α ι : Type*) where
  list : List α
  id : α → ι
  parent : α → Option ι

namespace Nodes

/-- The parent of an id. -/
def IsParent (g : Nodes α ι) (x y : ι) : Prop := ∃ a ∈ g.list, g.id a = x ∧ g.parent a = some y

/-- Ids are unique, parents exist, and no node is above itself. -/
structure IsForest (g : Nodes α ι) : Prop where
  nodup : (g.list.map g.id).Nodup
  parent : ∀ a ∈ g.list, ∀ y, g.parent a = some y → ∃ b ∈ g.list, g.id b = y
  acyclic : ∀ x, ¬ Relation.TransGen g.IsParent x x

/-- The nodes whose parent is one of some ids. -/
def children (g : Nodes α ι) (ids : List ι) : List α := g.list.filter fun a => (g.parent a).any (· ∈ ids)

/-- The loop down, level by level. -/
def subtreeLoop (g : Nodes α ι) : ℕ → List α → List ι → List α → Option (List α)
  | 0, _, _, _ => none
  | n + 1, children, examined, subtree =>
    if children = [] then some subtree
    else
      let ids := children.map g.id
      if ids.any (· ∈ examined) then none
      else subtreeLoop g n (g.children ids) (ids ++ examined) (subtree ++ children)

/-- The nodes below an id. -/
def subtree (g : Nodes α ι) (x : ι) : Option (List α) :=
  g.subtreeLoop (g.list.length + 1) (g.children [x]) [x] []

/-- The loop up. -/
def parentsLoop (g : Nodes α ι) : ℕ → α → List ι → List α → Option (List α)
  | 0, _, _, _ => none
  | n + 1, a, examined, parents =>
    match g.parent a with
    | none => some parents
    | some y =>
      if g.id a ∈ examined then none
      else (g.list.find? fun b => g.id b = y).bind fun b => parentsLoop g n b (g.id a :: examined) (parents ++ [b])

/-- The nodes above a node. -/
def parents (g : Nodes α ι) (a : α) : Option (List α) := g.parentsLoop (g.list.length + 1) a [] []

variable {g : Nodes α ι}

theorem mem_children {ids : List ι} {a : α} : a ∈ g.children ids ↔ a ∈ g.list ∧ ∃ y ∈ ids, g.parent a = some y := by
  rw [children, mem_filter]
  cases g.parent a <;> simp

omit [DecidableEq ι] in
theorem IsForest.eq_of_id (hg : g.IsForest) {a b : α} (ha : a ∈ g.list) (hb : b ∈ g.list) (h : g.id a = g.id b) :
    a = b := inj_on_of_nodup_map hg.nodup ha hb h

omit [DecidableEq ι] in
theorem IsForest.isParent_iff (hg : g.IsForest) {a : α} (ha : a ∈ g.list) {y : ι} :
    g.IsParent (g.id a) y ↔ g.parent a = some y := by
  refine ⟨?_, fun h => ⟨a, ha, rfl, h⟩⟩
  rintro ⟨b, hb, hid, h⟩
  rw [← hg.eq_of_id hb ha hid]
  exact h

omit [DecidableEq ι] in
theorem IsForest.parent_unique (hg : g.IsForest) {x y z : ι} (hy : g.IsParent x y) (hz : g.IsParent x z) : y = z := by
  obtain ⟨a, ha, rfl, hy⟩ := hy
  rw [hg.isParent_iff ha] at hz
  exact Option.some.inj (hy.symm.trans hz)

omit [DecidableEq ι] in
/-- Two nodes above one node are one above the other. -/
theorem IsForest.above_total (hg : g.IsForest) {x y z : ι} (hy : Relation.ReflTransGen g.IsParent x y)
    (hz : Relation.ReflTransGen g.IsParent x z) :
    Relation.ReflTransGen g.IsParent y z ∨ Relation.ReflTransGen g.IsParent z y :=
  Relation.ReflTransGen.total_of_right_unique (fun _ _ _ h h' => hg.parent_unique h h') hy hz

/-- A number of steps up. -/
def Up (g : Nodes α ι) : ℕ → ι → ι → Prop
  | 0, x, y => x = y
  | n + 1, x, y => ∃ z, g.IsParent x z ∧ g.Up n z y

omit [DecidableEq ι] in
theorem transGen_iff_up {x y : ι} : Relation.TransGen g.IsParent x y ↔ ∃ n, g.Up (n + 1) x y := by
  constructor
  · intro h
    induction h using Relation.TransGen.head_induction_on with
    | single h => exact ⟨0, y, h, rfl⟩
    | head h _ ih =>
      obtain ⟨n, hn⟩ := ih
      exact ⟨n + 1, _, h, hn⟩
  · rintro ⟨n, hn⟩
    induction n generalizing x with
    | zero =>
      obtain ⟨z, hz, rfl⟩ := hn
      exact .single hz
    | succ n ih =>
      obtain ⟨z, hz, hn⟩ := hn
      exact .head hz (ih hn)

omit [DecidableEq ι] in
/-- The number of steps between two ids is unique. -/
theorem IsForest.up_unique (hg : g.IsForest) {m n : ℕ} {x y : ι} (hm : g.Up m x y) (hn : g.Up n x y) : m = n := by
  induction m generalizing n x with
  | zero =>
    cases n with
    | zero => rfl
    | succ n =>
      obtain rfl : x = y := hm
      exact absurd (transGen_iff_up.mpr ⟨n, hn⟩) (hg.acyclic x)
  | succ m ih =>
    cases n with
    | zero =>
      obtain rfl : x = y := hn
      exact absurd (transGen_iff_up.mpr ⟨m, hm⟩) (hg.acyclic x)
    | succ n =>
      obtain ⟨z, hz, hm⟩ := hm
      obtain ⟨w, hw, hn⟩ := hn
      obtain rfl := hg.parent_unique hz hw
      rw [ih hm hn]

/-- Ids that are not yet examined, and fewer of them later. -/
theorem length_unexamined_lt {examined examined' : List ι} {a : α} (ha : a ∈ g.list) (hmem : g.id a ∉ examined)
    (hmem' : g.id a ∈ examined') (hsub : ∀ x ∈ examined, x ∈ examined') :
    (g.list.filter fun b => g.id b ∉ examined').length < (g.list.filter fun b => g.id b ∉ examined).length := by
  have hle : (g.list.filter fun b => g.id b ∉ examined') =
      (g.list.filter fun b => g.id b ∉ examined).filter fun b => g.id b ∉ examined' := by
    rw [List.filter_filter]
    refine filter_congr fun b _ => ?_
    rw [← Bool.decide_and, decide_eq_decide]
    exact ⟨fun h => ⟨h, fun hb => h (hsub _ hb)⟩, fun h => h.1⟩
  rw [hle]
  refine length_filter_lt_length_iff_exists.mpr ⟨a, mem_filter.mpr ⟨ha, decide_eq_true hmem⟩, ?_⟩
  simpa using hmem'

theorem IsForest.subtreeLoop_spec (hg : g.IsForest) (r : ι) (n : ℕ) : ∀ (level : ℕ) (children : List α)
    (examined : List ι) (subtree : List α), (∀ a, a ∈ children ↔ a ∈ g.list ∧ g.Up (level + 1) (g.id a) r) →
    (∀ x, x ∈ examined ↔ x = r ∨ (∃ a ∈ g.list, g.id a = x) ∧ ∃ j ≤ level, g.Up j x r) →
    (g.list.filter fun b => g.id b ∉ examined).length < n →
    ∃ l, g.subtreeLoop n children examined subtree = some (subtree ++ l) ∧
      ∀ a, a ∈ l ↔ a ∈ g.list ∧ ∃ j, level < j ∧ g.Up j (g.id a) r := by
  induction n with
  | zero => exact fun _ _ _ _ _ _ h => absurd h (Nat.not_lt_zero _)
  | succ n ih =>
    intro level children examined subtree hchildren hexamined hfuel
    rw [Nodes.subtreeLoop]
    by_cases hnil : children = []
    · rw [if_pos hnil]
      refine ⟨[], by rw [append_nil], fun a => ⟨fun h => (nomatch h), ?_⟩⟩
      rintro ⟨ha, j, hj, hup⟩
      -- the level below an empty level is empty
      obtain ⟨i, rfl⟩ := Nat.exists_eq_add_of_lt hj
      have hno : ∀ i, ∀ a ∈ g.list, ¬ g.Up (level + i + 1) (g.id a) r := fun i => by
        induction i with
        | zero =>
          intro a ha hup
          have hmem := (hchildren a).mpr ⟨ha, hup⟩
          rw [hnil] at hmem
          cases hmem
        | succ i ih =>
          rintro a ha ⟨z, hz, hup⟩
          obtain ⟨b, hb, rfl⟩ := hg.parent a ha z ((hg.isParent_iff ha).mp hz)
          exact ih b hb hup
      exact absurd hup (hno i a ha)
    · rw [if_neg hnil]
      dsimp only
      have hfresh : ¬ (children.map g.id).any (· ∈ examined) = true := by
        rw [List.any_eq_true]
        rintro ⟨x, hx, hmem⟩
        obtain ⟨a, ha, rfl⟩ := List.mem_map.mp hx
        obtain ⟨-, hup⟩ := (hchildren a).mp ha
        rcases (hexamined _).mp (of_decide_eq_true hmem) with h | ⟨-, j, hj, hj'⟩
        · have := hg.up_unique (show g.Up 0 (g.id a) r from h) hup
          omega
        · have := hg.up_unique hj' hup
          omega
      rw [if_neg hfresh]
      have hchildren' : ∀ a, a ∈ g.children (children.map g.id) ↔ a ∈ g.list ∧ g.Up (level + 1 + 1) (g.id a) r := by
        intro a
        rw [mem_children]
        refine and_congr_right fun ha => ⟨?_, ?_⟩
        · rintro ⟨y, hy, hp⟩
          obtain ⟨b, hb, rfl⟩ := List.mem_map.mp hy
          exact ⟨g.id b, (hg.isParent_iff ha).mpr hp, ((hchildren b).mp hb).2⟩
        · rintro ⟨z, hz, hup⟩
          have hp := (hg.isParent_iff ha).mp hz
          obtain ⟨b, hb, rfl⟩ := hg.parent a ha z hp
          exact ⟨g.id b, List.mem_map_of_mem ((hchildren b).mpr ⟨hb, hup⟩), hp⟩
      have hexamined' : ∀ x, x ∈ children.map g.id ++ examined ↔
          x = r ∨ (∃ a ∈ g.list, g.id a = x) ∧ ∃ j ≤ level + 1, g.Up j x r := by
        intro x
        rw [mem_append, hexamined, List.mem_map]
        constructor
        · rintro (⟨a, ha, rfl⟩ | h | ⟨hx, j, hj, h⟩)
          · obtain ⟨ha, hup⟩ := (hchildren a).mp ha
            exact Or.inr ⟨⟨a, ha, rfl⟩, level + 1, le_rfl, hup⟩
          · exact Or.inl h
          · exact Or.inr ⟨hx, j, by omega, h⟩
        · rintro (h | ⟨⟨a, ha, rfl⟩, j, hj, h⟩)
          · exact Or.inr (Or.inl h)
          · rcases Nat.lt_or_ge level j with hlt | hle
            · obtain rfl : j = level + 1 := by omega
              exact Or.inl ⟨a, (hchildren a).mpr ⟨ha, h⟩, rfl⟩
            · exact Or.inr (Or.inr ⟨⟨a, ha, rfl⟩, j, hle, h⟩)
      obtain ⟨a, ha⟩ := exists_mem_of_ne_nil children hnil
      have hid := List.mem_map_of_mem (f := g.id) ha
      have hlt := length_unexamined_lt ((hchildren a).mp ha).1
        (fun h => hfresh (List.any_eq_true.mpr ⟨_, hid, decide_eq_true h⟩))
        (mem_append_left examined hid) fun x hx => mem_append_right _ hx
      obtain ⟨l, hl, hmem⟩ := ih (level + 1) (g.children (children.map g.id)) (children.map g.id ++ examined)
        (subtree ++ children) hchildren' hexamined' (by omega)
      refine ⟨children ++ l, by rw [hl, append_assoc], fun a => ?_⟩
      rw [mem_append, hchildren, hmem, ← and_or_left]
      refine and_congr_right fun _ => ⟨?_, ?_⟩
      · rintro (h | ⟨j, hj, h⟩)
        · exact ⟨level + 1, by omega, h⟩
        · exact ⟨j, by omega, h⟩
      · rintro ⟨j, hj, h⟩
        rcases Nat.lt_or_ge (level + 1) j with hlt | hle
        · exact Or.inr ⟨j, hlt, h⟩
        · obtain rfl : j = level + 1 := by omega
          exact Or.inl h

/-- **The nodes below an id.** -/
theorem IsForest.subtree_spec (hg : g.IsForest) (r : ι) :
    ∃ l, g.subtree r = some l ∧ ∀ a, a ∈ l ↔ a ∈ g.list ∧ Relation.TransGen g.IsParent (g.id a) r := by
  have hchildren : ∀ a, a ∈ g.children [r] ↔ a ∈ g.list ∧ g.Up (0 + 1) (g.id a) r := by
    intro a
    rw [mem_children]
    refine and_congr_right fun ha => ⟨?_, ?_⟩
    · rintro ⟨y, hy, hp⟩
      exact ⟨y, (hg.isParent_iff ha).mpr hp, mem_singleton.mp hy⟩
    · rintro ⟨z, hz, rfl⟩
      exact ⟨z, mem_singleton_self z, (hg.isParent_iff ha).mp hz⟩
  have hexamined : ∀ x, x ∈ [r] ↔ x = r ∨ (∃ a ∈ g.list, g.id a = x) ∧ ∃ j ≤ 0, g.Up j x r := by
    intro x
    rw [mem_singleton]
    refine ⟨Or.inl, ?_⟩
    rintro (h | ⟨-, j, hj, h⟩)
    · exact h
    · obtain rfl : j = 0 := by omega
      exact h
  obtain ⟨l, hl, hmem⟩ := hg.subtreeLoop_spec r (g.list.length + 1) 0 (g.children [r]) [r] [] hchildren hexamined
    ((List.length_filter_le _ _).trans_lt (Nat.lt_succ_self _))
  refine ⟨l, hl, fun a => ?_⟩
  rw [hmem, transGen_iff_up]
  refine and_congr_right fun _ => ⟨?_, ?_⟩
  · rintro ⟨j, hj, h⟩
    obtain ⟨j, rfl⟩ := Nat.exists_eq_succ_of_ne_zero hj.ne'
    exact ⟨j, h⟩
  · rintro ⟨n, h⟩
    exact ⟨n + 1, Nat.succ_pos n, h⟩

theorem IsForest.parentsLoop_spec (hg : g.IsForest) (n : ℕ) : ∀ a ∈ g.list, ∀ (examined : List ι) (parents : List α),
    (∀ x ∈ examined, Relation.TransGen g.IsParent x (g.id a)) →
    (g.list.filter fun b => g.id b ∉ examined).length < n →
    ∃ l, g.parentsLoop n a examined parents = some (parents ++ l) ∧
      ∀ b, b ∈ l ↔ b ∈ g.list ∧ Relation.TransGen g.IsParent (g.id a) (g.id b) := by
  induction n with
  | zero => exact fun _ _ _ _ _ h => absurd h (Nat.not_lt_zero _)
  | succ n ih =>
    intro a ha examined parents hexamined hfuel
    rw [Nodes.parentsLoop]
    cases hp : g.parent a with
    | none =>
      refine ⟨[], by rw [append_nil], fun b => ⟨fun h => (nomatch h), ?_⟩⟩
      rintro ⟨-, h⟩
      obtain ⟨z, hz, -⟩ := Relation.TransGen.head'_iff.mp h
      rw [hg.isParent_iff ha, hp] at hz
      cases hz
    | some y =>
      have hfresh : g.id a ∉ examined := fun h => hg.acyclic _ (hexamined _ h)
      have hstep := (hg.isParent_iff ha).mpr hp
      obtain ⟨c, hc, rfl⟩ := hg.parent a ha y hp
      have hfind : g.list.find? (fun b => g.id b = g.id c) = some c := by
        cases hf : g.list.find? fun b => g.id b = g.id c with
        | none =>
          have hne := find?_eq_none.mp hf c hc
          simp at hne
        | some b =>
          have hid : g.id b = g.id c := by simpa using find?_some hf
          rw [hg.eq_of_id (mem_of_find?_eq_some hf) hc hid]
      dsimp only
      rw [if_neg hfresh, hfind, Option.bind_some]
      obtain ⟨l, hl, hmem⟩ := ih c hc (g.id a :: examined) (parents ++ [c]) (fun x hx => by
        rcases mem_cons.mp hx with rfl | hx
        · exact .single hstep
        · exact (hexamined x hx).tail hstep) (by
        have hlt := length_unexamined_lt ha hfresh (mem_cons_self (l := examined))
          fun x hx => mem_cons_of_mem _ hx
        omega)
      refine ⟨c :: l, by rw [hl, append_assoc]; rfl, fun b => ?_⟩
      rw [mem_cons, hmem]
      constructor
      · rintro (rfl | ⟨hb, h⟩)
        · exact ⟨hc, .single hstep⟩
        · exact ⟨hb, .head hstep h⟩
      · rintro ⟨hb, h⟩
        obtain ⟨z, hz, h⟩ := Relation.TransGen.head'_iff.mp h
        obtain rfl := hg.parent_unique hstep hz
        rcases Relation.reflTransGen_iff_eq_or_transGen.mp h with h | h
        · exact Or.inl (hg.eq_of_id hb hc h)
        · exact Or.inr ⟨hb, h⟩

/-- **The nodes above a node.** -/
theorem IsForest.parents_spec (hg : g.IsForest) {a : α} (ha : a ∈ g.list) :
    ∃ l, g.parents a = some l ∧ ∀ b, b ∈ l ↔ b ∈ g.list ∧ Relation.TransGen g.IsParent (g.id a) (g.id b) :=
  hg.parentsLoop_spec _ a ha [] [] nofun ((List.length_filter_le _ _).trans_lt (Nat.lt_succ_self _))

end Nodes

end Mitaka
