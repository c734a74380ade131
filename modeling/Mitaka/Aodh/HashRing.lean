/-
  Subject: aodh/coordination.py: `HashRing` and `extract_my_subset`.

  A hash value can be a point of two members. The dictionary then keeps the member that
  comes last, so that two processes that see the members in different orders disagree
  about the items before that point. Where every item has a point of one member only,
  the members split the items, and an item moves only when its member leaves
  (`splits_iff`).
-/
import Mitaka.Lib.Dict

namespace Mitaka.Aodh

open List

/-- The values of a 32-bit hash function. -/
abbrev Hash := Fin (2 ^ 32)

/-! ## 1. The ring -/

structure HashRing where
  ring : Dict Hash String
  sortedKeys : List Hash

/-- `'%s-%s' % (node, r)`. -/
def replicaKey (node : String) (r : ℕ) : String := node ++ "-" ++ toString r

section Ring

variable (hash : String → Hash)

/-- The points of the nodes, in the order of the two loops. -/
def points (nodes : List String) (replicas : ℕ) : List (Hash × String) :=
  nodes.flatMap fun node => (List.range replicas).map fun r => (hash (replicaKey node r), node)

/-- `HashRing(nodes, replicas)`. -/
def HashRing.init (nodes : List String) (replicas : ℕ) : HashRing where
  ring := (points hash nodes replicas).foldl (fun ring p => ring.set p.1 p.2) []
  sortedKeys := ((points hash nodes replicas).map Prod.fst).insertionSort (· ≤ ·)

/-- `bisect.bisect` in a sorted list. -/
def bisect (keys : List Hash) (key : Hash) : ℕ := (keys.takeWhile (· ≤ key)).length

/-- `_get_position_on_ring`. -/
def HashRing.getPositionOnRing (hr : HashRing) (key : String) : ℕ :=
  let position := bisect hr.sortedKeys (hash key)
  if position < hr.sortedKeys.length then position else 0

/-- `get_node`. -/
def HashRing.getNode (hr : HashRing) (key : String) : Option String :=
  if hr.ring.isEmpty then none else (hr.sortedKeys[hr.getPositionOnRing hash key]?).bind hr.ring.get

/-- `MemberNotInGroupError`. -/
structure MemberNotInGroupError where
  groupId : String
  members : List String
  myId : String
  deriving DecidableEq

/-- One attempt of `extract_my_subset`: `members` is what the first call of `_get_members` returns, and `rejoined`
what the second one returns. -/
def extractMySubset {α : Type} (str : α → String) (groupId : Option String) (myId : String) (members rejoined : List String)
    (universalSet : List α) : Except MemberNotInGroupError (List α) :=
  match groupId with
  | none => .ok universalSet
  | some groupId =>
    if groupId = "" then .ok universalSet
    else
      let members := if myId ∈ members then members else rejoined
      if myId ∈ members then
        let hr := HashRing.init hash members 100
        .ok (universalSet.filter fun v => hr.getNode hash (str v) = some myId)
      else .error ⟨groupId, members, myId⟩

end Ring

/-! ## 2. The member at a point -/

section Points

variable {hash : String → Hash} {replicas : ℕ}

variable (hash replicas) in
/-- The value is a point of the node. -/
def IsPoint (node : String) (k : Hash) : Prop := ∃ r < replicas, hash (replicaKey node r) = k

variable {nodes : List String} {k : Hash} {node : String}

theorem mem_points :
    (k, node) ∈ points hash nodes replicas ↔ node ∈ nodes ∧ IsPoint hash replicas node k := by
  rw [points, mem_flatMap]
  constructor
  · rintro ⟨n, hn, hmem⟩
    obtain ⟨r, hr, heq⟩ := List.mem_map.mp hmem
    cases heq
    exact ⟨hn, r, mem_range.mp hr, rfl⟩
  · rintro ⟨hn, r, hr, rfl⟩
    exact ⟨node, hn, List.mem_map.mpr ⟨r, mem_range.mpr hr, rfl⟩⟩

theorem mem_sortedKeys :
    k ∈ (HashRing.init hash nodes replicas).sortedKeys ↔ ∃ node ∈ nodes, IsPoint hash replicas node k := by
  rw [HashRing.init, mem_insertionSort, List.mem_map]
  constructor
  · rintro ⟨⟨k, node⟩, hmem, rfl⟩
    exact ⟨node, mem_points.mp hmem⟩
  · rintro ⟨node, hnode⟩
    exact ⟨(k, node), mem_points.mpr hnode, rfl⟩

variable (hash replicas) in
theorem sortedKeys_pairwise (nodes : List String) : (HashRing.init hash nodes replicas).sortedKeys.Pairwise (· ≤ ·) :=
  pairwise_insertionSort _ _

theorem isPoint_of_get
    (h : (HashRing.init hash nodes replicas).ring.get k = some node) : node ∈ nodes ∧ IsPoint hash replicas node k := by
  rcases (Dict.get_foldl_set _ [] k).1 node h with h | h
  · exact mem_points.mp h
  · cases h

theorem isSome_get (hnode : node ∈ nodes)
    (hk : IsPoint hash replicas node k) : ((HashRing.init hash nodes replicas).ring.get k).isSome = true :=
  (Dict.get_foldl_set _ [] k).2.1 ⟨node, mem_points.mpr ⟨hnode, hk⟩⟩

/-- The dictionary keeps the last member. -/
theorem get_last (hk : IsPoint hash replicas node k) :
    (HashRing.init hash (nodes ++ [node]) replicas).ring.get k = some node := by
  have hsplit : points hash (nodes ++ [node]) replicas = points hash nodes replicas ++ points hash [node] replicas := by
    rw [points, flatMap_append]
    rfl
  have hring : (HashRing.init hash (nodes ++ [node]) replicas).ring =
      (points hash [node] replicas).foldl (fun ring p => ring.set p.1 p.2) (HashRing.init hash nodes replicas).ring := by
    rw [HashRing.init, hsplit, foldl_append]
    rfl
  have hlast : ∀ (l : List (Hash × String)) (d : Dict Hash String), (∀ p ∈ l, p.2 = node) → (∃ n, (k, n) ∈ l) →
      (l.foldl (fun ring p => ring.set p.1 p.2) d).get k = some node := by
    intro l
    induction l using reverseRecOn with
    | nil =>
      rintro d - ⟨n, hn⟩
      cases hn
    | append_singleton l p ih =>
      rintro d hall ⟨n, hn⟩
      rw [foldl_append, foldl_cons, foldl_nil, Dict.get_set]
      split
      case isTrue => rw [hall p (mem_append_right _ (mem_singleton_self _))]
      case isFalse hne =>
        refine ih d (fun q hq => hall q (mem_append_left _ hq)) ⟨n, ?_⟩
        rcases mem_append.mp hn with hn | hn
        · exact hn
        · cases mem_singleton.mp hn
          exact absurd rfl hne
  rw [hring]
  refine hlast _ _ (fun p hp => ?_) ⟨node, mem_points.mpr ⟨mem_singleton_self _, hk⟩⟩
  obtain ⟨k', n'⟩ := p
  exact mem_singleton.mp (mem_points.mp hp).1

/-! ## 3. The point of an item -/

variable (hash replicas) in
/-- The point to which a hash value belongs: the next one on the ring. -/
def Decides (nodes : List String) (x k : Hash) : Prop :=
  (∃ node ∈ nodes, IsPoint hash replicas node k) ∧
    ((x < k ∧ ∀ k', (∃ node ∈ nodes, IsPoint hash replicas node k') → x < k' → k ≤ k') ∨
      (∀ k', (∃ node ∈ nodes, IsPoint hash replicas node k') → k' ≤ x ∧ k ≤ k'))

theorem Decides.unique {x k k' : Hash} (h : Decides hash replicas nodes x k)
    (h' : Decides hash replicas nodes x k') : k = k' := by
  obtain ⟨hk, h⟩ := h
  obtain ⟨hk', h'⟩ := h'
  rcases h with ⟨hlt, hleast⟩ | hlow
  · rcases h' with ⟨hlt', hleast'⟩ | hlow'
    · exact le_antisymm (hleast k' hk' hlt') (hleast' k hk hlt)
    · exact absurd (hlow' k hk).1 (not_le.mpr hlt)
  · rcases h' with ⟨hlt', -⟩ | hlow'
    · exact absurd (hlow k' hk').1 (not_le.mpr hlt')
    · exact le_antisymm (hlow k' hk').2 (hlow' k hk).2

/-- The order of the nodes does not matter for the points. -/
theorem Decides.of_perm {nodes nodes' : List String} (hperm : nodes'.Perm nodes) {x k : Hash}
    (h : Decides hash replicas nodes x k) : Decides hash replicas nodes' x k := by
  have hiff : ∀ k', (∃ node ∈ nodes', IsPoint hash replicas node k') ↔ ∃ node ∈ nodes, IsPoint hash replicas node k' :=
    fun k' => exists_congr fun node => and_congr_left fun _ => hperm.mem_iff
  rw [Decides]
  simp only [hiff]
  exact h

/-- Where the point's member stays, it stays the point. -/
theorem Decides.erase (hnodup : nodes.Nodup) {x k : Hash} {node gone : String}
    (h : Decides hash replicas nodes x k) (hnode : node ∈ nodes) (hk : IsPoint hash replicas node k) (hne : node ≠ gone) :
    Decides hash replicas (nodes.erase gone) x k := by
  have hsub : ∀ k', (∃ n ∈ nodes.erase gone, IsPoint hash replicas n k') → ∃ n ∈ nodes, IsPoint hash replicas n k' := by
    rintro k' ⟨n, hn, hk'⟩
    exact ⟨n, mem_of_mem_erase hn, hk'⟩
  refine ⟨⟨node, (hnodup.mem_erase_iff).mpr ⟨hne, hnode⟩, hk⟩, h.2.imp ?_ ?_⟩
  · rintro ⟨hlt, hleast⟩
    exact ⟨hlt, fun k' hk' => hleast k' (hsub k' hk')⟩
  · intro hlow k' hk'
    exact hlow k' (hsub k' hk')

variable (hash replicas) in
/-- **The position on the ring is that of the point.** -/
theorem getPositionOnRing_spec (hnode : node ∈ nodes) (hreplicas : 0 < replicas)
    (key : String) : ∃ k, (HashRing.init hash nodes replicas).sortedKeys[
        (HashRing.init hash nodes replicas).getPositionOnRing hash key]? = some k ∧
      Decides hash replicas nodes (hash key) k := by
  have hsorted := sortedKeys_pairwise hash replicas nodes
  have hmem : ∀ k, k ∈ (HashRing.init hash nodes replicas).sortedKeys ↔ ∃ n ∈ nodes, IsPoint hash replicas n k :=
    fun k => mem_sortedKeys
  have hne : (HashRing.init hash nodes replicas).sortedKeys ≠ [] :=
    ne_nil_of_mem ((hmem _).mpr ⟨node, hnode, 0, hreplicas, rfl⟩)
  rw [HashRing.getPositionOnRing]
  generalize (HashRing.init hash nodes replicas).sortedKeys = keys at hsorted hmem hne ⊢
  have hsplit := takeWhile_append_dropWhile (p := fun k => decide (k ≤ hash key)) (l := keys)
  have hlow : ∀ k ∈ keys.takeWhile (· ≤ hash key), k ≤ hash key := fun k hk => by
    have := mem_takeWhile_imp hk
    exact of_decide_eq_true this
  cases hrest : keys.dropWhile fun k => decide (k ≤ hash key) with
  | nil =>
    rw [hrest, append_nil] at hsplit
    obtain ⟨k, rest, rfl⟩ := exists_cons_of_ne_nil hne
    refine ⟨k, ?_, (hmem k).mp mem_cons_self, Or.inr fun k' hk' => ?_⟩
    · have hbisect : bisect (k :: rest) (hash key) = (k :: rest).length := by rw [bisect, hsplit]
      rw [if_neg (by rw [hbisect]; exact Nat.lt_irrefl _)]
      rfl
    · have hk' := (hmem k').mpr hk'
      refine ⟨hlow k' (by rw [hsplit]; exact hk'), ?_⟩
      rcases mem_cons.mp hk' with rfl | hk'
      · exact le_rfl
      · exact (pairwise_cons.mp hsorted).1 k' hk'
  | cons k rest =>
    have hgt : hash key < k := by
      have hhead := head_dropWhile_not (fun k => decide (k ≤ hash key)) (l := keys) (by rw [hrest]; nofun)
      simp only [hrest, head_cons, decide_eq_false_iff_not, not_le] at hhead
      exact hhead
    rw [hrest] at hsplit
    refine ⟨k, ?_, (hmem k).mp (by rw [← hsplit]; exact mem_append_right _ mem_cons_self), Or.inl ⟨hgt, ?_⟩⟩
    · have hlen : bisect keys (hash key) < keys.length := by
        conv_rhs => rw [← hsplit]
        rw [length_append, length_cons, bisect]
        omega
      rw [if_pos hlen, bisect]
      conv_lhs => arg 1; rw [← hsplit]
      rw [getElem?_append_right le_rfl, Nat.sub_self]
      rfl
    · intro k' hk' hlt
      have hk' := (hmem k').mpr hk'
      rw [← hsplit] at hk' hsorted
      rcases mem_append.mp hk' with hk' | hk'
      · exact absurd (hlow k' hk') (not_le.mpr hlt)
      · rcases mem_cons.mp hk' with rfl | hk'
        · exact le_rfl
        · exact (pairwise_cons.mp (pairwise_append.mp hsorted).2.1).1 k' hk'

variable (hash replicas) in
/-- **The node of an item is a member that has its point.** -/
theorem getNode_spec (hnode : node ∈ nodes) (hreplicas : 0 < replicas)
    (key : String) : ∃ k n, (HashRing.init hash nodes replicas).getNode hash key = some n ∧
      (HashRing.init hash nodes replicas).ring.get k = some n ∧ Decides hash replicas nodes (hash key) k := by
  obtain ⟨k, hk, hdecides⟩ := getPositionOnRing_spec hash replicas hnode hreplicas key
  obtain ⟨n', hn', hpoint⟩ := hdecides.1
  obtain ⟨n, hn⟩ := Option.isSome_iff_exists.mp (isSome_get hn' hpoint)
  have hring : (HashRing.init hash nodes replicas).ring.isEmpty = false := by
    cases hempty : (HashRing.init hash nodes replicas).ring with
    | nil =>
      rw [hempty] at hn
      cases hn
    | cons => rfl
  refine ⟨k, n, ?_, hn, hdecides⟩
  rw [HashRing.getNode, hring, hk]
  exact hn

end Points

/-! ## 4. The partition -/

section Partition

variable {α : Type} (hash : String → Hash) (str : α → String)

/-- The members split the items, and an item moves only when its member leaves. -/
structure Splits (groupId : String) (members : List String) (items : List α) : Prop where
  exact : ∃ owner : α → String, (∀ v ∈ items, owner v ∈ members) ∧ ∀ myId ∈ members, ∀ seen, seen.Perm members →
    ∀ rejoined, extractMySubset hash str (some groupId) myId seen rejoined items = .ok (items.filter fun v => owner v = myId)
  stable : ∀ gone ∈ members, ∀ seen seen', seen.Perm members → seen'.Perm (members.erase gone) → ∀ v ∈ items, ∀ a b,
    (HashRing.init hash seen 100).getNode hash (str v) = some a →
    (HashRing.init hash seen' 100).getNode hash (str v) = some b → a ≠ b → a = gone

/-- Every item has a point of one member only. -/
def Decisive (members : List String) (items : List α) : Prop :=
  ∀ v ∈ items, ∀ k, Decides hash 100 members (hash (str v)) k → ∀ a ∈ members, ∀ b ∈ members,
    IsPoint hash 100 a k → IsPoint hash 100 b k → a = b

variable {hash str} {groupId : String} {members : List String} {items : List α}

theorem extractMySubset_eq (hgroup : groupId ≠ "") {myId : String} {seen rejoined : List String} (h : myId ∈ seen) :
    extractMySubset hash str (some groupId) myId seen rejoined items =
      .ok (items.filter fun v => (HashRing.init hash seen 100).getNode hash (str v) = some myId) := by
  rw [extractMySubset]
  dsimp only
  rw [if_neg hgroup, if_pos h, if_pos h]

/-- A ring that is seen in any order. -/
theorem Decisive.getNode (h : Decisive hash str members items) {v : α} (hv : v ∈ items) {k : Hash} {a : String}
    (hk : Decides hash 100 members (hash (str v)) k) (ha : a ∈ members) (hpoint : IsPoint hash 100 a k)
    {seen : List String} (hseen : seen.Perm members) : (HashRing.init hash seen 100).getNode hash (str v) = some a := by
  obtain ⟨k', n, hnode, hring, hdecides⟩ := getNode_spec hash 100 (hseen.mem_iff.mpr ha) (by decide) (str v)
  obtain rfl := (hk.of_perm hseen).unique hdecides
  obtain ⟨hmem, hn⟩ := isPoint_of_get hring
  rw [hnode, h v hv k hk a ha n (hseen.mem_iff.mp hmem) hpoint hn]

theorem Decisive.splits (hgroup : groupId ≠ "") (hnodup : members.Nodup) (hne : members ≠ [])
    (h : Decisive hash str members items) : Splits hash str groupId members items := by
  obtain ⟨first, rest, rfl⟩ := exists_cons_of_ne_nil hne
  have howner : ∀ v, ∃ k n, Decides hash 100 (first :: rest) (hash (str v)) k ∧ n ∈ first :: rest ∧ IsPoint hash 100 n k := by
    intro v
    obtain ⟨k, n, -, hring, hdecides⟩ :=
      getNode_spec hash 100 (mem_cons_self (a := first) (l := rest)) (by decide) (str v)
    exact ⟨k, n, hdecides, isPoint_of_get hring⟩
  choose point owner hpoint hmem howner using howner
  constructor
  · refine ⟨owner, fun v _ => hmem v, fun myId hme seen hseen rejoined => ?_⟩
    rw [extractMySubset_eq hgroup (hseen.mem_iff.mpr hme)]
    refine congrArg _ (filter_congr fun v hv => ?_)
    exact decide_eq_decide.mpr (by rw [h.getNode hv (hpoint v) (hmem v) (howner v) hseen, Option.some.injEq])
  · intro gone hgone seen seen' hseen hseen' v hv a b ha hb hab
    rw [h.getNode hv (hpoint v) (hmem v) (howner v) hseen] at ha
    cases ha
    by_contra hstay
    have hin : owner v ∈ (first :: rest).erase gone := (hnodup.mem_erase_iff).mpr ⟨hstay, hmem v⟩
    have hdecides := (hpoint v).erase hnodup (hmem v) (howner v) hstay
    obtain ⟨k, n, hnode, hring, hk⟩ :=
      getNode_spec hash 100 (hseen'.mem_iff.mpr hin) (by decide) (str v)
    obtain rfl := (hdecides.of_perm hseen').unique hk
    obtain ⟨hn, hnpoint⟩ := isPoint_of_get hring
    rw [hb] at hnode
    cases hnode
    exact hab (h v hv _ (hpoint v) _ (hmem v) b (mem_of_mem_erase (hseen'.mem_iff.mp hn)) (howner v) hnpoint)

/-- The last member in the order owns the point. -/
theorem getNode_last {v : α} {k : Hash} {a : String} (hk : Decides hash 100 members (hash (str v)) k) (ha : a ∈ members)
    (hpoint : IsPoint hash 100 a k) : ∃ seen, seen.Perm members ∧
      (HashRing.init hash seen 100).getNode hash (str v) = some a := by
  have hseen : (members.erase a ++ [a]).Perm members :=
    (perm_append_singleton a _).trans (List.perm_cons_erase ha).symm
  refine ⟨_, hseen, ?_⟩
  obtain ⟨k', n, hnode, hring, hdecides⟩ := getNode_spec hash 100 (hseen.mem_iff.mpr ha) (by decide) (str v)
  obtain rfl := (hk.of_perm hseen).unique hdecides
  rw [get_last hpoint] at hring
  rw [hnode, ← hring]

theorem Splits.decisive (hgroup : groupId ≠ "") (h : Splits hash str groupId members items) :
    Decisive hash str members items := by
  obtain ⟨owner, -, hexact⟩ := h.exact
  have howner : ∀ v ∈ items, ∀ k, Decides hash 100 members (hash (str v)) k → ∀ a ∈ members, IsPoint hash 100 a k →
      owner v = a := by
    intro v hv k hk a ha hpoint
    obtain ⟨seen, hseen, hnode⟩ := getNode_last hk ha hpoint
    have heq := hexact a ha seen hseen []
    rw [extractMySubset_eq hgroup (hseen.mem_iff.mpr ha)] at heq
    have hfilter := Except.ok.inj heq
    have hin : v ∈ items.filter fun v => (HashRing.init hash seen 100).getNode hash (str v) = some a :=
      mem_filter.mpr ⟨hv, decide_eq_true hnode⟩
    rw [hfilter] at hin
    exact of_decide_eq_true (mem_filter.mp hin).2
  intro v hv k hk a ha b hb hpa hpb
  rw [← howner v hv k hk a ha hpa, howner v hv k hk b hb hpb]

/-- **The members split the items if and only if every item has a point of one member only.** -/
theorem splits_iff (hgroup : groupId ≠ "") (hnodup : members.Nodup) (hne : members ≠ []) :
    Splits hash str groupId members items ↔ Decisive hash str members items :=
  ⟨fun h => h.decisive hgroup, fun h => h.splits hgroup hnodup hne⟩

end Partition

/-- Two replicas have one hash value, and the item is before it. -/
def collidingHash (key : String) : Hash :=
  if key = "agent201-17" ∨ key = "agent881-50" then 1194828778 else if key = "alarm357" then 1189276506 else 0

theorem splits_iff_two : Splits collidingHash id "alarms" ["agent201", "agent881"] ["alarm357"] ↔
    Decisive collidingHash id ["agent201", "agent881"] ["alarm357"] :=
  splits_iff (by decide) (by decide) (by decide)

theorem not_splits_colliding : ¬ Splits collidingHash id "alarms" ["agent201", "agent881"] ["alarm357"] := by
  intro h
  have hpoint : IsPoint collidingHash 100 "agent201" 1194828778 := ⟨17, by decide, by decide⟩
  have hpoint' : IsPoint collidingHash 100 "agent881" 1194828778 := ⟨50, by decide, by decide⟩
  have hdecides : Decides collidingHash 100 ["agent201", "agent881"] (collidingHash "alarm357") 1194828778 := by
    refine ⟨⟨_, mem_cons_self, hpoint⟩, Or.inl ⟨by decide, ?_⟩⟩
    rintro k ⟨node, -, r, -, rfl⟩ hlt
    rw [show collidingHash "alarm357" = 1189276506 from by decide] at hlt
    revert hlt
    rw [collidingHash]
    split_ifs <;> decide
  have heq := h.decisive (by decide) "alarm357" mem_cons_self _ hdecides "agent201" mem_cons_self "agent881"
    (mem_cons_of_mem _ mem_cons_self) hpoint hpoint'
  revert heq
  decide

end Mitaka.Aodh
