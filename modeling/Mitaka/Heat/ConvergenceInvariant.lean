/-
  Subject: What holds between the steps of a traversal.

  A sync point that has all its predecessors has exactly one token: the worker that wrote
  the last of them, the message it sent, or the check in the log (`Inv.token`). A node that
  was checked is written to each of its sync points, or is still to be written by one
  worker (`Inv.edge`). Every step keeps both (`Inv.step`).
-/
import Mitaka.Heat.Convergence

namespace Mitaka.Heat

open List Option

/-! ## 1. The nodes -/

theorem mem_satisfy_addEdge {κ : Type} [DecidableEq κ] {g : Graph κ} (h : ∀ k, (g.node k).satisfy.Nodup) (e : κ × Option κ)
    (k : κ) : ((addEdge g e).node k).satisfy.Nodup := by
  obtain ⟨a, _ | b⟩ := e
  · rw [addEdge, Graph.node_touch]
    exact h k
  · rw [addEdge]
    dsimp only
    rw [node_set, node_set, node_set]
    split
    · subst_vars
      split
      · exact (h _).insert
      · exact h _
    · split
      · exact (h _).insert
      · exact h _

theorem satisfy_nodup {κ : Type} [DecidableEq κ] (edges : List (κ × Option κ)) (k : κ) :
    ((ofEdges edges).node k).satisfy.Nodup := by
  induction edges using reverseRecOn generalizing k with
  | nil => exact nodup_nil
  | append_singleton edges e ih =>
    rw [ofEdges, foldl_append]
    exact mem_satisfy_addEdge ih e k

namespace Convergence

variable (st : Convergence)

/-- A node requires another. -/
def Req (a b : GraphKey) : Prop := Requires st.convgEdges a b

/-- The key has a node. -/
def IsKey (k : GraphKey) : Prop := (st.graph.get k).isSome = true

instance (k : GraphKey) : Decidable (st.IsKey k) := inferInstanceAs (Decidable (_ = true))

/-- The rows that can be there: distinct ids below the next one. -/
structure WellFormed : Prop where
  nodup : (st.existing.map ResourceRow.id).Nodup
  lt : ∀ row ∈ st.existing, row.id < st.nextId
  replacedBy : ∀ row ∈ st.existing, ∀ x ∈ row.replacedBy, x < st.nextId

/-- No row that is chosen for the template has been replaced under another template. -/
def Current : Prop :=
  ∀ name ∈ st.names, ∀ row ∈ st.getBestExistingRsrcDb name, row.replacedBy = none ∨ row.currentTemplateId = st.templateId

/-- The predecessors of a sync point. -/
def preds : Option GraphKey → List GraphKey
  | some k => (st.graph.node k).require
  | none => st.roots

/-- The sync points to which a node is written. -/
def targets (k : GraphKey) : List (Option GraphKey) :=
  (st.graph.node k).satisfy.map some ++ if k ∈ st.roots then [none] else []

/-- The sync point exists. -/
def IsTarget (t : Option GraphKey) : Prop := ∀ k ∈ t, st.IsKey k

theorem isGraph : IsGraph st.Req st.graph := isGraph_ofEdges _

variable {k : GraphKey}

theorem mem_leaves : k ∈ st.leaves ↔ st.IsKey k ∧ ∀ r, ¬ st.Req k r := by
  rw [leaves, List.mem_map]
  constructor
  · rintro ⟨⟨k, n⟩, hmem, rfl⟩
    obtain ⟨hmem, hempty⟩ := mem_filter.mp hmem
    have hget := st.isGraph.nodup.mem_iff.mp hmem
    refine ⟨by rw [IsKey, hget]; rfl, fun r hr => ?_⟩
    rw [← (st.isGraph.node_of_get hget).require, List.isEmpty_iff.mp hempty] at hr
    cases hr
  · rintro ⟨hk, hnone⟩
    obtain ⟨n, hn⟩ := isSome_iff_exists.mp hk
    refine ⟨(k, n), mem_filter.mpr ⟨st.isGraph.nodup.mem_iff.mpr hn, ?_⟩, rfl⟩
    refine List.isEmpty_iff.mpr (eq_nil_iff_forall_not_mem.mpr fun r hr => hnone r ?_)
    exact ((st.isGraph.node_of_get hn).require r).mp hr

theorem mem_roots : k ∈ st.roots ↔ st.IsKey k ∧ ∀ d, ¬ st.Req d k := by
  have hrev := st.isGraph.reverseCopy
  rw [roots, List.mem_map]
  constructor
  · rintro ⟨⟨k, n⟩, hmem, rfl⟩
    obtain ⟨hmem, hempty⟩ := mem_filter.mp hmem
    have hget := hrev.nodup.mem_iff.mp hmem
    refine ⟨?_, fun r hr => ?_⟩
    · rw [get_reverseCopy] at hget
      rw [IsKey, ← isSome_map (f := Node.reverseCopy), hget]
      rfl
    · rw [← (hrev.node_of_get hget).require, List.isEmpty_iff.mp hempty] at hr
      cases hr
  · rintro ⟨hk, hnone⟩
    obtain ⟨n, hn⟩ := isSome_iff_exists.mp hk
    have hget : st.graph.reverseCopy.get k = some n.reverseCopy := by rw [get_reverseCopy, hn, map_some]
    refine ⟨(k, n.reverseCopy), mem_filter.mpr ⟨hrev.nodup.mem_iff.mpr hget, ?_⟩, rfl⟩
    refine List.isEmpty_iff.mpr (eq_nil_iff_forall_not_mem.mpr fun r hr => hnone r ?_)
    exact ((hrev.node_of_get hget).require r).mp hr

theorem mem_preds {k r : GraphKey} : r ∈ st.preds (some k) ↔ st.Req k r := (st.isGraph.node k).require r

variable {t : Option GraphKey}

theorem mem_targets : t ∈ st.targets k ↔ k ∈ st.preds t := by
  rw [targets, mem_append, List.mem_map]
  cases t with
  | none =>
    by_cases h : k ∈ st.roots
    · simp [h, preds]
    · simp [h, preds]
  | some d =>
    rw [mem_preds, ← (st.isGraph.node k).satisfy]
    by_cases h : k ∈ st.roots
    · simp [h]
    · simp [h]

theorem targets_nodup (k : GraphKey) : (st.targets k).Nodup := by
  rw [targets]
  refine Nodup.append ((satisfy_nodup _ k).map (some_injective _)) ?_ ?_
  · split
    · exact nodup_singleton _
    · exact nodup_nil
  · intro t ht ht'
    obtain ⟨d, -, rfl⟩ := List.mem_map.mp ht
    split at ht'
    · cases mem_singleton.mp ht'
    · cases ht'

theorem isKey_of_req {a b : GraphKey} (h : st.Req a b) : st.IsKey a ∧ st.IsKey b := st.isGraph.mem a b h

theorem isTarget_of_mem (h : t ∈ st.targets k) : st.IsTarget t := by
  rintro d rfl
  exact (st.isKey_of_req (st.mem_preds.mp (st.mem_targets.mp h))).1

theorem isKey_of_mem_preds (h : k ∈ st.preds t) : st.IsKey k := by
  cases t with
  | none => exact (st.mem_roots.mp h).1
  | some d => exact (st.isKey_of_req (st.mem_preds.mp h)).2

variable {row : ResourceRow}

theorem bestExistingLoop_mem (name : String) (l : List ResourceRow) (candidate : Option ResourceRow)
    (h : st.bestExistingLoop name l candidate = some row) : row ∈ l ∨ candidate = some row := by
  induction l generalizing candidate with
  | nil => exact Or.inr h
  | cons r l ih =>
    rw [bestExistingLoop] at h
    split at h
    · exact (ih _ h).imp_left (mem_cons_of_mem _)
    · split at h
      · cases h
        exact Or.inl mem_cons_self
      · split at h
        · rcases ih _ h with h | h
          · exact Or.inl (mem_cons_of_mem _ h)
          · cases h
            exact Or.inl mem_cons_self
        · rcases ih _ h with h | h
          · exact Or.inl (mem_cons_of_mem _ h)
          · cases candidate with
            | none =>
              cases h
              exact Or.inl mem_cons_self
            | some c => exact Or.inr h

theorem best_mem {name : String} (h : st.getBestExistingRsrcDb name = some row) :
    row ∈ st.existing :=
  (st.bestExistingLoop_mem name st.existing none h).resolve_right nofun

theorem mem_names {name : String} : name ∈ st.names ↔ ∃ e ∈ st.dependencies, name = e.1 ∨ some name = e.2 := by
  rw [names, mem_dedup, mem_flatMap]
  refine exists_congr fun e => and_congr_right fun _ => ?_
  rw [mem_cons, mem_toList]
  exact or_congr_right eq_comm

theorem mem_templateKeys : k ∈ st.templateEdges.flatMap (fun e => e.1 :: e.2.toList) ↔
    ∃ name ∈ st.names, st.makeGraphKey name = k := by
  simp only [templateEdges, mem_flatMap, List.mem_map, mem_names]
  constructor
  · rintro ⟨_, ⟨e, he, rfl⟩, hk⟩
    rcases mem_cons.mp hk with rfl | hk
    · exact ⟨e.1, ⟨e, he, Or.inl rfl⟩, rfl⟩
    · obtain ⟨name, hname, rfl⟩ := map_eq_some_iff.mp (mem_toList.mp hk)
      exact ⟨name, ⟨e, he, Or.inr hname.symm⟩, rfl⟩
  · rintro ⟨name, ⟨e, he, rfl | h⟩, rfl⟩
    · exact ⟨_, ⟨e, he, rfl⟩, mem_cons_self⟩
    · refine ⟨_, ⟨e, he, rfl⟩, mem_cons_of_mem _ (mem_toList.mpr ?_)⟩
      rw [← h]
      rfl

/-- The keys of the graph. -/
theorem isKey_iff : st.IsKey k ↔ Mentions st.convgEdges k := (ofEdges_spec st.convgEdges).2.1 k

theorem isKey_cases (h : st.IsKey k) :
    (∃ name ∈ st.names, st.makeGraphKey name = k) ∨ k.2 = false ∧ ∃ row ∈ st.existing, row.id = k.1 := by
  obtain ⟨e, he, hk⟩ := st.isKey_iff.mp h
  rcases mem_append.mp he with he | he
  · exact Or.inl (st.mem_templateKeys.mp (mem_flatMap.mpr ⟨e, he, by
      rcases hk with rfl | hk
      · exact mem_cons_self
      · exact mem_cons_of_mem _ (mem_toList.mpr hk.symm)⟩))
  · obtain ⟨row, hrow, he⟩ := mem_flatMap.mp he
    rw [rowEdges] at he
    rcases mem_append.mp he with he | he
    · right
      rcases mem_append.mp he with he | he
      · rcases mem_append.mp he with he | he
        · cases mem_singleton.mp he
          rcases hk with rfl | hk
          · exact ⟨rfl, row, hrow, rfl⟩
          · cases hk
        · obtain ⟨q, hq, rfl⟩ := List.mem_map.mp he
          obtain ⟨r, hr, hid⟩ := List.mem_map.mp (of_decide_eq_true (mem_filter.mp hq).2)
          rcases hk with rfl | hk
          · exact ⟨rfl, r, hr, hid⟩
          · cases hk
            exact ⟨rfl, row, hrow, rfl⟩
      · obtain ⟨q, hq, rfl⟩ := List.mem_map.mp he
        obtain ⟨r, hr, hid⟩ := List.mem_map.mp (of_decide_eq_true (mem_filter.mp hq).2)
        rcases hk with rfl | hk
        · exact ⟨rfl, r, hr, hid⟩
        · cases hk
          exact ⟨rfl, row, hrow, rfl⟩
    · split at he
      case isTrue hmem =>
        cases mem_singleton.mp he
        rcases hk with rfl | hk
        · exact Or.inr ⟨rfl, row, hrow, rfl⟩
        · cases hk
          exact Or.inl (st.mem_templateKeys.mp hmem)
      case isFalse => cases he

/-- The clean-up of a row requires its update. -/
theorem req_of_existing (hrow : row ∈ st.existing) {name : String} (hname : name ∈ st.names)
    (h : st.makeGraphKey name = (row.id, true)) : st.Req (row.id, false) (row.id, true) := by
  refine mem_append_right _ (mem_flatMap.mpr ⟨row, hrow, ?_⟩)
  rw [rowEdges]
  rw [if_pos (st.mem_templateKeys.mpr ⟨name, hname, h⟩)]
  exact mem_append_right _ (mem_singleton_self _)

/-! ## 2. The invariant -/

/-- The ids of the replacements start here. -/
def firstId : ℕ := st.nextId + st.names.length

/-- The node for which a message is: a replacement impersonates what it replaces. -/
def keyOf (rows : Dict ℕ ResourceRow) (id : ℕ) (isUpdate : Bool) : GraphKey :=
  if st.IsKey (id, isUpdate) then (id, isUpdate)
  else
    match (rows.get id).bind ResourceRow.replaces with
    | some replaces => (replaces, isUpdate)
    | none => (id, isUpdate)

/-- What is left to write. -/
def todo (calls : List SyncCall) : SyncPhase → List SyncCall
  | .compare _ => calls.tail
  | .get | .update _ _ => calls

/-- The agent is the one that has seen the sync point complete. -/
def carry (rows : Dict ℕ ResourceRow) (t : Option GraphKey) : Agent → ℕ
  | .message id isUpdate _ => if t = some (st.keyOf rows id isUpdate) then 1 else 0
  | .worker calls phase =>
    match calls, phase with
    | call :: _, .compare d => if call.entity = t ∧ ∀ k ∈ call.predecessors, (d.get k).isSome = true then 1 else 0
    | _, _ => 0

/-- How often the agent is still to write a key to a sync point. -/
def pend (k : GraphKey) (t : Option GraphKey) : Agent → ℕ
  | .message _ _ _ => 0
  | .worker calls phase => (todo calls phase).countP fun c => c.senderKey = k ∧ c.entity = t

/-- A sum over the agents. -/
def total (f : Agent → ℕ) (agents : List Agent) : ℕ := (agents.map f).sum

end Convergence

/-- The sync point whose completion an event is. -/
def TraversalEvent.target : TraversalEvent → Option GraphKey
  | .checked key _ => some key
  | .markComplete => none

/-- How often a node was checked, or the stack marked complete. -/
def doneCount (t : Option GraphKey) (log : List TraversalEvent) : ℕ := log.countP fun e => e.target = t

/-- The input data of a sync point. -/
def ConvergenceDb.data (db : ConvergenceDb) (t : Option GraphKey) : InputData :=
  ((db.syncPoints.get t).map SyncPointRow.inputData).getD []

namespace Convergence

variable (st : Convergence)

/-- All predecessors are written. -/
def Full (db : ConvergenceDb) (t : Option GraphKey) : Prop := ∀ k ∈ st.preds t, ((db.data t).get k).isSome = true

instance (db : ConvergenceDb) (t : Option GraphKey) : Decidable (st.Full db t) := decidableBAll _ _

/-- The row of a node can be checked, and if it asks for a replacement its clean-up comes after its update. -/
def Ready (rows : Dict ℕ ResourceRow) (k : GraphKey) : Prop :=
  ∃ row, rows.get k.1 = some row ∧ (k.2 = true →
    (row.replacedBy = none ∨ row.currentTemplateId = st.templateId) ∧
      (row.isInit = true ∧ ¬ st.IsKey (k.1, false) ∨ st.Req (k.1, false) k))

/-- The row is the replacement for a node. -/
def IsReplacement (rows : Dict ℕ ResourceRow) (id : ℕ) (k : GraphKey) : Prop :=
  st.firstId ≤ id ∧ k.2 = true ∧ st.Req (k.1, false) k ∧
    ∃ row, rows.get id = some row ∧ row.isInit = true ∧ row.replacedBy = none ∧ row.replaces = some k.1

/-- What has been done was done in order and with the input data of all that is required. -/
def LogOrdered : List TraversalEvent → Prop
  | [] => True
  | .checked k d :: log =>
    (st.IsKey k ∧ Dict.KeysNodup d ∧ (∀ r, (d.get r).isSome = true ↔ st.Req k r) ∧
      ∀ r, st.Req k r → 0 < doneCount (some r) log) ∧ LogOrdered log
  | .markComplete :: log => (∀ k, st.IsKey k → 0 < doneCount (some k) log) ∧ LogOrdered log

/-- What holds for a message. -/
structure MessageInv (rows : Dict ℕ ResourceRow) (id : ℕ) (isUpdate : Bool) (d : InputData) : Prop where
  nodup : Dict.KeysNodup d
  data : ∀ k, (d.get k).isSome = true ↔ k ∈ st.preds (some (st.keyOf rows id isUpdate))
  row : st.IsKey (id, isUpdate) ∧ st.Ready rows (id, isUpdate) ∨
    isUpdate = true ∧ ∃ k, st.IsKey k ∧ st.IsReplacement rows id k

/-- What holds for the rows. -/
structure RowsInv (rows : Dict ℕ ResourceRow) (nextId : ℕ) : Prop where
  first : st.firstId ≤ nextId
  id : ∀ id row, rows.get id = some row → row.id = id ∧ id < nextId
  replacedBy : ∀ id row, rows.get id = some row → ∀ x ∈ row.replacedBy, x < nextId
  link : ∀ id row, rows.get id = some row → ∀ x ∈ row.replacedBy, st.firstId ≤ x → ∀ r, rows.get x = some r →
    r.replaces = some id ∨ r.replaces = none

/-- What holds between the steps. -/
structure Inv (db : ConvergenceDb) (agents : List Agent) : Prop where
  sync : ∀ t, st.IsTarget t → ∃ row, db.syncPoints.get t = some row ∧ Dict.KeysNodup row.inputData ∧
    ∀ k, (row.inputData.get k).isSome = true → k ∈ st.preds t
  calls : ∀ calls phase, .worker calls phase ∈ agents → ∀ c ∈ calls,
    c.predecessors = st.preds c.entity ∧ c.senderKey ∈ st.preds c.entity ∧ st.IsTarget c.entity
  update : ∀ c calls n d, .worker (c :: calls) (.update n d) ∈ agents → ∀ row, db.syncPoints.get c.entity = some row →
    n ≤ row.atomicKey ∧ (n = row.atomicKey → d = row.inputData)
  compare : ∀ c calls d, .worker (c :: calls) (.compare d) ∈ agents → Dict.KeysNodup d ∧
    ∀ k, (d.get k).isSome = true → k ∈ st.preds c.entity
  message : ∀ id isUpdate d, .message id isUpdate d ∈ agents → st.MessageInv db.rows id isUpdate d
  token : ∀ t, st.IsTarget t → total (st.carry db.rows t) agents + doneCount t db.log = if st.Full db t then 1 else 0
  edge : ∀ k t, t ∈ st.targets k → total (pend k t) agents + (if ((db.data t).get k).isSome = true then 1 else 0) =
    doneCount (some k) db.log
  ready : ∀ k, st.IsKey k → doneCount (some k) db.log = 0 → st.Ready db.rows k ∨
    ∃ id d, .message id true d ∈ agents ∧ st.IsReplacement db.rows id k
  rows : st.RowsInv db.rows db.nextId
  ordered : st.LogOrdered db.log

variable {st}

theorem total_append (f : Agent → ℕ) (pre agents : List Agent) :
    total f (pre ++ agents) = total f pre + total f agents := by
  rw [total, map_append, sum_append]
  rfl

theorem total_cons (f : Agent → ℕ) (a : Agent) (agents : List Agent) : total f (a :: agents) = f a + total f agents := by
  rw [total, map_cons, sum_cons]
  rfl

theorem le_total {f : Agent → ℕ} {a : Agent} {agents : List Agent} (h : a ∈ agents) : f a ≤ total f agents :=
  single_le_sum (fun _ _ => Nat.zero_le _) _ (List.mem_map_of_mem h)

theorem isKey_lt (h : st.WellFormed) {k : GraphKey} (hk : st.IsKey k) : k.1 < st.firstId := by
  rw [firstId]
  rcases st.isKey_cases hk with ⟨name, hname, rfl⟩ | ⟨-, row, hrow, hid⟩
  · rw [makeGraphKey, currentId]
    cases hbest : st.getBestExistingRsrcDb name with
    | some row => exact lt_of_lt_of_le (h.lt row (st.best_mem hbest)) (Nat.le_add_right _ _)
    | none => exact Nat.add_lt_add_left (idxOf_lt_length_of_mem hname) _
  · rw [← hid]
    exact lt_of_lt_of_le (h.lt row hrow) (Nat.le_add_right _ _)

variable {rows : Dict ℕ ResourceRow}

theorem keyOf_of_isKey {id : ℕ} {b : Bool} (h : st.IsKey (id, b)) :
    st.keyOf rows id b = (id, b) := if_pos h

theorem IsReplacement.not_isKey (hwf : st.WellFormed) {id : ℕ} {k : GraphKey}
    (h : st.IsReplacement rows id k) (b : Bool) : ¬ st.IsKey (id, b) := fun hk =>
  absurd (isKey_lt hwf hk) (not_lt.mpr h.1)

theorem IsReplacement.keyOf_eq (hwf : st.WellFormed) {id : ℕ} {k : GraphKey}
    (h : st.IsReplacement rows id k) : st.keyOf rows id true = k := by
  have hrow := h
  obtain ⟨-, hk, -, row, hrow, -, -, hreplaces⟩ := hrow
  rw [keyOf, if_neg (h.not_isKey hwf true), hrow, bind_some, hreplaces]
  exact Prod.ext rfl hk.symm

theorem graphKey_eq {row : ResourceRow} (h : rows.get row.id = some row) (b : Bool) :
    st.graphKey row b = st.keyOf rows row.id b := by
  by_cases hk : st.IsKey (row.id, b)
  · have hsome : (st.graph.get (row.id, b)).isSome = true := hk
    rw [keyOf_of_isKey hk, graphKey, hsome]
  · have hnone : (st.graph.get (row.id, b)).isSome = false := Bool.eq_false_of_not_eq_true hk
    rw [keyOf, if_neg hk, h, bind_some, graphKey, hnone]
    cases row.replaces <;> rfl

/-- The node of a message. -/
theorem MessageInv.isKey (hwf : st.WellFormed) {id : ℕ} {b : Bool} {d : InputData}
    (h : st.MessageInv rows id b d) : st.IsKey (st.keyOf rows id b) := by
  rcases h.row with ⟨hk, -⟩ | ⟨rfl, k, hk, hrep⟩
  · rwa [keyOf_of_isKey hk]
  · rwa [hrep.keyOf_eq hwf]

theorem doneCount_cons (t : Option GraphKey) (e : TraversalEvent) (log : List TraversalEvent) :
    doneCount t (e :: log) = doneCount t log + if e.target = t then 1 else 0 := by
  rw [doneCount, countP_cons, doneCount]
  simp

section Steps

variable {db : ConvergenceDb} {pre post : List Agent} {a : Agent}

/-- Everything is done at most once. -/
theorem Inv.doneCount_le (h : st.Inv db (pre ++ a :: post)) {t : Option GraphKey} (ht : st.IsTarget t) :
    st.carry db.rows t a + (total (st.carry db.rows t) pre + total (st.carry db.rows t) post) + doneCount t db.log ≤ 1 := by
  have htoken := h.token t ht
  rw [total_append, total_cons] at htoken
  split at htoken <;> omega

/-- A step that leaves the tables as they are. -/
theorem Inv.quiet (h : st.Inv db (pre ++ a :: post)) {new : List Agent}
    (hcarry : ∀ t, st.IsTarget t → total (st.carry db.rows t) new = st.carry db.rows t a)
    (hpend : ∀ k t, total (pend k t) new = pend k t a)
    (hcalls : ∀ calls phase, .worker calls phase ∈ new → ∀ c ∈ calls,
      c.predecessors = st.preds c.entity ∧ c.senderKey ∈ st.preds c.entity ∧ st.IsTarget c.entity)
    (hupdate : ∀ c calls n d, .worker (c :: calls) (.update n d) ∈ new → ∀ row, db.syncPoints.get c.entity = some row →
      n ≤ row.atomicKey ∧ (n = row.atomicKey → d = row.inputData))
    (hcompare : ∀ c calls d, .worker (c :: calls) (.compare d) ∉ new)
    (hmessage : ∀ id b d, .message id b d ∈ new → st.MessageInv db.rows id b d)
    (ha : ∀ id b d, a ≠ .message id b d) : st.Inv db (pre ++ new ++ post) := by
  have hmem : ∀ x, x ∈ pre ++ new ++ post → x ∈ new ∨ x ∈ pre ++ a :: post := fun x hx => by
    simp only [mem_append, mem_cons] at hx ⊢
    tauto
  refine ⟨h.sync, fun calls phase hx => ?_, fun c calls n d hx => ?_, fun c calls d hx => ?_, fun id b d hx => ?_,
    fun t ht => ?_, fun k t ht => ?_, fun k hk hdone => ?_, h.rows, h.ordered⟩
  · exact (hmem _ hx).elim (hcalls calls phase) (h.calls calls phase)
  · exact (hmem _ hx).elim (hupdate c calls n d) (h.update c calls n d)
  · exact (hmem _ hx).elim (fun hnew => absurd hnew (hcompare c calls d)) (h.compare c calls d)
  · exact (hmem _ hx).elim (hmessage id b d) (h.message id b d)
  · rw [← h.token t ht, total_append, total_append, hcarry t ht, total_append, total_cons]
    omega
  · rw [← h.edge k t ht, total_append, total_append, hpend, total_append, total_cons]
    omega
  · refine (h.ready k hk hdone).imp_right ?_
    rintro ⟨id, d, hx, hrep⟩
    refine ⟨id, d, ?_, hrep⟩
    simp only [mem_append, mem_cons] at hx ⊢
    rcases hx with hx | hx | hx
    · exact Or.inl (Or.inl hx)
    · exact absurd hx.symm (ha id true d)
    · exact Or.inr hx

theorem total_carry_congr {rows rows' : Dict ℕ ResourceRow} {agents : List Agent}
    (h : ∀ id b d, .message id b d ∈ agents → st.keyOf rows' id b = st.keyOf rows id b) (t : Option GraphKey) :
    total (st.carry rows' t) agents = total (st.carry rows t) agents := by
  rw [total, total, map_congr_left fun x hx => ?_]
  cases x with
  | worker calls phase => rfl
  | message id b d => rw [carry, carry, h id b d hx]

variable {id : ℕ} {b : Bool} {d : InputData} {rows : Dict ℕ ResourceRow}

/-- What a message does to the rows leaves the other messages and the other nodes as they are. -/
theorem Inv.others (hwf : st.WellFormed) (h : st.Inv db (pre ++ .message id b d :: post))
    {log : List TraversalEvent}
    (hlog : ∀ k, k ≠ st.keyOf db.rows id b → doneCount (some k) log = doneCount (some k) db.log)
    (hready : ∀ k, st.IsKey k → k ≠ st.keyOf db.rows id b → doneCount (some k) log = 0 → st.Ready db.rows k → st.Ready rows k)
    (hrep : ∀ i k, st.IsKey k → k ≠ st.keyOf db.rows id b → doneCount (some k) log = 0 → st.IsReplacement db.rows i k →
      st.IsReplacement rows i k) :
    (∀ i c e, .message i c e ∈ pre ++ post → st.keyOf rows i c = st.keyOf db.rows i c ∧ st.MessageInv rows i c e) ∧
      ∀ k, st.IsKey k → k ≠ st.keyOf db.rows id b → doneCount (some k) log = 0 →
        st.Ready rows k ∨ ∃ i e, .message i true e ∈ pre ++ post ∧ st.IsReplacement rows i k := by
  have hin : ∀ x, x ∈ pre ++ post → x ∈ pre ++ .message id b d :: post := fun x hx => by
    simp only [mem_append, mem_cons] at hx ⊢
    tauto
  constructor
  · intro i c e hx
    have hmsg := h.message i c e (hin _ hx)
    have hkey := hmsg.isKey hwf
    have hle := h.doneCount_le (t := some (st.keyOf db.rows i c)) fun k hk => by
      cases mem_some.mp hk
      exact hkey
    have hone : st.carry db.rows (some (st.keyOf db.rows i c)) (.message i c e) = 1 := if_pos rfl
    have hcarry := le_total (f := st.carry db.rows (some (st.keyOf db.rows i c))) hx
    rw [total_append, hone] at hcarry
    -- this message is the only one for its node, and its node has not been checked
    have hne : st.keyOf db.rows i c ≠ st.keyOf db.rows id b := fun heq => by
      rw [heq] at hle hcarry
      have hself : st.carry db.rows (some (st.keyOf db.rows id b)) (.message id b d) = 1 := if_pos rfl
      omega
    have hdone : doneCount (some (st.keyOf db.rows i c)) log = 0 := by
      rw [hlog _ hne]
      omega
    rcases hmsg.row with ⟨hk, hrow⟩ | ⟨rfl, k, hk, hrow⟩
    · have heq : st.keyOf rows i c = st.keyOf db.rows i c := by rw [keyOf_of_isKey hk, keyOf_of_isKey hk]
      rw [keyOf_of_isKey hk] at hne hdone
      exact ⟨heq, hmsg.nodup, by rw [heq]; exact hmsg.data, Or.inl ⟨hk, hready _ hk hne hdone hrow⟩⟩
    · rw [hrow.keyOf_eq hwf] at hne hdone
      have hrow' := hrep i k hk hne hdone hrow
      have heq : st.keyOf rows i true = st.keyOf db.rows i true := by rw [hrow.keyOf_eq hwf, hrow'.keyOf_eq hwf]
      exact ⟨heq, hmsg.nodup, by rw [heq]; exact hmsg.data, Or.inr ⟨rfl, k, hk, hrow'⟩⟩
  · intro k hk hne hdone
    rcases h.ready k hk (by rw [← hlog k hne]; exact hdone) with hrow | ⟨i, e, hx, hrow⟩
    · exact Or.inl (hready k hk hne hdone hrow)
    · refine Or.inr ⟨i, e, ?_, hrep i k hk hne hdone hrow⟩
      simp only [mem_append, mem_cons] at hx ⊢
      rcases hx with hx | hx | hx
      · exact Or.inl hx
      · -- the message that acts is for another node
        cases hx
        exact absurd (hrow.keyOf_eq hwf).symm hne
      · exact Or.inr hx

/-- What a message is for has all that it requires. -/
theorem Inv.done_of_message (hwf : st.WellFormed)
    (h : st.Inv db (pre ++ .message id b d :: post)) {r : GraphKey} (hr : st.Req (st.keyOf db.rows id b) r) :
    0 < doneCount (some r) db.log := by
  have hkey := (h.message id b d (mem_append_right _ mem_cons_self)).isKey hwf
  have htoken := h.token (some (st.keyOf db.rows id b)) fun k hk => by
    cases mem_some.mp hk
    exact hkey
  rw [total_append, total_cons, show st.carry db.rows (some (st.keyOf db.rows id b)) (.message id b d) = 1 from if_pos rfl] at htoken
  have hfull : st.Full db (some (st.keyOf db.rows id b)) := by
    by_contra hnot
    rw [if_neg hnot] at htoken
    omega
  have hpred := st.mem_preds.mpr hr
  have hedge := h.edge r _ (st.mem_targets.mpr hpred)
  rw [if_pos (hfull r hpred)] at hedge
  omega

variable {calls : List SyncCall}

/-- **A check is done.** -/
theorem Inv.checked (hwf : st.WellFormed)
    (h : st.Inv db (pre ++ .message id b d :: post))
    (hready : ∀ k, st.IsKey k → k ≠ st.keyOf db.rows id b → doneCount (some k) db.log = 0 → st.Ready db.rows k → st.Ready rows k)
    (hrep : ∀ i k, st.IsKey k → k ≠ st.keyOf db.rows id b → doneCount (some k) db.log = 0 → st.IsReplacement db.rows i k →
      st.IsReplacement rows i k)
    (hrows : st.RowsInv rows db.nextId)
    (hcalls : ∀ c ∈ calls, c.predecessors = st.preds c.entity ∧ c.senderKey ∈ st.preds c.entity ∧ st.IsTarget c.entity)
    (hcount : ∀ k t, t ∈ st.targets k → calls.countP (fun c => c.senderKey = k ∧ c.entity = t) =
      if st.keyOf db.rows id b = k then 1 else 0) :
    st.Inv { db with rows := rows, log := .checked (st.keyOf db.rows id b) d :: db.log }
      (pre ++ [.worker calls .get] ++ post) := by
  have hmsg := h.message id b d (mem_append_right _ mem_cons_self)
  have hkey := hmsg.isKey hwf
  have hdone : ∀ t, doneCount t (.checked (st.keyOf db.rows id b) d :: db.log) =
      doneCount t db.log + if some (st.keyOf db.rows id b) = t then 1 else 0 := fun t => doneCount_cons t _ _
  have hother : ∀ k, k ≠ st.keyOf db.rows id b → doneCount (some k) (.checked (st.keyOf db.rows id b) d :: db.log) =
      doneCount (some k) db.log := fun k hne => by
    rw [hdone, if_neg fun heq => hne (Option.some.inj heq).symm, Nat.add_zero]
  obtain ⟨hmessages, hnodes⟩ := h.others hwf hother
    (fun k hk hne hzero => hready k hk hne (by rw [← hother k hne]; exact hzero))
    (fun i k hk hne hzero => hrep i k hk hne (by rw [← hother k hne]; exact hzero))
  have hmem : ∀ x, x ∈ pre ++ [Agent.worker calls .get] ++ post → x = .worker calls .get ∨ x ∈ pre ++ post := fun x hx => by
    simp only [mem_append, mem_singleton] at hx ⊢
    tauto
  have hin : ∀ x, x ∈ pre ++ post → x ∈ pre ++ .message id b d :: post := fun x hx => by
    simp only [mem_append, mem_cons] at hx ⊢
    tauto
  have hself : ∀ t, st.carry db.rows t (.message id b d) = if t = some (st.keyOf db.rows id b) then 1 else 0 := fun t => rfl
  refine ⟨h.sync, fun calls' phase hx => ?_, fun c calls' n e hx => ?_, fun c calls' e hx => ?_, fun i c e hx => ?_,
    fun t ht => ?_, fun k t ht => ?_, fun k hk hzero => ?_, hrows, ?_⟩
  · rcases hmem _ hx with hx | hx
    · cases hx
      exact hcalls
    · exact h.calls calls' phase (hin _ hx)
  · rcases hmem _ hx with hx | hx
    · cases hx
    · exact h.update c calls' n e (hin _ hx)
  · rcases hmem _ hx with hx | hx
    · cases hx
    · exact h.compare c calls' e (hin _ hx)
  · rcases hmem _ hx with hx | hx
    · cases hx
    · exact (hmessages i c e hx).2
  · have hpre : total (st.carry rows t) pre = total (st.carry db.rows t) pre := total_carry_congr
      (fun i c e hx => (hmessages i c e (mem_append_left _ hx)).1) t
    have hpost : total (st.carry rows t) post = total (st.carry db.rows t) post := total_carry_congr
      (fun i c e hx => (hmessages i c e (mem_append_right _ hx)).1) t
    have htoken := h.token t ht
    rw [total_append, total_cons, hself] at htoken
    have hnew : total (st.carry rows t) [.worker calls .get] = 0 := by
      cases calls <;> rfl
    dsimp only
    rw [total_append, total_append, hpre, hpost, hnew, hdone]
    refine Eq.trans ?_ htoken
    by_cases heq : t = some (st.keyOf db.rows id b)
    · rw [if_pos heq, if_pos heq.symm]
      omega
    · rw [if_neg heq, if_neg (Ne.symm heq)]
      omega
  · have hedge := h.edge k t ht
    rw [total_append, total_cons, show pend k t (.message id b d) = 0 from rfl] at hedge
    have hnew : total (pend k t) [.worker calls .get] = if st.keyOf db.rows id b = k then 1 else 0 := by
      rw [← hcount k t ht]
      exact Nat.add_zero _
    dsimp only
    rw [total_append, total_append, hnew, hdone, ← hedge]
    rw [show ConvergenceDb.data { db with rows := rows, log := .checked (st.keyOf db.rows id b) d :: db.log } t = db.data t from rfl]
    simp only [Option.some.injEq]
    omega
  · have hne : k ≠ st.keyOf db.rows id b := fun heq => by
      dsimp only at hzero
      rw [hdone, if_pos (by rw [heq])] at hzero
      omega
    refine (hnodes k hk hne hzero).imp_right ?_
    rintro ⟨i, e, hx, hrow⟩
    refine ⟨i, e, ?_, hrow⟩
    simp only [mem_append, mem_singleton] at hx ⊢
    tauto
  · exact ⟨⟨hkey, hmsg.nodup, fun r => (hmsg.data r).trans st.mem_preds, fun r hr => h.done_of_message hwf hr⟩, h.ordered⟩

/-- A replacement is made. -/
theorem Inv.replaced (hwf : st.WellFormed) (h : st.Inv db (pre ++ .message id true d :: post))
    {new nextId : ℕ}
    (hready : ∀ k, st.IsKey k → k ≠ st.keyOf db.rows id true → st.Ready db.rows k → st.Ready rows k)
    (hrep : ∀ i k, st.IsKey k → k ≠ st.keyOf db.rows id true → st.IsReplacement db.rows i k → st.IsReplacement rows i k)
    (hrows : st.RowsInv rows nextId) (hnew : st.IsReplacement rows new (st.keyOf db.rows id true)) :
    st.Inv { db with rows := rows, nextId := nextId } (pre ++ [.message new true d] ++ post) := by
  have hmsg := h.message id true d (mem_append_right _ mem_cons_self)
  have hkey := hmsg.isKey hwf
  have hnewKey := hnew.keyOf_eq hwf
  obtain ⟨hmessages, hnodes⟩ := h.others hwf (fun _ _ => rfl) (fun k hk hne _ => hready k hk hne)
    (fun i k hk hne _ => hrep i k hk hne)
  have hmem : ∀ x, x ∈ pre ++ [Agent.message new true d] ++ post → x = .message new true d ∨ x ∈ pre ++ post := fun x hx => by
    simp only [mem_append, mem_singleton] at hx ⊢
    tauto
  have hin : ∀ x, x ∈ pre ++ post → x ∈ pre ++ .message id true d :: post := fun x hx => by
    simp only [mem_append, mem_cons] at hx ⊢
    tauto
  refine ⟨h.sync, fun calls phase hx => ?_, fun c calls n e hx => ?_, fun c calls e hx => ?_, fun i c e hx => ?_,
    fun t ht => ?_, fun k t ht => ?_, fun k hk hzero => ?_, hrows, h.ordered⟩
  · rcases hmem _ hx with hx | hx
    · cases hx
    · exact h.calls calls phase (hin _ hx)
  · rcases hmem _ hx with hx | hx
    · cases hx
    · exact h.update c calls n e (hin _ hx)
  · rcases hmem _ hx with hx | hx
    · cases hx
    · exact h.compare c calls e (hin _ hx)
  · rcases hmem _ hx with hx | hx
    · cases hx
      exact ⟨hmsg.nodup, by rw [hnewKey]; exact hmsg.data, Or.inr ⟨rfl, _, hkey, hnew⟩⟩
    · exact (hmessages i c e hx).2
  · have hpre : total (st.carry rows t) pre = total (st.carry db.rows t) pre := total_carry_congr
      (fun i c e hx => (hmessages i c e (mem_append_left _ hx)).1) t
    have hpost : total (st.carry rows t) post = total (st.carry db.rows t) post := total_carry_congr
      (fun i c e hx => (hmessages i c e (mem_append_right _ hx)).1) t
    have hcarry : st.carry rows t (.message new true d) = st.carry db.rows t (.message id true d) := by
      rw [carry, carry, hnewKey]
    have htoken := h.token t ht
    rw [total_append, total_cons] at htoken
    dsimp only
    rw [total_append, total_append, total_cons, hcarry, hpre, hpost, show total (st.carry rows t) [] = 0 from rfl]
    refine Eq.trans ?_ htoken
    omega
  · have hedge := h.edge k t ht
    rw [total_append, total_cons, show pend k t (.message id true d) = 0 from rfl] at hedge
    dsimp only
    rw [total_append, total_append, ← hedge, show total (pend k t) [.message new true d] = 0 from rfl]
    rw [show ConvergenceDb.data { db with rows := rows, nextId := nextId } t = db.data t from rfl]
    omega
  · by_cases hne : k = st.keyOf db.rows id true
    · refine Or.inr ⟨new, d, ?_, hne ▸ hnew⟩
      exact mem_append_left _ (mem_append_right _ (mem_singleton_self _))
    · refine (hnodes k hk hne hzero).imp_right ?_
      rintro ⟨i, e, hx, hrow⟩
      refine ⟨i, e, ?_, hrow⟩
      simp only [mem_append, mem_singleton] at hx ⊢
      tauto

theorem data_set (db : ConvergenceDb) (t : Option GraphKey) (row : SyncPointRow) (t' : Option GraphKey) :
    ConvergenceDb.data { db with syncPoints := db.syncPoints.set t row } t' = if t = t' then row.inputData else db.data t' := by
  rw [ConvergenceDb.data, Dict.get_set]
  split
  · rfl
  · rfl

/-- A key has not been written before its worker writes it. -/
theorem Inv.fresh {c : SyncCall} {n : ℕ}
    (h : st.Inv db (pre ++ .worker (c :: calls) (.update n d) :: post)) :
    ¬ ((db.data c.entity).get c.senderKey).isSome = true := by
  obtain ⟨-, hsender, -⟩ := h.calls _ _ (mem_append_right _ mem_cons_self) c mem_cons_self
  intro hsome
  have hedge := h.edge c.senderKey c.entity (st.mem_targets.mpr hsender)
  rw [if_pos hsome, total_append, total_cons, pend, todo, countP_cons_of_pos (by simp)] at hedge
  have hle := h.doneCount_le (t := some c.senderKey) fun k hk => by
    cases mem_some.mp hk
    exact st.isKey_of_mem_preds hsender
  omega

/-- **A key is written to a sync point.** -/
theorem Inv.write {c : SyncCall} {n : ℕ}
    (h : st.Inv db (pre ++ .worker (c :: calls) (.update n d) :: post)) {row : SyncPointRow}
    (hrow : db.syncPoints.get c.entity = some row) (hn : row.atomicKey = n) :
    st.Inv { db with syncPoints := db.syncPoints.set c.entity ⟨n + 1, d.set c.senderKey c.senderData⟩ }
      (pre ++ [.worker (c :: calls) (.compare (d.set c.senderKey c.senderData))] ++ post) := by
  have hself : Agent.worker (c :: calls) (.update n d) ∈ pre ++ .worker (c :: calls) (.update n d) :: post :=
    mem_append_right _ mem_cons_self
  obtain rfl := (h.update c calls n d hself row hrow).2 hn.symm
  obtain ⟨hpreds, hsender, htarget⟩ := h.calls _ _ hself c mem_cons_self
  obtain ⟨row', hrow', hnodup, hsub⟩ := h.sync c.entity htarget
  rw [hrow] at hrow'
  cases hrow'
  have hdata : db.data c.entity = row.inputData := by rw [ConvergenceDb.data, hrow]; rfl
  have hget : ∀ k, ((row.inputData.set c.senderKey c.senderData).get k).isSome = true ↔
      c.senderKey = k ∨ (row.inputData.get k).isSome = true := fun k => by
    rw [Dict.get_set]
    split
    case isTrue hk => simp [hk]
    case isFalse hk => simp [hk]
  have hsub' : ∀ k, ((row.inputData.set c.senderKey c.senderData).get k).isSome = true → k ∈ st.preds c.entity := fun k hk => by
    rcases (hget k).mp hk with rfl | hk
    · exact hsender
    · exact hsub k hk
  have hfresh : ¬ (row.inputData.get c.senderKey).isSome = true := by
    rw [← hdata]
    exact h.fresh
  have hnotFull : ¬ st.Full db c.entity := fun hfull => by
    have hsome := hfull _ hsender
    rw [hdata] at hsome
    exact hfresh hsome
  have hmem : ∀ x, x ∈ pre ++ [Agent.worker (c :: calls) (.compare (row.inputData.set c.senderKey c.senderData))] ++ post →
      x = .worker (c :: calls) (.compare (row.inputData.set c.senderKey c.senderData)) ∨
        x ∈ pre ++ .worker (c :: calls) (.update n row.inputData) :: post := fun x hx => by
    simp only [mem_append, mem_cons] at hx ⊢
    tauto
  refine ⟨fun t ht => ?_, fun calls' phase hx => ?_, fun c' calls' n' d' hx r hr => ?_, fun c' calls' d' hx => ?_,
    fun id b d' hx => ?_, fun t ht => ?_, fun k t ht => ?_, fun k hk hzero => ?_, h.rows, h.ordered⟩
  · dsimp only
    rw [Dict.get_set]
    split
    case isTrue heq =>
      subst heq
      exact ⟨_, rfl, hnodup.set _ _, hsub'⟩
    case isFalse => exact h.sync t ht
  · rcases hmem _ hx with hx | hx
    · cases hx
      exact h.calls _ _ hself
    · exact h.calls calls' phase hx
  · rcases hmem _ hx with hx | hx
    · cases hx
    · dsimp only at hr
      rw [Dict.get_set] at hr
      split at hr
      case isTrue heq =>
        obtain ⟨hle, -⟩ := h.update c' calls' n' d' hx row (by rw [← heq]; exact hrow)
        cases hr
        dsimp only
        exact ⟨by omega, fun heq' => absurd heq' (by omega)⟩
      case isFalse => exact h.update c' calls' n' d' hx r hr
  · rcases hmem _ hx with hx | hx
    · cases hx
      exact ⟨hnodup.set _ _, hsub'⟩
    · exact h.compare c' calls' d' hx
  · rcases hmem _ hx with hx | hx
    · cases hx
    · exact h.message id b d' hx
  · have htoken := h.token t ht
    rw [total_append, total_cons, show st.carry db.rows t (.worker (c :: calls) (.update n row.inputData)) = 0 from rfl] at htoken
    rw [total_append, total_append, show ∀ x, total (st.carry db.rows t) [x] = st.carry db.rows t x from fun x => rfl]
    by_cases heq : c.entity = t
    · subst heq
      rw [if_neg hnotFull] at htoken
      have hiff : (∀ k ∈ c.predecessors, ((row.inputData.set c.senderKey c.senderData).get k).isSome = true) ↔
          st.Full { db with syncPoints := db.syncPoints.set c.entity ⟨n + 1, row.inputData.set c.senderKey c.senderData⟩ }
            c.entity := by
        rw [Full, data_set, if_pos rfl, hpreds]
      have hcarry : st.carry db.rows c.entity
            (.worker (c :: calls) (.compare (row.inputData.set c.senderKey c.senderData))) =
          if st.Full { db with syncPoints := db.syncPoints.set c.entity ⟨n + 1, row.inputData.set c.senderKey c.senderData⟩ }
            c.entity then 1 else 0 := by
        rw [carry]
        exact if_congr ⟨fun hx => hiff.mp hx.2, fun hx => ⟨rfl, hiff.mpr hx⟩⟩ rfl rfl
      rw [hcarry]
      dsimp only
      omega
    · have hcarry : st.carry db.rows t (.worker (c :: calls) (.compare (row.inputData.set c.senderKey c.senderData))) = 0 := by
        rw [carry]
        exact if_neg fun hx => heq hx.1
      have hiff : st.Full { db with syncPoints := db.syncPoints.set c.entity ⟨n + 1, row.inputData.set c.senderKey c.senderData⟩ } t ↔
          st.Full db t := by
        rw [Full, Full, data_set, if_neg heq]
      rw [hcarry, if_congr hiff rfl rfl, ← htoken]
      dsimp only
      omega
  · have hedge := h.edge k t ht
    rw [total_append, total_cons, pend, todo, countP_cons] at hedge
    rw [total_append, total_append, show ∀ x, total (pend k t) [x] = pend k t x from fun x => rfl, pend, todo, tail_cons,
      data_set]
    dsimp only
    by_cases heq : c.entity = t
    · subst heq
      rw [hdata] at hedge
      rw [if_pos rfl, if_congr (hget k) rfl rfl]
      by_cases hk : c.senderKey = k
      · subst hk
        rw [if_neg hfresh] at hedge
        simp only [decide_true, and_self, if_true, true_or] at hedge ⊢
        omega
      · simp only [hk, false_and, decide_false, false_or, Bool.false_eq_true, if_false] at hedge ⊢
        omega
    · rw [if_neg heq]
      simp only [heq, and_false, decide_false, Bool.false_eq_true, if_false] at hedge ⊢
      omega
  · refine (h.ready k hk hzero).imp_right ?_
    rintro ⟨i, e, hx, hrep⟩
    refine ⟨i, e, ?_, hrep⟩
    simp only [mem_append, mem_cons] at hx ⊢
    rcases hx with hx | hx | hx
    · exact Or.inl (Or.inl hx)
    · cases hx
    · exact Or.inr hx

theorem LogOrdered.done_of_req {log : List TraversalEvent} (h : st.LogOrdered log) {k r : GraphKey}
    (hk : 0 < doneCount (some k) log) (hr : st.Req k r) : 0 < doneCount (some r) log := by
  induction log with
  | nil => exact absurd hk (Nat.lt_irrefl 0)
  | cons e log ih =>
    rw [doneCount_cons] at hk ⊢
    cases e with
    | markComplete =>
      rw [show TraversalEvent.target .markComplete = none from rfl, if_neg nofun] at hk
      exact Nat.lt_add_right _ (ih h.2 hk)
    | checked k' d =>
      by_cases heq : some k' = some k
      · cases heq
        exact Nat.lt_add_right _ (h.1.2.2.2 r hr)
      · rw [show TraversalEvent.target (.checked k' d) = some k' from rfl, if_neg heq] at hk
        exact Nat.lt_add_right _ (ih h.2 hk)

/-- Every node is below a root. -/
theorem exists_root (hacyclic : Acyclic st.Req) {k : GraphKey} (hk : st.IsKey k) :
    ∃ r ∈ st.roots, Relation.ReflTransGen st.Req r k := by
  classical
  have hswap : Acyclic fun a b => st.Req b a := fun a h => hacyclic a (Relation.transGen_swap.mp h)
  have hmem : k ∈ (st.graph.map Prod.fst).filter fun a => Relation.ReflTransGen st.Req a k :=
    mem_filter.mpr ⟨Dict.mem_keys_iff.mpr hk, decide_eq_true .refl⟩
  obtain ⟨r, hr, hmin⟩ := hswap.exists_minimal (ne_nil_of_mem hmem)
  obtain ⟨hkey, hreach⟩ := mem_filter.mp hr
  refine ⟨r, st.mem_roots.mpr ⟨Dict.mem_keys_iff.mp hkey, fun d hd => ?_⟩, of_decide_eq_true hreach⟩
  refine hmin d (mem_filter.mpr ⟨?_, decide_eq_true (.head hd (of_decide_eq_true hreach))⟩) hd
  exact Dict.mem_keys_iff.mpr (st.isKey_of_req hd).1

/-- When the sync point of the stack is complete, every node has been checked. -/
theorem Inv.all_done {agents : List Agent} (h : st.Inv db agents) (hacyclic : Acyclic st.Req) (hfull : st.Full db none)
    {k : GraphKey} (hk : st.IsKey k) : 0 < doneCount (some k) db.log := by
  obtain ⟨r, hr, hreach⟩ := exists_root hacyclic hk
  have hroot : 0 < doneCount (some r) db.log := by
    have hedge := h.edge r none (st.mem_targets.mpr hr)
    rw [if_pos (hfull r hr)] at hedge
    omega
  induction hreach with
  | refl => exact hroot
  | tail _ hstep ih => exact h.ordered.done_of_req (ih (st.isKey_of_req hstep).1) hstep

/-- **The stack is marked complete.** -/
theorem Inv.complete (hacyclic : Acyclic st.Req) {c : SyncCall}
    (h : st.Inv db (pre ++ .worker (c :: calls) (.compare d) :: post)) (hentity : c.entity = none)
    (hall : ∀ k ∈ c.predecessors, (d.get k).isSome = true) :
    st.Inv { db with log := .markComplete :: db.log } (pre ++ [.worker calls .get] ++ post) := by
  have hself : Agent.worker (c :: calls) (.compare d) ∈ pre ++ .worker (c :: calls) (.compare d) :: post :=
    mem_append_right _ mem_cons_self
  have hcarry : ∀ t, st.carry db.rows t (.worker (c :: calls) (.compare d)) = if none = t then 1 else 0 := fun t => by
    rw [carry, hentity]
    exact if_congr ⟨And.left, fun heq => ⟨heq, hall⟩⟩ rfl rfl
  have hfull : st.Full db none := by
    have htoken := h.token none nofun
    rw [total_append, total_cons, hcarry, if_pos rfl] at htoken
    by_contra hnot
    rw [if_neg hnot] at htoken
    omega
  have hmem : ∀ x, x ∈ pre ++ [Agent.worker calls .get] ++ post →
      x = .worker calls .get ∨ x ∈ pre ++ .worker (c :: calls) (.compare d) :: post := fun x hx => by
    simp only [mem_append, mem_cons] at hx ⊢
    tauto
  have hdone : ∀ t, doneCount t (.markComplete :: db.log) = doneCount t db.log + if none = t then 1 else 0 := fun t =>
    doneCount_cons t _ _
  have hother : ∀ k, doneCount (some k) (.markComplete :: db.log) = doneCount (some k) db.log := fun k => by
    rw [hdone, if_neg (some_ne_none k).symm, Nat.add_zero]
  refine ⟨h.sync, fun calls' phase hx => ?_, fun c' calls' n e hx => ?_, fun c' calls' e hx => ?_, fun id b e hx => ?_,
    fun t ht => ?_, fun k t ht => ?_, fun k hk hzero => ?_, h.rows, fun k hk => h.all_done hacyclic hfull hk, h.ordered⟩
  · rcases hmem _ hx with hx | hx
    · cases hx
      exact fun c' hc' => h.calls _ _ hself c' (mem_cons_of_mem _ hc')
    · exact h.calls calls' phase hx
  · rcases hmem _ hx with hx | hx
    · cases hx
    · exact h.update c' calls' n e hx
  · rcases hmem _ hx with hx | hx
    · cases hx
    · exact h.compare c' calls' e hx
  · rcases hmem _ hx with hx | hx
    · cases hx
    · exact h.message id b e hx
  · have htoken := h.token t ht
    rw [total_append, total_cons, hcarry] at htoken
    have hnew : total (st.carry db.rows t) [.worker calls .get] = 0 := by
      cases calls <;> rfl
    dsimp only
    rw [total_append, total_append, hnew, hdone]
    refine Eq.trans ?_ htoken
    omega
  · have hedge := h.edge k t ht
    rw [total_append, total_cons, pend, todo, tail_cons] at hedge
    dsimp only
    rw [total_append, total_append, show ∀ x, total (pend k t) [x] = pend k t x from fun x => rfl, pend, todo, hother]
    refine Eq.trans ?_ hedge
    rw [show ConvergenceDb.data { db with log := .markComplete :: db.log } t = db.data t from rfl]
    omega
  · dsimp only at hzero
    rw [hother] at hzero
    refine (h.ready k hk hzero).imp_right ?_
    rintro ⟨i, e, hx, hrep⟩
    refine ⟨i, e, ?_, hrep⟩
    simp only [mem_append, mem_cons] at hx ⊢
    rcases hx with hx | hx | hx
    · exact Or.inl (Or.inl hx)
    · cases hx
    · exact Or.inr hx

/-- **What a worker does.** -/
theorem Inv.syncStep (hwf : st.WellFormed) (hacyclic : Acyclic st.Req) {phase : SyncPhase}
    (h : st.Inv db (pre ++ .worker calls phase :: post)) :
    st.Inv (syncStep db calls phase).1 (pre ++ (syncStep db calls phase).2 ++ post) := by
  have hself : Agent.worker calls phase ∈ pre ++ .worker calls phase :: post :=
    mem_append_right _ mem_cons_self
  have hcalls := h.calls calls phase hself
  have hone : ∀ (f : Agent → ℕ) x, total f [x] = f x := fun f x => rfl
  cases calls with
  | nil =>
    have hstep : Convergence.syncStep db [] phase = (db, []) := by cases phase <;> rfl
    rw [hstep]
    refine h.quiet (fun t _ => ?_) (fun k t => ?_) nofun nofun nofun nofun nofun
    · cases phase <;> rfl
    · cases phase <;> rfl
  | cons c calls =>
    obtain ⟨row, hrow, -, -⟩ := h.sync c.entity (hcalls c mem_cons_self).2.2
    cases phase with
    | get =>
      rw [Convergence.syncStep, hrow]
      refine h.quiet (fun t _ => hone _ _) (fun k t => hone _ _) (fun calls' phase hx => ?_) (fun c' calls' n d hx row' hrow' => ?_)
        (fun c' calls' d hx => ?_) (fun id b d hx => ?_) nofun
      · cases mem_singleton.mp hx
        exact hcalls
      · cases mem_singleton.mp hx
        rw [hrow] at hrow'
        cases hrow'
        exact ⟨le_rfl, fun _ => rfl⟩
      · cases mem_singleton.mp hx
      · cases mem_singleton.mp hx
    | update n d =>
      rw [Convergence.syncStep, hrow]
      by_cases hn : row.atomicKey = n
      · dsimp only
        rw [if_pos hn]
        exact h.write hrow hn
      · dsimp only
        rw [if_neg hn]
        refine h.quiet (fun t _ => hone _ _) (fun k t => hone _ _) (fun calls' phase hx => ?_) (fun c' calls' n d hx => ?_)
          (fun c' calls' d hx => ?_) (fun id b d hx => ?_) nofun
        · cases mem_singleton.mp hx
          exact hcalls
        · cases mem_singleton.mp hx
        · cases mem_singleton.mp hx
        · cases mem_singleton.mp hx
    | compare d =>
      have hrest : ∀ c' ∈ calls, c'.predecessors = st.preds c'.entity ∧ c'.senderKey ∈ st.preds c'.entity ∧
          st.IsTarget c'.entity := fun c' hc' => hcalls c' (mem_cons_of_mem _ hc')
      have hidle : ∀ t, st.carry db.rows t (.worker calls .get) = 0 := fun t => by cases calls <;> rfl
      rw [Convergence.syncStep]
      by_cases hwaiting : (c.predecessors.any fun key => (d.get key).isNone) = true
      · rw [if_pos hwaiting]
        obtain ⟨key, hkey, hnone⟩ := List.any_eq_true.mp hwaiting
        refine h.quiet (fun t _ => ?_) (fun k t => hone _ _) (fun calls' phase hx => ?_) (fun c' calls' n d hx => ?_)
          (fun c' calls' d hx => ?_) (fun id b d hx => ?_) nofun
        · rw [hone, hidle, carry]
          refine (if_neg fun hall => ?_).symm
          have hsome := hall.2 key hkey
          rw [isNone_iff_eq_none.mp hnone] at hsome
          cases hsome
        · cases mem_singleton.mp hx
          exact hrest
        · cases mem_singleton.mp hx
        · cases mem_singleton.mp hx
        · cases mem_singleton.mp hx
      · rw [if_neg hwaiting]
        have hall : ∀ k ∈ c.predecessors, (d.get k).isSome = true := fun k hk => by
          by_contra hnone
          exact hwaiting (List.any_eq_true.mpr ⟨k, hk, by simpa using hnone⟩)
        cases hentity : c.entity with
        | none => exact h.complete hacyclic hentity hall
        | some k =>
          obtain ⟨id, b⟩ := k
          obtain ⟨hpreds, hsender, htarget⟩ := hcalls c mem_cons_self
          rw [hentity] at hpreds hsender htarget
          have hkey : st.IsKey (id, b) := htarget _ rfl
          obtain ⟨hnodup, hsub⟩ := h.compare c calls d hself
          rw [hentity] at hsub
          have hcarry : ∀ t, st.carry db.rows t (.worker (c :: calls) (.compare d)) = if t = some (id, b) then 1 else 0 :=
            fun t => by
              rw [carry, hentity]
              exact if_congr ⟨fun hx => hx.1.symm, fun heq => ⟨heq.symm, hall⟩⟩ rfl rfl
          have hle := h.doneCount_le htarget
          rw [hcarry, if_pos rfl] at hle
          have hready : st.Ready db.rows (id, b) := by
            rcases h.ready (id, b) hkey (by omega) with hready | ⟨i, e, hx, hrep⟩
            · exact hready
            · -- the message of the replacement would be a second one for this node
              have hx' : Agent.message i true e ∈ pre ++ post := by
                simp only [mem_append, mem_cons] at hx ⊢
                rcases hx with hx | hx | hx
                · exact Or.inl hx
                · cases hx
                · exact Or.inr hx
              have hmore := le_total (f := st.carry db.rows (some (id, b))) hx'
              rw [total_append, carry, hrep.keyOf_eq hwf, if_pos rfl] at hmore
              omega
          refine h.quiet (fun t _ => ?_) (fun k t => ?_) (fun calls' phase hx => ?_) (fun c' calls' n d hx => ?_)
            (fun c' calls' d hx => ?_) (fun id' b' d' hx => ?_) nofun
          · rw [total_cons, hidle, hcarry, hone, carry, keyOf_of_isKey hkey, Nat.zero_add]
          · rw [total_cons, hone]
            exact Nat.add_zero _
          · rcases mem_cons.mp hx with hx | hx
            · cases hx
              exact hrest
            · cases mem_singleton.mp hx
          · rcases mem_cons.mp hx with hx | hx
            · cases hx
            · cases mem_singleton.mp hx
          · rcases mem_cons.mp hx with hx | hx
            · cases hx
            · cases mem_singleton.mp hx
          · rcases mem_cons.mp hx with hx | hx
            · cases hx
            · cases mem_singleton.mp hx
              refine ⟨hnodup, fun k => ?_, Or.inl ⟨hkey, hready⟩⟩
              rw [keyOf_of_isKey hkey]
              exact ⟨hsub k, fun hk => hall k (by rw [hpreds]; exact hk)⟩

/-- The calls after a check are those for the targets of the node. -/
theorem initiate_spec {rsrc : ResourceRow} {k : GraphKey} (hk : st.graphKey rsrc b = k) (hkey : st.IsKey k)
    (hroot : (rsrc.id, b) = k ∨ ¬ st.IsKey (rsrc.id, b) ∧ k ∉ st.roots) :
    (∀ c ∈ st.initiatePropagateResource rsrc b, c.predecessors = st.preds c.entity ∧ c.senderKey ∈ st.preds c.entity ∧
        st.IsTarget c.entity) ∧
      ∀ k' t, t ∈ st.targets k' → (st.initiatePropagateResource rsrc b).countP (fun c => c.senderKey = k' ∧ c.entity = t) =
        if k = k' then 1 else 0 := by
  obtain ⟨n, hn⟩ := isSome_iff_exists.mp hkey
  have hnode : st.graph.node k = n := by rw [Graph.node, hn]; rfl
  have hcalls : st.initiatePropagateResource rsrc b = (st.targets k).map fun t =>
      { entity := t, predecessors := st.preds t, senderKey := k
        senderData := t.bind fun req => getInputData rsrc k req } := by
    rw [initiatePropagateResource, hk, hn, targets, hnode, map_append, List.map_map]
    dsimp only
    congr 1
    rcases hroot with heq | ⟨hno, hroot⟩
    · rw [heq]
      split
      · rfl
      · rfl
    · rw [if_neg fun hmem => hno (st.mem_roots.mp hmem).1, if_neg hroot]
      rfl
  rw [hcalls]
  constructor
  · intro c hc
    obtain ⟨t, ht, rfl⟩ := List.mem_map.mp hc
    exact ⟨rfl, st.mem_targets.mp ht, st.isTarget_of_mem ht⟩
  · intro k' t ht
    rw [countP_map]
    by_cases heq : k = k'
    · subst heq
      rw [if_pos rfl, ← count_eq_one_of_mem (st.targets_nodup k) ht, List.count]
      refine countP_congr fun t' _ => ?_
      simp
    · rw [if_neg heq, countP_eq_zero]
      intro t' _
      simp [heq]

/-- The row of a message. -/
theorem Inv.row_of_message (h : st.Inv db (pre ++ .message id b d :: post)) :
    ∃ row, db.rows.get id = some row ∧ row.id = id := by
  have hmsg := h.message id b d (mem_append_right _ mem_cons_self)
  rcases hmsg.row with ⟨-, row, hrow, -⟩ | ⟨-, k, -, -, -, -, row, hrow, -⟩
  · exact ⟨row, hrow, (h.rows.id id row hrow).1⟩
  · exact ⟨row, hrow, (h.rows.id id row hrow).1⟩

/-- Writing a row back with the same links. -/
theorem RowsInv.set_same {nextId : ℕ} (h : st.RowsInv rows nextId) {row row' : ResourceRow}
    (hrow : rows.get row.id = some row) (hid : row'.id = row.id) (hreplaces : row'.replaces = row.replaces)
    (hreplacedBy : row'.replacedBy = row.replacedBy) : st.RowsInv (rows.set row.id row') nextId := by
  have hget : ∀ i r', (rows.set row.id row').get i = some r' →
      ∃ r, rows.get i = some r ∧ r'.id = r.id ∧ r'.replaces = r.replaces ∧ r'.replacedBy = r.replacedBy := by
    intro i r' hr'
    rw [Dict.get_set] at hr'
    split at hr'
    case isTrue heq =>
      cases hr'
      exact ⟨row, heq ▸ hrow, hid, hreplaces, hreplacedBy⟩
    case isFalse => exact ⟨r', hr', rfl, rfl, rfl⟩
  refine ⟨h.first, fun i r' hr' => ?_, fun i r' hr' x hx => ?_, fun i r' hr' x hx hfirst y' hy' => ?_⟩
  · obtain ⟨r, hr, hrid, -, -⟩ := hget i r' hr'
    rw [hrid]
    exact h.id i r hr
  · obtain ⟨r, hr, -, -, hrby⟩ := hget i r' hr'
    rw [hrby] at hx
    exact h.replacedBy i r hr x hx
  · obtain ⟨r, hr, -, -, hrby⟩ := hget i r' hr'
    obtain ⟨y, hy, -, hyrep, -⟩ := hget x y' hy'
    rw [hrby] at hx
    rw [hyrep]
    exact h.link i r hr x hx hfirst y hy

variable {row : ResourceRow}

/-- **An update is done.** -/
theorem Inv.updated (hwf : st.WellFormed)
    (h : st.Inv db (pre ++ .message row.id true d :: post)) (hrow : db.rows.get row.id = some row) :
    st.Inv { db with
        rows := db.rows.set row.id (st.checkResourceUpdate row d)
        log := .checked (st.graphKey (st.checkResourceUpdate row d) true) d :: db.log }
      (pre ++ [.worker (st.initiatePropagateResource (st.checkResourceUpdate row d) true) .get] ++ post) := by
  have hmsg := h.message row.id true d (mem_append_right _ mem_cons_self)
  have hkeyOf : st.graphKey (st.checkResourceUpdate row d) true = st.keyOf db.rows row.id true := graphKey_eq hrow true
  have hget : ∀ i, i ≠ row.id → (db.rows.set row.id (st.checkResourceUpdate row d)).get i = db.rows.get i := fun i hi => by
    rw [Dict.get_set, if_neg (Ne.symm hi)]
  have hroot : (row.id, true) = st.keyOf db.rows row.id true ∨
      ¬ st.IsKey (row.id, true) ∧ st.keyOf db.rows row.id true ∉ st.roots := by
    rcases hmsg.row with ⟨hk, -⟩ | ⟨-, k, hk, hrep⟩
    · exact Or.inl (keyOf_of_isKey hk).symm
    · refine Or.inr ⟨hrep.not_isKey hwf true, ?_⟩
      rw [hrep.keyOf_eq hwf]
      exact fun hmem => (st.mem_roots.mp hmem).2 _ hrep.2.2.1
  obtain ⟨hcalls, hcount⟩ := initiate_spec hkeyOf (hmsg.isKey hwf) hroot
  rw [hkeyOf]
  refine h.checked hwf (fun k hk hne _ hready => ?_) (fun i k hk hne _ hrep => ?_)
    (h.rows.set_same hrow rfl rfl rfl) hcalls hcount
  · by_cases hid : k.1 = row.id
    · refine ⟨st.checkResourceUpdate row d, by rw [hid, Dict.get_set, if_pos rfl], fun hk2 => ?_⟩
      have heq : k = (row.id, true) := Prod.ext hid hk2
      rw [heq] at hne hk
      exact absurd (keyOf_of_isKey hk).symm hne
    · obtain ⟨r, hr, hgood⟩ := hready
      exact ⟨r, by rw [hget _ hid]; exact hr, hgood⟩
  · have hid : i ≠ row.id := fun heq => by
      rw [heq] at hrep
      exact hne (hrep.keyOf_eq hwf).symm
    obtain ⟨hfirst, hk2, hreq, r, hr, hgood⟩ := hrep
    exact ⟨hfirst, hk2, hreq, r, by rw [hget _ hid]; exact hr, hgood⟩

/-- **A replacement is made.** -/
theorem Inv.replacing (hwf : st.WellFormed)
    (h : st.Inv db (pre ++ .message row.id true d :: post)) (hrow : db.rows.get row.id = some row)
    (hinit : row.isInit = false) :
    st.Inv (st.makeReplacement db row) (pre ++ [.message db.nextId true d] ++ post) := by
  have hmsg := h.message row.id true d (mem_append_right _ mem_cons_self)
  obtain ⟨hkey, r, hr, hgood⟩ : st.IsKey (row.id, true) ∧ st.Ready db.rows (row.id, true) := by
    rcases hmsg.row with hready | ⟨-, k, -, -, -, -, r, hr, hri, -⟩
    · exact hready
    · rw [hrow] at hr
      cases hr
      rw [hinit] at hri
      cases hri
  rw [hrow] at hr
  cases hr
  have hreq : st.Req (row.id, false) (row.id, true) := by
    rcases (hgood rfl).2 with ⟨hri, -⟩ | hreq
    · rw [hinit] at hri
      cases hri
    · exact hreq
  have hlt : row.id < st.firstId := isKey_lt hwf hkey
  have hfirst := h.rows.first
  have hkeyOf : st.keyOf db.rows row.id true = (row.id, true) := keyOf_of_isKey hkey
  have hget : ∀ i, i ≠ row.id → i ≠ db.nextId → (st.makeReplacement db row).rows.get i = db.rows.get i := fun i hi hi' => by
    rw [makeReplacement]
    dsimp only
    rw [Dict.get_set, if_neg (Ne.symm hi), Dict.get_set, if_neg (Ne.symm hi')]
  have hold : (st.makeReplacement db row).rows.get row.id = some { row with replacedBy := some db.nextId } := by
    rw [makeReplacement]
    dsimp only
    rw [Dict.get_set, if_pos rfl]
  have hnew : (st.makeReplacement db row).rows.get db.nextId = some { row with
      id := db.nextId, replaces := some row.id, replacedBy := none, isInit := true, currentTemplateId := st.templateId } := by
    rw [makeReplacement]
    dsimp only
    rw [Dict.get_set, if_neg (by omega), Dict.get_set, if_pos rfl]
  refine h.replaced hwf (fun k hk hne hready => ?_) (fun i k hk hne hrep => ?_) ?_ ?_
  · by_cases hid : k.1 = row.id
    · refine ⟨_, by rw [hid]; exact hold, fun hk2 => ?_⟩
      exact absurd ((Prod.ext hid hk2 : k = (row.id, true)).trans hkeyOf.symm) hne
    · obtain ⟨r, hr, hgood⟩ := hready
      have hklt := isKey_lt hwf hk
      exact ⟨r, (hget _ hid (by omega)).trans hr, hgood⟩
  · obtain ⟨hi, hk2, hreq', r, hr, hgood⟩ := hrep
    have hilt := (h.rows.id i r hr).2
    exact ⟨hi, hk2, hreq', r, (hget _ (by omega) (by omega)).trans hr, hgood⟩
  · have hcases : ∀ i r, (st.makeReplacement db row).rows.get i = some r →
        i = row.id ∧ r = { row with replacedBy := some db.nextId } ∨
        i = db.nextId ∧ r.id = db.nextId ∧ r.replacedBy = none ∧ r.replaces = some row.id ∨
        i ≠ row.id ∧ i ≠ db.nextId ∧ db.rows.get i = some r := by
      intro i r hr
      by_cases hi : i = row.id
      · rw [hi, hold] at hr
        cases hr
        exact Or.inl ⟨hi, rfl⟩
      · by_cases hi' : i = db.nextId
        · rw [hi', hnew] at hr
          cases hr
          exact Or.inr (Or.inl ⟨hi', rfl, rfl, rfl⟩)
        · rw [hget i hi hi'] at hr
          exact Or.inr (Or.inr ⟨hi, hi', hr⟩)
    refine ⟨by omega, fun i r hr => ?_, fun i r hr x hx => ?_, fun i r hr x hx hxfirst y hy => ?_⟩
    · rcases hcases i r hr with ⟨rfl, rfl⟩ | ⟨rfl, hid, -⟩ | ⟨-, -, hr⟩
      · exact ⟨rfl, by omega⟩
      · exact ⟨hid, Nat.lt_succ_self _⟩
      · exact ⟨(h.rows.id i r hr).1, Nat.lt_succ_of_lt (h.rows.id i r hr).2⟩
    · rcases hcases i r hr with ⟨rfl, rfl⟩ | ⟨rfl, -, hnone, -⟩ | ⟨-, -, hr⟩
      · cases mem_some.mp hx
        exact Nat.lt_succ_self _
      · rw [hnone] at hx
        cases hx
      · exact Nat.lt_succ_of_lt (h.rows.replacedBy i r hr x hx)
    · rcases hcases i r hr with ⟨rfl, rfl⟩ | ⟨rfl, -, hnone, -⟩ | ⟨-, -, hr⟩
      · cases mem_some.mp hx
        rcases hcases _ y hy with ⟨heq, -⟩ | ⟨-, -, -, hrep⟩ | ⟨-, hne, -⟩
        · omega
        · exact Or.inl hrep
        · exact absurd rfl hne
      · rw [hnone] at hx
        cases hx
      · have hxlt := h.rows.replacedBy i r hr x hx
        rcases hcases x y hy with ⟨heq, -⟩ | ⟨heq, -⟩ | ⟨-, -, hy⟩
        · omega
        · omega
        · exact h.rows.link i r hr x hx hxfirst y hy
  · rw [hkeyOf]
    exact ⟨hfirst, rfl, hreq, _, hnew, rfl, rfl, rfl⟩

/-- The rows after a clean-up. -/
theorem get_cleanup (st : Convergence) (hrow : rows.get row.id = some row) :
    (∀ r, (st.checkResourceCleanup row rows).get row.id = some r → r = row) ∧
      ∀ i, i ≠ row.id → (st.checkResourceCleanup row rows).get i = rows.get i ∨
        row.replacedBy = some i ∧ ∃ r, rows.get i = some r ∧
          (st.checkResourceCleanup row rows).get i = some { r with replaces := none } := by
  have hkeep : (∀ r, rows.get row.id = some r → r = row) := fun r hr => Option.some.inj (hr.symm.trans hrow)
  have herase : ∀ i, i ≠ row.id → (rows.erase row.id).get i = rows.get i := fun i hi => by
    rw [Dict.get_erase, if_neg (Ne.symm hi)]
  have hself : (rows.erase row.id).get row.id = none := by rw [Dict.get_erase, if_pos rfl]
  rw [checkResourceCleanup]
  by_cases htemplate : row.currentTemplateId ≠ st.templateId
  · rw [if_pos htemplate, updateReplacementData]
    cases hx : row.replacedBy.bind fun x => ((rows.erase row.id).get x).map fun r => (x, r) with
    | none =>
      dsimp only
      refine ⟨fun r hr => ?_, fun i hi => Or.inl (herase i hi)⟩
      rw [hself] at hr
      cases hr
    | some xr =>
      obtain ⟨x, hby, hxr⟩ := bind_eq_some_iff.mp hx
      obtain ⟨r, hr, rfl⟩ := map_eq_some_iff.mp hxr
      have hne : x ≠ row.id := fun heq => by
        rw [heq, hself] at hr
        cases hr
      dsimp only
      split
      · refine ⟨fun r' hr' => ?_, fun i hi => ?_⟩
        · rw [Dict.get_set, if_neg hne, hself] at hr'
          cases hr'
        · rw [Dict.get_set]
          by_cases heq : x = i
          · rw [if_pos heq]
            refine Or.inr ⟨by rw [hby, heq], r, ?_, rfl⟩
            rw [← heq, ← herase x hne]
            exact hr
          · rw [if_neg heq]
            exact Or.inl (herase i hi)
      · refine ⟨fun r' hr' => ?_, fun i hi => Or.inl (herase i hi)⟩
        rw [hself] at hr'
        cases hr'
  · rw [if_neg htemplate]
    exact ⟨hkeep, fun i _ => Or.inl rfl⟩

/-- **A clean-up is done.** -/
theorem Inv.cleaned (hwf : st.WellFormed)
    (h : st.Inv db (pre ++ .message row.id false d :: post)) (hrow : db.rows.get row.id = some row) :
    st.Inv { db with
        rows := st.checkResourceCleanup row db.rows
        log := .checked (st.graphKey row false) d :: db.log }
      (pre ++ [.worker (st.initiatePropagateResource row false) .get] ++ post) := by
  have hmsg := h.message row.id false d (mem_append_right _ mem_cons_self)
  have hkey : st.IsKey (row.id, false) := by
    rcases hmsg.row with ⟨hk, -⟩ | ⟨hb, -⟩
    · exact hk
    · cases hb
  have hkeyOf : st.keyOf db.rows row.id false = (row.id, false) := keyOf_of_isKey hkey
  have hgraph : st.graphKey row false = st.keyOf db.rows row.id false := graphKey_eq hrow false
  obtain ⟨hcalls, hcount⟩ := initiate_spec hgraph (hmsg.isKey hwf) (Or.inl hkeyOf.symm)
  obtain ⟨hself, hother⟩ := get_cleanup st hrow
  have hlt := isKey_lt hwf hkey
  -- the update of a resource has been checked before its clean-up
  have hdone : st.Req (row.id, false) (row.id, true) → 0 < doneCount (some (row.id, true)) db.log := fun hreq =>
    h.done_of_message hwf (by rw [hkeyOf]; exact hreq)
  have hcases : ∀ i r, (st.checkResourceCleanup row db.rows).get i = some r →
      ∃ r', db.rows.get i = some r' ∧ r.id = r'.id ∧ r.replacedBy = r'.replacedBy ∧
        (r.replaces = r'.replaces ∨ r.replaces = none) := by
    intro i r hr
    by_cases hi : i = row.id
    · rw [hi] at hr ⊢
      rw [hself r hr]
      exact ⟨row, hrow, rfl, rfl, Or.inl rfl⟩
    · rcases hother i hi with heq | ⟨-, r', hr', heq⟩
      · rw [heq] at hr
        exact ⟨r, hr, rfl, rfl, Or.inl rfl⟩
      · rw [heq] at hr
        cases hr
        exact ⟨r', hr', rfl, rfl, Or.inr rfl⟩
  rw [hgraph]
  refine h.checked hwf (fun k hk hne hzero hready => ?_) (fun i k hk hne hzero hrep => ?_) ?_ hcalls hcount
  · obtain ⟨r, hr, hgood⟩ := hready
    by_cases hid : k.1 = row.id
    · cases hk2 : k.2 with
      | false => exact absurd ((Prod.ext hid hk2 : k = (row.id, false)).trans hkeyOf.symm) hne
      | true =>
        have heq : k = (row.id, true) := Prod.ext hid hk2
        rw [heq] at hgood hzero
        rcases (hgood rfl).2 with ⟨-, hno⟩ | hreq
        · exact absurd hkey hno
        · exact absurd hzero (hdone hreq).ne'
    · rcases hother k.1 hid with heq | ⟨-, r', hr', heq⟩
      · exact ⟨r, heq.trans hr, hgood⟩
      · rw [hr] at hr'
        cases hr'
        exact ⟨_, heq, hgood⟩
  · obtain ⟨hi, hk2, hreq, r, hr, hinit, hby, hreplaces⟩ := hrep
    rcases hother i (by omega) with heq | ⟨hreplacedBy, r', hr', -⟩
    · exact ⟨hi, hk2, hreq, r, heq.trans hr, hinit, hby, hreplaces⟩
    · -- the replacement of the row that is cleaned up: its node has been checked
      have hid : k.1 = row.id := by
        rcases h.rows.link row.id row hrow i hreplacedBy hi r hr with hlink | hlink
        · exact Option.some.inj (hreplaces.symm.trans hlink)
        · rw [hreplaces] at hlink
          cases hlink
      have heq : k = (row.id, true) := Prod.ext hid hk2
      rw [heq] at hreq hzero
      exact absurd hzero (hdone hreq).ne'
  · refine ⟨h.rows.first, fun i r hr => ?_, fun i r hr x hx => ?_, fun i r hr x hx hfirst y hy => ?_⟩
    · obtain ⟨r', hr', hrid, -⟩ := hcases i r hr
      rw [hrid]
      exact h.rows.id i r' hr'
    · obtain ⟨r', hr', -, hby, -⟩ := hcases i r hr
      rw [hby] at hx
      exact h.rows.replacedBy i r' hr' x hx
    · obtain ⟨r', hr', -, hby, -⟩ := hcases i r hr
      obtain ⟨y', hy', -, -, hyrep⟩ := hcases x y hy
      rw [hby] at hx
      rcases hyrep with hyrep | hyrep
      · rw [hyrep]
        exact h.rows.link i r' hr' x hx hfirst y' hy'
      · exact Or.inr hyrep

/-- **What a message does.** -/
theorem Inv.checkResource (hwf : st.WellFormed) (asksReplace : ℕ → Bool)
    (h : st.Inv db (pre ++ .message id b d :: post)) :
    st.Inv (st.checkResource asksReplace db id b d).1 (pre ++ (st.checkResource asksReplace db id b d).2 ++ post) := by
  obtain ⟨row, hrow, rfl⟩ := h.row_of_message
  have hmsg := h.message row.id b d (mem_append_right _ mem_cons_self)
  rw [Convergence.checkResource, hrow]
  cases b with
  | false => exact h.cleaned hwf hrow
  | true =>
    have hcurrent : ¬ (row.replacedBy.isSome = true ∧ row.currentTemplateId ≠ st.templateId) := by
      rintro ⟨hsome, hne⟩
      have hnone : row.replacedBy = none ∨ row.currentTemplateId = st.templateId := by
        rcases hmsg.row with ⟨-, r, hr, hgood⟩ | ⟨-, k, -, -, -, -, r, hr, -, hby, -⟩
        · rw [hrow] at hr
          cases hr
          exact (hgood rfl).1
        · rw [hrow] at hr
          cases hr
          exact Or.inl hby
      rcases hnone with hnone | heq
      · rw [hnone] at hsome
        cases hsome
      · exact hne heq
    dsimp only
    rw [if_neg hcurrent]
    by_cases hreplace : (!row.isInit && asksReplace row.id) = true
    · rw [if_pos hreplace]
      refine h.replacing hwf hrow ?_
      rw [Bool.and_eq_true, Bool.not_eq_true'] at hreplace
      exact hreplace.1
    · rw [if_neg hreplace]
      exact h.updated hwf hrow

end Steps

/-- **A step keeps the invariant.** -/
theorem Inv.step (hwf : st.WellFormed) (hacyclic : Acyclic st.Req) {asksReplace : ℕ → Bool} {s s' : ConvergenceState} {i : ℕ}
    (h : st.Inv s.db s.agents) (hstep : st.step asksReplace s i = some s') : st.Inv s'.db s'.agents := by
  obtain ⟨a, ha, rfl⟩ := map_eq_some_iff.mp hstep
  obtain ⟨hi, ha⟩ := List.getElem?_eq_some_iff.mp ha
  have hsplit : s.agents = s.agents.take i ++ a :: s.agents.drop (i + 1) := by
    rw [← ha, cons_getElem_drop_succ, take_append_drop]
  rw [hsplit] at h
  cases a with
  | message id b d => exact h.checkResource hwf asksReplace
  | worker calls phase => exact h.syncStep hwf hacyclic

end Convergence

end Mitaka.Heat
