/-
  Subject: The runs of a traversal: each ends, with everything done once and in order.

  The invariant holds at the start (`Inv.start`), and every step decreases what is not
  written yet, or leaves it as it is and decreases the weight of the agents
  (`Inv.measure_lt`). A row that is chosen for the template although it was replaced under
  another template is the exception: its update is dropped, and the stack is never
  complete (`overtaken_hangs`).
-/
import Mitaka.Heat.ConvergenceInvariant

namespace Mitaka.Heat

open List

namespace Convergence

variable {st : Convergence}

/-! ## 1. The start -/

theorem mem_newRows {row : ResourceRow} (h : row ∈ st.newRows) :
    ∃ name ∈ st.names, st.getBestExistingRsrcDb name = none ∧ row.id = st.currentId name ∧
      row.id = st.nextId + st.names.idxOf name ∧ row.isInit = true ∧ row.replacedBy = none := by
  obtain ⟨name, hname, rfl⟩ := List.mem_map.mp h
  obtain ⟨hname, hnone⟩ := mem_filter.mp hname
  have hbest := Option.isNone_iff_eq_none.mp hnone
  exact ⟨name, hname, hbest, rfl, by rw [currentId, hbest], rfl, rfl⟩

theorem start_rows_nodup (hwf : st.WellFormed) : Dict.KeysNodup st.start.db.rows := by
  rw [Dict.KeysNodup, start, List.map_map]
  refine (map_append (f := ResourceRow.id)).symm ▸ hwf.nodup.append ?_ ?_
  · rw [newRows, List.map_map]
    refine (nodup_map_iff_inj_on ((nodup_dedup _).filter _)).mpr fun a ha b hb heq => ?_
    obtain ⟨ha, ha'⟩ := mem_filter.mp ha
    obtain ⟨hb, hb'⟩ := mem_filter.mp hb
    dsimp only [Function.comp_apply] at heq
    rw [currentId, currentId, Option.isNone_iff_eq_none.mp ha', Option.isNone_iff_eq_none.mp hb'] at heq
    exact (idxOf_inj ha).mp (Nat.add_left_cancel heq)
  · intro id hid hid'
    obtain ⟨row, hrow, rfl⟩ := List.mem_map.mp hid
    obtain ⟨row', hrow', heq⟩ := List.mem_map.mp hid'
    obtain ⟨name, -, -, -, hnew, -⟩ := mem_newRows hrow'
    have hlt := hwf.lt row hrow
    omega

theorem get_start (hwf : st.WellFormed) {id : ℕ} {row : ResourceRow} :
    st.start.db.rows.get id = some row ↔ row ∈ st.existing ++ st.newRows ∧ row.id = id := by
  rw [← (start_rows_nodup hwf).mem_iff, start, List.mem_map]
  constructor
  · rintro ⟨r, hr, heq⟩
    cases heq
    exact ⟨hr, rfl⟩
  · rintro ⟨hr, rfl⟩
    exact ⟨row, hr, rfl⟩

variable {k : GraphKey}

theorem start_ready (hwf : st.WellFormed) (hcurrent : st.Current) (hk : st.IsKey k) :
    st.Ready st.start.db.rows k := by
  rcases st.isKey_cases hk with ⟨name, hname, rfl⟩ | ⟨hk2, row, hrow, hid⟩
  · rw [makeGraphKey]
    cases hbest : st.getBestExistingRsrcDb name with
    | some row =>
      have hmem := st.best_mem hbest
      have hid : st.currentId name = row.id := by rw [currentId, hbest]
      refine ⟨row, (get_start hwf).mpr ⟨mem_append_left _ hmem, hid.symm⟩, fun _ => ⟨hcurrent name hname row hbest, ?_⟩⟩
      rw [hid]
      exact Or.inr (st.req_of_existing hmem hname (by rw [makeGraphKey, hid]))
    | none =>
      have hid : st.currentId name = st.nextId + st.names.idxOf name := by rw [currentId, hbest]
      refine ⟨⟨st.currentId name, name, st.templateId, [], none, none, true⟩, (get_start hwf).mpr ⟨mem_append_right _ ?_, rfl⟩,
        fun _ => ⟨Or.inl rfl, Or.inl ⟨rfl, fun hkey => ?_⟩⟩⟩
      · exact List.mem_map.mpr ⟨name, mem_filter.mpr ⟨hname, by rw [hbest]; rfl⟩, rfl⟩
      · -- a new resource is not cleaned up
        rcases st.isKey_cases hkey with ⟨name', -, heq⟩ | ⟨-, row, hrow, heq⟩
        · cases (Prod.ext_iff.mp heq).2
        · have hlt := hwf.lt row hrow
          dsimp only at heq
          omega
  · refine ⟨row, (get_start hwf).mpr ⟨mem_append_left _ hrow, hid⟩, fun h => ?_⟩
    rw [hk2] at h
    cases h

theorem exists_leaf (hacyclic : Acyclic st.Req) (hk : st.IsKey k) : ∃ l, l ∈ st.leaves := by
  obtain ⟨l, hl, hmin⟩ := hacyclic.exists_minimal (ne_nil_of_mem (Dict.mem_keys_iff.mpr hk))
  refine ⟨l, st.mem_leaves.mpr ⟨Dict.mem_keys_iff.mp hl, fun r hr => hmin r ?_ hr⟩⟩
  exact Dict.mem_keys_iff.mpr (st.isKey_of_req hr).2

theorem leaves_nodup (st : Convergence) : st.leaves.Nodup :=
  Nodup.sublist (filter_sublist.map Prod.fst) st.isGraph.nodup

variable {t : Option GraphKey}

theorem get_start_sync (ht : st.IsTarget t) : st.start.db.syncPoints.get t = some ⟨0, []⟩ := by
  have hget : ∀ l : List (Option GraphKey), t ∈ l → Dict.get (l.map fun key => (key, (⟨0, []⟩ : SyncPointRow))) t = some ⟨0, []⟩ := by
    intro l hl
    induction l with
    | nil => cases hl
    | cons a l ih =>
      rw [map_cons, Dict.get_cons]
      split
      case isTrue => rfl
      case isFalse hne => exact ih ((mem_cons.mp hl).resolve_left fun heq => hne heq.symm)
  refine hget _ ?_
  cases t with
  | none => exact mem_cons_self
  | some k => exact mem_cons_of_mem _ (List.mem_map_of_mem (Dict.mem_keys_iff.mpr (ht k rfl)))

theorem full_start_iff (ht : st.IsTarget t) : st.Full st.start.db t ↔ st.preds t = [] := by
  have hdata : st.start.db.data t = [] := by rw [ConvergenceDb.data, get_start_sync ht]; rfl
  rw [Full, hdata]
  constructor
  · intro h
    refine eq_nil_iff_forall_not_mem.mpr fun k hk => ?_
    cases h k hk
  · intro h k hk
    rw [h] at hk
    cases hk

theorem total_carry_start (rows : Dict ℕ ResourceRow) (t : Option GraphKey) {l : List GraphKey} (hl : ∀ k ∈ l, st.IsKey k) :
    total (st.carry rows t) (l.map fun key => .message key.1 key.2 []) = l.countP fun k => t = some k := by
  induction l with
  | nil => rfl
  | cons a l ih =>
    have hkey : st.keyOf rows a.1 a.2 = a := keyOf_of_isKey (hl a mem_cons_self)
    rw [map_cons, total_cons, ih fun k hk => hl k (mem_cons_of_mem _ hk), countP_cons, carry, hkey]
    simp only [decide_eq_true_eq]
    exact Nat.add_comm _ _

/-- Exactly what requires nothing is asked for at the start. -/
theorem token_start (hacyclic : Acyclic st.Req) (ht : st.IsTarget t) :
    total (st.carry st.start.db.rows t) st.start.agents + doneCount t st.start.db.log =
      if st.preds t = [] then 1 else 0 := by
  have hcarry : total (st.carry st.start.db.rows t) st.start.agents = st.leaves.countP fun k => t = some k :=
    total_carry_start _ t fun k hk => (st.mem_leaves.mp hk).1
  rw [hcarry]
  cases t with
  | none =>
    have hroots : st.roots = [] ↔ st.leaves = [] := by
      constructor
      · intro h
        refine eq_nil_iff_forall_not_mem.mpr fun l hl => ?_
        obtain ⟨r, hr, -⟩ := exists_root hacyclic (st.mem_leaves.mp hl).1
        rw [h] at hr
        cases hr
      · intro h
        refine eq_nil_iff_forall_not_mem.mpr fun r hr => ?_
        obtain ⟨l, hl⟩ := exists_leaf hacyclic (st.mem_roots.mp hr).1
        rw [h] at hl
        cases hl
    have hzero : (st.leaves.countP fun k => decide ((none : Option GraphKey) = some k)) = 0 :=
      countP_eq_zero.mpr fun k _ => by simp
    rw [hzero, Nat.zero_add, preds, if_congr hroots rfl rfl, Convergence.start]
    dsimp only
    split <;> rfl
  | some k =>
    have hdone : doneCount (some k) st.start.db.log = 0 := by
      rw [Convergence.start]
      dsimp only
      split <;> rfl
    have hcount : (st.leaves.countP fun a => decide (some k = some a)) = st.leaves.count k := by
      rw [count_eq_countP]
      exact countP_congr fun a _ => by rw [decide_eq_true_eq, beq_iff_eq, Option.some.injEq, eq_comm]
    have hleaf : k ∈ st.leaves ↔ st.preds (some k) = [] := by
      rw [mem_leaves, eq_nil_iff_forall_not_mem]
      exact (and_iff_right (ht k rfl)).trans (forall_congr' fun r => not_congr st.mem_preds.symm)
    rw [hdone, hcount, Nat.add_zero, (leaves_nodup st).count]
    exact if_congr hleaf rfl rfl

theorem rowsInv_start (hwf : st.WellFormed) : st.RowsInv st.start.db.rows st.start.db.nextId := by
  have hreplacedBy : ∀ id row, st.start.db.rows.get id = some row → ∀ x ∈ row.replacedBy, x < st.nextId := by
    intro id row hrow x hx
    rcases mem_append.mp ((get_start hwf).mp hrow).1 with hmem | hmem
    · exact hwf.replacedBy row hmem x hx
    · obtain ⟨_, -, -, -, -, -, hnone⟩ := mem_newRows hmem
      rw [hnone] at hx
      cases hx
  have hnext : st.nextId ≤ st.start.db.nextId := Nat.le_add_right _ _
  refine ⟨le_rfl, fun id row hrow => ?_, fun id row hrow x hx => lt_of_lt_of_le (hreplacedBy id row hrow x hx) hnext,
    fun id row hrow x hx hfirst => ?_⟩
  · obtain ⟨hmem, rfl⟩ := (get_start hwf).mp hrow
    refine ⟨rfl, ?_⟩
    rcases mem_append.mp hmem with hmem | hmem
    · exact lt_of_lt_of_le (hwf.lt row hmem) hnext
    · obtain ⟨name, hname, -, -, hid, -⟩ := mem_newRows hmem
      rw [hid]
      exact Nat.add_lt_add_left (idxOf_lt_length_of_mem hname) _
  · -- the rows of the start are replaced by rows of the start
    have hlt := hreplacedBy id row hrow x hx
    rw [firstId] at hfirst
    omega

/-- **What holds at the start.** -/
theorem Inv.start (hwf : st.WellFormed) (hacyclic : Acyclic st.Req) (hcurrent : st.Current) :
    st.Inv st.start.db st.start.agents := by
  have hagents : ∀ x ∈ st.start.agents, ∃ k ∈ st.leaves, x = .message k.1 k.2 [] := fun x hx => by
    obtain ⟨k, hk, rfl⟩ := List.mem_map.mp hx
    exact ⟨k, hk, rfl⟩
  have hnone : ∀ k : GraphKey, doneCount (some k) st.start.db.log = 0 := fun k => by
    rw [Convergence.start]
    dsimp only
    split <;> rfl
  have hempty : ∀ t, st.IsTarget t → st.start.db.data t = [] := fun t ht => by
    rw [ConvergenceDb.data, get_start_sync ht]
    rfl
  refine ⟨fun t ht => ⟨_, get_start_sync ht, nodup_nil, by simp⟩, fun calls phase hx => ?_, fun c calls n d hx => ?_,
    fun c calls d hx => ?_, fun id b d hx => ?_, fun t ht => ?_, fun k t ht => ?_, fun k hk _ =>
    Or.inl (start_ready hwf hcurrent hk), ?_, ?_⟩
  · obtain ⟨k, -, heq⟩ := hagents _ hx
    cases heq
  · obtain ⟨k, -, heq⟩ := hagents _ hx
    cases heq
  · obtain ⟨k, -, heq⟩ := hagents _ hx
    cases heq
  · obtain ⟨k, hk, heq⟩ := hagents _ hx
    cases heq
    obtain ⟨hkey, hleaf⟩ := st.mem_leaves.mp hk
    refine ⟨nodup_nil, fun r => ?_, Or.inl ⟨hkey, start_ready hwf hcurrent hkey⟩⟩
    rw [keyOf_of_isKey hkey, mem_preds]
    exact ⟨by simp, fun hr => absurd hr (hleaf r)⟩
  · exact (token_start hacyclic ht).trans (if_congr (full_start_iff ht).symm rfl rfl)
  · have hpend : total (pend k t) st.start.agents = 0 := sum_eq_zero fun x hx => by
      obtain ⟨a, ha, rfl⟩ := List.mem_map.mp hx
      obtain ⟨_, -, rfl⟩ := hagents a ha
      rfl
    rw [hempty t (st.isTarget_of_mem ht), hnone, hpend]
    rfl
  · exact rowsInv_start hwf
  · rw [Convergence.start]
    dsimp only
    split
    case isTrue hleaves =>
      refine ⟨fun k hk => ?_, trivial⟩
      obtain ⟨l, hl⟩ := exists_leaf hacyclic hk
      rw [hleaves] at hl
      cases hl
    case isFalse => trivial

/-! ## 2. The runs end -/

/-- What a sync point waits for. -/
def edges (st : Convergence) : List (Option GraphKey × GraphKey) :=
  (none :: (st.graph.map Prod.fst).map some).flatMap fun t => (st.preds t).map fun k => (t, k)

/-- How much is not written yet. -/
def unwritten (st : Convergence) (db : ConvergenceDb) : ℕ :=
  (st.edges.map fun e => if ((db.data e.1).get e.2).isSome = true then 0 else 1).sum

/-- How many steps an agent can make before a key is written. -/
def weight (st : Convergence) (syncPoints : Dict (Option GraphKey) SyncPointRow) : Agent → ℕ
  | .message id _ _ => if id < st.firstId then 4 else 3
  | .worker [] _ => 1
  | .worker (_ :: _) .get => 2
  | .worker (call :: _) (.update atomicKey _) =>
    if (syncPoints.get call.entity).map SyncPointRow.atomicKey = some atomicKey then 1 else 3
  | .worker (_ :: _) (.compare _) => 7

/-- What decreases: what is not written, then the weights. -/
def measure (st : Convergence) (s : ConvergenceState) : ℕ × ℕ :=
  (st.unwritten s.db, total (st.weight s.db.syncPoints) s.agents)

theorem mem_edges (h : k ∈ st.preds t) : (t, k) ∈ st.edges := by
  refine mem_flatMap.mpr ⟨t, ?_, List.mem_map.mpr ⟨k, h, rfl⟩⟩
  cases t with
  | none => exact mem_cons_self
  | some d =>
    have hkey := (st.isKey_of_req (st.mem_preds.mp h)).1
    exact mem_cons_of_mem _ (List.mem_map_of_mem (Dict.mem_keys_iff.mpr hkey))

section Steps

variable {db : ConvergenceDb} {pre post : List Agent} {a : Agent}

theorem weight_idle (st : Convergence) (calls : List SyncCall) (syncPoints : Dict (Option GraphKey) SyncPointRow) :
    st.weight syncPoints (.worker calls .get) ≤ 2 := by
  cases calls with
  | nil => exact Nat.le_succ 1
  | cons => exact le_rfl

theorem weight_message (st : Convergence) (id : ℕ) (b : Bool) (d : InputData) (syncPoints : Dict (Option GraphKey) SyncPointRow) :
    3 ≤ st.weight syncPoints (.message id b d) ∧ st.weight syncPoints (.message id b d) ≤ 4 := by
  rw [weight]
  split <;> omega

/-- Only what is there at the start asks for a replacement. -/
theorem Inv.lt_of_replacing (hwf : st.WellFormed) {id : ℕ} {d : InputData} {row : ResourceRow}
    (h : st.Inv db (pre ++ .message id true d :: post)) (hrow : db.rows.get id = some row) (hinit : row.isInit = false) :
    id < st.firstId := by
  rcases (h.message id true d (mem_append_right _ mem_cons_self)).row with ⟨hk, -⟩ | ⟨-, k, -, -, -, -, r, hr, hr', -⟩
  · exact isKey_lt hwf hk
  · rw [hrow] at hr
    cases hr
    rw [hinit] at hr'
    cases hr'

/-- A message weighs more than what comes of it. -/
theorem Inv.weight_checkResource (hwf : st.WellFormed) (asksReplace : ℕ → Bool) {id : ℕ} {b : Bool} {d : InputData}
    (h : st.Inv db (pre ++ .message id b d :: post)) :
    (st.checkResource asksReplace db id b d).1.syncPoints = db.syncPoints ∧
      total (st.weight db.syncPoints) (st.checkResource asksReplace db id b d).2 <
        st.weight db.syncPoints (.message id b d) := by
  have hthree := (weight_message st id b d db.syncPoints).1
  have hworker : ∀ calls, total (st.weight db.syncPoints) [.worker calls .get] < st.weight db.syncPoints (.message id b d) :=
    fun calls => lt_of_le_of_lt (weight_idle st calls db.syncPoints) hthree
  have hnone : total (st.weight db.syncPoints) [] < st.weight db.syncPoints (.message id b d) := lt_of_lt_of_le (Nat.succ_pos 2) hthree
  obtain ⟨row, hrow, rfl⟩ := h.row_of_message
  rw [Convergence.checkResource, hrow]
  cases b with
  | false => exact ⟨rfl, hworker _⟩
  | true =>
    dsimp only
    split
    · exact ⟨rfl, hnone⟩
    · split
      case isTrue hreplace =>
        rw [Bool.and_eq_true, Bool.not_eq_true'] at hreplace
        have hlt := h.lt_of_replacing hwf hrow hreplace.1
        have hfirst := h.rows.first
        refine ⟨rfl, ?_⟩
        rw [total_cons, weight, weight, if_pos hlt, if_neg (by omega)]
        exact Nat.lt_succ_self 3
      case isFalse => exact ⟨rfl, hworker _⟩

/-- A worker either writes, or weighs more than what comes of its step. -/
theorem weight_syncStep (st : Convergence) (db : ConvergenceDb) (calls : List SyncCall) (phase : SyncPhase) :
    (∃ c rest n d row, calls = c :: rest ∧ phase = .update n d ∧ db.syncPoints.get c.entity = some row ∧ row.atomicKey = n) ∨
      (Convergence.syncStep db calls phase).1.syncPoints = db.syncPoints ∧
        total (st.weight db.syncPoints) (Convergence.syncStep db calls phase).2 < st.weight db.syncPoints (.worker calls phase) := by
  cases calls with
  | nil =>
    have hstep : Convergence.syncStep db [] phase = (db, []) := by cases phase <;> rfl
    rw [hstep]
    exact Or.inr ⟨rfl, by cases phase <;> exact Nat.one_pos⟩
  | cons c calls =>
    cases phase with
    | get =>
      right
      rw [Convergence.syncStep]
      split
      case h_1 => exact ⟨rfl, Nat.two_pos⟩
      case h_2 row hrow =>
        refine ⟨rfl, ?_⟩
        rw [total_cons, weight, weight, hrow, Option.map_some, if_pos rfl]
        exact Nat.lt_succ_self 1
    | update n d =>
      rw [Convergence.syncStep]
      cases hrow : db.syncPoints.get c.entity with
      | none =>
        refine Or.inr ⟨rfl, ?_⟩
        rw [total_cons, weight, weight, hrow, if_neg (by simp)]
        exact Nat.lt_succ_self 2
      | some row =>
        by_cases hn : row.atomicKey = n
        · exact Or.inl ⟨c, calls, n, d, row, rfl, rfl, hrow, hn⟩
        · right
          dsimp only
          rw [if_neg hn]
          refine ⟨rfl, ?_⟩
          rw [total_cons, weight, weight, hrow, Option.map_some, if_neg fun heq => hn (Option.some.inj heq)]
          exact Nat.lt_succ_self 2
    | compare d =>
      right
      have hidle := weight_idle st calls db.syncPoints
      have hseven : st.weight db.syncPoints (.worker (c :: calls) (.compare d)) = 7 := rfl
      have hworker : total (st.weight db.syncPoints) [.worker calls .get] < 7 := lt_of_le_of_lt hidle (by decide)
      rw [Convergence.syncStep, hseven]
      split
      · exact ⟨rfl, hworker⟩
      · split
        case h_1 id b _ =>
          have hmessage := (weight_message st id b d db.syncPoints).2
          refine ⟨rfl, ?_⟩
          rw [total_cons, total_cons, show total (st.weight db.syncPoints) [] = 0 from rfl]
          omega
        case h_2 => exact ⟨rfl, hworker⟩

/-- After a write, less is not written. -/
theorem Inv.unwritten_lt {c : SyncCall} {calls : List SyncCall} {n : ℕ} {d : InputData}
    (h : st.Inv db (pre ++ .worker (c :: calls) (.update n d) :: post)) {row : SyncPointRow}
    (hrow : db.syncPoints.get c.entity = some row) (hn : row.atomicKey = n) :
    st.unwritten { db with syncPoints := db.syncPoints.set c.entity ⟨n + 1, d.set c.senderKey c.senderData⟩ } <
      st.unwritten db := by
  have hself : Agent.worker (c :: calls) (.update n d) ∈ pre ++ .worker (c :: calls) (.update n d) :: post :=
    mem_append_right _ mem_cons_self
  obtain rfl := (h.update c calls n d hself row hrow).2 hn.symm
  obtain ⟨-, hsender, -⟩ := h.calls _ _ hself c mem_cons_self
  have hdata : db.data c.entity = row.inputData := by rw [ConvergenceDb.data, hrow]; rfl
  refine sum_lt_sum _ _ (fun e _ => ?_) ⟨(c.entity, c.senderKey), mem_edges hsender, ?_⟩
  · obtain ⟨t, k⟩ := e
    dsimp only
    rw [data_set]
    by_cases hold : ((db.data t).get k).isSome = true
    · rw [if_pos hold, if_pos]
      split
      case isTrue heq =>
        subst heq
        rw [hdata] at hold
        rw [Dict.get_set]
        split
        · rfl
        · exact hold
      case isFalse => exact hold
    · rw [if_neg hold]
      split_ifs <;> decide
  · dsimp only
    rw [if_neg h.fresh, data_set, if_pos rfl, Dict.get_set, if_pos rfl]
    exact Nat.one_pos

end Steps

/-- **Every step decreases the measure.** -/
theorem Inv.measure_lt (hwf : st.WellFormed) {asksReplace : ℕ → Bool} {s s' : ConvergenceState} {i : ℕ}
    (h : st.Inv s.db s.agents) (hstep : st.step asksReplace s i = some s') :
    Prod.Lex (· < ·) (· < ·) (st.measure s') (st.measure s) := by
  obtain ⟨a, ha, rfl⟩ := Option.map_eq_some_iff.mp hstep
  obtain ⟨hi, ha⟩ := List.getElem?_eq_some_iff.mp ha
  have hsplit : s.agents = s.agents.take i ++ a :: s.agents.drop (i + 1) := by
    rw [← ha, cons_getElem_drop_succ, take_append_drop]
  rw [hsplit] at h
  -- a step that does not write
  have hquiet : (st.act asksReplace s.db a).1.syncPoints = s.db.syncPoints →
      total (st.weight s.db.syncPoints) (st.act asksReplace s.db a).2 < st.weight s.db.syncPoints a →
      Prod.Lex (· < ·) (· < ·) (st.measure ⟨(st.act asksReplace s.db a).1,
        s.agents.take i ++ (st.act asksReplace s.db a).2 ++ s.agents.drop (i + 1)⟩) (st.measure s) := fun hsync hlt => by
    have hdata : ∀ t, (st.act asksReplace s.db a).1.data t = s.db.data t := fun t => by
      rw [ConvergenceDb.data, ConvergenceDb.data, hsync]
    have hunwritten : st.unwritten (st.act asksReplace s.db a).1 = st.unwritten s.db := by
      simp only [unwritten, hdata]
    have htotal : total (st.weight s.db.syncPoints) s.agents = total (st.weight s.db.syncPoints) (s.agents.take i) +
        (st.weight s.db.syncPoints a + total (st.weight s.db.syncPoints) (s.agents.drop (i + 1))) := by
      conv_lhs => rw [hsplit, total_append, total_cons]
    rw [Convergence.measure, Convergence.measure]
    dsimp only
    rw [hunwritten, hsync, htotal, total_append, total_append]
    exact Prod.Lex.right _ (by omega)
  cases a with
  | message id b d =>
    obtain ⟨hsync, hlt⟩ := h.weight_checkResource hwf asksReplace
    exact hquiet hsync hlt
  | worker calls phase =>
    rcases weight_syncStep st s.db calls phase with ⟨c, rest, n, d, row, rfl, rfl, hrow, hn⟩ | ⟨hsync, hlt⟩
    · refine Prod.Lex.left _ _ ?_
      dsimp only [act]
      rw [Convergence.syncStep, hrow]
      dsimp only
      rw [if_pos hn]
      exact h.unwritten_lt hrow hn
    · exact hquiet hsync hlt

/-- **No run goes on for ever.** -/
theorem Inv.acc (hwf : st.WellFormed) (hacyclic : Acyclic st.Req) (asksReplace : ℕ → Bool) {s : ConvergenceState}
    (h : st.Inv s.db s.agents) : Acc (fun s'' s' => ∃ i, st.step asksReplace s' i = some s'') s := by
  have hlex : WellFounded (Prod.Lex (· < ·) (· < ·) : ℕ × ℕ → ℕ × ℕ → Prop) := IsWellFounded.wf
  induction hm : st.measure s using hlex.induction generalizing s with
  | _ m ih =>
    subst hm
    refine Acc.intro s fun s' hs' => ?_
    obtain ⟨i, hstep⟩ := hs'
    exact ih _ (h.measure_lt hwf hstep) (h.step hwf hacyclic hstep) rfl

/-! ## 3. The traversal -/

theorem LogOrdered.isKey {log : List TraversalEvent} (h : st.LogOrdered log)
    (hk : 0 < doneCount (some k) log) : st.IsKey k := by
  induction log with
  | nil => exact absurd hk (Nat.lt_irrefl 0)
  | cons e log ih =>
    rw [doneCount_cons] at hk
    cases e with
    | markComplete =>
      rw [show TraversalEvent.target .markComplete = none from rfl, if_neg nofun] at hk
      exact ih h.2 hk
    | checked k' d =>
      by_cases heq : some k' = some k
      · cases heq
        exact h.1.1
      · rw [show TraversalEvent.target (.checked k' d) = some k' from rfl, if_neg heq] at hk
        exact ih h.2 hk

theorem Inv.once {db : ConvergenceDb} {agents : List Agent} (h : st.Inv db agents) (t : Option GraphKey) :
    doneCount t db.log ≤ 1 := by
  by_cases hzero : doneCount t db.log = 0
  · omega
  · have htarget : st.IsTarget t := by
      rintro k rfl
      exact h.ordered.isKey (Nat.pos_of_ne_zero hzero)
    have htoken := h.token t htarget
    split at htoken <;> omega

/-- **When nothing is left to do, everything has been done.** -/
theorem Inv.finished {db : ConvergenceDb} (h : st.Inv db []) (hacyclic : Acyclic st.Req) :
    (∀ k, st.IsKey k → doneCount (some k) db.log = 1) ∧ doneCount none db.log = 1 := by
  have hwritten : ∀ t, st.IsTarget t → (∀ k ∈ st.preds t, 0 < doneCount (some k) db.log) → doneCount t db.log = 1 := by
    intro t ht hall
    have htoken := h.token t ht
    have hfull : st.Full db t := fun k hk => by
      by_contra hnot
      have hedge := h.edge k t (st.mem_targets.mpr hk)
      rw [if_neg hnot] at hedge
      have hpos := hall k hk
      rw [← hedge] at hpos
      exact Nat.lt_irrefl 0 hpos
    rw [if_pos hfull] at htoken
    exact (Nat.zero_add _).symm.trans htoken
  have hkeys : ∀ k, st.IsKey k → doneCount (some k) db.log = 1 := by
    by_contra hnot
    push Not at hnot
    obtain ⟨k, hk, hne⟩ := hnot
    have hmem : k ∈ (st.graph.map Prod.fst).filter fun a => doneCount (some a) db.log ≠ 1 :=
      mem_filter.mpr ⟨Dict.mem_keys_iff.mpr hk, decide_eq_true hne⟩
    obtain ⟨m, hm, hmin⟩ := hacyclic.exists_minimal (ne_nil_of_mem hmem)
    obtain ⟨hkey, hm⟩ := mem_filter.mp hm
    refine of_decide_eq_true hm (hwritten (some m) ?_ fun r hr => ?_)
    · intro a ha
      cases Option.mem_some.mp ha
      exact Dict.mem_keys_iff.mp hkey
    · have hreq := st.mem_preds.mp hr
      by_contra hzero
      refine hmin r (mem_filter.mpr ⟨Dict.mem_keys_iff.mpr (st.isKey_of_req hreq).2, decide_eq_true ?_⟩) hreq
      omega
  refine ⟨hkeys, hwritten none nofun fun k hk => ?_⟩
  rw [hkeys k (st.isKey_of_mem_preds hk)]
  exact Nat.one_pos

/-- What a traversal has to do in a state of it. -/
structure Exact (st : Convergence) (s : ConvergenceState) : Prop where
  /-- a node comes after what it requires and the end after every node, each with the input data of all that it requires -/
  ordered : st.LogOrdered s.db.log
  once : ∀ t, doneCount t s.db.log ≤ 1
  finished : s.agents = [] → (∀ k, st.IsKey k → doneCount (some k) s.db.log = 1) ∧ doneCount none s.db.log = 1

/-- **Every run of a traversal is exact, and none goes on for ever.** -/
theorem traversal_exact (hwf : st.WellFormed) (hacyclic : Acyclic st.Req) (hcurrent : st.Current) (asksReplace : ℕ → Bool)
    {s : ConvergenceState} (h : Reach (st.step asksReplace) (fun _ _ => True) st.start s) :
    st.Exact s ∧ Acc (fun s'' s' => ∃ i, st.step asksReplace s' i = some s'') s := by
  have hinv : st.Inv s.db s.agents :=
    h.invariant (I := fun s => st.Inv s.db s.agents) (Inv.start hwf hacyclic hcurrent) fun _ _ _ ht _ hstep =>
      ht.step hwf hacyclic hstep
  refine ⟨⟨hinv.ordered, hinv.once, fun hempty => ?_⟩, hinv.acc hwf hacyclic asksReplace⟩
  rw [hempty] at hinv
  exact hinv.finished hacyclic

/-- The first resource is to be replaced, and the second requires it. -/
def replacingStack : Convergence where
  templateId := 2
  prevRawTemplateId := some 1
  dependencies := [("second", some "first")]
  existing := [⟨1, "first", 1, [], none, none, false⟩, ⟨2, "second", 1, [1], none, none, false⟩]
  nextId := 3

theorem traversal_exact_replacing : ∃ s, Reach (replacingStack.step fun id => id == 1) (fun _ _ => True) replacingStack.start s ∧
    s.agents = [] ∧ replacingStack.Exact s := by
  obtain ⟨s, hs, hempty⟩ : ∃ s, replay (replacingStack.step fun id => id == 1) (fun _ _ => True) replacingStack.start
      (replicate 24 0) = some s ∧ s.agents = [] := ⟨_, rfl, rfl⟩
  have hreach := Reach.of_replay hs
  refine ⟨s, hreach, hempty, (traversal_exact ⟨by decide, by decide, by decide⟩ ?_ ?_ _ hreach).1⟩
  · refine Acyclic.of_rank (fun k => if k.2 then k.1 else 6 - k.1) fun a b h => ?_
    have hall : ∀ e ∈ replacingStack.convgEdges, ∀ r ∈ e.2,
        (if r.2 then r.1 else 6 - r.1) < if e.1.2 then e.1.1 else 6 - e.1.1 := by decide
    exact hall _ h b rfl
  · rw [Current]
    decide

/-- The server has been replaced under a template that was overtaken twice. -/
def overtakenStack : Convergence where
  templateId := 4
  prevRawTemplateId := some 3
  dependencies := [("server", none)]
  existing := [⟨1, "server", 1, [], none, some 2, false⟩, ⟨2, "server", 2, [], some 1, none, true⟩]
  nextId := 3

/-- The update of the row that was replaced is dropped, and the stack is never complete. -/
theorem overtaken_hangs : overtakenStack.WellFormed ∧ Acyclic overtakenStack.Req ∧
    ∃ s, Reach (overtakenStack.step fun _ => false) (fun _ _ => True) overtakenStack.start s ∧ s.agents = [] ∧
      overtakenStack.IsKey (1, true) ∧ doneCount (some (1, true)) s.db.log = 0 ∧ doneCount none s.db.log = 0 := by
  refine ⟨⟨by decide, by decide, by decide⟩, ?_, ?_⟩
  · refine Acyclic.of_rank (fun k => if k.2 then 0 else 3 - k.1) fun a b h => ?_
    have hall : ∀ e ∈ overtakenStack.convgEdges, ∀ r ∈ e.2,
        (if r.2 then 0 else 3 - r.1) < if e.1.2 then 0 else 3 - e.1.1 := by decide
    exact hall _ h b rfl
  · obtain ⟨s, hs, hempty, hnode, hstack⟩ : ∃ s, replay (overtakenStack.step fun _ => false) (fun _ _ => True)
        overtakenStack.start (replicate 6 0) = some s ∧ s.agents = [] ∧ doneCount (some (1, true)) s.db.log = 0 ∧
        doneCount none s.db.log = 0 := ⟨_, rfl, rfl, rfl, rfl⟩
    exact ⟨s, Reach.of_replay hs, hempty, by decide, hnode, hstack⟩

end Convergence

end Mitaka.Heat
