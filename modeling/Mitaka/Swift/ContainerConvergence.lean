/-
  Subject: Container listings converge: the object table, its hash and its
           statistics depend on the set of records delivered, not on the way.

  `Audited` is what the triggers keep: the hash and the statistics are those of the
  rows. `Reflects` is what a run of `merge_items` calls keeps: every row is the
  outcome (`Latest`) of the records of its name and policy delivered so far. Both
  are step lemmas about one call and run lemmas by induction on the calls.
-/
import Mitaka.Swift.ContainerMerge

namespace Mitaka.Swift

open List

/-! ## 1. The accounts of the triggers -/

/-- What a row adds to the hash. -/
def rowHash (md5 : Str → BitVec 128) (r : ObjectRow) : BitVec 128 :=
  md5 (r.name ++ '-' :: r.createdAt)

/-- The hash of a table. -/
def tableHash (md5 : Str → BitVec 128) (rows : List ObjectRow) : BitVec 128 :=
  rows.foldr (fun r h => rowHash md5 r ^^^ h) 0

/-- The object count and the bytes used of a policy. -/
def tableStat (p : Nat) (rows : List ObjectRow) : Int × Int :=
  (((rows.filter (·.storagePolicyIndex = p)).map fun r => 1 - (r.deleted.toNat : Int)).sum,
    ((rows.filter (·.storagePolicyIndex = p)).map (·.size)).sum)

theorem tableHash_cons (md5 : Str → BitVec 128) (r : ObjectRow) (l : List ObjectRow) :
    tableHash md5 (r :: l) = rowHash md5 r ^^^ tableHash md5 l := rfl

theorem tableHash_append (md5 : Str → BitVec 128) (l l' : List ObjectRow) :
    tableHash md5 (l ++ l') = tableHash md5 l ^^^ tableHash md5 l' := by
  induction l with
  | nil => simp [tableHash]
  | cons r l ih =>
    rw [cons_append, tableHash_cons, tableHash_cons, ih, BitVec.xor_assoc]

theorem tableHash_perm (md5 : Str → BitVec 128) {l l' : List ObjectRow} (h : l.Perm l') :
    tableHash md5 l = tableHash md5 l' := by
  induction h with
  | nil => rfl
  | cons r _ ih => exact congrArg (rowHash md5 r ^^^ ·) ih
  | swap r r' l =>
    simp only [tableHash_cons, ← BitVec.xor_assoc]
    rw [BitVec.xor_comm (rowHash md5 r')]
  | trans _ _ ih1 ih2 => exact ih1.trans ih2

theorem tableStat_append (p : Nat) (l l' : List ObjectRow) :
    tableStat p (l ++ l') = tableStat p l + tableStat p l' := by
  simp [tableStat, filter_append, map_append, sum_append]

theorem tableStat_perm (p : Nat) {l l' : List ObjectRow} (h : l.Perm l') :
    tableStat p l = tableStat p l' := by
  have hf := h.filter fun r => decide (r.storagePolicyIndex = p)
  exact Prod.ext (hf.map _).sum_eq (hf.map _).sum_eq

/-- **The hash and the statistics are those of the rows**, and no row is of a policy
    without statistics. -/
structure Audited (md5 : Str → BitVec 128) (db : ContainerDb) : Prop where
  hash : db.hash = tableHash md5 db.rows
  stat : ∀ p c, db.policyStat.get p = some c → c = tableStat p db.rows
  keys : ∀ r ∈ db.rows, (db.policyStat.get r.storagePolicyIndex).isSome = true

variable {md5 : Str → BitVec 128} {db : ContainerDb}

theorem audited_fresh (id : Str) (p : Nat) : Audited md5 (ContainerDb.fresh id p) := by
  refine ⟨rfl, fun q c hq => ?_, by simp [ContainerDb.fresh]⟩
  have hq' : Dict.get [(p, ((0 : Int), (0 : Int)))] q = some c := hq
  rw [Dict.get_cons] at hq'
  split at hq'
  · exact (Option.some.inj hq').symm
  · cases hq'

theorem get_insertPolicyStat (stat : Dict Nat (Int × Int)) (r : ObjectRecord) (p : Nat) :
    (insertPolicyStat stat r).get p =
      if r.storagePolicyIndex = p then
        some ((stat.get p).getD 0 + (1 - (r.deleted.toNat : Int), r.size))
      else stat.get p := by
  unfold insertPolicyStat
  cases hs : stat.get r.storagePolicyIndex with
  | none =>
    dsimp only
    rw [Dict.get_set]
    by_cases hp : r.storagePolicyIndex = p
    · subst hp
      simp [hs]
    · rw [if_neg hp, if_neg hp]
  | some c =>
    dsimp only
    rw [Dict.get_set]
    by_cases hp : r.storagePolicyIndex = p
    · subst hp
      rw [if_pos rfl, if_pos rfl, hs]
      rfl
    · rw [if_neg hp, if_neg hp]

theorem get_deletePolicyStat (stat : Dict Nat (Int × Int)) (r : ObjectRecord) (p : Nat) :
    (deletePolicyStat stat r).get p =
      if r.storagePolicyIndex = p then
        (stat.get p).map fun c => c - (1 - (r.deleted.toNat : Int), r.size)
      else stat.get p := by
  unfold deletePolicyStat
  cases hs : stat.get r.storagePolicyIndex with
  | none =>
    by_cases hp : r.storagePolicyIndex = p
    · subst hp
      simp [hs]
    · rw [if_neg hp]
  | some c =>
    dsimp only
    rw [Dict.get_set]
    by_cases hp : r.storagePolicyIndex = p
    · subst hp
      rw [if_pos rfl, if_pos rfl, hs]
      rfl
    · rw [if_neg hp, if_neg hp]

theorem tableStat_singleton (p : Nat) (r : ObjectRow) :
    tableStat p [r] = if r.storagePolicyIndex = p then (1 - (r.deleted.toNat : Int), r.size) else 0 := by
  unfold tableStat
  by_cases h : r.storagePolicyIndex = p
  · simp [h]
  · simp [h]

theorem tableStat_eq_zero {p : Nat} {l : List ObjectRow} (h : ∀ r ∈ l, r.storagePolicyIndex ≠ p) :
    tableStat p l = 0 := by
  have hnil : l.filter (fun r => decide (r.storagePolicyIndex = p)) = [] :=
    filter_eq_nil_iff.mpr fun r hr => by simpa using h r hr
  rw [tableStat, hnil]
  rfl

/-- Inserting a row keeps the accounts. -/
theorem audited_insertRow (h : Audited md5 db) (r : ObjectRecord) :
    Audited md5 (insertRow md5 db r) := by
  refine ⟨?_, fun p c hc => ?_, fun q hq => ?_⟩
  · show chexor md5 db.hash r.name r.createdAt = tableHash md5 (db.rows ++ [_])
    rw [tableHash_append, h.hash, chexor]
    simp [tableHash, rowHash]
  · have hc' : (insertPolicyStat db.policyStat r).get p = some c := hc
    show c = tableStat p (db.rows ++ [_])
    rw [get_insertPolicyStat] at hc'
    rw [tableStat_append, tableStat_singleton]
    by_cases hp : r.storagePolicyIndex = p
    · rw [if_pos hp] at hc' ⊢
      have hold : (db.policyStat.get p).getD 0 = tableStat p db.rows := by
        cases hg : db.policyStat.get p with
        | none =>
          refine (tableStat_eq_zero fun q hq hqp => ?_).symm
          have hsome := h.keys q hq
          rw [hqp, hg] at hsome
          cases hsome
        | some c => exact h.stat p c hg
      rw [← Option.some.inj hc', hold]
    · rw [if_neg hp] at hc' ⊢
      rw [h.stat p c hc', add_zero]
  · have hq' : q ∈ db.rows ++ [_] := hq
    show ((insertPolicyStat db.policyStat r).get q.storagePolicyIndex).isSome = true
    rw [get_insertPolicyStat]
    rcases mem_append.mp hq' with hq' | hq'
    · split
      · rfl
      · exact h.keys q hq'
    · rw [mem_singleton.mp hq', if_pos rfl]
      rfl

/-- The delete triggers of a list of rows. -/
theorem foldl_deleteTrigger (md5 : Str → BitVec 128) (l : List ObjectRow) (d : ContainerDb) :
    (l.foldl (fun d r => deleteTrigger md5 d r.toObjectRecord) d).hash =
        d.hash ^^^ tableHash md5 l ∧
      ∀ p, (l.foldl (fun d r => deleteTrigger md5 d r.toObjectRecord) d).policyStat.get p =
        (d.policyStat.get p).map fun c => c - tableStat p l := by
  induction l generalizing d with
  | nil =>
    refine ⟨by simp [tableHash], fun p => ?_⟩
    rw [foldl_nil]
    cases d.policyStat.get p <;> simp [tableStat_eq_zero]
  | cons r l ih =>
    obtain ⟨h1, h2⟩ := ih (deleteTrigger md5 d r.toObjectRecord)
    refine ⟨?_, fun p => ?_⟩
    · rw [foldl_cons, h1, tableHash_cons]
      exact BitVec.xor_assoc ..
    · have hstat : tableStat p (r :: l) = tableStat p [r] + tableStat p l := tableStat_append p [r] l
      rw [foldl_cons, h2, hstat, tableStat_singleton]
      show ((deletePolicyStat d.policyStat r.toObjectRecord).get p).map _ = _
      rw [get_deletePolicyStat]
      by_cases hp : r.storagePolicyIndex = p
      · rw [if_pos hp, if_pos hp, Option.map_map]
        refine congrArg (fun f => Option.map f _) (funext fun c => ?_)
        exact sub_sub _ _ _
      · rw [if_neg hp, if_neg hp, zero_add]

/-- Deleting the rows of a name and policy keeps the accounts. -/
theorem audited_deleteIdent (h : Audited md5 db) (k : Ident) : Audited md5 (deleteIdent md5 db k) := by
  obtain ⟨h1, h2⟩ := foldl_deleteTrigger md5 (db.rows.filter (·.ident = k)) db
  have hperm : (db.rows.filter (·.ident = k) ++ db.rows.filter (·.ident ≠ k)).Perm db.rows := by
    have := filter_append_perm (fun r : ObjectRow => decide (r.ident = k)) db.rows
    simpa only [ne_eq, decide_not] using this
  have hsplit : tableHash md5 db.rows = tableHash md5 (db.rows.filter (·.ident = k)) ^^^
      tableHash md5 (db.rows.filter (·.ident ≠ k)) := by
    rw [← tableHash_append, tableHash_perm md5 hperm]
  refine ⟨?_, fun p c hc => ?_, fun r hr => ?_⟩
  · show (foldl _ db _).hash = tableHash md5 (db.rows.filter (·.ident ≠ k))
    rw [h1, h.hash, hsplit, BitVec.xor_comm, ← BitVec.xor_assoc, BitVec.xor_self, BitVec.zero_xor]
  · have hc' : (foldl _ db _).policyStat.get p = some c := hc
    rw [h2] at hc'
    obtain ⟨c0, hc0, rfl⟩ := Option.map_eq_some_iff.mp hc'
    show c0 - _ = tableStat p (db.rows.filter (·.ident ≠ k))
    rw [h.stat p c0 hc0, ← tableStat_perm p hperm, tableStat_append, add_sub_cancel_left]
  · have hr' : r ∈ db.rows.filter (·.ident ≠ k) := hr
    show ((foldl _ db _).policyStat.get r.storagePolicyIndex).isSome = true
    rw [h2, Option.isSome_map]
    exact h.keys r (mem_filter.mp hr').1

/-- The policies that have statistics after a list of inserts. -/
theorem keys_foldl_insertRow (xs : List Item) (d : ContainerDb) (p : Nat) :
    ((xs.foldl (fun d rec => insertRow md5 d rec.toObjectRecord) d).policyStat.get p).isSome = true ↔
      (d.policyStat.get p).isSome = true ∨ ∃ x ∈ xs, x.storagePolicyIndex = p := by
  induction xs generalizing d with
  | nil => simp
  | cons x xs ih =>
    have hstep : (((insertRow md5 d x.toObjectRecord).policyStat).get p).isSome = true ↔
        (d.policyStat.get p).isSome = true ∨ x.storagePolicyIndex = p := by
      show ((insertPolicyStat d.policyStat x.toObjectRecord).get p).isSome = true ↔ _
      rw [get_insertPolicyStat]
      by_cases hp : x.storagePolicyIndex = p
      · simp [hp]
      · simp [hp]
    rw [foldl_cons, ih, hstep, or_assoc]
    simp

theorem keys_foldl_deleteIdent (xs : List Item) (d : ContainerDb) (p : Nat) :
    ((xs.foldl (fun d rec => deleteIdent md5 d rec.ident) d).policyStat.get p).isSome =
      (d.policyStat.get p).isSome := by
  induction xs generalizing d with
  | nil => rfl
  | cons x xs ih =>
    rw [foldl_cons, ih]
    show ((foldl _ d _).policyStat.get p).isSome = _
    rw [(foldl_deleteTrigger md5 _ d).2 p, Option.isSome_map]

variable {db' : ContainerDb}

/-- **A merge keeps the accounts**, and has statistics for the policies of its rows. -/
theorem audited_mergeItems {order : DictOrder} {items : List Item} {source : Option Str}
    (ha : Audited md5 db)
    (h : mergeItems md5 order db items source = some db') :
    Audited md5 db' ∧ ∀ p, (db'.policyStat.get p).isSome = true ↔
      (db.policyStat.get p).isSome = true ∨ ∃ r ∈ db'.rows, r.storagePolicyIndex = p := by
  have hdel : ∀ (xs : List Item) (d : ContainerDb), Audited md5 d →
      Audited md5 (xs.foldl (fun d rec => deleteIdent md5 d rec.ident) d) := by
    intro xs
    induction xs with
    | nil => exact fun d hd => hd
    | cons x xs ih => exact fun d hd => ih _ (audited_deleteIdent hd _)
  have hins : ∀ (xs : List Item) (d : ContainerDb), Audited md5 d →
      Audited md5 (xs.foldl (fun d rec => insertRow md5 d rec.toObjectRecord) d) := by
    intro xs
    induction xs with
    | nil => exact fun d hd => hd
    | cons x xs ih => exact fun d hd => ih _ (audited_insertRow hd _)
  unfold mergeItems at h
  cases hloop : items.foldlM (mergeStep (fetchRecords db items)) ([], []) with
  | none => rw [hloop] at h; cases h
  | some acc =>
    rw [hloop] at h
    dsimp only at h
    have hA := hins (order.values acc.2) _ (hdel (order.values acc.1) db ha)
    have hkeys : ∀ p, (((order.values acc.2).foldl (fun d rec => insertRow md5 d rec.toObjectRecord)
        ((order.values acc.1).foldl (fun d rec => deleteIdent md5 d rec.ident) db)).policyStat.get
          p).isSome = true ↔ (db.policyStat.get p).isSome = true ∨
        ∃ r ∈ ((order.values acc.2).foldl (fun d rec => insertRow md5 d rec.toObjectRecord)
          ((order.values acc.1).foldl (fun d rec => deleteIdent md5 d rec.ident) db)).rows,
          r.storagePolicyIndex = p := by
      intro p
      refine ⟨fun hp => ?_, fun hp => ?_⟩
      · rw [keys_foldl_insertRow, keys_foldl_deleteIdent] at hp
        refine hp.imp id fun ⟨x, hx, hxp⟩ => ?_
        obtain ⟨r, hr, he⟩ := exists_numbered (ContainerDb.seq
          ((order.values acc.1).foldl (fun d rec => deleteIdent md5 d rec.ident) db)) hx
        refine ⟨r, ?_, (congrArg ObjectRecord.storagePolicyIndex he).trans hxp⟩
        rw [(foldl_insertRow md5 _ _).1]
        exact mem_append_right _ hr
      · rcases hp with hp | ⟨r, hr, rfl⟩
        · rw [keys_foldl_insertRow, keys_foldl_deleteIdent]
          exact Or.inl hp
        · exact hA.keys r hr
    split at h
    · obtain rfl := Option.some.inj h
      exact ⟨hA, hkeys⟩
    · obtain rfl := Option.some.inj h
      exact ⟨hA, hkeys⟩
    · split at h
      · cases h
      · obtain ⟨point, -, rfl⟩ := Option.map_eq_some_iff.mp h
        exact ⟨⟨hA.hash, hA.stat, hA.keys⟩, hkeys⟩

/-! ## 2. Runs of `merge_items` -/

/-- A sequence of calls, each a batch with the dict order of the call. -/
def deliver (md5 : Str → BitVec 128) (db : ContainerDb) (calls : List (DictOrder × List Item)) :
    Option ContainerDb :=
  calls.foldlM (fun db c => mergeItems md5 c.1 db c.2 none) db

/-- **Every row is the outcome of the records delivered so far**, `done`. -/
structure Reflects (md5 : Str → BitVec 128) (p0 : Nat) (done : List Item) (db : ContainerDb) :
    Prop where
  wellFormed : db.WellFormed
  audited : Audited md5 db
  idents : ∀ k, (∃ r ∈ db.rows, r.ident = k) ↔ ∃ x ∈ done, x.ident = k
  latest : ∀ r ∈ db.rows, ∃ s, stamps r.createdAt = some s ∧
    Latest (itemEntries done r.ident) s r.attrs
  policies : ∀ p, (db.policyStat.get p).isSome = true ↔ p = p0 ∨ ∃ r ∈ db.rows, r.storagePolicyIndex = p

theorem reflects_fresh (md5 : Str → BitVec 128) (id : Str) (p : Nat) : Reflects md5 p [] (ContainerDb.fresh id p) := by
  refine ⟨wellFormed_fresh id p, audited_fresh id p, fun k => ?_, fun r hr => ?_, fun q => ?_⟩
  · simp [ContainerDb.fresh]
  · exact absurd hr not_mem_nil
  · show (Dict.get [(p, ((0 : Int), (0 : Int)))] q).isSome = true ↔ _
    rw [Dict.get_cons]
    by_cases h : p = q
    · simp [h]
    · simp [h, Ne.symm h, ContainerDb.fresh]

theorem itemEntries_append' (done items : List Item) (k : Ident) :
    itemEntries (done ++ items) k = itemEntries done k ∪ itemEntries items k := by
  refine Set.ext fun c => ⟨fun ⟨x, hx, h⟩ => ?_, fun h => ?_⟩
  · rcases mem_append.mp hx with hx | hx
    · exact Or.inl ⟨x, hx, h⟩
    · exact Or.inr ⟨x, hx, h⟩
  · rcases h with ⟨x, hx, h⟩ | ⟨x, hx, h⟩
    · exact ⟨x, mem_append_left _ hx, h⟩
    · exact ⟨x, mem_append_right _ hx, h⟩

/-- One call keeps `Reflects`. -/
theorem Reflects.step {p0 : Nat} {done items : List Item} (h : Reflects md5 p0 done db)
    {order : DictOrder} {source : Option Str}
    (hstep : mergeItems md5 order db items source = some db') :
    Reflects md5 p0 (done ++ items) db' := by
  obtain ⟨adds, hm⟩ := merged_mergeItems h.wellFormed hstep
  obtain ⟨haud, hpol⟩ := audited_mergeItems h.audited hstep
  refine ⟨hm.wellFormed h.wellFormed, haud, fun k => ?_, fun r hr => ?_, fun p => ?_⟩
  · rw [hm.idents_iff, h.idents]
    simp only [mem_append, or_and_right, exists_or]
  · obtain ⟨s, hs, hl⟩ := hm.latest_row h.wellFormed hr
    refine ⟨s, hs, ?_⟩
    rw [itemEntries_append']
    by_cases hrow : ∃ r' ∈ db.rows, r'.ident = r.ident
    · -- the row before stands for the records delivered before
      obtain ⟨r', hr', he⟩ := hrow
      obtain ⟨t, ht, hl'⟩ := h.latest r' hr'
      have hone : rowEntries db r.ident = {(t, r'.attrs)} := by
        refine Set.ext fun c => ⟨fun ⟨r2, hr2, he2, h1, h2⟩ => ?_, fun hc => ?_⟩
        · obtain rfl := row_unique h.wellFormed hr2 hr' (he2.trans he.symm)
          exact Prod.ext (Option.some.inj (h1.symm.trans ht)) h2.symm
        · obtain rfl := Set.mem_singleton_iff.mp hc
          exact ⟨r', hr', he, ht, rfl⟩
      rw [hone] at hl
      rw [← he]
      exact (he ▸ hl).flatten hl'
    · have hrows : rowEntries db r.ident = ∅ :=
        Set.eq_empty_iff_forall_notMem.mpr fun c ⟨r', hr', he, _⟩ => hrow ⟨r', hr', he⟩
      have hdone : itemEntries done r.ident = ∅ :=
        Set.eq_empty_iff_forall_notMem.mpr fun c ⟨x, hx, he, _⟩ => hrow ((h.idents _).mpr ⟨x, hx, he⟩)
      rwa [hdone, ← hrows]
  · rw [hpol p, h.policies]
    refine ⟨fun hp => ?_, fun hp => hp.elim (fun hp => Or.inl (Or.inl hp)) Or.inr⟩
    rcases hp with (rfl | ⟨r, hr, rfl⟩) | hp
    · exact Or.inl rfl
    · obtain ⟨r', hr', he⟩ := hm.idents_iff.mpr (Or.inl ⟨r, hr, rfl⟩)
      exact Or.inr ⟨r', hr', congrArg Prod.snd he⟩
    · exact Or.inr hp

/-- **A whole run keeps `Reflects`**, and parsable records make it go through. -/
theorem Reflects.deliver {p0 : Nat} {done : List Item} (h : Reflects md5 p0 done db)
    {calls : List (DictOrder × List Item)}
    (hx : ∀ c ∈ calls, ∀ x ∈ c.2, x.stamps.isSome = true) :
    ∃ db', Swift.deliver md5 db calls = some db' ∧
      Reflects md5 p0 (done ++ calls.flatMap Prod.snd) db' := by
  induction calls generalizing done db with
  | nil => exact ⟨db, rfl, by simpa using h⟩
  | cons c calls ih =>
    obtain ⟨db1, h1⟩ := mergeItems_isSome md5 c.1 h.wellFormed (hx c mem_cons_self)
    obtain ⟨db', h2, h3⟩ := ih (h.step h1) fun c' hc' => hx c' (mem_cons_of_mem _ hc')
    refine ⟨db', ?_, ?_⟩
    · rw [Swift.deliver, foldlM_cons, h1]
      exact h2
    · rwa [flatMap_cons, ← append_assoc]

/-! ## 3. Convergence -/

/-- What a listing shows of a row: name and policy, `created_at`, and what goes
    with the data timestamp. -/
def ObjectRow.tuple (r : ObjectRow) : Ident × Str × Attrs := (r.ident, r.createdAt, r.attrs)

/-- The calls deliver the records of `S`, each at least once, and no others. -/
def Delivers (calls : List (DictOrder × List Item)) (S : Set Item) : Prop :=
  ∀ x, (∃ c ∈ calls, x ∈ c.2) ↔ x ∈ S

/-- Every record of `S` parses, and records of one name, policy and data timestamp
    agree on size, etag and the deleted flag. -/
structure Coherent (S : Set Item) : Prop where
  parses : ∀ x ∈ S, x.stamps.isSome = true
  agree : ∀ x ∈ S, ∀ y ∈ S, x.ident = y.ident → ∀ s t, x.stamps = some s → y.stamps = some t →
    s.1 = t.1 → x.attrs = y.attrs

theorem Coherent.agree_entries {S : Set Item} (hS : Coherent S) {done : List Item}
    (hd : ∀ x ∈ done, x ∈ S) (k : Ident) : Agree (itemEntries done k) := by
  rintro c ⟨x, hx, hxk, hxs, hxa⟩ d ⟨y, hy, hyk, hys, hya⟩ he
  rw [← hxa, ← hya]
  exact hS.agree x (hd x hx) y (hd y hy) (hxk.trans hyk.symm) c.1 d.1 hxs hys he

/-- Two databases that reflect the same records have the same tuples. -/
theorem Reflects.tuple_mem {p p' : Nat} {done done' : List Item} {S : Set Item}
    (hS : Coherent S) (hd : ∀ x, x ∈ done ↔ x ∈ S) (hd' : ∀ x, x ∈ done' ↔ x ∈ S)
    (h : Reflects md5 p done db) (h' : Reflects md5 p' done' db') {r : ObjectRow} (hr : r ∈ db.rows) :
    r.tuple ∈ db'.rows.map ObjectRow.tuple := by
  have hmem : ∀ x, x ∈ done ↔ x ∈ done' := fun x => (hd x).trans (hd' x).symm
  obtain ⟨x, hx, hxk⟩ := (h.idents r.ident).mp ⟨r, hr, rfl⟩
  obtain ⟨r', hr', he⟩ := (h'.idents r.ident).mpr ⟨x, (hmem x).mp hx, hxk⟩
  have hent : itemEntries done' r'.ident = itemEntries done r.ident := by
    rw [he]
    refine Set.ext fun c => ⟨fun ⟨y, hy, hc⟩ => ⟨y, (hmem y).mpr hy, hc⟩, fun ⟨y, hy, hc⟩ =>
      ⟨y, (hmem y).mp hy, hc⟩⟩
  obtain ⟨s, hs, hl⟩ := h.latest r hr
  obtain ⟨t, ht, hl'⟩ := h'.latest r' hr'
  rw [hent] at hl'
  obtain ⟨rfl, hattrs⟩ := hl.unique (hS.agree_entries (fun x hx => (hd x).mp hx) _) hl'
  have hcreated : r.createdAt = r'.createdAt :=
    (h.wellFormed.canonical r hr).ext (h'.wellFormed.canonical r' hr') (hs.trans ht.symm)
  refine List.mem_map.mpr ⟨r', hr', ?_⟩
  rw [ObjectRow.tuple, ObjectRow.tuple, he, hcreated, hattrs]

theorem nodup_tuples (hwf : db.WellFormed) : (db.rows.map ObjectRow.tuple).Nodup := by
  refine Nodup.of_map Prod.fst ?_
  rw [List.map_map]
  exact hwf.idents

/-- The hash of a table is that of its tuples, and so are the statistics. -/
theorem accounts_perm (md5 : Str → BitVec 128) {rows rows' : List ObjectRow}
    (h : (rows.map ObjectRow.tuple).Perm (rows'.map ObjectRow.tuple)) :
    tableHash md5 rows = tableHash md5 rows' ∧ ∀ p, tableStat p rows = tableStat p rows' := by
  refine ⟨?_, fun p => ?_⟩
  · let step := fun (t : Ident × Str × Attrs) (acc : BitVec 128) => md5 (t.1.1 ++ '-' :: t.2.1) ^^^ acc
    have htuple : ∀ l : List ObjectRow, tableHash md5 l = (l.map ObjectRow.tuple).foldr step 0 := by
      intro l
      rw [foldr_map]
      rfl
    rw [htuple, htuple]
    refine h.foldr_eq' (fun t _ u _ acc => ?_) 0
    show _ ^^^ (_ ^^^ acc) = _ ^^^ (_ ^^^ acc)
    rw [← BitVec.xor_assoc, ← BitVec.xor_assoc, BitVec.xor_comm (md5 (t.1.1 ++ '-' :: t.2.1))]
  · have htuple : ∀ l : List ObjectRow, tableStat p l =
        ((((l.map ObjectRow.tuple).filter (·.1.2 = p)).map fun t => 1 - (t.2.2.2.2.toNat : Int)).sum,
          (((l.map ObjectRow.tuple).filter (·.1.2 = p)).map (·.2.2.1)).sum) := by
      intro l
      rw [List.filter_map, List.map_map, List.map_map]
      rfl
    rw [htuple, htuple]
    have hf := h.filter fun t => decide (t.1.2 = p)
    exact Prod.ext (hf.map _).sum_eq (hf.map _).sum_eq

/-- The policies with statistics are those of the tuples. -/
theorem Reflects.stat_eq {p : Nat} {done done' : List Item}
    (h : Reflects md5 p done db) (h' : Reflects md5 p done' db')
    (htup : ∀ t, t ∈ db.rows.map ObjectRow.tuple ↔ t ∈ db'.rows.map ObjectRow.tuple)
    (hstat : ∀ q, tableStat q db.rows = tableStat q db'.rows) (q : Nat) :
    db.policyStat.get q = db'.policyStat.get q := by
  have hpol : ∀ {d d' : ContainerDb}, (∀ t, t ∈ d.rows.map ObjectRow.tuple →
      t ∈ d'.rows.map ObjectRow.tuple) → (∃ r ∈ d.rows, r.storagePolicyIndex = q) →
      ∃ r ∈ d'.rows, r.storagePolicyIndex = q := by
    intro d d' hsub ⟨r, hr, hq⟩
    obtain ⟨r', hr', he⟩ := List.mem_map.mp (hsub _ (List.mem_map_of_mem hr))
    exact ⟨r', hr', (congrArg (fun t => t.1.2) he).trans hq⟩
  have hsome : (db.policyStat.get q).isSome = true ↔ (db'.policyStat.get q).isSome = true := by
    rw [h.policies, h'.policies]
    exact or_congr_right ⟨hpol fun t => (htup t).mp, hpol fun t => (htup t).mpr⟩
  cases hq : db.policyStat.get q with
  | none =>
    rw [hq] at hsome
    cases hq' : db'.policyStat.get q with
    | none => rfl
    | some c => rw [hq'] at hsome; exact absurd (hsome.mpr rfl) (by simp)
  | some c =>
    rw [hq] at hsome
    obtain ⟨c', hc'⟩ := Option.isSome_iff_exists.mp (hsome.mp rfl)
    rw [hc', h.audited.stat q c hq, h'.audited.stat q c' hc', hstat]

/-- **Container listings converge**: two ways of delivering the same records to new
    databases leave the same tuples, one row for a name and policy, and with them
    the same hash and the same statistics. -/
theorem listings_converge (md5 : Str → BitVec 128) {S : Set Item} (hS : Coherent S) (id id' : Str)
    (p : Nat) {calls calls' : List (DictOrder × List Item)} (hc : Delivers calls S)
    (hc' : Delivers calls' S) :
    ∃ db db', deliver md5 (ContainerDb.fresh id p) calls = some db ∧
      deliver md5 (ContainerDb.fresh id' p) calls' = some db' ∧
      (∀ t, t ∈ db.rows.map ObjectRow.tuple ↔ t ∈ db'.rows.map ObjectRow.tuple) ∧
      (db.rows.map fun r => r.ident).Nodup ∧ (db'.rows.map fun r => r.ident).Nodup ∧
      db.hash = db'.hash ∧ ∀ q, db.policyStat.get q = db'.policyStat.get q := by
  have hmem : ∀ {calls : List (DictOrder × List Item)}, Delivers calls S →
      ∀ x, x ∈ [] ++ calls.flatMap Prod.snd ↔ x ∈ S := fun hc x => by
    rw [nil_append, mem_flatMap]
    exact hc x
  have hparse : ∀ {calls : List (DictOrder × List Item)}, Delivers calls S →
      ∀ c ∈ calls, ∀ x ∈ c.2, x.stamps.isSome = true := fun hc c hcc x hx =>
    hS.parses x ((hc x).mp ⟨c, hcc, hx⟩)
  obtain ⟨db, hdb, h⟩ := (reflects_fresh md5 id p).deliver (hparse hc)
  obtain ⟨db', hdb', h'⟩ := (reflects_fresh md5 id' p).deliver (hparse hc')
  have htup : ∀ t, t ∈ db.rows.map ObjectRow.tuple ↔ t ∈ db'.rows.map ObjectRow.tuple := by
    refine fun t => ⟨fun ht => ?_, fun ht => ?_⟩
    · obtain ⟨r, hr, rfl⟩ := List.mem_map.mp ht
      exact h.tuple_mem hS (hmem hc) (hmem hc') h' hr
    · obtain ⟨r, hr, rfl⟩ := List.mem_map.mp ht
      exact h'.tuple_mem hS (hmem hc') (hmem hc) h hr
  have hperm := (perm_ext_iff_of_nodup (nodup_tuples h.wellFormed)
    (nodup_tuples h'.wellFormed)).mpr htup
  obtain ⟨hhash, hstat⟩ := accounts_perm md5 hperm
  refine ⟨db, db', hdb, hdb', htup, h.wellFormed.idents, h'.wellFormed.idents, ?_, fun q => ?_⟩
  · rw [h.audited.hash, h'.audited.hash, hhash]
  · exact h.stat_eq h' htup hstat q

/-- An object put at 1 and put again at 2, as records, and their md5 sums. -/
def putFirst : Item :=
  ⟨⟨"o".toList, "0000000001.00000".toList, 5, [], "e1".toList, false, 0⟩, none, none, none, none⟩

def putAgain : Item :=
  ⟨⟨"o".toList, "0000000002.00000".toList, 7, [], "e2".toList, false, 0⟩, none, none, none, none⟩

def putMd5 (s : Str) : BitVec 128 :=
  if s = "o-0000000001.00000".toList then 0x74930d4241dd50160de5da0a94a90443#128
  else if s = "o-0000000002.00000".toList then 0x083d14de6b41781048ed06ccb05afed4#128
  else 0

/-- The two records in one batch, and in two batches that turn them round and repeat
    one. -/
theorem listings_converge_put_twice :
    ∃ db db', deliver putMd5 (ContainerDb.fresh "a".toList 0)
        [(DictOrder.insertion, [putFirst, putAgain])] = some db ∧
      deliver putMd5 (ContainerDb.fresh "b".toList 0)
        [(DictOrder.insertion, [putAgain]), (DictOrder.insertion, [putFirst, putFirst])] = some db' ∧
      (∀ t, t ∈ db.rows.map ObjectRow.tuple ↔ t ∈ db'.rows.map ObjectRow.tuple) ∧
      db.hash = db'.hash := by
  have hparse : ∀ x ∈ [putFirst, putAgain], x.stamps.isSome = true := by decide +kernel
  have hagree : ∀ x ∈ [putFirst, putAgain], ∀ y ∈ [putFirst, putAgain],
      x.stamps.map (·.1) = y.stamps.map (·.1) → x.attrs = y.attrs := by decide +kernel
  have hS : Coherent {x | x ∈ [putFirst, putAgain]} := ⟨hparse, fun x hx y hy _ s t hs ht he =>
    hagree x hx y hy (by rw [hs, ht]; exact congrArg some he)⟩
  have hc : Delivers [(DictOrder.insertion, [putFirst, putAgain])] {x | x ∈ [putFirst, putAgain]} := by
    intro x
    simp
  have hc' : Delivers [(DictOrder.insertion, [putAgain]), (DictOrder.insertion, [putFirst, putFirst])]
      {x | x ∈ [putFirst, putAgain]} := by
    intro x
    simp [or_comm]
  obtain ⟨db, db', h, h', htup, -, -, hhash, -⟩ :=
    listings_converge putMd5 hS "a".toList "b".toList 0 hc hc'
  exact ⟨db, db', h, h', htup, hhash⟩

end Mitaka.Swift
