/-
  Subject: What `merge_items` does to the object table.

  The loop over the items keeps `MergeInv`: an entry of `to_add` is the outcome of
  the existing record and all items of its name and policy so far, an item that is
  not in `to_add` was answered for by the existing record. `Merged` says once what a
  call does to the database (`merged_mergeItems`). From it:

  * `Merged.latest_row`: every row afterwards is the outcome of the row before and
    the items of its name and policy.
  * `Merged.rowid`: a row afterwards is a row before or has a new ROWID.
  * `Merged.wellFormed`: the table stays well formed.
-/
import Mitaka.Swift.ContainerBroker

namespace Mitaka.Swift

open List

/-! ## 1. Well-formed databases -/

/-- ROWIDs increase along the table and come from the sequence, no name and policy
    has two rows, and every `created_at` was printed by `encode_timestamps`. -/
structure ContainerDb.WellFormed (db : ContainerDb) : Prop where
  sorted : db.rows.Pairwise fun r r' => r.rowid < r'.rowid
  bound : ∀ r ∈ db.rows, 0 < r.rowid ∧ r.rowid ≤ db.seq
  idents : (db.rows.map fun r => r.ident).Nodup
  canonical : ∀ r ∈ db.rows, Canonical r.createdAt

theorem wellFormed_fresh (id : Str) (p : Nat) : (ContainerDb.fresh id p).WellFormed :=
  ⟨List.Pairwise.nil, by simp [ContainerDb.fresh], nodup_nil, by simp [ContainerDb.fresh]⟩

/-- What goes with a data timestamp. -/
abbrev Attrs := Int × Str × Bool

/-- The entry a stored record makes. -/
def RecordEntry (r : ObjectRecord) (c : Stamps × Attrs) : Prop :=
  stamps r.createdAt = some c.1 ∧ r.attrs = c.2

/-- The entry an item makes. -/
def ItemEntry (x : Item) (c : Stamps × Attrs) : Prop := x.stamps = some c.1 ∧ x.attrs = c.2

/-- The entries of the rows of one name and policy. -/
def rowEntries (db : ContainerDb) (k : Ident) : Set (Stamps × Attrs) :=
  {c | ∃ r ∈ db.rows, r.ident = k ∧ RecordEntry r.toObjectRecord c}

/-- The entries of the items of one name and policy. -/
def itemEntries (items : List Item) (k : Ident) : Set (Stamps × Attrs) :=
  {c | ∃ x ∈ items, x.ident = k ∧ ItemEntry x c}

theorem Canonical.stamps {s : Str} (h : Canonical s) : ∃ k, Swift.stamps s = some k := by
  obtain ⟨t1, t2, t3, rfl⟩ := h
  exact ⟨_, stamps_encodeStamps t1 t2 t3⟩

variable {x : Item}

theorem Covers.le {r : ObjectRecord} (h : Covers r x) {k j : Stamps}
    (hk : stamps r.createdAt = some k) (hj : x.stamps = some j) : j ≤ k := by
  obtain ⟨t, u, ht, hu, h1, h2, h3⟩ := h
  rw [stamps, ht] at hk
  rw [Item.stamps, hu] at hj
  obtain rfl := Option.some.inj hk
  obtain rfl := Option.some.inj hj
  exact ⟨h1, Timestamp.raw_le h2, Timestamp.raw_le h3⟩

theorem itemEntries_append (items : List Item) (x : Item) (k : Ident) :
    itemEntries (items ++ [x]) k = itemEntries items k ∪ {c | x.ident = k ∧ ItemEntry x c} := by
  refine Set.ext fun c => ⟨fun ⟨y, hy, h⟩ => ?_, fun h => ?_⟩
  · rcases mem_append.mp hy with hy | hy
    · exact Or.inl ⟨y, hy, h⟩
    · exact Or.inr (mem_singleton.mp hy ▸ h)
  · rcases h with ⟨y, hy, h⟩ | h
    · exact ⟨y, mem_append_left _ hy, h⟩
    · exact ⟨x, mem_append_right _ (mem_singleton_self x), h⟩

theorem itemEntry_eq {j : Stamps} (h : x.stamps = some j) :
    {c | ItemEntry x c} = {(j, x.attrs)} := by
  refine Set.ext fun c => ⟨fun ⟨h1, h2⟩ => ?_, fun hc => ?_⟩
  · exact Prod.ext (Option.some.inj (h1.symm.trans h)) h2.symm
  · obtain rfl := Set.mem_singleton_iff.mp hc
    exact ⟨h, rfl⟩

/-! ## 2. Looking up the existing records -/

theorem mem_argChunks {items : List Item} :
    (∃ c ∈ argChunks items, x ∈ c) ↔ x ∈ items := by
  unfold argChunks
  refine ⟨fun ⟨c, hc, hx⟩ => ?_, fun hx => ?_⟩
  · obtain ⟨i, -, rfl⟩ := List.mem_map.mp hc
    exact mem_of_mem_drop (mem_of_mem_take hx)
  · obtain ⟨n, hn, rfl⟩ := getElem_of_mem hx
    have hdiv := Nat.div_add_mod n SQLITE_ARG_LIMIT
    have hmod : n % SQLITE_ARG_LIMIT < SQLITE_ARG_LIMIT := Nat.mod_lt _ (by decide)
    have hchunk : n / SQLITE_ARG_LIMIT <
        (items.length + SQLITE_ARG_LIMIT - 1) / SQLITE_ARG_LIMIT := by
      unfold SQLITE_ARG_LIMIT
      omega
    refine ⟨_, List.mem_map_of_mem (mem_range.mpr hchunk), ?_⟩
    refine mem_iff_getElem.mpr ⟨n % SQLITE_ARG_LIMIT, ?_, ?_⟩
    · rw [length_take, length_drop]
      exact lt_min hmod (by omega)
    · rw [getElem_take, getElem_drop]
      congr 1

/-- Filling a dict with rows, of which no two of one name and policy differ. -/
theorem get_foldl_set {l : List ObjectRow}
    (h : ∀ r ∈ l, ∀ r' ∈ l, r.ident = r'.ident → r.toObjectRecord = r'.toObjectRecord)
    (d : Dict Ident ObjectRecord) :
    (∀ r ∈ l, (l.foldl (fun d r => d.set r.ident r.toObjectRecord) d).get r.ident =
      some r.toObjectRecord) ∧
    ∀ k, (∀ r ∈ l, r.ident ≠ k) →
      (l.foldl (fun d r => d.set r.ident r.toObjectRecord) d).get k = d.get k := by
  induction l generalizing d with
  | nil => simp
  | cons r l ih =>
    obtain ⟨ih1, ih2⟩ := ih (fun x hx y hy => h x (mem_cons_of_mem _ hx) y
      (mem_cons_of_mem _ hy)) (d.set r.ident r.toObjectRecord)
    refine ⟨fun x hx => ?_, fun k hk => ?_⟩
    · by_cases hin : ∃ y ∈ l, y.ident = x.ident
      · obtain ⟨y, hy, he⟩ := hin
        rw [foldl_cons, ← he, ih1 y hy, h y (mem_cons_of_mem _ hy) x hx he]
      · have hne : ∀ y ∈ l, y.ident ≠ x.ident := fun y hy he => hin ⟨y, hy, he⟩
        rcases mem_cons.mp hx with rfl | hx
        · rw [foldl_cons, ih2 _ hne, Dict.get_set, if_pos rfl]
        · exact absurd rfl (hne x hx)
    · rw [foldl_cons, ih2 k fun y hy => hk y (mem_cons_of_mem _ hy), Dict.get_set,
        if_neg (hk r mem_cons_self)]

/-- The rows the chunked queries find. -/
def fetched (db : ContainerDb) (items : List Item) : List ObjectRow :=
  (argChunks items).flatMap fun chunk => db.rows.filter fun r => r.name ∈ chunk.map (·.name)

theorem fetchRecords_eq (db : ContainerDb) (items : List Item) :
    fetchRecords db items =
      (fetched db items).foldl (fun (d : Dict Ident ObjectRecord) r => d.set r.ident r.toObjectRecord)
        [] := by
  rw [fetched, foldl_flatMap]
  rfl

theorem row_unique {db : ContainerDb} (hwf : db.WellFormed) {r r' : ObjectRow} (hr : r ∈ db.rows)
    (hr' : r' ∈ db.rows) (h : r.ident = r'.ident) : r = r' :=
  inj_on_of_nodup_map hwf.idents hr hr' h

variable {db : ContainerDb} {items : List Item}

variable {r : ObjectRow}

theorem mem_fetched :
    r ∈ fetched db items ↔ r ∈ db.rows ∧ ∃ x ∈ items, x.name = r.name := by
  rw [fetched, mem_flatMap]
  refine ⟨fun ⟨c, hc, h⟩ => ?_, fun ⟨hr, x, hx, hn⟩ => ?_⟩
  · obtain ⟨hr, hn⟩ := mem_filter.mp h
    obtain ⟨x, hx, he⟩ := List.mem_map.mp (of_decide_eq_true hn)
    exact ⟨hr, x, mem_argChunks.mp ⟨c, hc, hx⟩, he⟩
  · obtain ⟨c, hc, hxc⟩ := mem_argChunks.mpr hx
    exact ⟨c, hc, mem_filter.mpr ⟨hr, decide_eq_true (hn ▸ List.mem_map_of_mem hxc)⟩⟩

variable {k : Ident}

/-- **A fetched record is a row**, the one of its name and policy. -/
theorem get_fetchRecords (hwf : db.WellFormed) {rec : ObjectRecord}
    (h : (fetchRecords db items).get k = some rec) :
    ∃ r ∈ db.rows, r.ident = k ∧ r.toObjectRecord = rec := by
  have hinj : ∀ r ∈ fetched db items, ∀ r' ∈ fetched db items, r.ident = r'.ident →
      r.toObjectRecord = r'.toObjectRecord := fun r hr r' hr' he => by
    rw [row_unique hwf (mem_fetched.mp hr).1 (mem_fetched.mp hr').1 he]
  obtain ⟨h1, h2⟩ := get_foldl_set hinj []
  rw [fetchRecords_eq] at h
  by_cases hin : ∃ r ∈ fetched db items, r.ident = k
  · obtain ⟨r, hr, rfl⟩ := hin
    exact ⟨r, (mem_fetched.mp hr).1, rfl, Option.some.inj ((h1 r hr).symm.trans h)⟩
  · rw [h2 k fun r hr he => hin ⟨r, hr, he⟩] at h
    exact absurd h (by simp)

/-- The row of an item is fetched. -/
theorem get_fetchRecords_of_mem (hwf : db.WellFormed) (hr : r ∈ db.rows)
    (hx : x ∈ items) (he : x.ident = r.ident) :
    (fetchRecords db items).get r.ident = some r.toObjectRecord := by
  have hinj : ∀ r ∈ fetched db items, ∀ r' ∈ fetched db items, r.ident = r'.ident →
      r.toObjectRecord = r'.toObjectRecord := fun r hr r' hr' he => by
    rw [row_unique hwf (mem_fetched.mp hr).1 (mem_fetched.mp hr').1 he]
  rw [fetchRecords_eq]
  exact (get_foldl_set hinj []).1 r (mem_fetched.mpr ⟨hr, x, hx, congrArg Prod.fst he⟩)

/-! ## 3. The loop over the items -/

/-- The entry of the existing record of a name and policy. -/
def knownEntries (records : Dict Ident ObjectRecord) (k : Ident) : Set (Stamps × Attrs) :=
  {c | ∃ r, records.get k = some r ∧ RecordEntry r c}

/-- What holds of `to_delete` and `to_add` after the items `done`. -/
structure MergeInv (records : Dict Ident ObjectRecord) (done : List Item)
    (acc : Dict Ident Item × Dict Ident Item) : Prop where
  delNodup : acc.1.KeysNodup
  addNodup : acc.2.KeysNodup
  delIdent : ∀ k x, acc.1.get k = some x → x.ident = k
  delIff : ∀ k, (acc.1.get k).isSome = true ↔
    (acc.2.get k).isSome = true ∧ (records.get k).isSome = true
  addIdent : ∀ k a, acc.2.get k = some a → a.ident = k ∧
    ∃ x ∈ done, x.ident = k ∧ ∀ r, records.get k = some r → ¬ Covers r x
  added : ∀ k a, acc.2.get k = some a → Canonical a.createdAt ∧
    ∃ s, stamps a.createdAt = some s ∧ Latest (knownEntries records k ∪ itemEntries done k) s a.attrs
  covered : ∀ x ∈ done, acc.2.get x.ident = none → ∃ r, records.get x.ident = some r ∧ Covers r x

theorem mergeInv_nil (records : Dict Ident ObjectRecord) : MergeInv records [] ([], []) := by
  refine ⟨nodup_nil, nodup_nil, ?_, ?_, ?_, ?_, ?_⟩ <;> simp

variable {records : Dict Ident ObjectRecord}

theorem knownEntries_eq {r : ObjectRecord}
    (h : records.get k = some r) {s : Stamps} (hs : stamps r.createdAt = some s) :
    knownEntries records k = {(s, r.attrs)} := by
  refine Set.ext fun c => ⟨fun ⟨r', hr', h1, h2⟩ => ?_, fun hc => ?_⟩
  · obtain rfl := Option.some.inj (h.symm.trans hr')
    exact Prod.ext (Option.some.inj (h1.symm.trans hs)) h2.symm
  · obtain rfl := Set.mem_singleton_iff.mp hc
    exact ⟨r, h, hs, rfl⟩

theorem knownEntries_none
    (h : records.get k = none) : knownEntries records k = ∅ := by
  refine Set.eq_empty_iff_forall_notMem.mpr fun c ⟨r, hr, _⟩ => ?_
  rw [h] at hr
  cases hr

/-- **One update is one more entry**: against the existing record, or without one. -/
theorem latest_update
    (hrec : ∀ k r, records.get k = some r → Canonical r.createdAt) {x y : Item} {b : Bool}
    (h : updateNewItemFromExisting x (records.get x.ident) = some (y, b)) :
    ∃ j s, x.stamps = some j ∧ SameItem x y ∧ Canonical y.createdAt ∧ stamps y.createdAt = some s ∧
      Latest (knownEntries records x.ident ∪ {(j, x.attrs)}) s y.attrs ∧
      (y.attrs = x.attrs ∨ ∃ c ∈ knownEntries records x.ident, j.1 ≤ c.1.1) := by
  cases hr : records.get x.ident with
  | none =>
    rw [hr] at h
    obtain ⟨-, hsame, hcan, hst, hattr⟩ := update_none h
    obtain ⟨s, hs⟩ := hcan.stamps
    refine ⟨s, s, hst.symm.trans hs, hsame, hcan, hs, ?_, Or.inl hattr⟩
    rw [knownEntries_none hr, Set.empty_union, hattr]
    exact Latest.singleton s x.attrs
  | some r =>
    rw [hr] at h
    obtain ⟨k, hk⟩ := (hrec _ r hr).stamps
    obtain ⟨j, hj, hsame, hcan, hst, hattr, -⟩ := update_some hk h
    refine ⟨j, k ⊔ j, hj, hsame, hcan, hst, ?_, ?_⟩
    · rw [knownEntries_eq hr hk, hattr]
      exact (Latest.singleton k r.attrs).union (Latest.singleton j x.attrs)
    · by_cases hle : j.1 ≤ k.1
      · exact Or.inr ⟨(k, r.attrs), ⟨r, hr, hk, rfl⟩, hle⟩
      · exact Or.inl (by rw [hattr, if_neg hle])

section Loop

variable {records : Dict Ident ObjectRecord} {done : List Item}
  {acc : Dict Ident Item × Dict Ident Item}

theorem SameItem.ident {x y : Item} (h : SameItem x y) : y.ident = x.ident :=
  Prod.ext h.name h.policy

theorem itemEntries_append_of_ne {x : Item} {k : Ident} (h : x.ident ≠ k) :
    itemEntries (done ++ [x]) k = itemEntries done k := by
  rw [itemEntries_append]
  refine Set.union_eq_left.mpr fun c hc => absurd hc.1 h

theorem itemEntries_append_self {x : Item} {j : Stamps} (hj : x.stamps = some j) :
    itemEntries (done ++ [x]) x.ident = itemEntries done x.ident ∪ {(j, x.attrs)} := by
  rw [itemEntries_append, ← itemEntry_eq hj]
  congr 1
  exact Set.ext fun c => ⟨fun h => h.2, fun h => ⟨rfl, h⟩⟩

/-- Writing the outcome of one name and policy into `to_add`. -/
theorem MergeInv.put (hinv : MergeInv records done acc) {x y z : Item} {s : Stamps}
    (hnew : ∀ r, records.get x.ident = some r → ¬ Covers r x) (hy : y.ident = x.ident)
    (hz : z.ident = x.ident) (hcan : Canonical z.createdAt) (hs : stamps z.createdAt = some s)
    (hlat : Latest (knownEntries records x.ident ∪ itemEntries (done ++ [x]) x.ident) s z.attrs) :
    MergeInv records (done ++ [x])
      (if (records.get x.ident).isSome then acc.1.set x.ident y else acc.1,
        acc.2.set x.ident z) := by
  have hget : ∀ k a, (acc.2.set x.ident z).get k = some a →
      (k = x.ident ∧ a = z) ∨ (x.ident ≠ k ∧ acc.2.get k = some a) := by
    intro k a ha
    rw [Dict.get_set] at ha
    by_cases hk : x.ident = k
    · rw [if_pos hk] at ha
      exact Or.inl ⟨hk.symm, (Option.some.inj ha).symm⟩
    · rw [if_neg hk] at ha
      exact Or.inr ⟨hk, ha⟩
  refine ⟨?_, hinv.addNodup.set _ _, fun k a ha => ?_, fun k => ?_, fun k a ha => ?_,
    fun k a ha => ?_, fun w hw hn => ?_⟩
  · dsimp only
    split
    · exact hinv.delNodup.set _ _
    · exact hinv.delNodup
  · dsimp only at ha
    split at ha
    · rw [Dict.get_set] at ha
      split at ha
      · next hk => exact (Option.some.inj ha) ▸ hy.trans hk
      · exact hinv.delIdent k a ha
    · exact hinv.delIdent k a ha
  · rw [Dict.get_set]
    by_cases hk : x.ident = k
    · subst hk
      rw [if_pos rfl]
      by_cases hr : (records.get x.ident).isSome = true
      · simp [hr, Dict.get_set]
      · have hd := (hinv.delIff x.ident).not.mpr fun h => hr h.2
        simp [hr, hd]
    · rw [if_neg hk, ← hinv.delIff k]
      split
      · rw [Dict.get_set, if_neg hk]
      · exact Iff.rfl
  · rcases hget k a ha with ⟨rfl, rfl⟩ | ⟨hk, ha⟩
    · exact ⟨hz, x, mem_append_right _ (mem_singleton_self x), rfl, hnew⟩
    · obtain ⟨h1, w, hw, he⟩ := hinv.addIdent k a ha
      exact ⟨h1, w, mem_append_left _ hw, he⟩
  · rcases hget k a ha with ⟨rfl, rfl⟩ | ⟨hk, ha⟩
    · exact ⟨hcan, s, hs, hlat⟩
    · rw [itemEntries_append_of_ne hk]
      exact hinv.added k a ha
  · rw [Dict.get_set] at hn
    by_cases hk : x.ident = w.ident
    · rw [if_pos hk] at hn
      cases hn
    · rw [if_neg hk] at hn
      rcases mem_append.mp hw with hw | hw
      · exact hinv.covered w hw hn
      · exact absurd (congrArg (fun i : Item => i.ident) (mem_singleton.mp hw)).symm hk

/-- Items that the existing record answers for are below its timestamps. -/
theorem MergeInv.below (hinv : MergeInv records done acc) {k : Ident} (hn : acc.2.get k = none)
    {s : Stamps} (hs : ∀ c ∈ knownEntries records k, c.1 ≤ s)
    (hrec : ∀ k r, records.get k = some r → Canonical r.createdAt) :
    ∀ c ∈ itemEntries done k, c.1 ≤ s := by
  rintro c ⟨w, hw, rfl, hst, -⟩
  obtain ⟨r, hr, hc⟩ := hinv.covered w hw hn
  obtain ⟨kr, hkr⟩ := (hrec _ r hr).stamps
  exact (hc.le hkr hst).trans (hs (kr, r.attrs) ⟨r, hr, hkr, rfl⟩)

/-- **One item keeps the invariant.** -/
theorem mergeInv_step (hrec : ∀ k r, records.get k = some r → Canonical r.createdAt)
    (hinv : MergeInv records done acc) {x : Item} {acc' : Dict Ident Item × Dict Ident Item}
    (h : mergeStep records acc x = some acc') : MergeInv records (done ++ [x]) acc' := by
  unfold mergeStep at h
  dsimp only at h
  cases hu : updateNewItemFromExisting x (records.get x.ident) with
  | none => rw [hu] at h; cases h
  | some yb =>
    obtain ⟨y, b⟩ := yb
    obtain ⟨j, s, hj, hsame, hcan, hs, hlat, hattr⟩ := latest_update hrec hu
    rw [hu] at h
    cases b with
    | false =>
      -- the existing record answers for the item
      obtain rfl := Option.some.inj h
      obtain ⟨r, hr, hc⟩ : ∃ r, records.get x.ident = some r ∧ Covers r x := by
        cases hr : records.get x.ident with
        | none => rw [hr] at hu; exact absurd (update_none hu).1 Bool.false_ne_true
        | some r => rw [hr] at hu; exact ⟨r, rfl, (update_newer_iff hu).mp rfl⟩
      obtain ⟨kr, hkr⟩ := (hrec _ r hr).stamps
      have hjk : j ≤ kr := hc.le hkr hj
      refine ⟨hinv.delNodup, hinv.addNodup, hinv.delIdent, hinv.delIff, fun k a ha => ?_,
        fun k a ha => ?_, fun w hw hn => ?_⟩
      · obtain ⟨h1, w, hw, he⟩ := hinv.addIdent k a ha
        exact ⟨h1, w, mem_append_left _ hw, he⟩
      · obtain ⟨hc', t, ht, hl⟩ := hinv.added k a ha
        refine ⟨hc', t, ht, ?_⟩
        by_cases hk : x.ident = k
        · subst hk
          rw [itemEntries_append_self hj, ← Set.union_assoc]
          refine hl.absorb fun c hc => ?_
          rw [Set.mem_singleton_iff.mp hc]
          exact hjk.trans (hl.upper (kr, r.attrs) (Or.inl ⟨r, hr, hkr, rfl⟩))
        · rw [itemEntries_append_of_ne hk]
          exact hl
      · rcases mem_append.mp hw with hw | hw
        · exact hinv.covered w hw hn
        · rw [mem_singleton.mp hw]
          exact ⟨r, hr, hc⟩
    | true =>
      dsimp only at h
      have hnew : ∀ r, records.get x.ident = some r → ¬ Covers r x := fun r hr hcov => by
        rw [hr] at hu
        exact absurd ((update_newer_iff hu).mpr hcov) (by simp)
      cases hp : acc.2.get x.ident with
      | none =>
        rw [hp] at h
        obtain rfl := Option.some.inj h
        refine hinv.put hnew hsame.ident hsame.ident hcan hs ?_
        have hknown : ∀ c ∈ knownEntries records x.ident, c.1 ≤ s := fun c hc =>
          hlat.upper c (Or.inl hc)
        rw [itemEntries_append_self hj, Set.union_comm (itemEntries done x.ident), ← Set.union_assoc]
        exact hlat.absorb (hinv.below hp hknown hrec)
      | some prev =>
        -- a duplicate: merged once more, into what the item before it left
        rw [hp] at h
        obtain ⟨⟨z, b'⟩, hz, he⟩ := Option.map_eq_some_iff.mp h
        obtain rfl := he
        obtain ⟨hpc, t, ht, hl⟩ := hinv.added _ prev hp
        obtain ⟨j', hj', hsame', hcan', hst', hattr', -⟩ := update_some ht hz
        obtain rfl : j = j' := Option.some.inj ((hj.symm.trans hsame.stamps.symm).trans hj')
        refine hinv.put hnew hsame.ident (hsame'.ident.trans hsame.ident) hcan' hst' ?_
        have hzx : z.attrs = if j.1 ≤ t.1 then prev.attrs else x.attrs := by
          rw [hattr']
          by_cases hle : j.1 ≤ t.1
          · rw [if_pos hle, if_pos hle]
          · rw [if_neg hle, if_neg hle]
            -- the existing record is not newer than what is in `to_add`
            refine hattr.resolve_right fun ⟨c, hc, hjc⟩ => hle ?_
            exact hjc.trans (hl.upper c (Or.inl hc)).1
        rw [itemEntries_append_self hj, ← Set.union_assoc, hzx]
        exact hl.union (Latest.singleton j x.attrs)

/-- **The whole loop keeps the invariant.** -/
theorem mergeInv_foldlM (hrec : ∀ k r, records.get k = some r → Canonical r.createdAt)
    {items : List Item} (hinv : MergeInv records done acc)
    {acc' : Dict Ident Item × Dict Ident Item}
    (h : items.foldlM (mergeStep records) acc = some acc') :
    MergeInv records (done ++ items) acc' := by
  induction items generalizing done acc with
  | nil =>
    obtain rfl := Option.some.inj h
    rwa [append_nil]
  | cons x items ih =>
    rw [foldlM_cons] at h
    obtain ⟨acc1, h1, h2⟩ := Option.bind_eq_some_iff.mp h
    have := ih (mergeInv_step hrec hinv h1) h2
    rwa [append_assoc, singleton_append] at this

/-- Parsable items never make the loop raise. -/
theorem mergeStep_isSome (hrec : ∀ k r, records.get k = some r → Canonical r.createdAt)
    (hinv : MergeInv records done acc) {x : Item} (hx : x.stamps.isSome = true) :
    ∃ acc', mergeStep records acc x = some acc' := by
  obtain ⟨y, b, hu⟩ := update_isSome hx fun r hr => by
    obtain ⟨k, hk⟩ := (hrec _ r hr).stamps
    rw [hk]
    rfl
  obtain ⟨j, s, hj, hsame, -⟩ := latest_update hrec hu
  unfold mergeStep
  dsimp only
  rw [hu]
  cases b with
  | false => exact ⟨_, rfl⟩
  | true =>
    dsimp only
    cases hp : acc.2.get x.ident with
    | none => exact ⟨_, rfl⟩
    | some prev =>
      obtain ⟨-, t, ht, -⟩ := hinv.added _ prev hp
      obtain ⟨z, b', hz⟩ := update_isSome (x := y) (e := some prev.toObjectRecord)
        (by rw [hsame.stamps, hj]; rfl) fun r hr => by
          obtain rfl := Option.some.inj hr
          rw [ht]
          rfl
      dsimp only
      rw [hz]
      exact ⟨_, rfl⟩

theorem mergeLoop_isSome (hrec : ∀ k r, records.get k = some r → Canonical r.createdAt)
    {items : List Item} (hinv : MergeInv records done acc)
    (hx : ∀ x ∈ items, x.stamps.isSome = true) :
    ∃ acc', items.foldlM (mergeStep records) acc = some acc' := by
  induction items generalizing done acc with
  | nil => exact ⟨acc, rfl⟩
  | cons x items ih =>
    obtain ⟨acc1, h1⟩ := mergeStep_isSome hrec hinv (hx x mem_cons_self)
    obtain ⟨acc', h2⟩ := ih (mergeInv_step hrec hinv h1) fun y hy =>
      hx y (mem_cons_of_mem _ hy)
    exact ⟨acc', by rw [foldlM_cons, h1]; exact h2⟩

end Loop

/-! ## 4. The table afterwards -/

/-- New rows, numbered on from the sequence. -/
def numbered (seq : Nat) : List Item → List ObjectRow
  | [] => []
  | x :: xs => { x.toObjectRecord with rowid := seq + 1 } :: numbered (seq + 1) xs

theorem mem_numbered {seq : Nat} {xs : List Item} (h : r ∈ numbered seq xs) :
    seq < r.rowid ∧ r.rowid ≤ seq + xs.length ∧ ∃ x ∈ xs, r.toObjectRecord = x.toObjectRecord := by
  induction xs generalizing seq with
  | nil => cases h
  | cons x xs ih =>
    rcases mem_cons.mp h with rfl | h
    · exact ⟨Nat.lt_succ_self _, by rw [length_cons]; dsimp only; omega, x, mem_cons_self, rfl⟩
    · obtain ⟨h1, h2, y, hy, he⟩ := ih h
      exact ⟨by omega, by rw [length_cons]; omega, y, mem_cons_of_mem _ hy, he⟩

theorem exists_numbered (seq : Nat) {xs : List Item} (h : x ∈ xs) :
    ∃ r ∈ numbered seq xs, r.toObjectRecord = x.toObjectRecord := by
  induction xs generalizing seq with
  | nil => cases h
  | cons y xs ih =>
    rcases mem_cons.mp h with rfl | h
    · exact ⟨_, mem_cons_self, rfl⟩
    · obtain ⟨r, hr, he⟩ := ih (seq + 1) h
      exact ⟨r, mem_cons_of_mem _ hr, he⟩

theorem map_numbered {β : Type} (f : ObjectRecord → β) (seq : Nat) (xs : List Item) :
    (numbered seq xs).map (fun r => f r.toObjectRecord) = xs.map fun x => f x.toObjectRecord := by
  induction xs generalizing seq with
  | nil => rfl
  | cons x xs ih => rw [numbered, map_cons, map_cons, ih]

theorem sorted_numbered (seq : Nat) (xs : List Item) :
    (numbered seq xs).Pairwise fun r r' => r.rowid < r'.rowid := by
  induction xs generalizing seq with
  | nil => exact List.Pairwise.nil
  | cons x xs ih =>
    exact pairwise_cons.mpr ⟨fun r hr => (mem_numbered hr).1, ih (seq + 1)⟩

/-- Everything but the rows, their sequence and the accounts of the triggers. -/
structure SameSyncs (db db' : ContainerDb) : Prop where
  id : db'.id = db.id
  incoming : db'.incomingSync = db.incomingSync
  outgoing : db'.outgoingSync = db.outgoingSync

variable (md5 : Str → BitVec 128)

theorem deleteIdent_rows (db : ContainerDb) (k : Ident) :
    (deleteIdent md5 db k).rows = db.rows.filter (·.ident ≠ k) ∧
      (deleteIdent md5 db k).seq = db.seq ∧ SameSyncs db (deleteIdent md5 db k) := by
  have hfold : ∀ (l : List ObjectRow) (d : ContainerDb),
      (l.foldl (fun d r => deleteTrigger md5 d r.toObjectRecord) d).seq = d.seq ∧
      SameSyncs d (l.foldl (fun d r => deleteTrigger md5 d r.toObjectRecord) d) := by
    intro l
    induction l with
    | nil => exact fun d => ⟨rfl, rfl, rfl, rfl⟩
    | cons r l ih =>
      intro d
      obtain ⟨h1, h2⟩ := ih (deleteTrigger md5 d r.toObjectRecord)
      exact ⟨h1, h2.id, h2.incoming, h2.outgoing⟩
  obtain ⟨h1, h2⟩ := hfold (db.rows.filter (·.ident = k)) db
  exact ⟨rfl, h1, h2.id, h2.incoming, h2.outgoing⟩

theorem foldl_deleteIdent (xs : List Item) (db : ContainerDb) :
    (xs.foldl (fun db rec => deleteIdent md5 db rec.ident) db).rows =
        db.rows.filter (fun r => decide (∀ x ∈ xs, r.ident ≠ x.ident)) ∧
      (xs.foldl (fun db rec => deleteIdent md5 db rec.ident) db).seq = db.seq ∧
      SameSyncs db (xs.foldl (fun db rec => deleteIdent md5 db rec.ident) db) := by
  induction xs generalizing db with
  | nil => exact ⟨by simp, rfl, rfl, rfl, rfl⟩
  | cons x xs ih =>
    obtain ⟨h1, h2, h3⟩ := ih (deleteIdent md5 db x.ident)
    obtain ⟨g1, g2, g3⟩ := deleteIdent_rows md5 db x.ident
    refine ⟨?_, h2.trans g2, h3.id.trans g3.id, h3.incoming.trans g3.incoming,
      h3.outgoing.trans g3.outgoing⟩
    rw [foldl_cons, h1, g1, List.filter_filter]
    refine filter_congr fun r _ => ?_
    rw [Bool.eq_iff_iff]
    simp [and_comm]

theorem foldl_insertRow (xs : List Item) (db : ContainerDb) :
    (xs.foldl (fun db rec => insertRow md5 db rec.toObjectRecord) db).rows =
        db.rows ++ numbered db.seq xs ∧
      (xs.foldl (fun db rec => insertRow md5 db rec.toObjectRecord) db).seq = db.seq + xs.length ∧
      SameSyncs db (xs.foldl (fun db rec => insertRow md5 db rec.toObjectRecord) db) := by
  induction xs generalizing db with
  | nil => exact ⟨by simp [numbered], rfl, rfl, rfl, rfl⟩
  | cons x xs ih =>
    obtain ⟨h1, h2, h3⟩ := ih (insertRow md5 db x.toObjectRecord)
    refine ⟨?_, ?_, h3.id, h3.incoming, h3.outgoing⟩
    · rw [foldl_cons, h1]
      simp [insertRow, numbered]
    · rw [foldl_cons, h2]
      simp only [insertRow, length_cons]
      omega

/-- **What a merge does**, all in one: it deletes the rows of some names and
    policies, appends new rows, and notes the sync point of the source. -/
structure Merged (db : ContainerDb) (items : List Item) (source : Option Str) (db' : ContainerDb)
    (adds : List Item) : Prop where
  rows : db'.rows = db.rows.filter (fun r => decide (∀ a ∈ adds, r.ident ≠ a.ident)) ++
    numbered db.seq adds
  seq : db'.seq = db.seq + adds.length
  nodup : (adds.map fun a => a.ident).Nodup
  canonical : ∀ a ∈ adds, Canonical a.createdAt
  origin : ∀ a ∈ adds, ∃ x ∈ items, x.ident = a.ident ∧
    ∀ r ∈ db.rows, r.ident = x.ident → ¬ Covers r.toObjectRecord x
  latest : ∀ a ∈ adds, ∃ s, stamps a.createdAt = some s ∧
    Latest (rowEntries db a.ident ∪ itemEntries items a.ident) s a.attrs
  covered : ∀ x ∈ items, (∀ a ∈ adds, a.ident ≠ x.ident) →
    ∃ r ∈ db.rows, r.ident = x.ident ∧ Covers r.toObjectRecord x
  id : db'.id = db.id
  outgoing : db'.outgoingSync = db.outgoingSync
  incoming : db'.incomingSync = db.incomingSync ∨ ∃ src last point, source = some src ∧
    items.getLast? = some last ∧ last.rowid = some point ∧
    db'.incomingSync = mergeSync db.incomingSync src point

/-- The existing record of an item is the row of its name and policy. -/
theorem knownEntries_fetchRecords (hwf : db.WellFormed) (hx : x ∈ items) :
    knownEntries (fetchRecords db items) x.ident = rowEntries db x.ident := by
  refine Set.ext fun c => ⟨fun ⟨rec, hr, hc⟩ => ?_, fun ⟨r, hr, he, hc⟩ => ?_⟩
  · obtain ⟨r, hrow, he, rfl⟩ := get_fetchRecords hwf hr
    exact ⟨r, hrow, he, hc⟩
  · exact ⟨r.toObjectRecord, he ▸ get_fetchRecords_of_mem hwf hr hx he.symm, hc⟩

theorem canonical_fetchRecords (hwf : db.WellFormed) (k : Ident) (rec : ObjectRecord)
    (h : (fetchRecords db items).get k = some rec) : Canonical rec.createdAt := by
  obtain ⟨r, hr, -, rfl⟩ := get_fetchRecords hwf h
  exact hwf.canonical r hr

/-- The values of a dict, in whatever order. -/
theorem DictOrder.mem_values (order : DictOrder) {d : Dict Ident Item} (hd : d.KeysNodup) :
    x ∈ order.values d ↔ ∃ k, d.get k = some x := by
  rw [(order.perm d).mem_iff, List.mem_map]
  refine ⟨fun ⟨e, he, h⟩ => ⟨e.1, hd.mem_iff.mp (h ▸ he)⟩, fun ⟨k, hk⟩ => ⟨(k, x), hd.mem_iff.mpr hk, rfl⟩⟩

variable {md5} {order : DictOrder} {source : Option Str} {db' : ContainerDb}

theorem merged_mergeItems (hwf : db.WellFormed)
    (h : mergeItems md5 order db items source = some db') :
    ∃ adds, Merged db items source db' adds := by
  unfold mergeItems at h
  cases hloop : items.foldlM (mergeStep (fetchRecords db items)) ([], []) with
  | none => rw [hloop] at h; cases h
  | some acc =>
    obtain ⟨toDelete, toAdd⟩ := acc
    have hinv := mergeInv_foldlM (canonical_fetchRecords hwf) (mergeInv_nil _) hloop
    rw [nil_append] at hinv
    rw [hloop] at h
    dsimp only at h
    obtain ⟨hd1, hd2, hd3⟩ := foldl_deleteIdent md5 (order.values toDelete) db
    set dbD := (order.values toDelete).foldl (fun db rec => deleteIdent md5 db rec.ident) db
    obtain ⟨ha1, ha2, ha3⟩ := foldl_insertRow md5 (order.values toAdd) dbD
    set dbA := (order.values toAdd).foldl (fun db rec => insertRow md5 db rec.toObjectRecord) dbD
    have hmem : ∀ a, a ∈ order.values toAdd ↔ toAdd.get a.ident = some a := fun a => by
      rw [order.mem_values hinv.addNodup]
      refine ⟨fun ⟨k, hk⟩ => (hinv.addIdent k a hk).1 ▸ hk, fun h => ⟨_, h⟩⟩
    have hsome : ∀ k, (∃ a ∈ order.values toAdd, a.ident = k) ↔ (toAdd.get k).isSome = true := by
      intro k
      refine ⟨fun ⟨a, ha, he⟩ => ?_, fun hk => ?_⟩
      · rw [← he, (hmem a).mp ha]
        rfl
      · obtain ⟨a, ha⟩ := Option.isSome_iff_exists.mp hk
        have he := (hinv.addIdent k a ha).1
        exact ⟨a, (hmem a).mpr (he ▸ ha), he⟩
    -- a row goes exactly when its name and policy are in `to_add`
    have hgone : ∀ r ∈ db.rows, (∀ x ∈ order.values toDelete, r.ident ≠ x.ident) ↔
        ∀ a ∈ order.values toAdd, r.ident ≠ a.ident := by
      intro r hr
      refine not_iff_not.mp ?_
      push Not
      have hdel : (∃ x ∈ order.values toDelete, r.ident = x.ident) ↔
          (toDelete.get r.ident).isSome = true := by
        refine ⟨fun ⟨x, hx, he⟩ => ?_, fun hk => ?_⟩
        · obtain ⟨k, hk⟩ := (order.mem_values hinv.delNodup).mp hx
          rw [he, hinv.delIdent k x hk, hk]
          rfl
        · obtain ⟨x, hx⟩ := Option.isSome_iff_exists.mp hk
          exact ⟨x, (order.mem_values hinv.delNodup).mpr ⟨_, hx⟩, (hinv.delIdent _ x hx).symm⟩
      rw [hdel, hinv.delIff]
      refine ⟨fun ⟨h1, _⟩ => ?_, fun ⟨a, ha, he⟩ => ?_⟩
      · obtain ⟨a, ha, he⟩ := (hsome _).mpr h1
        exact ⟨a, ha, he.symm⟩
      · refine ⟨(hsome _).mp ⟨a, ha, he.symm⟩, ?_⟩
        obtain ⟨-, x, hx, hxe, -⟩ := hinv.addIdent _ a ((hmem a).mp ha)
        rw [get_fetchRecords_of_mem hwf hr hx (hxe.trans he.symm)]
        rfl
    have hbase : Merged db items none dbA (order.values toAdd) := by
      refine ⟨?_, by rw [ha2, hd2], ?_, fun a ha => ?_, fun a ha => ?_, fun a ha => ?_,
        fun x hx hn => ?_, ha3.id.trans hd3.id, ha3.outgoing.trans hd3.outgoing,
        Or.inl (ha3.incoming.trans hd3.incoming)⟩
      · rw [ha1, hd1, hd2]
        congr 1
        exact filter_congr fun r hr => decide_eq_decide.mpr (hgone r hr)
      · have hperm := (order.perm toAdd).map fun a => a.ident
        refine hperm.nodup_iff.mpr ?_
        rw [List.map_map]
        have hkeys : toAdd.map ((fun a : Item => a.ident) ∘ Prod.snd) = toAdd.map Prod.fst :=
          map_congr_left fun e he => (hinv.addIdent e.1 e.2 (hinv.addNodup.mem_iff.mp he)).1
        rw [hkeys]
        exact hinv.addNodup
      · exact (hinv.added _ a ((hmem a).mp ha)).1
      · obtain ⟨-, x, hx, hxe, hnew⟩ := hinv.addIdent _ a ((hmem a).mp ha)
        refine ⟨x, hx, hxe, fun r hr hrx => hnew _ ?_⟩
        rw [← hxe, ← hrx]
        exact get_fetchRecords_of_mem hwf hr hx hrx.symm
      · obtain ⟨-, s, hs, hl⟩ := hinv.added _ a ((hmem a).mp ha)
        obtain ⟨-, x, hx, hxe, -⟩ := hinv.addIdent _ a ((hmem a).mp ha)
        rw [← hxe, knownEntries_fetchRecords hwf hx, hxe] at hl
        exact ⟨s, hs, hl⟩
      · have hnone : toAdd.get x.ident = none := by
          rw [← Option.not_isSome_iff_eq_none, ← hsome]
          exact fun ⟨a, ha, he⟩ => hn a ha he
        obtain ⟨rec, hr, hc⟩ := hinv.covered x hx hnone
        obtain ⟨r, hr', he, rfl⟩ := get_fetchRecords hwf hr
        exact ⟨r, hr', he, hc⟩
    split at h
    · obtain rfl := Option.some.inj h
      exact ⟨_, { hbase with incoming := hbase.incoming.imp id fun ⟨_, _, _, h, _⟩ => nomatch h }⟩
    · obtain rfl := Option.some.inj h
      exact ⟨_, { hbase with incoming := hbase.incoming.imp id fun ⟨_, _, _, h, _⟩ => nomatch h }⟩
    · split at h
      · cases h
      · next src _ _ last hlast =>
        obtain ⟨point, hp, rfl⟩ := Option.map_eq_some_iff.mp h
        refine ⟨_, { hbase with incoming := Or.inr ⟨_, last, point, rfl, hlast, hp, ?_⟩ }⟩
        dsimp only
        rw [ha3.incoming, hd3.incoming]

/-! ## 5. What follows for the rows -/

namespace Merged

variable {adds : List Item} (hm : Merged db items source db' adds)

include hm

theorem mem_rows {r : ObjectRow} :
    r ∈ db'.rows ↔ (r ∈ db.rows ∧ ∀ a ∈ adds, r.ident ≠ a.ident) ∨ r ∈ numbered db.seq adds := by
  rw [hm.rows, mem_append, mem_filter, decide_eq_true_iff]

/-- **A row is an old one, or has a new ROWID.** -/
theorem rowid {r : ObjectRow} (hr : r ∈ db'.rows) : r ∈ db.rows ∨ db.seq < r.rowid := by
  rcases hm.mem_rows.mp hr with h | h
  · exact Or.inl h.1
  · exact Or.inr (mem_numbered h).1

theorem idents_iff {k : Ident} :
    (∃ r ∈ db'.rows, r.ident = k) ↔ (∃ r ∈ db.rows, r.ident = k) ∨ ∃ x ∈ items, x.ident = k := by
  refine ⟨fun ⟨r, hr, he⟩ => ?_, fun h => ?_⟩
  · rcases hm.mem_rows.mp hr with h | h
    · exact Or.inl ⟨r, h.1, he⟩
    · obtain ⟨-, -, a, ha, hra⟩ := mem_numbered h
      obtain ⟨x, hx, hxe, -⟩ := hm.origin a ha
      have hrk : a.ident = k := by
        rw [← he]
        exact (congrArg ObjectRecord.ident hra).symm
      exact Or.inr ⟨x, hx, hxe.trans hrk⟩
  · by_cases hadd : ∃ a ∈ adds, a.ident = k
    · obtain ⟨a, ha, he⟩ := hadd
      obtain ⟨r, hr, hra⟩ := exists_numbered db.seq ha
      exact ⟨r, hm.mem_rows.mpr (Or.inr hr), (congrArg ObjectRecord.ident hra).trans he⟩
    · have hno : ∀ a ∈ adds, a.ident ≠ k := fun a ha he => hadd ⟨a, ha, he⟩
      have hrow : ∃ r ∈ db.rows, r.ident = k := by
        rcases h with h | ⟨x, hx, rfl⟩
        · exact h
        · obtain ⟨r, hr, he, -⟩ := hm.covered x hx hno
          exact ⟨r, hr, he⟩
      obtain ⟨r, hr, he⟩ := hrow
      exact ⟨r, hm.mem_rows.mpr (Or.inl ⟨hr, fun a ha hra => hno a ha (hra.symm.trans he)⟩), he⟩

/-- **The table stays well formed.** -/
theorem wellFormed (hwf : db.WellFormed) : db'.WellFormed := by
  refine ⟨?_, fun r hr => ?_, ?_, fun r hr => ?_⟩
  · rw [hm.rows]
    refine pairwise_append.mpr ⟨hwf.sorted.filter _, sorted_numbered _ _, fun r hr r' hr' => ?_⟩
    exact (hwf.bound r (mem_filter.mp hr).1).2.trans_lt (mem_numbered hr').1
  · rw [hm.seq]
    rcases hm.mem_rows.mp hr with h | h
    · obtain ⟨h1, h2⟩ := hwf.bound r h.1
      exact ⟨h1, h2.trans (Nat.le_add_right _ _)⟩
    · obtain ⟨h1, h2, -⟩ := mem_numbered h
      exact ⟨(Nat.zero_le _).trans_lt h1, h2⟩
  · rw [hm.rows, map_append]
    refine nodup_append.mpr ⟨hwf.idents.sublist (filter_sublist.map _), ?_,
      fun k hk k' hk' => ?_⟩
    · rw [map_numbered ObjectRecord.ident]
      exact hm.nodup
    · obtain ⟨r, hr, rfl⟩ := List.mem_map.mp hk
      rw [map_numbered ObjectRecord.ident] at hk'
      obtain ⟨a, ha, rfl⟩ := List.mem_map.mp hk'
      exact of_decide_eq_true (mem_filter.mp hr).2 a ha
  · rcases hm.mem_rows.mp hr with h | h
    · exact hwf.canonical r h.1
    · obtain ⟨-, -, a, ha, he⟩ := mem_numbered h
      have hc := hm.canonical a ha
      rw [← he] at hc
      exact hc

/-- **Every row is the outcome** of the row before it and the items of its name and
    policy. -/
theorem latest_row (hwf : db.WellFormed) {r : ObjectRow} (hr : r ∈ db'.rows) :
    ∃ s, stamps r.createdAt = some s ∧
      Latest (rowEntries db r.ident ∪ itemEntries items r.ident) s r.attrs := by
  rcases hm.mem_rows.mp hr with ⟨hr, hno⟩ | h
  · obtain ⟨s, hs⟩ := (hwf.canonical r hr).stamps
    refine ⟨s, hs, ?_⟩
    have hone : rowEntries db r.ident = {(s, r.attrs)} := by
      refine Set.ext fun c => ⟨fun ⟨r', hr', he, h1, h2⟩ => ?_, fun hc => ?_⟩
      · obtain rfl := row_unique hwf hr' hr he
        exact Prod.ext (Option.some.inj (h1.symm.trans hs)) h2.symm
      · obtain rfl := Set.mem_singleton_iff.mp hc
        exact ⟨r, hr, rfl, hs, rfl⟩
    rw [hone]
    refine (Latest.singleton s r.attrs).absorb fun c ⟨x, hx, hxe, hxs, _⟩ => ?_
    obtain ⟨r', hr', he, hcov⟩ := hm.covered x hx fun a ha hax => hno a ha (hax.trans hxe).symm
    obtain rfl := row_unique hwf hr' hr (he.trans hxe)
    exact hcov.le hs hxs
  · obtain ⟨-, -, a, ha, he⟩ := mem_numbered h
    have hi : r.ident = a.ident := congrArg ObjectRecord.ident he
    have hc : r.createdAt = a.createdAt := congrArg ObjectRecord.createdAt he
    have hat : r.attrs = a.attrs := congrArg ObjectRecord.attrs he
    rw [hi, hc, hat]
    exact hm.latest a ha

end Merged

/-- The database holds a record of this name and policy whose timestamps are at
    least these. -/
def Dominated (k : Ident) (s : Stamps) (db : ContainerDb) : Prop :=
  ∃ r ∈ db.rows, r.ident = k ∧ ∃ t, stamps r.createdAt = some t ∧ s ≤ t

variable {adds : List Item}

theorem Merged.dominated_of_entry (hm : Merged db items source db' adds)
    (hwf : db.WellFormed) {c : Stamps × Attrs}
    (hc : c ∈ rowEntries db k ∪ itemEntries items k) : Dominated k c.1 db' := by
  have hk : ∃ r ∈ db'.rows, r.ident = k := by
    refine hm.idents_iff.mpr ?_
    rcases hc with ⟨r, hr, he, -⟩ | ⟨x, hx, he, -⟩
    · exact Or.inl ⟨r, hr, he⟩
    · exact Or.inr ⟨x, hx, he⟩
  obtain ⟨r, hr, rfl⟩ := hk
  obtain ⟨s, hs, hl⟩ := hm.latest_row hwf hr
  exact ⟨r, hr, rfl, s, hs, hl.upper c hc⟩

/-- **A merge never takes anything back.** -/
theorem Merged.dominated_mono (hm : Merged db items source db' adds)
    (hwf : db.WellFormed) {s : Stamps} (h : Dominated k s db) : Dominated k s db' := by
  obtain ⟨r, hr, he, t, ht, hle⟩ := h
  obtain ⟨r', hr', he', t', ht', hle'⟩ :=
    hm.dominated_of_entry hwf (c := (t, r.attrs)) (Or.inl ⟨r, hr, he, ht, rfl⟩)
  exact ⟨r', hr', he', t', ht', hle.trans hle'⟩

/-- **A merge takes in every item.** -/
theorem Merged.dominated_item (hm : Merged db items source db' adds)
    (hwf : db.WellFormed) (hx : x ∈ items) {s : Stamps} (hs : x.stamps = some s) :
    Dominated x.ident s db' :=
  hm.dominated_of_entry hwf (c := (s, x.attrs)) (Or.inr ⟨x, hx, rfl, hs, rfl⟩)

/-- Parsable items are merged without an exception. -/
theorem mergeItems_isSome (md5 : Str → BitVec 128) (order : DictOrder) (hwf : db.WellFormed)
    (hx : ∀ x ∈ items, x.stamps.isSome = true) :
    ∃ db', mergeItems md5 order db items none = some db' := by
  obtain ⟨⟨toDelete, toAdd⟩, hloop⟩ :=
    mergeLoop_isSome (canonical_fetchRecords hwf) (mergeInv_nil (fetchRecords db items)) hx
  unfold mergeItems
  rw [hloop]
  exact ⟨_, rfl⟩

/-! ## 6. Reading in order -/

theorem mem_getItemsSince {point : Int} {n : Nat}
    (h : r ∈ db.getItemsSince point n) : r ∈ db.rows ∧ point < r.rowid := by
  obtain ⟨hr, hp⟩ := mem_filter.mp (mem_of_mem_take h)
  exact ⟨hr, of_decide_eq_true hp⟩

/-- **A batch is read in order with no gaps.** -/
theorem getItemsSince_last (hwf : db.WellFormed) {point : Int} {n : Nat} {last : ObjectRow}
    (h : (db.getItemsSince point n).getLast? = some last) :
    last ∈ db.getItemsSince point n ∧ ∀ r ∈ db.rows,
      (r ∈ db.getItemsSince point n ↔ point < r.rowid ∧ r.rowid ≤ last.rowid) := by
  obtain ⟨before, hb⟩ := getLast?_eq_some_iff.mp h
  have hlast : last ∈ db.getItemsSince point n := hb ▸ mem_append_right _ (mem_singleton_self _)
  have hsplit := take_append_drop n (db.rows.filter fun r => decide (point < r.rowid))
  have hsorted : (db.rows.filter fun r => decide (point < r.rowid)).Pairwise
      fun r r' => r.rowid < r'.rowid := hwf.sorted.filter _
  rw [← hsplit] at hsorted
  obtain ⟨htake, -, hcross⟩ := pairwise_append.mp hsorted
  refine ⟨hlast, fun r hr => ⟨fun hm => ⟨(mem_getItemsSince hm).2, ?_⟩, fun ⟨h1, h2⟩ => ?_⟩⟩
  · change (db.getItemsSince point n).Pairwise _ at htake
    rw [hb] at hm htake
    rcases mem_append.mp hm with hm | hm
    · exact ((pairwise_append.mp htake).2.2 r hm last (mem_singleton_self _)).le
    · rw [mem_singleton.mp hm]
  · have hf : r ∈ db.rows.filter fun r => decide (point < r.rowid) :=
      mem_filter.mpr ⟨hr, decide_eq_true h1⟩
    rw [← hsplit] at hf
    rcases mem_append.mp hf with hf | hf
    · exact hf
    · exact absurd (hcross last hlast r hf) (not_lt.mpr h2)

theorem getItemsSince_none {point : Int} {n : Nat} (hn : 0 < n)
    (h : (db.getItemsSince point n).getLast? = none) : ∀ r ∈ db.rows, r.rowid ≤ point := by
  intro r hr
  by_contra hlt
  have hf : r ∈ db.rows.filter fun r => decide (point < r.rowid) :=
    mem_filter.mpr ⟨hr, decide_eq_true (not_le.mp hlt)⟩
  rcases take_eq_nil_iff.mp (getLast?_eq_none_iff.mp h) with h | h
  · exact absurd h hn.ne'
  · rw [h] at hf
    cases hf

/-- An item with no timestamps of its own says what its `created_at` says. -/
theorem timestamps_plain (hc : x.ctypeTimestamp = none) (hm : x.metaTimestamp = none)
    (hd : x.dataTimestamp = none) : x.timestamps = decodeAll x.createdAt := by
  rw [Item.timestamps, hc, hm, hd]
  change (decodeAll x.createdAt).bind (fun t => some t) = _
  cases decodeAll x.createdAt <;> rfl

theorem stamps_plain (hc : x.ctypeTimestamp = none) (hm : x.metaTimestamp = none)
    (hd : x.dataTimestamp = none) : x.stamps = stamps x.createdAt := by
  rw [Item.stamps, timestamps_plain hc hm hd]
  rfl

/-- A stored row is a parsable item. -/
theorem stamps_toItem (hwf : db.WellFormed) (hr : r ∈ db.rows) :
    r.toItem.stamps = stamps r.createdAt ∧ ∃ s, stamps r.createdAt = some s :=
  ⟨stamps_plain rfl rfl rfl, (hwf.canonical r hr).stamps⟩

end Mitaka.Swift
