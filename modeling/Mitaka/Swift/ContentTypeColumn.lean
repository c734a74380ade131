/-
  Subject: The content_type column of the object table: the type of the newest
           content-type timestamp, the `swift_bytes` of the newest data timestamp.

  An update splits both content types (`extract_swift_bytes`), picks each part by its
  timestamp and joins the two (`withSwiftBytes`); what it leaves is `Joined`. The
  first record of a name and policy is not split: it is stored as it came.

  `Vouched` is what every step keeps: both parts of the column come from an entry
  with the row's timestamp. `Kept` is how a row can still be as it came: it was
  stored alone and answered for all records after it.
-/
import Mitaka.Swift.ContainerConvergence

namespace Mitaka.Swift

open List Option

/-! ## 1. Splitting and joining -/

/-- The content type without its `swift_bytes`. -/
def typeOf (contentType : Str) : Str := (extractSwiftBytes contentType).1

/-- The `swift_bytes`; empty ones are none. -/
def swiftBytesOf (contentType : Str) : Option Str := (extractSwiftBytes contentType).2.filter (· ≠ [])

/-- A content type in the spelling an update leaves. -/
def Joined (contentType : Str) : Prop :=
  withSwiftBytes (typeOf contentType) (swiftBytesOf contentType) = contentType

instance (contentType : Str) : Decidable (Joined contentType) :=
  inferInstanceAs (Decidable (_ = _))

/-- One parameter of `extract_swift_bytes`. -/
def addParam (acc : Str × Option Str) (p : Str × Str) : Str × Option Str :=
  if p.1 = SWIFT_BYTES then (acc.1, some p.2) else (acc.1 ++ ';' :: p.1 ++ '=' :: p.2, acc.2)

theorem extractSwiftBytes_eq (c : Str) : extractSwiftBytes c =
    (parseContentType c).2.foldl addParam ((parseContentType c).1, none) := rfl

theorem foldl_addParam_fst (params : List (Str × Str)) (acc : Str × Option Str) :
    (params.foldl addParam acc).1 =
      acc.1 ++ printParams (params.filter fun p => p.1 ≠ SWIFT_BYTES) := by
  induction params generalizing acc with
  | nil => simp [printParams]
  | cons p ps ih =>
    rw [foldl_cons, ih, addParam]
    by_cases hp : p.1 = SWIFT_BYTES
    · rw [if_pos hp, filter_cons_of_neg (by simp [hp])]
    · rw [if_neg hp, filter_cons_of_pos (by simp [hp])]
      simp [printParams]

/-- Parameters other than `swift_bytes` leave the `swift_bytes`. -/
theorem foldl_addParam_snd {params : List (Str × Str)} (h : ∀ p ∈ params, p.1 ≠ SWIFT_BYTES)
    (acc : Str × Option Str) : (params.foldl addParam acc).2 = acc.2 := by
  induction params generalizing acc with
  | nil => rfl
  | cons p ps ih =>
    rw [foldl_cons, ih fun q hq => h q (mem_cons_of_mem _ hq), addParam,
      if_neg (h p mem_cons_self)]

theorem isParam_foldl_addParam {params : List (Str × Str)} (h : ∀ p ∈ params, IsParam p)
    {acc : Str × Option Str} (hacc : ∀ v, acc.2 = some v → IsParam (SWIFT_BYTES, v)) {v : Str}
    (hv : (params.foldl addParam acc).2 = some v) : IsParam (SWIFT_BYTES, v) := by
  induction params generalizing acc with
  | nil => exact hacc v hv
  | cons p ps ih =>
    refine ih (fun q hq => h q (mem_cons_of_mem _ hq)) (fun w hw => ?_) hv
    rw [addParam] at hw
    by_cases hp : p.1 = SWIFT_BYTES
    · rw [if_pos hp] at hw
      have hpp := h p mem_cons_self
      rw [← Option.some.inj hw, ← hp]
      exact hpp
    · rw [if_neg hp] at hw
      exact hacc w hw

/-- What is split off reads as a parameter. -/
theorem isParam_swiftBytes {c v : Str} (h : (extractSwiftBytes c).2 = some v) :
    IsParam (SWIFT_BYTES, v) :=
  isParam_foldl_addParam (parseContentType_spec c).2 (fun _ e => absurd e (some_ne_none _).symm) h

theorem swiftBytes_eq : ";swift_bytes=".toList = ';' :: SWIFT_BYTES ++ ['='] := by decide

theorem printParams_append (ps qs : List (Str × Str)) :
    printParams (ps ++ qs) = printParams ps ++ printParams qs := flatMap_append

/-- **Splitting what was joined.** -/
theorem extractSwiftBytes_join (c d : Str) :
    extractSwiftBytes (withSwiftBytes (typeOf c) (extractSwiftBytes d).2) = (typeOf c, swiftBytesOf d) := by
  obtain ⟨ht, hps⟩ := parseContentType_spec c
  set t := (parseContentType c).1
  set others := (parseContentType c).2.filter fun p => p.1 ≠ SWIFT_BYTES
  have htype : typeOf c = t ++ printParams others := foldl_addParam_fst _ _
  have hothers : ∀ p ∈ others, IsParam p ∧ p.1 ≠ SWIFT_BYTES := fun p hp =>
    ⟨hps p (mem_filter.mp hp).1, of_decide_eq_true (mem_filter.mp hp).2⟩
  have hall : others.filter (fun p => p.1 ≠ SWIFT_BYTES) = others :=
    filter_eq_self.mpr fun p hp => decide_eq_true (hothers p hp).2
  -- without bytes the type is left, with bytes one more parameter is printed
  have hplain : extractSwiftBytes (t ++ printParams others) = (t ++ printParams others, none) := by
    rw [extractSwiftBytes_eq, parseContentType_print ht others fun p hp => (hothers p hp).1]
    refine Prod.ext ?_ (foldl_addParam_snd (fun p hp => (hothers p hp).2) _)
    rw [foldl_addParam_fst, hall]
  rw [swiftBytesOf, htype]
  cases hb : (extractSwiftBytes d).2 with
  | none => exact hplain
  | some v =>
    have hv := isParam_swiftBytes hb
    by_cases hv0 : v = []
    · subst hv0
      exact hplain
    · have hjoin : withSwiftBytes (t ++ printParams others) (some v) =
          t ++ printParams (others ++ [(SWIFT_BYTES, v)]) := by
        obtain ⟨a, w, rfl⟩ := exists_cons_of_ne_nil hv0
        rw [withSwiftBytes, swiftBytes_eq, printParams_append, append_assoc]
        · simp [printParams]
        · exact hv0
      rw [hjoin, extractSwiftBytes_eq, parseContentType_print ht _ fun p hp => ?_]
      · rw [foldl_append, foldl_cons, foldl_nil, addParam, if_pos rfl,
          foldl_addParam_fst, hall, filter_some_pos (by simpa using hv0)]
      · rcases mem_append.mp hp with hp | hp
        · exact (hothers p hp).1
        · rw [mem_singleton.mp hp]
          exact hv

@[simp] theorem typeOf_join (c d : Str) :
    typeOf (withSwiftBytes (typeOf c) (extractSwiftBytes d).2) = typeOf c := by
  rw [typeOf, extractSwiftBytes_join]

@[simp] theorem swiftBytesOf_join (c d : Str) :
    swiftBytesOf (withSwiftBytes (typeOf c) (extractSwiftBytes d).2) = swiftBytesOf d := by
  rw [swiftBytesOf, extractSwiftBytes_join, swiftBytesOf, Option.filter_filter]
  simp

/-- **An update leaves the joined spelling.** -/
theorem joined_join (c d : Str) : Joined (withSwiftBytes (typeOf c) (extractSwiftBytes d).2) := by
  rw [Joined, typeOf_join, swiftBytesOf_join, swiftBytesOf]
  cases (extractSwiftBytes d).2 with
  | none => rfl
  | some v => cases v <;> rfl

/-- **The two parts decide a joined content type.** -/
theorem Joined.ext {c d : Str} (hc : Joined c) (hd : Joined d) (ht : typeOf c = typeOf d)
    (hb : swiftBytesOf c = swiftBytesOf d) : c = d := by
  rw [← hc, ← hd, ht, hb]

/-! ## 2. Entries -/

/-- Timestamps, and the content type that came with them. -/
abbrev ColumnEntry := Stamps × Str

/-- **Both parts of the column come from an entry with the row's timestamp.** -/
structure Vouched (E : Set ColumnEntry) (s : Stamps) (c : Str) : Prop where
  type : ∃ e ∈ E, e.1.2.1 = s.2.1 ∧ typeOf e.2 = typeOf c
  bytes : ∃ e ∈ E, e.1.1 = s.1 ∧ swiftBytesOf e.2 = swiftBytesOf c

theorem Vouched.mono {E F : Set ColumnEntry} {s : Stamps} {c : Str} (h : Vouched E s c)
    (hEF : E ⊆ F) : Vouched F s c := by
  obtain ⟨⟨e, he, h1⟩, ⟨f, hf, h2⟩⟩ := h
  exact ⟨⟨e, hEF he, h1⟩, ⟨f, hEF hf, h2⟩⟩

/-- A row may stand for its entries. -/
theorem Vouched.flatten {E F G : Set ColumnEntry} {s t : Stamps} {b c : Str}
    (h : Vouched (E ∪ F) s c) (hE : ∀ e ∈ E, e = (t, b)) (ht : Vouched G t b) :
    Vouched (G ∪ F) s c := by
  refine ⟨?_, ?_⟩
  · obtain ⟨e, he | he, h1, h2⟩ := h.type
    · obtain rfl := hE e he
      obtain ⟨g, hg, g1, g2⟩ := ht.type
      exact ⟨g, Or.inl hg, g1.trans h1, g2.trans h2⟩
    · exact ⟨e, Or.inr he, h1, h2⟩
  · obtain ⟨e, he | he, h1, h2⟩ := h.bytes
    · obtain rfl := hE e he
      obtain ⟨g, hg, g1, g2⟩ := ht.bytes
      exact ⟨g, Or.inl hg, g1.trans h1, g2.trans h2⟩
    · exact ⟨e, Or.inr he, h1, h2⟩

/-- What an update picks: each part from the record (k, c) or from the item (j, d),
    whichever has the timestamp of the outcome. -/
structure Picks (k : Stamps) (c : Str) (j : Stamps) (d : Str) (e : Str) : Prop where
  type : (k ⊔ j).2.1 = k.2.1 ∧ typeOf e = typeOf c ∨ (k ⊔ j).2.1 = j.2.1 ∧ typeOf e = typeOf d
  bytes : (k ⊔ j).1 = k.1 ∧ swiftBytesOf e = swiftBytesOf c ∨
    (k ⊔ j).1 = j.1 ∧ swiftBytesOf e = swiftBytesOf d

/-- The outcome is vouched for by the entries of the record and the item. -/
theorem Picks.vouched {E : Set ColumnEntry} {k j : Stamps} {c d e : Str} (h : Picks k c j d e)
    (hc : Vouched E k c) : Vouched (E ∪ {(j, d)}) (k ⊔ j) e := by
  refine ⟨?_, ?_⟩
  · rcases h.type with ⟨h1, h2⟩ | ⟨h1, h2⟩
    · obtain ⟨x, hx, x1, x2⟩ := hc.type
      exact ⟨x, Or.inl hx, x1.trans h1.symm, x2.trans h2.symm⟩
    · exact ⟨(j, d), Or.inr rfl, h1.symm, h2.symm⟩
  · rcases h.bytes with ⟨h1, h2⟩ | ⟨h1, h2⟩
    · obtain ⟨x, hx, x1, x2⟩ := hc.bytes
      exact ⟨x, Or.inl hx, x1.trans h1.symm, x2.trans h2.symm⟩
    · exact ⟨(j, d), Or.inr rfl, h1.symm, h2.symm⟩

/-- **A duplicate is updated twice**, against the record (k, c) and then against what
    the item before it left, (t, p): nothing is lost, since the latter is not older
    than the record. -/
theorem Picks.vouched_twice {E : Set ColumnEntry} {k j t : Stamps} {c d e p z : Str}
    (h : Picks k c j d e) (h' : Picks t p j e z) (hk : (k, c) ∈ E) (hkt : k ≤ t)
    (hp : Vouched E t p) : Vouched (E ∪ {(j, d)}) (t ⊔ j) z := by
  refine ⟨?_, ?_⟩
  · rcases h'.type with ⟨h1, h2⟩ | ⟨h1, h2⟩
    · obtain ⟨x, hx, x1, x2⟩ := hp.type
      exact ⟨x, Or.inl hx, x1.trans h1.symm, x2.trans h2.symm⟩
    · rcases h.type with ⟨g1, g2⟩ | ⟨-, g2⟩
      · have hjk : j.2.1 ≤ k.2.1 := g1 ▸ le_sup_right
        have htj : t.2.1 ≤ j.2.1 := h1 ▸ le_sup_left
        refine ⟨(k, c), Or.inl hk, ?_, (h2.trans g2).symm⟩
        exact h1.symm ▸ le_antisymm (hkt.2.1.trans htj) hjk
      · exact ⟨(j, d), Or.inr rfl, h1.symm, (h2.trans g2).symm⟩
  · rcases h'.bytes with ⟨h1, h2⟩ | ⟨h1, h2⟩
    · obtain ⟨x, hx, x1, x2⟩ := hp.bytes
      exact ⟨x, Or.inl hx, x1.trans h1.symm, x2.trans h2.symm⟩
    · rcases h.bytes with ⟨g1, g2⟩ | ⟨-, g2⟩
      · have hjk : j.1 ≤ k.1 := g1 ▸ le_sup_right
        have htj : t.1 ≤ j.1 := h1 ▸ le_sup_left
        refine ⟨(k, c), Or.inl hk, ?_, (h2.trans g2).symm⟩
        exact h1.symm ▸ le_antisymm (hkt.1.trans htj) hjk
      · exact ⟨(j, d), Or.inr rfl, h1.symm, (h2.trans g2).symm⟩

/-- A first record keeps its content type. -/
theorem update_none_contentType {x y : Item} {b : Bool}
    (h : updateNewItemFromExisting x none = some (y, b)) : y.contentType = x.contentType := by
  unfold updateNewItemFromExisting at h
  obtain ⟨⟨d, c, m⟩, -, h⟩ := bind_eq_some_iff.mp h
  obtain ⟨rfl, -⟩ := Prod.mk.inj (Option.some.inj h)
  rfl

/-- **An update joins what it picks.** -/
theorem update_some_contentType {x y : Item} {b : Bool} {r : ObjectRecord} {k j : Stamps}
    (hr : stamps r.createdAt = some k) (hx : x.stamps = some j)
    (h : updateNewItemFromExisting x (some r) = some (y, b)) :
    Joined y.contentType ∧ Picks k r.contentType j x.contentType y.contentType := by
  unfold updateNewItemFromExisting at h
  obtain ⟨⟨d, c, m⟩, ht, h⟩ := bind_eq_some_iff.mp h
  obtain ⟨⟨rd, rc, rm⟩, hd, h⟩ := bind_eq_some_iff.mp h
  obtain ⟨rfl, -⟩ := Prod.mk.inj (Option.some.inj h)
  have hxt : x.timestamps = some (d, c, m) := ht
  rw [Item.stamps, hxt] at hx
  obtain rfl := Option.some.inj hx
  rw [stamps, hd] at hr
  obtain rfl := Option.some.inj hr
  have hcolumn : ∀ u v : Str, (u = if rc.pyGe c = true then r.contentType else x.contentType) →
      (v = if rd.pyGe d = true then r.contentType else x.contentType) →
      withSwiftBytes
        (if rc.pyGe c = true then (extractSwiftBytes r.contentType).1
          else (extractSwiftBytes x.contentType).1)
        (if rd.pyGe d = true then (extractSwiftBytes r.contentType).2
          else (extractSwiftBytes x.contentType).2) =
      withSwiftBytes (typeOf u) (extractSwiftBytes v).2 := by
    rintro u v rfl rfl
    split <;> split <;> rfl
  have hy := hcolumn _ _ rfl rfl
  refine ⟨?_, ⟨?_, ?_⟩⟩
  · exact hy ▸ joined_join _ _
  · have hmax : (rd, rc.raw, rm.raw).2.1 ⊔ (d, c.raw, m.raw).2.1 = _ := (raw_max rc c).symm
    by_cases hge : rc.pyGe c = true
    · refine Or.inl ⟨?_, ?_⟩
      · exact hmax.trans (by rw [if_pos hge])
      · refine (congrArg typeOf hy).trans ?_
        rw [typeOf_join, if_pos hge]
    · refine Or.inr ⟨?_, ?_⟩
      · exact hmax.trans (by rw [if_neg hge])
      · refine (congrArg typeOf hy).trans ?_
        rw [typeOf_join, if_neg hge]
  · have hmax : (rd, rc.raw, rm.raw).1 ⊔ (d, c.raw, m.raw).1 = _ := (data_max rd d).symm
    by_cases hge : rd.pyGe d = true
    · refine Or.inl ⟨?_, ?_⟩
      · exact hmax.trans (by rw [if_pos hge])
      · refine (congrArg swiftBytesOf hy).trans ?_
        rw [swiftBytesOf_join, if_pos hge]
    · refine Or.inr ⟨?_, ?_⟩
      · exact hmax.trans (by rw [if_neg hge])
      · refine (congrArg swiftBytesOf hy).trans ?_
        rw [swiftBytesOf_join, if_neg hge]

/-! ## 3. The loop over the items -/

/-- The entry of the existing record. -/
def onFile (records : Dict Ident ObjectRecord) (k : Ident) : Set ColumnEntry :=
  {e | ∃ r, records.get k = some r ∧ stamps r.createdAt = some e.1 ∧ r.contentType = e.2}

/-- The entries of the items of one name and policy. -/
def heard (items : List Item) (k : Ident) : Set ColumnEntry :=
  {e | ∃ x ∈ items, x.ident = k ∧ x.stamps = some e.1 ∧ x.contentType = e.2}

/-- The items of one name and policy. -/
def ofIdent (items : List Item) (k : Ident) : List Item := items.filter (·.ident = k)

theorem mem_ofIdent {items : List Item} {k : Ident} {x : Item} :
    x ∈ ofIdent items k ↔ x ∈ items ∧ x.ident = k := by
  rw [ofIdent, mem_filter, decide_eq_true_iff]

theorem ofIdent_append (done items : List Item) (k : Ident) :
    ofIdent (done ++ items) k = ofIdent done k ++ ofIdent items k := filter_append ..

theorem ofIdent_singleton (x : Item) : ofIdent [x] x.ident = [x] := by simp [ofIdent]

theorem ofIdent_singleton_of_ne {x : Item} {k : Ident} (h : x.ident ≠ k) : ofIdent [x] k = [] := by
  simp [ofIdent, h]

theorem heard_subset {items items' : List Item} (h : ∀ x ∈ items, x ∈ items') (k : Ident) :
    heard items k ⊆ heard items' k := fun _ ⟨x, hx, he⟩ => ⟨x, h x hx, he⟩

theorem heard_append (done items : List Item) (k : Ident) :
    heard (done ++ items) k = heard done k ∪ heard items k := by
  refine Set.ext fun e => ⟨fun ⟨x, hx, h⟩ => ?_, fun h => ?_⟩
  · rcases mem_append.mp hx with hx | hx
    · exact Or.inl ⟨x, hx, h⟩
    · exact Or.inr ⟨x, hx, h⟩
  · rcases h with ⟨x, hx, h⟩ | ⟨x, hx, h⟩
    · exact ⟨x, mem_append_left _ hx, h⟩
    · exact ⟨x, mem_append_right _ hx, h⟩

/-- The one item of its name and policy, stored as it came. -/
def StoredAlone (items : List Item) (k : Ident) (r : ObjectRecord) : Prop :=
  ∃ m a, ofIdent items k = [m] ∧ updateNewItemFromExisting m none = some (a, true) ∧
    r = a.toObjectRecord

/-- What holds of the content types in `to_add` after the items `done`. -/
structure ColumnInv (records : Dict Ident ObjectRecord) (done : List Item)
    (toAdd : Dict Ident Item) : Prop where
  vouched : ∀ k a, toAdd.get k = some a → ∀ s, stamps a.createdAt = some s →
    Vouched (onFile records k ∪ heard done k) s a.contentType
  spelling : ∀ k a, toAdd.get k = some a →
    (records.get k = none ∧ StoredAlone done k a.toObjectRecord) ∨
      (Joined a.contentType ∧ ((records.get k).isSome = true ∨ 2 ≤ (ofIdent done k).length))

section Loop

variable {records : Dict Ident ObjectRecord} {done : List Item}
  {acc : Dict Ident Item × Dict Ident Item}

theorem onFile_vouched {k : Ident} {r : ObjectRecord} (h : records.get k = some r) {s : Stamps}
    (hs : stamps r.createdAt = some s) : Vouched (onFile records k) s r.contentType :=
  ⟨⟨(s, r.contentType), ⟨r, h, hs, rfl⟩, rfl, rfl⟩, ⟨(s, r.contentType), ⟨r, h, hs, rfl⟩, rfl, rfl⟩⟩

/-- Entries of other names and policies keep what they have. -/
theorem ColumnInv.other (hinv : ColumnInv records done acc.2) {x : Item} {k : Ident} (hk : x.ident ≠ k)
    {a : Item} (ha : acc.2.get k = some a) :
    (∀ s, stamps a.createdAt = some s →
      Vouched (onFile records k ∪ heard (done ++ [x]) k) s a.contentType) ∧
    ((records.get k = none ∧ StoredAlone (done ++ [x]) k a.toObjectRecord) ∨
      (Joined a.contentType ∧
        ((records.get k).isSome = true ∨ 2 ≤ (ofIdent (done ++ [x]) k).length))) := by
  have hof : ofIdent (done ++ [x]) k = ofIdent done k := by
    rw [ofIdent_append, ofIdent_singleton_of_ne hk, append_nil]
  refine ⟨fun s hs => (hinv.vouched k a ha s hs).mono ?_, ?_⟩
  · exact Set.union_subset_union_right _ (heard_subset (fun y hy => mem_append_left _ hy) k)
  · rw [StoredAlone, hof]
    exact hinv.spelling k a ha

/-- Writing the content type of one name and policy into `to_add`. -/
theorem ColumnInv.put (hinv : ColumnInv records done acc.2) {x z : Item}
    (hvouched : ∀ s, stamps z.createdAt = some s →
      Vouched (onFile records x.ident ∪ heard (done ++ [x]) x.ident) s z.contentType)
    (hspelling : (records.get x.ident = none ∧ StoredAlone (done ++ [x]) x.ident z.toObjectRecord) ∨
      (Joined z.contentType ∧ ((records.get x.ident).isSome = true ∨
        2 ≤ (ofIdent (done ++ [x]) x.ident).length))) :
    ColumnInv records (done ++ [x]) (acc.2.set x.ident z) := by
  refine ⟨fun k a ha => ?_, fun k a ha => ?_⟩
  · rw [Dict.get_set] at ha
    by_cases hk : x.ident = k
    · rw [if_pos hk] at ha
      obtain rfl := Option.some.inj ha
      exact hk ▸ hvouched
    · rw [if_neg hk] at ha
      exact (hinv.other hk ha).1
  · rw [Dict.get_set] at ha
    by_cases hk : x.ident = k
    · rw [if_pos hk] at ha
      obtain rfl := Option.some.inj ha
      exact hk ▸ hspelling
    · rw [if_neg hk] at ha
      exact (hinv.other hk ha).2

/-- **One item keeps the invariant.** -/
theorem columnInv_step (hrec : ∀ k r, records.get k = some r → Canonical r.createdAt)
    (hm : MergeInv records done acc) (hinv : ColumnInv records done acc.2) {x : Item}
    {acc' : Dict Ident Item × Dict Ident Item} (h : mergeStep records acc x = some acc') :
    ColumnInv records (done ++ [x]) acc'.2 := by
  unfold mergeStep at h
  dsimp only at h
  cases hu : updateNewItemFromExisting x (records.get x.ident) with
  | none => rw [hu] at h; cases h
  | some yb =>
    obtain ⟨y, b⟩ := yb
    obtain ⟨j, s, hj, hsame, -, hs, -, -⟩ := latest_update hrec hu
    have hself : (j, x.contentType) ∈ heard (done ++ [x]) x.ident :=
      ⟨x, mem_append_right _ (mem_singleton_self x), rfl, hj, rfl⟩
    have hbefore : onFile records x.ident ∪ heard done x.ident ∪ {(j, x.contentType)} ⊆
        onFile records x.ident ∪ heard (done ++ [x]) x.ident := by
      rintro e ((he | he) | rfl)
      · exact Or.inl he
      · exact Or.inr (heard_subset (fun y hy => mem_append_left _ hy) _ he)
      · exact Or.inr hself
    rw [hu] at h
    cases b with
    | false =>
      -- the existing record answers for the item
      obtain rfl := Option.some.inj h
      have hsome : (records.get x.ident).isSome = true := by
        cases hr : records.get x.ident with
        | none => rw [hr] at hu; exact absurd (update_none hu).1 Bool.false_ne_true
        | some r => rfl
      refine ⟨fun k a ha => ?_, fun k a ha => ?_⟩
      · by_cases hk : x.ident = k
        · subst hk
          exact fun t ht => (hinv.vouched _ a ha t ht).mono fun e he => hbefore (Or.inl he)
        · exact (hinv.other hk ha).1
      · by_cases hk : x.ident = k
        · subst hk
          rcases hinv.spelling _ a ha with ⟨hnone, -⟩ | ⟨hjoined, -⟩
          · rw [hnone] at hsome
            cases hsome
          · exact Or.inr ⟨hjoined, Or.inl hsome⟩
        · exact (hinv.other hk ha).2
    | true =>
      dsimp only at h
      cases hp : acc.2.get x.ident with
      | none =>
        rw [hp] at h
        obtain rfl := Option.some.inj h
        cases hr : records.get x.ident with
        | none =>
          rw [hr] at hu
          -- the first of its name and policy: no item before it
          have hfirst : ofIdent done x.ident = [] := by
            refine eq_nil_iff_forall_not_mem.mpr fun w hw => ?_
            obtain ⟨hw, hwx⟩ := mem_ofIdent.mp hw
            obtain ⟨r, hr', -⟩ := hm.covered w hw (hwx.symm ▸ hp)
            rw [hwx, hr] at hr'
            cases hr'
          have hcontent := update_none_contentType hu
          refine hinv.put (fun t ht => ?_) (Or.inl ⟨hr, x, y, ?_, hu, rfl⟩)
          · obtain ⟨-, -, -, hst, -⟩ := update_none hu
            obtain rfl : t = j := Option.some.inj (ht.symm.trans (hst.trans hj))
            exact ⟨⟨_, Or.inr hself, rfl, congrArg typeOf hcontent.symm⟩,
              ⟨_, Or.inr hself, rfl, congrArg swiftBytesOf hcontent.symm⟩⟩
          · rw [ofIdent_append, hfirst, ofIdent_singleton, nil_append]
        | some r =>
          rw [hr] at hu
          obtain ⟨kr, hkr⟩ := (hrec _ r hr).stamps
          obtain ⟨hjoined, hpicks⟩ := update_some_contentType hkr hj hu
          obtain ⟨j', hj', -, -, hst, -⟩ := update_some hkr hu
          obtain rfl : j = j' := Option.some.inj (hj.symm.trans hj')
          refine hinv.put (fun t ht => ?_) (Or.inr ⟨hjoined, Or.inl (by rw [hr]; rfl)⟩)
          obtain rfl : t = kr ⊔ j := Option.some.inj (ht.symm.trans hst)
          exact (hpicks.vouched (onFile_vouched hr hkr)).mono fun e he =>
            hbefore (he.imp Or.inl id)
      | some prev =>
        -- a duplicate: merged once more, into what the item before it left
        rw [hp] at h
        obtain ⟨⟨z, b'⟩, hz, he⟩ := map_eq_some_iff.mp h
        obtain rfl := he
        obtain ⟨-, t, ht, hl⟩ := hm.added _ prev hp
        have hjy : y.stamps = some j := hsame.stamps.trans hj
        obtain ⟨hjoined, hpicks⟩ := update_some_contentType ht hjy hz
        obtain ⟨j', hj', -, -, hst, -⟩ := update_some ht hz
        obtain rfl : j = j' := Option.some.inj (hjy.symm.trans hj')
        have hprev := hinv.vouched _ prev hp t ht
        have htwo : 2 ≤ (ofIdent (done ++ [x]) x.ident).length := by
          obtain ⟨-, w, hw, hwx, -⟩ := hm.addIdent _ prev hp
          have := length_pos_of_mem (mem_ofIdent.mpr ⟨hw, hwx⟩)
          rw [ofIdent_append, ofIdent_singleton, length_append, length_singleton]
          omega
        refine hinv.put (fun s' hs' => ?_) (Or.inr ⟨hjoined, Or.inr htwo⟩)
        obtain rfl : s' = t ⊔ j := Option.some.inj (hs'.symm.trans hst)
        refine Vouched.mono ?_ hbefore
        cases hr : records.get x.ident with
        | none =>
          rw [hr] at hu
          rw [update_none_contentType hu] at hpicks
          exact hpicks.vouched hprev
        | some r =>
          rw [hr] at hu
          obtain ⟨kr, hkr⟩ := (hrec _ r hr).stamps
          have hkt : kr ≤ t := hl.upper (kr, r.attrs) (Or.inl ⟨r, hr, hkr, rfl⟩)
          exact (update_some_contentType hkr hj hu).2.vouched_twice hpicks (Or.inl ⟨r, hr, hkr, rfl⟩)
            hkt hprev

/-- **The whole loop keeps the invariant.** -/
theorem columnInv_foldlM (hrec : ∀ k r, records.get k = some r → Canonical r.createdAt)
    {items : List Item} (hm : MergeInv records done acc) (hinv : ColumnInv records done acc.2)
    {acc' : Dict Ident Item × Dict Ident Item}
    (h : items.foldlM (mergeStep records) acc = some acc') :
    ColumnInv records (done ++ items) acc'.2 := by
  induction items generalizing done acc with
  | nil =>
    obtain rfl := Option.some.inj h
    rwa [append_nil]
  | cons x items ih =>
    rw [foldlM_cons] at h
    obtain ⟨acc1, h1, h2⟩ := bind_eq_some_iff.mp h
    have := ih (mergeInv_step hrec hm h1) (columnInv_step hrec hm hinv h1) h2
    rwa [append_assoc, singleton_append] at this

end Loop

/-! ## 4. The rows afterwards -/

variable {md5 : Str → BitVec 128} {order : DictOrder} {db db' : ContainerDb} {done items : List Item}
  {source : Option Str}

/-- **A row afterwards** is a row that nothing in `to_add` replaces, or is in `to_add`. -/
theorem rows_mergeItems (hwf : db.WellFormed) (h : mergeItems md5 order db items source = some db') :
    ∃ toAdd, MergeInv (fetchRecords db items) items toAdd ∧
      ColumnInv (fetchRecords db items) items toAdd.2 ∧
      ∀ r ∈ db'.rows, (r ∈ db.rows ∧ toAdd.2.get r.ident = none) ∨
        ∃ a, toAdd.2.get r.ident = some a ∧ r.toObjectRecord = a.toObjectRecord := by
  unfold mergeItems at h
  cases hloop : items.foldlM (mergeStep (fetchRecords db items)) ([], []) with
  | none => rw [hloop] at h; cases h
  | some acc =>
    have hcan : ∀ k rec, (fetchRecords db items).get k = some rec → Canonical rec.createdAt :=
      canonical_fetchRecords hwf
    have hm := mergeInv_foldlM hcan (mergeInv_nil _) hloop
    have hnil : ColumnInv (fetchRecords db items) [] [] :=
      ⟨fun _ _ e => absurd e (some_ne_none _).symm,
        fun _ _ e => absurd e (some_ne_none _).symm⟩
    have hc := columnInv_foldlM hcan (mergeInv_nil _) hnil hloop
    rw [nil_append] at hm hc
    rw [hloop] at h
    dsimp only at h
    obtain ⟨hd, -, -⟩ := foldl_deleteIdent md5 (order.values acc.1) db
    set dbD := (order.values acc.1).foldl (fun db rec => deleteIdent md5 db rec.ident) db
    obtain ⟨ha, -, -⟩ := foldl_insertRow md5 (order.values acc.2) dbD
    set dbA := (order.values acc.2).foldl (fun db rec => insertRow md5 db rec.toObjectRecord) dbD
    have hrows : ∀ r ∈ dbA.rows, (r ∈ db.rows ∧ acc.2.get r.ident = none) ∨
        ∃ a, acc.2.get r.ident = some a ∧ r.toObjectRecord = a.toObjectRecord := by
      intro r hr
      rw [ha] at hr
      rcases mem_append.mp hr with hr | hr
      · rw [hd] at hr
        obtain ⟨hr, hkept⟩ := mem_filter.mp hr
        refine Or.inl ⟨hr, eq_none_iff_forall_ne_some.mpr fun a hadd => ?_⟩
        -- an entry in `to_add` with a row has one in `to_delete`
        obtain ⟨-, x, hx, hxe, -⟩ := hm.addIdent _ a hadd
        have hdel : (acc.1.get r.ident).isSome = true := by
          rw [hm.delIff, hadd, get_fetchRecords_of_mem hwf hr hx hxe]
          exact ⟨rfl, rfl⟩
        obtain ⟨y, hy⟩ := isSome_iff_exists.mp hdel
        have hyv := (order.mem_values hm.delNodup).mpr ⟨_, hy⟩
        exact of_decide_eq_true hkept y hyv (hm.delIdent _ y hy).symm
      · obtain ⟨-, -, a, hav, he⟩ := mem_numbered hr
        obtain ⟨k, hk⟩ := (order.mem_values hm.addNodup).mp hav
        have hident : r.ident = k := (congrArg ObjectRecord.ident he).trans (hm.addIdent k a hk).1
        exact Or.inr ⟨a, hident.symm ▸ hk, he⟩
    refine ⟨acc, hm, hc, ?_⟩
    split at h
    · obtain rfl := Option.some.inj h
      exact hrows
    · obtain rfl := Option.some.inj h
      exact hrows
    · split at h
      · cases h
      · obtain ⟨point, -, rfl⟩ := map_eq_some_iff.mp h
        exact hrows

/-- The row is the first record as it came, and answers for all records after it. -/
def Kept (done : List Item) (r : ObjectRecord) : Prop :=
  ∃ m a rest, ofIdent done r.ident = m :: rest ∧ updateNewItemFromExisting m none = some (a, true) ∧
    r = a.toObjectRecord ∧ ∀ y ∈ rest, Covers r y

/-- **The content types of the rows** after the records `done`. -/
structure ColumnReflects (done : List Item) (db : ContainerDb) : Prop where
  vouched : ∀ r ∈ db.rows, ∀ s, stamps r.createdAt = some s →
    Vouched (heard done r.ident) s r.contentType
  spelling : ∀ r ∈ db.rows, Kept done r.toObjectRecord ∨
    (Joined r.contentType ∧ 2 ≤ (ofIdent done r.ident).length)

theorem columnReflects_fresh (id : Str) (p : Nat) : ColumnReflects [] (ContainerDb.fresh id p) :=
  ⟨fun _ hr => absurd hr not_mem_nil, fun _ hr => absurd hr not_mem_nil⟩

/-- A row that nothing replaces answers for the items of its name and policy. -/
theorem covers_of_not_added (hwf : db.WellFormed) {acc : Dict Ident Item × Dict Ident Item}
    (hm : MergeInv (fetchRecords db items) items acc) {r : ObjectRow} (hr : r ∈ db.rows)
    (hnone : acc.2.get r.ident = none) : ∀ y ∈ ofIdent items r.ident, Covers r.toObjectRecord y := by
  intro y hy
  obtain ⟨hy, hye⟩ := mem_ofIdent.mp hy
  obtain ⟨rec, hrec, hcov⟩ := hm.covered y hy (hye.symm ▸ hnone)
  obtain ⟨r', hr', he, rfl⟩ := get_fetchRecords hwf hrec
  obtain rfl := row_unique hwf hr' hr (he.trans hye)
  exact hcov

/-- **One call keeps `ColumnReflects`.** -/
theorem ColumnReflects.step {p : Nat} (h : Reflects md5 p done db) (hc : ColumnReflects done db)
    (hstep : mergeItems md5 order db items source = some db') :
    ColumnReflects (done ++ items) db' := by
  obtain ⟨acc, hm, hcol, hrows⟩ := rows_mergeItems h.wellFormed hstep
  refine ⟨fun r hr s hs => ?_, fun r hr => ?_⟩
  · rw [heard_append]
    rcases hrows r hr with ⟨hold, -⟩ | ⟨a, ha, he⟩
    · exact (hc.vouched r hold s hs).mono Set.subset_union_left
    · have hcreated : r.createdAt = a.createdAt := congrArg ObjectRecord.createdAt he
      have hcontent : r.contentType = a.contentType := congrArg ObjectRecord.contentType he
      have hv := hcol.vouched _ a ha s (hcreated ▸ hs)
      rw [hcontent]
      cases hrec : (fetchRecords db items).get r.ident with
      | none =>
        refine hv.mono ?_
        rintro e (⟨r0, hr0, -⟩ | he)
        · rw [hrec] at hr0
          cases hr0
        · exact Or.inr he
      | some rec =>
        obtain ⟨r0, hr0, hi, rfl⟩ := get_fetchRecords h.wellFormed hrec
        obtain ⟨t, ht⟩ := (h.wellFormed.canonical r0 hr0).stamps
        have hold := hc.vouched r0 hr0 t ht
        rw [hi] at hold
        refine hv.flatten (fun e ⟨r1, hr1, h1, h2⟩ => ?_) hold
        obtain rfl := Option.some.inj (hrec.symm.trans hr1)
        exact Prod.ext (Option.some.inj (h1.symm.trans ht)) h2.symm
  · rw [ofIdent_append]
    rcases hrows r hr with ⟨hold, hnone⟩ | ⟨a, ha, he⟩
    · rcases hc.spelling r hold with ⟨m, a, rest, hof, hu, hra, hcov⟩ | ⟨hj, htwo⟩
      · refine Or.inl ⟨m, a, rest ++ ofIdent items r.ident, ?_, hu, hra, fun y hy => ?_⟩
        · exact (ofIdent_append ..).trans (by rw [hof]; rfl)
        · rcases mem_append.mp hy with hy | hy
          · exact hcov y hy
          · exact covers_of_not_added h.wellFormed hm hold hnone y hy
      · refine Or.inr ⟨hj, ?_⟩
        rw [length_append]
        omega
    · have hcontent : r.contentType = a.contentType := congrArg ObjectRecord.contentType he
      obtain ⟨-, x, hx, hxe, -⟩ := hm.addIdent _ a ha
      rcases hcol.spelling _ a ha with ⟨hnone, m, a', hof, hu, hra⟩ | ⟨hj, hmany⟩
      · -- without an existing record there was no record of this name and policy before
        have hdone : ofIdent done r.ident = [] := by
          refine eq_nil_iff_forall_not_mem.mpr fun w hw => ?_
          obtain ⟨hw, hwe⟩ := mem_ofIdent.mp hw
          obtain ⟨r0, hr0, hi⟩ := (h.idents r.ident).mpr ⟨w, hw, hwe⟩
          rw [← hi, get_fetchRecords_of_mem h.wellFormed hr0 hx (hxe.trans hi.symm)] at hnone
          cases hnone
        refine Or.inl ⟨m, a', [], ?_, hu, he.trans hra, fun y hy => by cases hy⟩
        exact (ofIdent_append ..).trans (by rw [← hof]; exact congrArg (· ++ _) hdone)
      · refine Or.inr ⟨hcontent ▸ hj, ?_⟩
        have hitem := length_pos_of_mem (mem_ofIdent.mpr ⟨hx, hxe⟩)
        rw [length_append]
        rcases hmany with hsome | htwo
        · obtain ⟨rec, hrec⟩ := isSome_iff_exists.mp hsome
          obtain ⟨r0, hr0, hi, -⟩ := get_fetchRecords h.wellFormed hrec
          obtain ⟨w, hw, hwe⟩ := (h.idents r.ident).mp ⟨r0, hr0, hi⟩
          have hbefore := length_pos_of_mem (mem_ofIdent.mpr ⟨hw, hwe⟩)
          omega
        · omega

variable {calls : List (DictOrder × List Item)}

/-- **A whole run keeps `ColumnReflects`.** -/
theorem ColumnReflects.deliver {p : Nat} (h : Reflects md5 p done db) (hc : ColumnReflects done db)
    (hrun : Swift.deliver md5 db calls = some db') :
    ColumnReflects (done ++ calls.flatMap Prod.snd) db' := by
  induction calls generalizing done db with
  | nil =>
    obtain rfl := Option.some.inj hrun
    rwa [flatMap_nil, append_nil]
  | cons c calls ih =>
    rw [Swift.deliver, foldlM_cons] at hrun
    obtain ⟨db1, h1, h2⟩ := bind_eq_some_iff.mp hrun
    have := ih (h.step h1) (ColumnReflects.step h hc h1) h2
    rwa [flatMap_cons, ← append_assoc]

/-! ## 5. Convergence -/

/-- The timestamps of an item as `created_at` keeps them. -/
def Item.storedTimestamps (item : Item) : Option (Timestamp × Timestamp × Timestamp) :=
  item.timestamps.map fun t => (t.1, stepTo t.1 t.2.1, stepTo (stepTo t.1 t.2.1) t.2.2)

/-- None of the other records has a timestamp newer than those of `m`. -/
def AllNewest (items : List Item) (m : Item) : Prop :=
  ∃ t, m.storedTimestamps = some t ∧ ∀ y ∈ items, y ≠ m →
    ∃ u, y.timestamps = some u ∧ u.1 ≤ t.1 ∧ u.2.1 ≤ t.2.1 ∧ u.2.2 ≤ t.2.2

/-- The records of one object: they parse, records of one content-type timestamp have
    one type, and records of one data timestamp have one `swift_bytes`. -/
structure OneObject (items : List Item) : Prop where
  nodup : items.Nodup
  ident : ∀ x ∈ items, ∀ y ∈ items, x.ident = y.ident
  parses : ∀ x ∈ items, x.stamps.isSome = true
  types : ∀ x ∈ items, ∀ y ∈ items, ∀ s t, x.stamps = some s → y.stamps = some t →
    s.2.1 = t.2.1 → typeOf x.contentType = typeOf y.contentType
  bytes : ∀ x ∈ items, ∀ y ∈ items, ∀ s t, x.stamps = some s → y.stamps = some t →
    s.1 = t.1 → swiftBytesOf x.contentType = swiftBytesOf y.contentType

/-- The calls deliver each record once. -/
def DeliversOnce (items : List Item) (calls : List (DictOrder × List Item)) : Prop :=
  (calls.flatMap Prod.snd).Perm items

/-- The type of the newest content-type timestamp, the `swift_bytes` of the newest
    data timestamp. -/
structure OfNewest (items : List Item) (c : Str) : Prop where
  type : ∃ x ∈ items, ∃ s, x.stamps = some s ∧ typeOf c = typeOf x.contentType ∧
    ∀ z ∈ items, ∀ u, z.stamps = some u → u.2.1 ≤ s.2.1
  bytes : ∃ x ∈ items, ∃ s, x.stamps = some s ∧ swiftBytesOf c = swiftBytesOf x.contentType ∧
    ∀ z ∈ items, ∀ u, z.stamps = some u → u.1 ≤ s.1

/-- **Any two ways of delivering the records to new databases leave the same column**,
    with the newest type and the newest `swift_bytes`. -/
def ColumnConverges (md5 : Str → BitVec 128) (items : List Item)
    (way : List (DictOrder × List Item) → Prop) : Prop :=
  ∀ id id' p calls calls', way calls → way calls' → ∃ db db',
    deliver md5 (ContainerDb.fresh id p) calls = some db ∧
    deliver md5 (ContainerDb.fresh id' p) calls' = some db' ∧
    db.rows.map (·.contentType) = db'.rows.map (·.contentType) ∧
    ∀ r ∈ db.rows, OfNewest items r.contentType

/-- A first record answers for what its stored timestamps answer for. -/
theorem covers_first_iff {m a y : Item} {b : Bool}
    (hu : updateNewItemFromExisting m none = some (a, b)) : Covers a.toObjectRecord y ↔
      ∃ t, m.storedTimestamps = some t ∧
        ∃ u, y.timestamps = some u ∧ u.1 ≤ t.1 ∧ u.2.1 ≤ t.2.1 ∧ u.2.2 ≤ t.2.2 := by
  unfold updateNewItemFromExisting at hu
  obtain ⟨⟨d, c, w⟩, ht, hu⟩ := bind_eq_some_iff.mp hu
  obtain ⟨rfl, -⟩ := Prod.mk.inj (Option.some.inj hu)
  have hm : m.timestamps = some (d, c, w) := ht
  have hdecode : decodeAll (encodeStamps d c w) = m.storedTimestamps := by
    rw [Item.storedTimestamps, hm]
    exact decodeAll_encodeTimestamps d c w false
  refine ⟨fun ⟨t, u, h1, h2, h3⟩ => ⟨t, hdecode ▸ h1, u, h2, h3⟩, fun ⟨t, h1, u, h2, h3⟩ =>
    ⟨t, u, hdecode.trans h1, h2, h3⟩⟩

variable {p p' : Nat} {given given' : List Item}

/-- There is one row, of the name and policy of the records, when there are any. -/
theorem rows_of_one (h : Reflects md5 p given db)
    (hone : ∀ x ∈ given, ∀ y ∈ given, x.ident = y.ident) :
    (given = [] ∧ db.rows = []) ∨
      ∃ r, db.rows = [r] ∧ given ≠ [] ∧ ∀ x ∈ given, x.ident = r.ident := by
  have hrow : ∀ r ∈ db.rows, ∀ x ∈ given, x.ident = r.ident := fun r hr x hx => by
    obtain ⟨y, hy, hye⟩ := (h.idents r.ident).mp ⟨r, hr, rfl⟩
    exact (hone x hx y hy).trans hye
  have hsome : ∀ r ∈ db.rows, given ≠ [] := fun r hr he => by
    obtain ⟨y, hy, -⟩ := (h.idents r.ident).mp ⟨r, hr, rfl⟩
    rw [he] at hy
    cases hy
  cases hrows : db.rows with
  | nil =>
    refine Or.inl ⟨eq_nil_iff_forall_not_mem.mpr fun x hx => ?_, rfl⟩
    obtain ⟨r, hr, -⟩ := (h.idents x.ident).mpr ⟨x, hx, rfl⟩
    rw [hrows] at hr
    cases hr
  | cons r rs =>
    rw [hrows] at hrow hsome
    have hnil : rs = [] := by
      refine eq_nil_iff_forall_not_mem.mpr fun r' hr' => ?_
      have hnodup := h.wellFormed.idents
      rw [hrows, map_cons] at hnodup
      obtain ⟨x, hx⟩ := exists_mem_of_ne_nil _ (hsome r mem_cons_self)
      have he := (hrow r' (mem_cons_of_mem _ hr') x hx).symm.trans (hrow r mem_cons_self x hx)
      exact (nodup_cons.mp hnodup).1 (he ▸ List.mem_map_of_mem hr')
    exact Or.inr ⟨r, by rw [hnil], hsome r mem_cons_self, hrow r mem_cons_self⟩

/-- **The parts of the column are the newest.** -/
theorem ofNewest_row (hone : ∀ x ∈ items, ∀ y ∈ items, x.ident = y.ident)
    (hmem : ∀ x, x ∈ given ↔ x ∈ items) (h : Reflects md5 p given db) (hc : ColumnReflects given db)
    {r : ObjectRow} (hr : r ∈ db.rows) : OfNewest items r.contentType := by
  obtain ⟨s, hs, hl⟩ := h.latest r hr
  obtain ⟨y, hy, hye⟩ := (h.idents r.ident).mp ⟨r, hr, rfl⟩
  have hupper : ∀ z ∈ items, ∀ u, z.stamps = some u → u ≤ s := fun z hz u hu =>
    hl.upper (u, z.attrs) ⟨z, (hmem z).mpr hz, (hone z hz y ((hmem y).mp hy)).trans hye, hu, rfl⟩
  obtain ⟨⟨e, ⟨x, hx, -, hxs, hxc⟩, e1, e2⟩, ⟨f, ⟨w, hw, -, hws, hwc⟩, f1, f2⟩⟩ := hc.vouched r hr s hs
  refine ⟨⟨x, (hmem x).mp hx, e.1, hxs, ?_, fun z hz u hu => ?_⟩,
    ⟨w, (hmem w).mp hw, f.1, hws, ?_, fun z hz u hu => ?_⟩⟩
  · rw [← e2, hxc]
  · exact e1.symm ▸ (hupper z hz u hu).2.1
  · rw [← f2, hwc]
  · exact f1.symm ▸ (hupper z hz u hu).1

/-- **The newest parts are one pair.** -/
theorem OfNewest.unique (h : OneObject items) {c c' : Str} (hc : OfNewest items c)
    (hc' : OfNewest items c') : typeOf c = typeOf c' ∧ swiftBytesOf c = swiftBytesOf c' := by
  refine ⟨?_, ?_⟩
  · obtain ⟨x, hx, s, hs, hxc, hxmax⟩ := hc.type
    obtain ⟨y, hy, t, ht, hyc, hymax⟩ := hc'.type
    rw [hxc, hyc]
    exact h.types x hx y hy s t hs ht (le_antisymm (hymax x hx s hs) (hxmax y hy t ht))
  · obtain ⟨x, hx, s, hs, hxc, hxmax⟩ := hc.bytes
    obtain ⟨y, hy, t, ht, hyc, hymax⟩ := hc'.bytes
    rw [hxc, hyc]
    exact h.bytes x hx y hy s t hs ht (le_antisymm (hymax x hx s hs) (hxmax y hy t ht))

/-- A row that is as it came is one of the records, with all timestamps the newest. -/
theorem Kept.allNewest (hone : ∀ x ∈ items, ∀ y ∈ items, x.ident = y.ident)
    (hmem : ∀ x, x ∈ given ↔ x ∈ items) {r : ObjectRecord} (h : Kept given r) :
    ∃ m ∈ items, r.contentType = m.contentType ∧ AllNewest items m := by
  obtain ⟨m, a, rest, hof, hu, rfl, hcov⟩ := h
  obtain ⟨hm, hmi⟩ := mem_ofIdent.mp (hof ▸ mem_cons_self)
  obtain ⟨-, -, -, hst, -⟩ := update_none hu
  refine ⟨m, (hmem m).mp hm, update_none_contentType hu, ?_⟩
  have hstored : ∃ t, m.storedTimestamps = some t := by
    unfold updateNewItemFromExisting at hu
    obtain ⟨t, ht, -⟩ := bind_eq_some_iff.mp hu
    have hmt : m.timestamps = some t := ht
    exact ⟨_, by rw [Item.storedTimestamps, hmt]; rfl⟩
  obtain ⟨t, ht⟩ := hstored
  refine ⟨t, ht, fun y hy hne => ?_⟩
  have hyi : y ∈ ofIdent given a.ident :=
    mem_ofIdent.mpr ⟨(hmem y).mpr hy, (hone y hy m ((hmem m).mp hm)).trans hmi⟩
  have hyi' : y ∈ m :: rest := hof ▸ hyi
  have hrest := (mem_cons.mp hyi').resolve_left hne
  obtain ⟨t', ht', hle⟩ := (covers_first_iff hu).mp (hcov y hrest)
  obtain rfl := Option.some.inj (ht.symm.trans ht')
  exact hle

/-- The runs of any way go through. -/
theorem column_run (md5 : Str → BitVec 128) (hparse : ∀ x ∈ items, x.stamps.isSome = true)
    (hmem : ∀ x, x ∈ calls.flatMap Prod.snd ↔ x ∈ items)
    (id : Str) (p : Nat) : ∃ db, deliver md5 (ContainerDb.fresh id p) calls = some db ∧
      Reflects md5 p (calls.flatMap Prod.snd) db ∧ ColumnReflects (calls.flatMap Prod.snd) db := by
  have hx : ∀ c ∈ calls, ∀ x ∈ c.2, x.stamps.isSome = true := fun c hc x hxc =>
    hparse x ((hmem x).mp (mem_flatMap.mpr ⟨c, hc, hxc⟩))
  obtain ⟨db, hdb, h⟩ := (reflects_fresh md5 id p).deliver hx
  exact ⟨db, hdb, h, (columnReflects_fresh id p).deliver (reflects_fresh md5 id p) hdb⟩

/-- Two runs leave the same column when their rows agree. -/
theorem column_eq (h : Reflects md5 p given db) (h' : Reflects md5 p' given' db')
    (hone : ∀ x ∈ given, ∀ y ∈ given, x.ident = y.ident) (hmem : ∀ x, x ∈ given ↔ x ∈ given')
    (hrow : ∀ r ∈ db.rows, ∀ r' ∈ db'.rows, r.contentType = r'.contentType) :
    db.rows.map (·.contentType) = db'.rows.map (·.contentType) := by
  have hone' : ∀ x ∈ given', ∀ y ∈ given', x.ident = y.ident := fun x hx y hy =>
    hone x ((hmem x).mpr hx) y ((hmem y).mpr hy)
  rcases rows_of_one h hone with ⟨rfl, hnil⟩ | ⟨r, hr, hne, -⟩
  · rcases rows_of_one h' hone' with ⟨-, hnil'⟩ | ⟨r', hr', hne', -⟩
    · rw [hnil, hnil']
    · obtain ⟨x, hx⟩ := exists_mem_of_ne_nil _ hne'
      exact absurd ((hmem x).mpr hx) not_mem_nil
  · rcases rows_of_one h' hone' with ⟨rfl, -⟩ | ⟨r', hr', -, -⟩
    · obtain ⟨x, hx⟩ := exists_mem_of_ne_nil _ hne
      exact absurd ((hmem x).mp hx) not_mem_nil
    · rw [hr, hr', map_singleton, map_singleton]
      exact congrArg (fun c => [c]) (hrow r (hr ▸ mem_singleton_self r) r'
        (hr' ▸ mem_singleton_self r'))

/-- **The column converges** where every record that could stay as it came is joined. -/
theorem converges_of_joined (md5 : Str → BitVec 128) (h : OneObject items)
    (hjoined : ∀ m ∈ items, AllNewest items m → Joined m.contentType)
    {way : List (DictOrder × List Item) → Prop}
    (hway : ∀ calls, way calls → ∀ x, x ∈ calls.flatMap Prod.snd ↔ x ∈ items) :
    ColumnConverges md5 items way := by
  intro id id' p calls calls' hw hw'
  have hmem := hway calls hw
  have hmem' := hway calls' hw'
  obtain ⟨db, hdb, hr, hc⟩ := column_run md5 h.parses hmem id p
  obtain ⟨db', hdb', hr', hc'⟩ := column_run md5 h.parses hmem' id' p
  have hrow : ∀ {given : List Item} {db : ContainerDb}, (∀ x, x ∈ given ↔ x ∈ items) →
      ColumnReflects given db → ∀ r ∈ db.rows, Joined r.contentType := by
    intro given db hmem hc r hr
    rcases hc.spelling r hr with hkept | ⟨hj, -⟩
    · obtain ⟨m, hm, he, hnew⟩ := hkept.allNewest h.ident hmem
      exact he ▸ hjoined m hm hnew
    · exact hj
  have hone : ∀ x ∈ calls.flatMap Prod.snd, ∀ y ∈ calls.flatMap Prod.snd, x.ident = y.ident :=
    fun x hx y hy => h.ident x ((hmem x).mp hx) y ((hmem y).mp hy)
  refine ⟨db, db', hdb, hdb', ?_, fun r hrow => ofNewest_row h.ident hmem hr hc hrow⟩
  refine column_eq hr hr' hone (fun x => (hmem x).trans (hmem' x).symm) fun r hrr r' hrr' => ?_
  obtain ⟨ht, hb⟩ := (ofNewest_row h.ident hmem hr hc hrr).unique h
    (ofNewest_row h.ident hmem' hr' hc' hrr')
  exact (hrow hmem hc r hrr).ext (hrow hmem' hc' r' hrr') ht hb

/-- One batch of several records of one name and policy leaves a joined content type. -/
theorem joined_of_batch {id : Str} (h : mergeItems md5 order (ContainerDb.fresh id p) items none = some db)
    (hone : ∀ x ∈ items, ∀ y ∈ items, x.ident = y.ident) (htwo : 2 ≤ items.length) :
    ∀ r ∈ db.rows, Joined r.contentType := by
  intro r hr
  obtain ⟨acc, hm, hcol, hrows⟩ := rows_mergeItems (wellFormed_fresh id p) h
  rcases hrows r hr with ⟨hold, -⟩ | ⟨a, ha, he⟩
  · exact absurd hold not_mem_nil
  · have hcontent : r.contentType = a.contentType := congrArg ObjectRecord.contentType he
    rcases hcol.spelling _ a ha with ⟨-, m, a', hof, -⟩ | ⟨hj, -⟩
    · obtain ⟨-, x, hx, hxe, -⟩ := hm.addIdent _ a ha
      have hall : ofIdent items r.ident = items := filter_eq_self.mpr fun y hy =>
        decide_eq_true ((hone y hy x hx).trans hxe)
      rw [hall] at hof
      rw [hof, length_singleton] at htwo
      omega
    · exact hcontent ▸ hj

/-- One record alone is stored as it came. -/
theorem stored_of_singleton {m : Item} (hc : ColumnReflects [m] db) {r : ObjectRow} (hr : r ∈ db.rows) :
    ∃ a, updateNewItemFromExisting m none = some (a, true) ∧ r.toObjectRecord = a.toObjectRecord := by
  have hlen : (ofIdent [m] r.ident).length ≤ 1 := List.length_filter_le ..
  rcases hc.spelling r hr with ⟨m', a, rest, hof, hu, he, -⟩ | ⟨-, htwo⟩
  · have hm' : m' ∈ ofIdent [m] r.ident := hof ▸ mem_cons_self
    obtain rfl := mem_singleton.mp (mem_ofIdent.mp hm').1
    exact ⟨a, hu, he⟩
  · omega

/-- **A record with all timestamps the newest stays as it came**, when it is stored
    alone before the others. -/
theorem stays_as_it_came {m : Item} {id : Str} {rest : List Item} (hnew : AllNewest rest m)
    (hne : ∀ y ∈ rest, y ≠ m) (hone : ∀ y ∈ rest, y.ident = m.ident)
    (h : deliver md5 (ContainerDb.fresh id p)
      [(DictOrder.insertion, [m]), (DictOrder.insertion, rest)] = some db) :
    ∀ r ∈ db.rows, r.contentType = m.contentType := by
  rw [deliver, foldlM_cons] at h
  obtain ⟨db1, h1, h2⟩ := bind_eq_some_iff.mp h
  rw [foldlM_cons] at h2
  obtain ⟨db2, h3, h4⟩ := bind_eq_some_iff.mp h2
  obtain rfl := Option.some.inj h4
  have hr1 := (reflects_fresh md5 id p).step h1
  have hc1 := ColumnReflects.step (reflects_fresh md5 id p) (columnReflects_fresh id p) h1
  rw [nil_append] at hr1 hc1
  obtain ⟨acc, hm, -, hrows⟩ := rows_mergeItems hr1.wellFormed h3
  intro r hr
  rcases hrows r hr with ⟨hold, -⟩ | ⟨a, ha, -⟩
  · obtain ⟨a, hu, he⟩ := stored_of_singleton hc1 hold
    exact (congrArg ObjectRecord.contentType he).trans (update_none_contentType hu)
  · -- nothing of the second batch is newer than the row of the first
    obtain ⟨-, x, hx, hxe, hnot⟩ := hm.addIdent _ a ha
    obtain ⟨r1, hr1', hi⟩ := (hr1.idents m.ident).mpr ⟨m, mem_singleton_self m, rfl⟩
    obtain ⟨a1, hu, he⟩ := stored_of_singleton hc1 hr1'
    have hxi : x.ident = r1.ident := (hone x hx).trans hi.symm
    have hget := get_fetchRecords_of_mem hr1.wellFormed hr1' hx hxi
    obtain ⟨t, ht, hall⟩ := hnew
    refine absurd ?_ (hnot _ (hxe.symm.trans hxi ▸ hget))
    exact he ▸ (covers_first_iff hu).mpr ⟨t, ht, hall x hx (hne x hx)⟩

/-- **Where the column converges, such a record is joined**: one batch would join it. -/
theorem joined_of_converges {way : List (DictOrder × List Item) → Prop} {m : Item} {rest : List Item}
    (h : OneObject items) (hconv : ColumnConverges md5 items way) (hm : m ∈ items)
    (hnew : AllNewest items m) (hsub : ∀ y ∈ rest, y ∈ items) (hrest : rest ≠ [])
    (hraw : way [(DictOrder.insertion, [m]), (DictOrder.insertion, items.erase m)])
    (hbatch : way [(DictOrder.insertion, m :: rest)]) : Joined m.contentType := by
  have herase : ∀ y ∈ items.erase m, y ∈ items ∧ y ≠ m := fun y hy =>
    ⟨mem_of_mem_erase hy, fun e => h.nodup.not_mem_erase (e ▸ hy)⟩
  obtain ⟨db, db', hdb, hdb', hcolumn, -⟩ := hconv [] [] 0 _ _ hraw hbatch
  obtain ⟨t, ht, hall⟩ := hnew
  have hnew' : AllNewest (items.erase m) m := ⟨t, ht, fun y hy hne => hall y (herase y hy).1 hne⟩
  have hcame := stays_as_it_came hnew' (fun y hy => (herase y hy).2)
    (fun y hy => h.ident y (herase y hy).1 m hm) hdb
  -- the row of the first run
  have hparse : ∀ c ∈ [(DictOrder.insertion, [m]), (DictOrder.insertion, items.erase m)], ∀ x ∈ c.2,
      x.stamps.isSome = true := by
    intro c hc x hx
    rcases mem_cons.mp hc with rfl | hc
    · exact mem_singleton.mp hx ▸ h.parses m hm
    · obtain rfl := mem_singleton.mp hc
      exact h.parses x (herase x hx).1
  obtain ⟨db0, hdb0, hr0⟩ := (reflects_fresh md5 [] 0).deliver hparse
  obtain rfl : db = db0 := Option.some.inj (hdb.symm.trans hdb0)
  obtain ⟨r, hr, -⟩ := (hr0.idents m.ident).mpr ⟨m, by simp, rfl⟩
  have hin : r.contentType ∈ db'.rows.map (·.contentType) := hcolumn ▸ List.mem_map_of_mem hr
  obtain ⟨r', hr', he⟩ := List.mem_map.mp hin
  rw [← hcame r hr, ← he]
  -- the one batch of the second run
  rw [deliver, foldlM_cons] at hdb'
  obtain ⟨db1, h1, h2⟩ := bind_eq_some_iff.mp hdb'
  obtain rfl := Option.some.inj h2
  have hmem : ∀ x ∈ m :: rest, x ∈ items := fun x hx =>
    (mem_cons.mp hx).elim (fun e => e ▸ hm) (hsub x)
  refine joined_of_batch h1 (fun x hx y hy => h.ident x (hmem x hx) y (hmem y hy)) ?_ r' hr'
  have := length_pos_of_ne_nil hrest
  rw [length_cons]
  omega

theorem mem_of_deliversOnce (h : DeliversOnce items calls)
    (x : Item) : x ∈ calls.flatMap Prod.snd ↔ x ∈ items := h.mem_iff

theorem delivers_setOf_iff {calls : List (DictOrder × List Item)} :
    Delivers calls {x | x ∈ items} ↔ ∀ x, x ∈ calls.flatMap Prod.snd ↔ x ∈ items :=
  forall_congr' fun _ => iff_congr mem_flatMap.symm Iff.rfl

/-- **One record delivered once converges.** -/
theorem converges_of_one (md5 : Str → BitVec 128) (h : OneObject items) (hlen : items.length ≤ 1) :
    ColumnConverges md5 items (DeliversOnce items) := by
  intro id id' p calls calls' hw hw'
  have hmem := mem_of_deliversOnce hw
  have hmem' := mem_of_deliversOnce hw'
  obtain ⟨db, hdb, hr, hc⟩ := column_run md5 h.parses hmem id p
  obtain ⟨db', hdb', hr', hc'⟩ := column_run md5 h.parses hmem' id' p
  have hone : ∀ x ∈ calls.flatMap Prod.snd, ∀ y ∈ calls.flatMap Prod.snd, x.ident = y.ident :=
    fun x hx y hy => h.ident x ((hmem x).mp hx) y ((hmem y).mp hy)
  -- the row is the one record as it came
  have hcame : ∀ {calls : List (DictOrder × List Item)} {db : ContainerDb}, DeliversOnce items calls →
      ColumnReflects (calls.flatMap Prod.snd) db → ∀ r ∈ db.rows, ∃ m ∈ items,
        r.contentType = m.contentType := by
    intro calls db hw hc r hr
    rcases hc.spelling r hr with hkept | ⟨-, htwo⟩
    · obtain ⟨m, hm, he, -⟩ := hkept.allNewest h.ident (mem_of_deliversOnce hw)
      exact ⟨m, hm, he⟩
    · have hle : (ofIdent (calls.flatMap Prod.snd) r.ident).length ≤ _ := List.length_filter_le ..
      rw [hw.length_eq] at hle
      omega
  refine ⟨db, db', hdb, hdb', ?_, fun r hrow => ofNewest_row h.ident hmem hr hc hrow⟩
  refine column_eq hr hr' hone (fun x => (hmem x).trans (hmem' x).symm) fun r hrr r' hrr' => ?_
  obtain ⟨m, hm, he⟩ := hcame hw hc r hrr
  obtain ⟨m', hm', he'⟩ := hcame hw' hc' r' hrr'
  have hpos := length_pos_of_mem hm
  obtain ⟨a, rfl⟩ := length_eq_one_iff.mp (le_antisymm hlen hpos)
  rw [he, he', mem_singleton.mp hm, mem_singleton.mp hm']

/-- **The column converges exactly when a record with all timestamps the newest is in
    the joined spelling**: in any order and grouping, unless there is one record only,
    and with any repetition. -/
theorem contentType_converges_iff (md5 : Str → BitVec 128) {items : List Item} (h : OneObject items) :
    (ColumnConverges md5 items (DeliversOnce items) ↔
      items.length ≤ 1 ∨ ∀ m ∈ items, AllNewest items m → Joined m.contentType) ∧
    (ColumnConverges md5 items (fun calls => Delivers calls {x | x ∈ items}) ↔
      ∀ m ∈ items, AllNewest items m → Joined m.contentType) := by
  refine ⟨⟨fun hconv => ?_, fun hcond => ?_⟩, fun hconv m hm hnew => ?_, fun hjoined =>
    converges_of_joined md5 h hjoined fun calls => delivers_setOf_iff.mp⟩
  · refine or_iff_not_imp_left.mpr fun hlen m hm hnew => ?_
    have hperm := List.perm_cons_erase hm
    have hrest : items.erase m ≠ [] := fun e => by
      rw [e] at hperm
      exact hlen hperm.length_eq.le
    refine joined_of_converges h hconv hm hnew (fun y => mem_of_mem_erase) hrest ?_ ?_
    · simpa [DeliversOnce] using hperm.symm
    · simpa [DeliversOnce] using hperm.symm
  · rcases hcond with hlen | hjoined
    · exact converges_of_one md5 h hlen
    · exact converges_of_joined md5 h hjoined fun calls => mem_of_deliversOnce
  · refine joined_of_converges h hconv hm hnew (fun y => id) (ne_nil_of_mem hm)
      (delivers_setOf_iff.mpr fun x => ?_) (delivers_setOf_iff.mpr fun x => ?_)
    · simpa using ((List.perm_cons_erase hm).mem_iff (a := x)).symm
    · simpa using fun e : x = m => e ▸ hm

/-- An object put at 1, and its metadata posted at 2, with the content type of the put. -/
def putPlain : Item :=
  ⟨⟨"o".toList, "0000000001.00000".toList, 5, "text/plain; a=b".toList, "e".toList, false, 0⟩,
    none, none, none, none⟩

def postPlain : Item :=
  ⟨⟨"o".toList, "0000000001.00000".toList, 5, "text/plain; a=b".toList, "e".toList, false, 0⟩,
    some "0000000001.00000".toList, some "0000000002.00000".toList, none, none⟩

/-- The put before the post leaves the joined spelling, the post before the put the
    one that came. -/
theorem order_decides_spelling : OneObject [putPlain, postPlain] ∧
    ¬ ColumnConverges putMd5 [putPlain, postPlain] (DeliversOnce [putPlain, postPlain]) := by
  have hcontent : ∀ x ∈ [putPlain, postPlain], x.contentType = "text/plain; a=b".toList := by decide
  refine ⟨⟨by decide, by decide, by decide +kernel, ?_, ?_⟩, fun h => ?_⟩
  · exact fun x hx y hy _ _ _ _ _ => by rw [hcontent x hx, hcontent y hy]
  · exact fun x hx y hy _ _ _ _ _ => by rw [hcontent x hx, hcontent y hy]
  · have hjoined : (deliver putMd5 (ContainerDb.fresh [] 0) [(DictOrder.insertion, [putPlain]),
        (DictOrder.insertion, [postPlain])]).map (fun db => db.rows.map (·.contentType)) =
        some ["text/plain;a=b".toList] := by decide +kernel
    have hcame : (deliver putMd5 (ContainerDb.fresh [] 0) [(DictOrder.insertion, [postPlain]),
        (DictOrder.insertion, [putPlain])]).map (fun db => db.rows.map (·.contentType)) =
        some ["text/plain; a=b".toList] := by decide +kernel
    obtain ⟨db, db', h1, h2, h3, -⟩ := h [] [] 0
      [(DictOrder.insertion, [putPlain]), (DictOrder.insertion, [postPlain])]
      [(DictOrder.insertion, [postPlain]), (DictOrder.insertion, [putPlain])]
      (List.Perm.refl _) (Perm.swap ..)
    rw [h1] at hjoined
    rw [h2] at hcame
    have he := (Option.some.inj hjoined).symm.trans (h3.trans (Option.some.inj hcame))
    exact absurd he (by decide)

/-- Two puts of one object, the newer one with a size of its own. -/
def putType : Item :=
  ⟨⟨"o".toList, "0000000001.00000".toList, 5, "text/plain".toList, "e1".toList, false, 0⟩,
    none, none, none, none⟩

def putSize : Item :=
  ⟨⟨"o".toList, "0000000002.00000".toList, 5, "text/html;a=b;swift_bytes=7".toList, "e2".toList, false,
    0⟩, none, none, none, none⟩

theorem contentType_converges_two_puts :
    ColumnConverges putMd5 [putType, putSize] (DeliversOnce [putType, putSize]) := by
  have htypes : ∀ x ∈ [putType, putSize], ∀ y ∈ [putType, putSize],
      x.stamps.map (·.2.1) = y.stamps.map (·.2.1) → typeOf x.contentType = typeOf y.contentType := by
    decide +kernel
  have hbytes : ∀ x ∈ [putType, putSize], ∀ y ∈ [putType, putSize],
      x.stamps.map (·.1) = y.stamps.map (·.1) →
        swiftBytesOf x.contentType = swiftBytesOf y.contentType := by
    decide +kernel
  have h : OneObject [putType, putSize] := ⟨by decide, by decide, by decide +kernel,
    fun x hx y hy s t hs ht he => htypes x hx y hy (by rw [hs, ht]; exact congrArg some he),
    fun x hx y hy s t hs ht he => hbytes x hx y hy (by rw [hs, ht]; exact congrArg some he)⟩
  have hjoined : ∀ m ∈ [putType, putSize], Joined m.contentType := by decide +kernel
  exact (contentType_converges_iff putMd5 h).1.mpr (Or.inr fun m hm _ => hjoined m hm)

end Mitaka.Swift
