/-
  Subject: swift/container/backend.py, `update_new_item_from_existing`: merging an
           object record into the one the container has.

  A record carries three timestamps in its `created_at` string. The string reads
  back as the data timestamp and the raw values of the other two (`stamps`), and
  is printed from them alone (`encodeStamps`). On `stamps` the merge is the join
  of the product order (`update_spec`): size, etag and the deleted flag follow the
  newer data timestamp, and the result says whether anything was newer.

  The existing dict comes back as it was up to the spelling of its content type,
  and no caller looks at it again; the model leaves it alone.
-/
import Mitaka.Swift.ContentType

namespace Mitaka.Swift

open Option

/-! ## 1. Records -/

/-- A row of the object table, without its ROWID. -/
structure ObjectRecord where
  name : Str
  createdAt : Str
  size : Int
  contentType : Str
  etag : Str
  deleted : Bool
  storagePolicyIndex : Nat
  deriving DecidableEq

/-- The name and the policy, which a row is found by. -/
abbrev Ident := Str × Nat

def ObjectRecord.ident (r : ObjectRecord) : Ident := (r.name, r.storagePolicyIndex)

/-- What goes with the data timestamp. -/
def ObjectRecord.attrs (r : ObjectRecord) : Int × Str × Bool := (r.size, r.etag, r.deleted)

/-- An item of `merge_items`: a record with what else its dict may hold. A missing
    `storage_policy_index` is 0; an empty timestamp counts as a missing one. -/
structure Item extends ObjectRecord where
  ctypeTimestamp : Option Str
  metaTimestamp : Option Str
  dataTimestamp : Option Str
  rowid : Option Nat
  deriving DecidableEq

/-! ## 2. The three timestamps -/

/-- The data timestamp and the raw content-type and metadata timestamps, ordered
    componentwise. -/
abbrev Stamps := Timestamp × Nat × Nat

/-- What a `created_at` string stands for; `none` is the `ValueError`. -/
def stamps (createdAt : Str) : Option Stamps :=
  (decodeAll createdAt).map fun t => (t.1, t.2.1.raw, t.2.2.raw)

/-- The `created_at` string of three timestamps. -/
def encodeStamps (t1 t2 t3 : Timestamp) : Str := encodeTimestamps t1 (some t2) (some t3) false

/-- **What is written reads back**, offsets of the second and third apart. -/
@[simp] theorem stamps_encodeStamps (t1 t2 t3 : Timestamp) :
    stamps (encodeStamps t1 t2 t3) = some (t1, t2.raw, t3.raw) := by
  simp [stamps, encodeStamps, decodeAll_encodeTimestamps]

/-- A string printed by `encode_timestamps`. -/
def Canonical (createdAt : Str) : Prop := ∃ t1 t2 t3, createdAt = encodeStamps t1 t2 t3

/-- **Two written strings with one reading are one string.** -/
theorem Canonical.ext {s s' : Str} (h : Canonical s) (h' : Canonical s') (he : stamps s = stamps s') :
    s = s' := by
  obtain ⟨t1, t2, t3, rfl⟩ := h
  obtain ⟨u1, u2, u3, rfl⟩ := h'
  simp only [stamps_encodeStamps, Option.some.injEq, Prod.mk.injEq] at he
  obtain ⟨rfl, h2, h3⟩ := he
  exact encodeTimestamps_congr h2 h3 false

/-! ## 3. Merging an item into a record -/

/-- An optional timestamp of an item: absent, or a string to parse. -/
def optionalTimestamp (s : Option Str) : Option (Option Timestamp) :=
  match s with
  | none | some [] => some none
  | some s => (Timestamp.ofStr s).map some

/-- The three timestamps an item comes with: decoded from its original
    `created_at`, or set explicitly. -/
def Item.timestamps (item : Item) : Option (Timestamp × Timestamp × Timestamp) := do
  let (tsData, tsCtype, tsMeta) ← decodeAll (item.dataTimestamp.getD item.createdAt)
  let explicitCtype ← optionalTimestamp item.ctypeTimestamp
  let explicitMeta ← optionalTimestamp item.metaTimestamp
  some (tsData, explicitCtype.getD tsCtype, explicitMeta.getD (explicitCtype.getD tsMeta))

/-- `item['content_type'] += ';swift_bytes=%s'`, when there are any. -/
def withSwiftBytes (contentType : Str) (swiftBytes : Option Str) : Str :=
  match swiftBytes with
  | none | some [] => contentType
  | some b => contentType ++ ";swift_bytes=".toList ++ b

/-- `update_new_item_from_existing`: the new item, and whether any of it was newer
    than the existing record; `none` is the `ValueError`. -/
def updateNewItemFromExisting (newItem : Item) (existing : Option ObjectRecord) :
    Option (Item × Bool) := do
  let newItem := { newItem with dataTimestamp := some (newItem.dataTimestamp.getD newItem.createdAt) }
  let (itemTsData, itemTsCtype, itemTsMeta) ← newItem.timestamps
  match existing with
  | none => some ({ newItem with createdAt := encodeStamps itemTsData itemTsCtype itemTsMeta }, true)
  | some existing =>
    let (recTsData, recTsCtype, recTsMeta) ← decodeAll existing.createdAt
    let (newType, newBytes) := extractSwiftBytes newItem.contentType
    let (recType, recBytes) := extractSwiftBytes existing.contentType
    let oldData := recTsData.pyGe itemTsData
    let oldCtype := recTsCtype.pyGe itemTsCtype
    let oldMeta := recTsMeta.pyGe itemTsMeta
    some ({ newItem with
        size := if oldData then existing.size else newItem.size
        etag := if oldData then existing.etag else newItem.etag
        deleted := if oldData then existing.deleted else newItem.deleted
        contentType := withSwiftBytes (if oldCtype then recType else newType)
          (if oldData then recBytes else newBytes)
        createdAt := encodeStamps (if oldData then recTsData else itemTsData)
          (if oldCtype then recTsCtype else itemTsCtype) (if oldMeta then recTsMeta else itemTsMeta) },
      !oldData || !oldCtype || !oldMeta)

/-- What an item says: its data timestamp and the raw values of the other two. -/
def Item.stamps (item : Item) : Option Stamps :=
  item.timestamps.map fun t => (t.1, t.2.1.raw, t.2.2.raw)

theorem Timestamp.raw_le {a b : Timestamp} (h : a ≤ b) : a.raw ≤ b.raw := by
  rcases h.lt_or_eq with h | rfl
  · rcases Timestamp.lt_iff.mp h with h | h
    · exact h.le
    · exact h.1.le
  · exact le_rfl

/-- The newer of two timestamps, by the code's comparison. -/
theorem raw_max (a b : Timestamp) : (if a.pyGe b = true then a else b).raw = a.raw ⊔ b.raw := by
  by_cases h : b ≤ a
  · rw [if_pos (Timestamp.pyGe_iff.mpr h), sup_eq_left.mpr (Timestamp.raw_le h)]
  · rw [if_neg (mt Timestamp.pyGe_iff.mp h), sup_eq_right.mpr (Timestamp.raw_le (not_le.mp h).le)]

theorem data_max (a b : Timestamp) : (if a.pyGe b = true then a else b) = a ⊔ b := by
  by_cases h : b ≤ a
  · rw [if_pos (Timestamp.pyGe_iff.mpr h), sup_eq_left.mpr h]
  · rw [if_neg (mt Timestamp.pyGe_iff.mp h), sup_eq_right.mpr (not_le.mp h).le]

/-- What an update leaves of the item: the name, the policy, the timestamps it came
    with and its ROWID. -/
structure SameItem (x y : Item) : Prop where
  name : y.name = x.name
  policy : y.storagePolicyIndex = x.storagePolicyIndex
  stamps : y.stamps = x.stamps
  rowid : y.rowid = x.rowid

/-- The item with `setdefault('data_timestamp', ...)` done. -/
def Item.keepData (item : Item) : Item :=
  { item with dataTimestamp := some (item.dataTimestamp.getD item.createdAt) }

/-- **A new item is stored as it says.** -/
theorem update_none {x y : Item} {b : Bool} (h : updateNewItemFromExisting x none = some (y, b)) :
    b = true ∧ SameItem x y ∧ Canonical y.createdAt ∧ stamps y.createdAt = x.stamps ∧
      y.attrs = x.attrs := by
  unfold updateNewItemFromExisting at h
  obtain ⟨⟨d, c, m⟩, ht, h⟩ := bind_eq_some_iff.mp h
  obtain ⟨rfl, rfl⟩ := Prod.mk.inj (Option.some.inj h)
  have hx : x.timestamps = some (d, c, m) := ht
  refine ⟨rfl, ⟨rfl, rfl, rfl, rfl⟩, ⟨d, c, m, rfl⟩, ?_, rfl⟩
  rw [Item.stamps, hx]
  exact stamps_encodeStamps d c m

/-- **An update is the join.** -/
theorem update_some {x y : Item} {b : Bool} {r : ObjectRecord} {k : Stamps}
    (hr : stamps r.createdAt = some k) (h : updateNewItemFromExisting x (some r) = some (y, b)) :
    ∃ j, x.stamps = some j ∧ SameItem x y ∧ Canonical y.createdAt ∧
      stamps y.createdAt = some (k ⊔ j) ∧
      y.attrs = (if j.1 ≤ k.1 then r.attrs else x.attrs) ∧ (b = false → j ≤ k) := by
  unfold updateNewItemFromExisting at h
  obtain ⟨⟨d, c, m⟩, ht, h⟩ := bind_eq_some_iff.mp h
  obtain ⟨⟨rd, rc, rm⟩, hd, h⟩ := bind_eq_some_iff.mp h
  obtain ⟨rfl, rfl⟩ := Prod.mk.inj (Option.some.inj h)
  have hx : x.timestamps = some (d, c, m) := ht
  rw [stamps, hd] at hr
  obtain rfl := Option.some.inj hr
  refine ⟨(d, c.raw, m.raw), by rw [Item.stamps, hx]; rfl, ⟨rfl, rfl, rfl, rfl⟩, ⟨_, _, _, rfl⟩, ?_,
    ?_, fun hb => ?_⟩
  · rw [stamps_encodeStamps, data_max, raw_max, raw_max]
    rfl
  · by_cases hle : d ≤ rd
    · simp [ObjectRecord.attrs, hle]
    · simp [ObjectRecord.attrs, hle]
  · simp only [Bool.or_eq_false_iff, Bool.not_eq_false', Timestamp.pyGe_iff] at hb
    obtain ⟨⟨h1, h2⟩, h3⟩ := hb
    exact ⟨h1, Timestamp.raw_le h2, Timestamp.raw_le h3⟩

/-- The record answers for the item: none of its timestamps is newer. -/
def Covers (r : ObjectRecord) (x : Item) : Prop :=
  ∃ t u, decodeAll r.createdAt = some t ∧ x.timestamps = some u ∧
    u.1 ≤ t.1 ∧ u.2.1 ≤ t.2.1 ∧ u.2.2 ≤ t.2.2

/-- The result of an update says whether the record did not answer for the item. -/
theorem update_newer_iff {x y : Item} {b : Bool} {r : ObjectRecord}
    (h : updateNewItemFromExisting x (some r) = some (y, b)) : b = false ↔ Covers r x := by
  unfold updateNewItemFromExisting at h
  obtain ⟨⟨d, c, m⟩, ht, h⟩ := bind_eq_some_iff.mp h
  obtain ⟨⟨rd, rc, rm⟩, hd, h⟩ := bind_eq_some_iff.mp h
  obtain ⟨rfl, rfl⟩ := Prod.mk.inj (Option.some.inj h)
  have hx : x.timestamps = some (d, c, m) := ht
  simp only [Bool.or_eq_false_iff, Bool.not_eq_false', Timestamp.pyGe_iff]
  refine ⟨fun hb => ⟨_, _, hd, hx, hb.1.1, hb.1.2, hb.2⟩, fun h => ?_⟩
  obtain ⟨t, u, h1, h2, h3⟩ := h
  obtain rfl := Option.some.inj (hd.symm.trans h1)
  obtain rfl := Option.some.inj (hx.symm.trans h2)
  exact ⟨⟨h3.1, h3.2.1⟩, h3.2.2⟩

/-- A parsable item meets a parsable record. -/
theorem update_isSome {x : Item} {e : Option ObjectRecord} (hx : x.stamps.isSome = true)
    (he : ∀ r ∈ e, (stamps r.createdAt).isSome = true) :
    ∃ y b, updateNewItemFromExisting x e = some (y, b) := by
  rw [Item.stamps, isSome_map] at hx
  obtain ⟨t, ht⟩ := isSome_iff_exists.mp hx
  have hk : x.keepData.timestamps = some t := ht
  unfold updateNewItemFromExisting
  cases e with
  | none => exact ⟨_, _, bind_eq_some_iff.mpr ⟨t, hk, rfl⟩⟩
  | some r =>
    have hr := he r rfl
    rw [stamps, isSome_map] at hr
    obtain ⟨u, hu⟩ := isSome_iff_exists.mp hr
    exact ⟨_, _, bind_eq_some_iff.mpr ⟨t, hk, bind_eq_some_iff.mpr ⟨u, hu, rfl⟩⟩⟩

end Mitaka.Swift
