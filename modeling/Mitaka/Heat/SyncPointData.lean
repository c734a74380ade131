/-
  Subject: heat/engine/sync_point.py, the input data of a sync point on its way into the
           database and back.

  A tuple that is a key is stored as the text `tuple:` with the tuple behind it, and a text
  that starts with `tuple:(` is taken for one, at every level of the data. **The data comes
  back exactly when no text that is a key starts so** (`deserializeInputData_iff`): such a
  key is longer than any key that is read from it, and the longest of them is lost.

  What is no dictionary is a leaf. The texts of JSON keep the rest: their dictionaries have
  texts for keys, and lists are leaves, so that a round trip through JSON changes nothing.
-/
import Mitaka.Lib.PyLiteral
import Mitaka.Lib.Dict

namespace Mitaka.Heat.SyncPoint

open PyLiteral List

/-! ## 1. Storing and loading -/

/-- A dictionary, or a value that the functions leave alone. -/
inductive Data (α : Type)
  | leaf (x : α)
  | map (entries : List (Value × Data α))

inductive Error
  /-- of `literal_eval` -/
  | literal (e : Failure)
  /-- `TypeError`: a key without a hash -/
  | unhashable

section Code

variable {α : Type} (repr : Value → Text) (literalEval : Text → Except Failure Value)

/-- `_str_pack_tuple`. -/
def strPackTuple (t : List Value) : Text := "tuple:".toList ++ tupleText repr t

/-- `_str_unpack_tuple`. -/
def strUnpackTuple (s : Text) : Except Failure Value := literalEval ((s.dropWhile (· ≠ ':')).drop 1)

/-- A key in `_serialize`. -/
def packKey : Value → Value
  | .tuple t => .text (strPackTuple repr t)
  | k => k

/-- A text that is taken for a tuple. -/
def LooksPacked (s : Text) : Prop := "tuple:(".toList <+: s

instance (s : Text) : Decidable (LooksPacked s) := inferInstanceAs (Decidable (_ <+: _))

/-- A key in `_deserialize`. -/
def unpackKey : Value → Except Error Value
  | .text s =>
    if LooksPacked s then
      match strUnpackTuple literalEval s with
      | .ok k => .ok k
      | .error e => .error (.literal e)
    else .ok (.text s)
  | k => .ok k

mutual

def serialize : Data α → Data α
  | .leaf x => .leaf x
  | .map d => .map (serializeLoop d [])

/-- The loop of `_serialize`. -/
def serializeLoop : List (Value × Data α) → Dict Value (Data α) → Dict Value (Data α)
  | [], d2 => d2
  | (k, v) :: rest, d2 => serializeLoop rest (Dict.set d2 (packKey repr k) (serialize v))

end

mutual

def deserialize : Data α → Except Error (Data α)
  | .leaf x => .ok (.leaf x)
  | .map d => (deserializeLoop d []).map .map

/-- The loop of `_deserialize`. -/
def deserializeLoop : List (Value × Data α) → Dict Value (Data α) → Except Error (Dict Value (Data α))
  | [], d2 => .ok d2
  | (k, v) :: rest, d2 =>
    match unpackKey literalEval k, deserialize v with
    | .ok k, .ok v => if k.hashable then deserializeLoop rest (Dict.set d2 k v) else .error .unhashable
    | .error e, _ => .error e
    | _, .error e => .error e

end

/-- The key of the input data in the row. -/
def inputDataKey : Text := "input_data".toList

/-- `serialize_input_data`. -/
def serializeInputData (inputData : Dict Value (Data α)) : Dict Text (Dict Value (Data α)) :=
  [(inputDataKey, serializeLoop repr inputData [])]

/-- `deserialize_input_data`. -/
def deserializeInputData (dbInputData : Dict Text (Dict Value (Data α))) : Except Error (Dict Value (Data α)) :=
  match Dict.get dbInputData inputDataKey with
  | none => .ok []
  | some [] => .ok []
  | some d => deserializeLoop literalEval d []

end Code

/-! ## 2. Dictionaries -/

section Spec

variable {α : Type}

/-- A key: a text, or a tuple of texts and scalars. -/
def IsKey (scalars : Text → Prop) : Value → Prop
  | .text _ => True
  | .tuple t => ∀ v ∈ t, v.IsAtom ∧ ∀ s, v = .scalar s → scalars s
  | _ => False

mutual

/-- At each level no key has two values. -/
def Data.Keyed (scalars : Text → Prop) : Data α → Prop
  | .leaf _ => True
  | .map d => (d.map Prod.fst).Nodup ∧ KeyedAll scalars d

def KeyedAll (scalars : Text → Prop) : List (Value × Data α) → Prop
  | [] => True
  | (k, v) :: rest => IsKey scalars k ∧ v.Keyed scalars ∧ KeyedAll scalars rest

end

mutual

/-- At no level a text that is a key is taken for a tuple. -/
def Data.Unmistaken : Data α → Prop
  | .leaf _ => True
  | .map d => UnmistakenAll d

def UnmistakenAll : List (Value × Data α) → Prop
  | [] => True
  | (k, v) :: rest => (∀ s, k = .text s → ¬ LooksPacked s) ∧ v.Unmistaken ∧ UnmistakenAll rest

end

/-- Two values are equal, whatever the order of the keys. -/
inductive Same : Data α → Data α → Prop
  | leaf (x : α) : Same (.leaf x) (.leaf x)
  | map {d d' : Dict Value (Data α)} : (∀ k, (d.get k).isSome = (d'.get k).isSome) →
      (∀ k v v', d.get k = some v → d'.get k = some v' → Same v v') → Same (.map d) (.map d')

mutual

theorem Same.refl : ∀ d : Data α, Same d d
  | .leaf x => .leaf x
  | .map d => .map (fun _ => rfl) fun k v v' hv hv' => by
      obtain rfl := Option.some.inj (hv.symm.trans hv')
      exact Same.reflAll d (k, v) (Dict.mem_of_get hv)

theorem Same.reflAll : ∀ (d : List (Value × Data α)), ∀ x ∈ d, Same x.2 x.2
  | [], _, hx => by cases hx
  | (k, v) :: rest, x, hx => by
    rcases mem_cons.mp hx with rfl | hx
    · exact Same.refl v
    · exact Same.reflAll rest x hx

end

theorem KeyedAll.mem {scalars : Text → Prop} {d : List (Value × Data α)} (h : KeyedAll scalars d) :
    ∀ x ∈ d, IsKey scalars x.1 ∧ x.2.Keyed scalars := by
  induction d with
  | nil => exact nofun
  | cons x d ih =>
    rw [KeyedAll] at h
    exact forall_mem_cons.mpr ⟨⟨h.1, h.2.1⟩, ih h.2.2⟩

theorem unmistakenAll_iff {d : List (Value × Data α)} :
    UnmistakenAll d ↔ ∀ x ∈ d, (∀ s, x.1 = .text s → ¬ LooksPacked s) ∧ x.2.Unmistaken := by
  induction d with
  | nil => exact iff_of_true (by rw [UnmistakenAll]; trivial) nofun
  | cons x d ih => rw [UnmistakenAll, forall_mem_cons, ih, and_assoc]

end Spec

/-! ## 3. Keys -/

section Keys

variable {scalars : Text → Prop} {repr : Value → Text} {literalEval : Text → Except Failure Value}

theorem strUnpackTuple_pack (t : Text) : strUnpackTuple literalEval ("tuple:".toList ++ t) = literalEval t := rfl

theorem tupleText_head (repr : Value → Text) (t : List Value) : ∃ rest, tupleText repr t = '(' :: rest := by
  unfold tupleText
  split
  · exact ⟨_, rfl⟩
  · exact ⟨_, rfl⟩

/-- A key that is not mistaken comes back. -/
theorem unpackKey_packKey (h : Reads scalars repr literalEval) {k : Value} (hk : IsKey scalars k)
    (hplain : ∀ s, k = .text s → ¬ LooksPacked s) : unpackKey literalEval (packKey repr k) = .ok k := by
  cases k with
  | text s => exact if_neg (hplain s rfl)
  | tuple t =>
    obtain ⟨rest, hrest⟩ := tupleText_head repr t
    have hpacked : LooksPacked (strPackTuple repr t) := by
      have htext : strPackTuple repr t = "tuple:".toList ++ '(' :: rest := congrArg ("tuple:".toList ++ ·) hrest
      rw [htext]
      exact ⟨rest, rfl⟩
    have hread : strUnpackTuple literalEval (strPackTuple repr t) = .ok (.tuple t) :=
      (strUnpackTuple_pack (tupleText repr t)).trans (h.tuple t hk)
    rw [packKey, unpackKey, if_pos hpacked, hread]
  | scalar _ => exact absurd hk id
  | list _ => exact absurd hk id
  | dict _ _ => exact absurd hk id

theorem IsKey.hashable {k : Value} (hk : IsKey scalars k) : k.hashable = true := by
  cases k with
  | text s => rfl
  | tuple t =>
    rw [Value.hashable]
    induction t with
    | nil => rfl
    | cons v t ih =>
      obtain ⟨⟨hv, -⟩, ht⟩ := forall_mem_cons.mp hk
      rw [hashableAll, ih ht, Bool.and_true]
      cases v with
      | text _ => rfl
      | scalar _ => rfl
      | tuple _ => exact absurd hv id
      | list _ => exact absurd hv id
      | dict _ _ => exact absurd hv id
  | scalar _ => exact absurd hk id
  | list _ => exact absurd hk id
  | dict _ _ => exact absurd hk id

/-- What is read of a mistaken text is shorter. -/
theorem shorter_of_unpackKey (h : Reads scalars repr literalEval) {s s' : Text} (hpacked : LooksPacked s)
    (hs : unpackKey literalEval (packKey repr (.text s)) = .ok (.text s')) : s'.length < s.length := by
  rw [packKey, unpackKey, if_pos hpacked] at hs
  · cases heval : strUnpackTuple literalEval s with
    | error e =>
      rw [heval] at hs
      cases hs
    | ok v =>
      rw [heval] at hs
      obtain rfl := Except.ok.inj hs
      have hlt := h.shorter _ _ heval s' (by rw [Value.texts]; exact mem_cons_self)
      rw [length_drop] at hlt
      have hle := (dropWhile_suffix (l := s) fun c => decide (c ≠ ':')).length_le
      omega
  · simp

/-- **A text that comes of another one is shorter**, when the other one is mistaken, and else the same. -/
theorem text_of_unpackKey (h : Reads scalars repr literalEval) {k : Value} (hk : IsKey scalars k) {s : Text}
    (hs : unpackKey literalEval (packKey repr k) = .ok (.text s)) :
    k = .text s ∨ ∃ s', k = .text s' ∧ LooksPacked s' ∧ s.length < s'.length := by
  cases k with
  | text s' =>
    by_cases hpacked : LooksPacked s'
    · exact Or.inr ⟨s', rfl, hpacked, shorter_of_unpackKey h hpacked hs⟩
    · rw [packKey, unpackKey, if_neg hpacked] at hs
      · exact Or.inl (congrArg _ (Value.text.inj (Except.ok.inj hs)))
      · exact nofun
  | tuple t =>
    rw [unpackKey_packKey h hk nofun] at hs
    cases Except.ok.inj hs
  | scalar _ => exact absurd hk id
  | list _ => exact absurd hk id
  | dict _ _ => exact absurd hk id

/-- Keys all of which come of others are not mistaken: there is no longest one that is. -/
theorem plain_of_keys {β : Type} (h : Reads scalars repr literalEval) {d : List (Value × β)} (hkeys : ∀ x ∈ d, IsKey scalars x.1)
    (hall : ∀ x ∈ d, ∃ y ∈ d, unpackKey literalEval (packKey repr y.1) = .ok x.1) :
    ∀ x ∈ d, ∀ s, x.1 = .text s → ¬ LooksPacked s := by
  intro x hx s hs hpacked
  have hlonger : ∀ n, ∃ y ∈ d, ∃ s, y.1 = .text s ∧ LooksPacked s ∧ n ≤ s.length := by
    intro n
    induction n with
    | zero => exact ⟨x, hx, s, hs, hpacked, Nat.zero_le _⟩
    | succ n ih =>
      obtain ⟨y, hy, s, hs, hpacked, hn⟩ := ih
      obtain ⟨z, hz, hunpack⟩ := hall y hy
      rw [hs] at hunpack
      rcases text_of_unpackKey h (hkeys z hz) hunpack with hsame | ⟨s', hs', hpacked', hlt⟩
      · -- a text that looks packed is read, and what is read of it is shorter
        rw [hsame] at hunpack
        exact absurd (shorter_of_unpackKey h hpacked hunpack) (lt_irrefl _)
      · exact ⟨z, hz, s', hs', hpacked', by omega⟩
  have hbound : ∃ bound, ∀ y ∈ d, ∀ s, y.1 = .text s → s.length ≤ bound := by
    clear hkeys hall hlonger hx hs
    induction d with
    | nil => exact ⟨0, by simp⟩
    | cons y d ih =>
      obtain ⟨bound, hbound⟩ := ih
      cases hy : y.1 with
      | text s =>
        refine ⟨max s.length bound, forall_mem_cons.mpr ⟨fun s' hs' => ?_, fun z hz s' hs' => ?_⟩⟩
        · obtain rfl := Value.text.inj (hy.symm.trans hs')
          exact Nat.le_max_left _ _
        · exact (hbound z hz s' hs').trans (Nat.le_max_right _ _)
      | _ => exact ⟨bound, forall_mem_cons.mpr ⟨by simp [hy], hbound⟩⟩
  obtain ⟨bound, hbound⟩ := hbound
  obtain ⟨y, hy, s, hs, -, hn⟩ := hlonger (bound + 1)
  exact absurd (hbound y hy s hs) (by omega)

end Keys

/-! ## 4. The loops -/

section Loops

variable {α : Type} {scalars : Text → Prop} {repr : Value → Text} {literalEval : Text → Except Failure Value}

theorem mem_serializeLoop {d acc : Dict Value (Data α)} {k : Value} (hk : k ∈ (serializeLoop repr d acc).map Prod.fst) :
    k ∈ acc.map Prod.fst ∨ ∃ x ∈ d, packKey repr x.1 = k := by
  induction d generalizing acc with
  | nil =>
    rw [serializeLoop] at hk
    exact Or.inl hk
  | cons x d ih =>
    rw [serializeLoop] at hk
    rcases ih hk with hk | ⟨y, hy, hyk⟩
    · rcases Dict.mem_keys_set.mp hk with rfl | hk
      · exact Or.inr ⟨x, mem_cons_self, rfl⟩
      · exact Or.inl hk
    · exact Or.inr ⟨y, mem_cons_of_mem _ hy, hyk⟩

/-- Keys that are stored apart are stored one after the other. -/
theorem serializeLoop_eq (d acc : Dict Value (Data α))
    (hnodup : (acc.map Prod.fst ++ d.map fun x => packKey repr x.1).Nodup) :
    serializeLoop repr d acc = acc ++ d.map fun x => (packKey repr x.1, serialize repr x.2) := by
  induction d generalizing acc with
  | nil =>
    rw [serializeLoop, map_nil, append_nil]
  | cons x d ih =>
    rw [map_cons, nodup_append] at hnodup
    obtain ⟨hacc, hd, hdisjoint⟩ := hnodup
    have hnew : packKey repr x.1 ∉ acc.map Prod.fst := fun hmem => hdisjoint _ hmem _ mem_cons_self rfl
    rw [serializeLoop, Dict.set_of_notMem hnew, ih, map_cons, append_assoc, singleton_append]
    rw [map_append, append_assoc]
    refine nodup_append.mpr ⟨hacc, ?_, fun a ha b hb => ?_⟩
    · exact hd
    · exact hdisjoint a ha b hb

variable {d acc r : Dict Value (Data α)}

theorem deserializeLoop_cons {x : Value × Data α}
    (h : deserializeLoop literalEval (x :: d) acc = .ok r) :
    ∃ k v, unpackKey literalEval x.1 = .ok k ∧ deserialize literalEval x.2 = .ok v ∧
      deserializeLoop literalEval d (Dict.set acc k v) = .ok r := by
  rw [deserializeLoop] at h
  split at h
  case h_1 k v hk hv =>
    split at h
    case isTrue => exact ⟨k, v, hk, hv, h⟩
    case isFalse => cases h
  case h_2 => cases h
  case h_3 => cases h

theorem mem_deserializeLoop (h : deserializeLoop literalEval d acc = .ok r) {k : Value}
    (hk : k ∈ r.map Prod.fst) : k ∈ acc.map Prod.fst ∨ ∃ x ∈ d, unpackKey literalEval x.1 = .ok k := by
  induction d generalizing acc with
  | nil =>
    rw [deserializeLoop] at h
    exact Or.inl (Except.ok.inj h ▸ hk)
  | cons x d ih =>
    obtain ⟨k', v', hk', -, hrest⟩ := deserializeLoop_cons h
    rcases ih hrest with hk | ⟨y, hy, hyk⟩
    · rcases Dict.mem_keys_set.mp hk with rfl | hk
      · exact Or.inr ⟨x, mem_cons_self, hk'⟩
      · exact Or.inl hk
    · exact Or.inr ⟨y, mem_cons_of_mem _ hy, hyk⟩

/-- A key that does not come again keeps its value. -/
theorem get_deserializeLoop_of_ne (h : deserializeLoop literalEval d acc = .ok r) {k : Value}
    (hk : ∀ x ∈ d, unpackKey literalEval x.1 ≠ .ok k) : r.get k = acc.get k := by
  induction d generalizing acc with
  | nil =>
    rw [deserializeLoop] at h
    rw [Except.ok.inj h]
  | cons x d ih =>
    obtain ⟨k', v', hk', -, hrest⟩ := deserializeLoop_cons h
    obtain ⟨hx, hd⟩ := forall_mem_cons.mp hk
    rw [ih hrest hd, Dict.get_set, if_neg fun he : k' = k => hx (he ▸ hk')]

/-- What is loaded of keys that come back as they were. -/
theorem get_deserializeLoop (hnodup : (d.map Prod.fst).Nodup)
    (hback : ∀ x ∈ d, unpackKey literalEval (packKey repr x.1) = .ok x.1)
    (h : deserializeLoop literalEval (d.map fun x => (packKey repr x.1, serialize repr x.2)) acc = .ok r) :
    ∀ x ∈ d, ∃ v, deserialize literalEval (serialize repr x.2) = .ok v ∧ r.get x.1 = some v := by
  induction d generalizing acc with
  | nil => exact nofun
  | cons x d ih =>
    obtain ⟨hx, hd⟩ := forall_mem_cons.mp hback
    obtain ⟨hnot, hnodup⟩ := nodup_cons.mp hnodup
    rw [map_cons] at h
    obtain ⟨k, v, hk, hv, hrest⟩ := deserializeLoop_cons h
    obtain rfl : x.1 = k := Except.ok.inj (hx.symm.trans hk)
    refine forall_mem_cons.mpr ⟨⟨v, hv, ?_⟩, ih hnodup hd hrest⟩
    rw [get_deserializeLoop_of_ne hrest, Dict.get_set, if_pos rfl]
    intro y hy he
    obtain ⟨z, hz, rfl⟩ := List.mem_map.mp hy
    have hsame : z.1 = x.1 := Except.ok.inj ((hd z hz).symm.trans he)
    exact hnot (hsame ▸ List.mem_map_of_mem hz)

/-- Keys that are not mistaken are stored apart. -/
theorem nodup_packKey {d : Dict Value (Data α)} (hnodup : (d.map Prod.fst).Nodup)
    (hback : ∀ x ∈ d, unpackKey literalEval (packKey repr x.1) = .ok x.1) : (d.map fun x => packKey repr x.1).Nodup := by
  have hmap : (d.map fun x => packKey repr x.1) = (d.map Prod.fst).map (packKey repr) := by
    rw [List.map_map]
    rfl
  rw [hmap]
  refine Nodup.map_on (fun a ha b hb he => ?_) hnodup
  obtain ⟨x, hx, rfl⟩ := List.mem_map.mp ha
  obtain ⟨y, hy, rfl⟩ := List.mem_map.mp hb
  exact Except.ok.inj ((hback x hx).symm.trans (he ▸ hback y hy))

mutual

theorem deserialize_serialize (h : Reads scalars repr literalEval) :
    ∀ d : Data α, d.Keyed scalars → d.Unmistaken → deserialize literalEval (serialize repr d) = .ok d
  | .leaf x, _, _ => by rw [serialize, deserialize]
  | .map d, hkeyed, hplain => by
    rw [Data.Keyed] at hkeyed
    rw [Data.Unmistaken] at hplain
    have hback : ∀ x ∈ d, unpackKey literalEval (packKey repr x.1) = .ok x.1 := fun x hx =>
      unpackKey_packKey h (hkeyed.2.mem x hx).1 (unmistakenAll_iff.mp hplain x hx).1
    rw [serialize, serializeLoop_eq d [] (nodup_packKey hkeyed.1 hback), deserialize, nil_append,
      deserializeLoop_serialize h d hkeyed.2 hplain [] hkeyed.1]
    rfl

theorem deserializeLoop_serialize (h : Reads scalars repr literalEval) :
    ∀ d : List (Value × Data α), KeyedAll scalars d → UnmistakenAll d → ∀ acc : Dict Value (Data α),
      (acc.map Prod.fst ++ d.map Prod.fst).Nodup →
      deserializeLoop literalEval (d.map fun x => (packKey repr x.1, serialize repr x.2)) acc = .ok (acc ++ d)
  | [], _, _, acc, _ => by rw [map_nil, deserializeLoop, append_nil]
  | (k, v) :: d, hkeyed, hplain, acc, hnodup => by
    rw [KeyedAll] at hkeyed
    rw [UnmistakenAll] at hplain
    rw [map_cons, nodup_append] at hnodup
    obtain ⟨hacc, hd, hdisjoint⟩ := hnodup
    have hnew : k ∉ acc.map Prod.fst := fun hmem => hdisjoint _ hmem _ mem_cons_self rfl
    rw [map_cons, deserializeLoop, unpackKey_packKey h hkeyed.1 hplain.1, deserialize_serialize h v hkeyed.2.1 hplain.2.1]
    dsimp only
    rw [if_pos hkeyed.1.hashable, Dict.set_of_notMem hnew, deserializeLoop_serialize h d hkeyed.2.2 hplain.2.2, append_assoc,
      singleton_append]
    rw [map_append, append_assoc]
    exact nodup_append.mpr ⟨hacc, hd, hdisjoint⟩

end

mutual

theorem unmistaken_of_same (h : Reads scalars repr literalEval) :
    ∀ d d' : Data α, d.Keyed scalars → deserialize literalEval (serialize repr d) = .ok d' → Same d d' → d.Unmistaken
  | .leaf x, _, _, _, _ => by
    rw [Data.Unmistaken]
    trivial
  | .map d, d', hkeyed, hback, hsame => by
    rw [Data.Keyed] at hkeyed
    rw [serialize, deserialize] at hback
    cases hloop : deserializeLoop literalEval (serializeLoop repr d []) [] with
    | error e =>
      rw [hloop] at hback
      cases hback
    | ok r =>
      rw [hloop] at hback
      obtain rfl : Data.map r = d' := Except.ok.inj hback
      cases hsame with
      | map hkeys hvalues =>
        have hkey : ∀ x ∈ d, IsKey scalars x.1 := fun x hx => (hkeyed.2.mem x hx).1
        have hplain := plain_of_keys h hkey fun x hx => by
          have hmem : x.1 ∈ r.map Prod.fst := by
            rw [Dict.mem_keys_iff, ← hkeys, ← Dict.mem_keys_iff]
            exact List.mem_map_of_mem hx
          obtain ⟨y, hy, hunpack⟩ := (mem_deserializeLoop hloop hmem).resolve_left not_mem_nil
          obtain ⟨z, hz, hpack⟩ := (mem_serializeLoop (List.mem_map_of_mem hy)).resolve_left not_mem_nil
          exact ⟨z, hz, hpack ▸ hunpack⟩
        have hcome : ∀ x ∈ d, unpackKey literalEval (packKey repr x.1) = .ok x.1 := fun x hx =>
          unpackKey_packKey h (hkey x hx) (hplain x hx)
        rw [serializeLoop_eq d [] (nodup_packKey hkeyed.1 hcome), nil_append] at hloop
        rw [Data.Unmistaken]
        refine unmistakenAll_of_same h d hkeyed.2 hplain fun x hx => ?_
        obtain ⟨v, hv, hget⟩ := get_deserializeLoop hkeyed.1 hcome hloop x hx
        exact ⟨v, hv, hvalues x.1 x.2 v (Dict.KeysNodup.mem_iff hkeyed.1 |>.mp hx) hget⟩

theorem unmistakenAll_of_same (h : Reads scalars repr literalEval) :
    ∀ d : List (Value × Data α), KeyedAll scalars d → (∀ x ∈ d, ∀ s, x.1 = .text s → ¬ LooksPacked s) →
      (∀ x ∈ d, ∃ v, deserialize literalEval (serialize repr x.2) = .ok v ∧ Same x.2 v) → UnmistakenAll d
  | [], _, _, _ => by
    rw [UnmistakenAll]
    trivial
  | (k, v) :: d, hkeyed, hplain, hsame => by
    rw [KeyedAll] at hkeyed
    obtain ⟨⟨v', hv', hs⟩, hsame⟩ := forall_mem_cons.mp hsame
    obtain ⟨hk, hplain⟩ := forall_mem_cons.mp hplain
    rw [UnmistakenAll]
    exact ⟨hk, unmistaken_of_same h v v' hkeyed.2.1 hv' hs, unmistakenAll_of_same h d hkeyed.2.2 hplain hsame⟩

end

theorem deserializeInputData_serialize (repr : Value → Text) (literalEval : Text → Except Failure Value) (inputData : Dict Value (Data α)) :
    (deserializeInputData literalEval (serializeInputData repr inputData)).map Data.map =
      deserialize literalEval (serialize repr (.map inputData)) := by
  have hget : Dict.get (serializeInputData repr inputData) inputDataKey = some (serializeLoop repr inputData []) := by
    rw [serializeInputData, Dict.get_cons]
    exact if_pos rfl
  rw [serialize, deserialize, deserializeInputData, hget]
  cases serializeLoop repr inputData [] with
  | nil =>
    rw [deserializeLoop]
  | cons x d => rfl

/-- **When the input data of a sync point comes back from the database.** -/
theorem deserializeInputData_iff (h : Reads scalars repr literalEval) {inputData : Dict Value (Data α)}
    (hkeyed : (Data.map inputData).Keyed scalars) :
    (∃ d, deserializeInputData literalEval (serializeInputData repr inputData) = .ok d ∧ Same (.map inputData) (.map d)) ↔
      (Data.map inputData).Unmistaken := by
  have hrun := deserializeInputData_serialize repr literalEval inputData
  constructor
  · rintro ⟨d, hd, hsame⟩
    rw [hd] at hrun
    exact unmistaken_of_same h _ _ hkeyed hrun.symm hsame
  · intro hplain
    rw [deserialize_serialize h _ hkeyed hplain] at hrun
    cases hd : deserializeInputData literalEval (serializeInputData repr inputData) with
    | error e =>
      rw [hd] at hrun
      cases hrun
    | ok d =>
      rw [hd] at hrun
      obtain rfl := Data.map.inj (Except.ok.inj hrun)
      exact ⟨d, rfl, Same.refl _⟩

/-- The data of a resource with an attribute that is a dictionary with a key. -/
def resourceInput (key : Text) : Dict Value (Data ℕ) :=
  [(.tuple [.scalar "1".toList, .scalar "True".toList],
    .map [(.text "attrs".toList, .map [(.text "outputs".toList, .map [(.text key, .leaf 0)])])])]

theorem resourceInput_keyed (key : Text) : (Data.map (resourceInput key)).Keyed IsScalar := by
  simp [resourceInput, Data.Keyed, KeyedAll, IsKey, Value.IsAtom, IsScalar]

theorem deserializeInputData_iff_config :
    (∃ d, deserializeInputData readFlat (serializeInputData reprAtom (resourceInput "config".toList)) = .ok d ∧
        Same (.map (resourceInput "config".toList)) (.map d)) ↔
      (Data.map (resourceInput "config".toList)).Unmistaken :=
  deserializeInputData_iff reads_flat (resourceInput_keyed "config".toList)

/-- A key that starts as a stored tuple does, and is none. -/
theorem deserializeInputData_mistaken :
    ¬ ∃ d, deserializeInputData readFlat (serializeInputData reprAtom (resourceInput "tuple:(x".toList)) = .ok d ∧
      Same (.map (resourceInput "tuple:(x".toList)) (.map d) := by
  rintro ⟨d, hd, hsame⟩
  have hrun := deserializeInputData_serialize reprAtom readFlat (resourceInput "tuple:(x".toList)
  rw [hd] at hrun
  have hplain := unmistaken_of_same reads_flat _ _ (resourceInput_keyed _) hrun.symm hsame
  simp [resourceInput, Data.Unmistaken, UnmistakenAll, LooksPacked] at hplain

end Loops

end Mitaka.Heat.SyncPoint
