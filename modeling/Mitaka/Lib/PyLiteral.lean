/-
  Subject: Literals of Python: what they evaluate to, how lists and tuples are printed, and
           what a reader of them has to do.

  `Reads` is what is asked of a printer and a reader: what is printed is read again, and a
  literal is longer than each text in it. The last section has a printer and a reader of flat
  literals for which it holds (`reads_flat`).
-/
import Mathlib

namespace PyLiteral

open List

abbrev Text := List Char

/-! ## 1. Values -/

/-- What a literal evaluates to. -/
inductive Value
  | text (s : Text)
  /-- a number, a truth value or none, by its source -/
  | scalar (source : Text)
  | tuple (items : List Value)
  | list (items : List Value)
  | dict (keys values : List Value)

mutual

def Value.decEq : (a b : Value) → Decidable (a = b)
  | .text s, .text s' => decidable_of_iff (s = s') ⟨congrArg _, Value.text.inj⟩
  | .scalar s, .scalar s' => decidable_of_iff (s = s') ⟨congrArg _, Value.scalar.inj⟩
  | .tuple vs, .tuple ws =>
    match decEqAll vs ws with
    | .isTrue h => .isTrue (congrArg _ h)
    | .isFalse h => .isFalse fun he => h (Value.tuple.inj he)
  | .list vs, .list ws =>
    match decEqAll vs ws with
    | .isTrue h => .isTrue (congrArg _ h)
    | .isFalse h => .isFalse fun he => h (Value.list.inj he)
  | .dict ks vs, .dict ks' vs' =>
    match decEqAll ks ks', decEqAll vs vs' with
    | .isTrue h, .isTrue h' => .isTrue (h ▸ h' ▸ rfl)
    | .isFalse h, _ => .isFalse fun he => h (Value.dict.inj he).1
    | _, .isFalse h => .isFalse fun he => h (Value.dict.inj he).2
  | .text _, .scalar _ | .text _, .tuple _ | .text _, .list _ | .text _, .dict _ _ => .isFalse nofun
  | .scalar _, .text _ | .scalar _, .tuple _ | .scalar _, .list _ | .scalar _, .dict _ _ => .isFalse nofun
  | .tuple _, .text _ | .tuple _, .scalar _ | .tuple _, .list _ | .tuple _, .dict _ _ => .isFalse nofun
  | .list _, .text _ | .list _, .scalar _ | .list _, .tuple _ | .list _, .dict _ _ => .isFalse nofun
  | .dict _ _, .text _ | .dict _ _, .scalar _ | .dict _ _, .tuple _ | .dict _ _, .list _ => .isFalse nofun

def decEqAll : (a b : List Value) → Decidable (a = b)
  | [], [] => .isTrue rfl
  | v :: vs, w :: ws =>
    match v.decEq w, decEqAll vs ws with
    | .isTrue h, .isTrue h' => .isTrue (h ▸ h' ▸ rfl)
    | .isFalse h, _ => .isFalse fun he => h (List.cons.inj he).1
    | _, .isFalse h => .isFalse fun he => h (List.cons.inj he).2
  | [], _ :: _ => .isFalse nofun
  | _ :: _, [] => .isFalse nofun

end

instance : DecidableEq Value := Value.decEq

mutual

/-- The texts in a value. -/
def Value.texts : Value → List Text
  | .text s => [s]
  | .scalar _ => []
  | .tuple items => textsOf items
  | .list items => textsOf items
  | .dict keys values => textsOf keys ++ textsOf values

def textsOf : List Value → List Text
  | [] => []
  | v :: vs => v.texts ++ textsOf vs

end

mutual

/-- A value can be an element of a set and a key of a dictionary. -/
def Value.hashable : Value → Bool
  | .text _ => true
  | .scalar _ => true
  | .tuple items => hashableAll items
  | .list _ => false
  | .dict _ _ => false

def hashableAll : List Value → Bool
  | [] => true
  | v :: vs => v.hashable && hashableAll vs

end

/-- The items over which a loop goes; a number has none to go over. -/
def Value.iterate : Value → Option (List Value)
  | .text s => some (s.map fun c => .text [c])
  | .scalar _ => none
  | .tuple items => some items
  | .list items => some items
  | .dict keys _ => some keys

variable {v : Value} {vs : List Value}

theorem texts_subset (h : v ∈ vs) : v.texts ⊆ textsOf vs := by
  induction vs with
  | nil => cases h
  | cons w vs ih =>
    rw [textsOf]
    rcases mem_cons.mp h with rfl | h
    · exact subset_append_left _ _
    · exact Subset.trans (ih h) (subset_append_right _ _)

/-- A text among the items is in the value, or is one of its characters. -/
theorem text_of_iterate {items : List Value} (h : v.iterate = some items) {s : Text} (hs : .text s ∈ items) :
    ∃ s' ∈ v.texts, s.length ≤ s'.length := by
  have hsub : ∀ vs : List Value, .text s ∈ vs → s ∈ textsOf vs := fun vs hmem => by
    have hin := texts_subset hmem
    rw [Value.texts] at hin
    exact hin mem_cons_self
  cases v with
  | text s' =>
    obtain rfl := Option.some.inj h
    obtain ⟨c, hc, heq⟩ := List.mem_map.mp hs
    obtain rfl : [c] = s := Value.text.inj heq
    refine ⟨s', by rw [Value.texts]; exact mem_cons_self, ?_⟩
    exact length_pos_of_mem hc
  | scalar _ => cases h
  | tuple vs =>
    obtain rfl := Option.some.inj h
    exact ⟨s, by rw [Value.texts]; exact hsub vs hs, le_rfl⟩
  | list vs =>
    obtain rfl := Option.some.inj h
    exact ⟨s, by rw [Value.texts]; exact hsub vs hs, le_rfl⟩
  | dict keys values =>
    obtain rfl := Option.some.inj h
    exact ⟨s, by rw [Value.texts]; exact mem_append_left _ (hsub keys hs), le_rfl⟩

/-! ## 2. Printing and reading -/

/-- What a reader raises: the errors of a text that is no literal, or another one. -/
inductive Failure
  /-- `ValueError` or `SyntaxError` -/
  | malformed
  | other
  deriving DecidableEq

/-- A value that has no items: a text or a scalar. -/
def Value.IsAtom : Value → Prop
  | .text _ => True
  | .scalar _ => True
  | _ => False

section Print

variable (repr : Value → Text)

/-- `', '.join`. -/
def joined (vs : List Value) : Text := intercalate [',', ' '] (vs.map repr)

/-- `str` of a list. -/
def listText (vs : List Value) : Text := '[' :: (joined repr vs ++ [']'])

/-- `str` of a tuple. -/
def tupleText : List Value → Text
  | [v] => '(' :: (repr v ++ [',', ')'])
  | vs => '(' :: (joined repr vs ++ [')'])

end Print

/-- A reader of literals for what a printer makes of atoms. Not every scalar is one: `scalars` are those that are. -/
structure Reads (scalars : Text → Prop) (repr : Value → Text) (literalEval : Text → Except Failure Value) : Prop where
  list : ∀ vs : List Value, (∀ v ∈ vs, v.IsAtom ∧ ∀ s, v = .scalar s → scalars s) → literalEval (listText repr vs) = .ok (.list vs)
  tuple : ∀ vs : List Value, (∀ v ∈ vs, v.IsAtom ∧ ∀ s, v = .scalar s → scalars s) → literalEval (tupleText repr vs) = .ok (.tuple vs)
  /-- a literal is longer than what it quotes -/
  shorter : ∀ source v, literalEval source = .ok v → ∀ s ∈ v.texts, s.length < source.length

variable {source : Text}

/-- **What is read from a text is not that text.** -/
theorem Reads.ne_iterate {scalars : Text → Prop} {repr : Value → Text} {literalEval : Text → Except Failure Value}
    (h : Reads scalars repr literalEval) (hv : literalEval source = .ok v) {items : List Value}
    (hitems : v.iterate = some items) : .text source ∉ items := fun hmem => by
  obtain ⟨s, hs, hle⟩ := text_of_iterate hitems hmem
  exact absurd (h.shorter source v hv s hs) (by omega)

/-! ## 3. Flat literals -/

/-- A quoted text. -/
def escape (s : Text) : Text := s.flatMap fun c => if c = '\'' ∨ c = '\\' then ['\\', c] else [c]

def reprAtom : Value → Text
  | .text s => '\'' :: (escape s ++ ['\''])
  | .scalar source => source
  | _ => []

/-- The text up to the closing quote, and what follows. -/
def readQuoted : Text → Option (Text × Text)
  | [] => none
  | '\'' :: rest => some ([], rest)
  | '\\' :: c :: rest => (readQuoted rest).map fun r => (c :: r.1, r.2)
  | c :: rest => (readQuoted rest).map fun r => (c :: r.1, r.2)

/-- A character of a scalar. -/
def isWord (c : Char) : Bool := c ≠ ',' ∧ c ≠ ']' ∧ c ≠ ')'

/-- Truth values, none and decimal numbers. -/
def IsScalar (s : Text) : Prop :=
  s = "True".toList ∨ s = "False".toList ∨ s = "None".toList ∨ (s ≠ [] ∧ ∀ c ∈ s, c.isDigit = true)

instance (s : Text) : Decidable (IsScalar s) := inferInstanceAs (Decidable (_ ∨ _))

def readAtom : Text → Option (Value × Text)
  | '\'' :: rest => (readQuoted rest).map fun r => (.text r.1, r.2)
  | source =>
    if IsScalar (source.takeWhile isWord) then some (.scalar (source.takeWhile isWord), source.dropWhile isWord) else none

/-- The items up to the closing bracket, for a number of items. -/
def readItems (close : Char) : ℕ → Text → Option (List Value)
  | 0, _ => none
  | n + 1, source =>
    (readAtom source).bind fun r =>
      match r.2 with
      | ',' :: ' ' :: rest => (readItems close n rest).map (r.1 :: ·)
      | rest => if rest = [close] then some [r.1] else none

/-- What follows an opening parenthesis. -/
def readTuple (rest : Text) : Option Value :=
  if rest = [')'] then some (.tuple [])
  else
    match readAtom rest with
    | some (v, [',', ')']) => some (.tuple [v])
    | some (v, [')']) => some v
    | _ => (readItems ')' rest.length rest).map .tuple

/-- Texts, scalars, and lists and tuples of them. -/
def readValue : Text → Option Value
  | '[' :: rest => if rest = [']'] then some (.list []) else (readItems ']' rest.length rest).map .list
  | '(' :: rest => readTuple rest
  | source =>
    match readAtom source with
    | some (v, []) => some v
    | _ => none

def readFlat (source : Text) : Except Failure Value :=
  match readValue source with
  | some v => .ok v
  | none => .error .malformed

theorem readQuoted_escape (s rest : Text) : readQuoted (escape s ++ '\'' :: rest) = some (s, rest) := by
  induction s with
  | nil => rfl
  | cons c s ih =>
    have hcons : escape (c :: s) = (if c = '\'' ∨ c = '\\' then ['\\', c] else [c]) ++ escape s := by
      rw [escape, flatMap_cons]
      rfl
    rw [hcons]
    by_cases h : c = '\'' ∨ c = '\\'
    · rw [if_pos h, append_assoc]
      show readQuoted ('\\' :: c :: (escape s ++ '\'' :: rest)) = _
      rw [readQuoted, ih]
      rfl
    · rw [if_neg h, append_assoc]
      show readQuoted (c :: (escape s ++ '\'' :: rest)) = _
      rw [not_or] at h
      rw [readQuoted, ih]
      · rfl
      · exact fun he => h.1 he
      · exact fun _ _ he => absurd he h.2

theorem readQuoted_length {source s rest : Text} (h : readQuoted source = some (s, rest)) :
    s.length + rest.length < source.length := by
  fun_induction readQuoted source generalizing s rest with
  | case1 => cases h
  | case2 rest' =>
    obtain ⟨rfl, rfl⟩ := Prod.mk.inj (Option.some.inj h)
    rw [length_nil, length_cons]
    omega
  | case3 c rest' ih =>
    obtain ⟨⟨s', rest''⟩, hr, heq⟩ := Option.map_eq_some_iff.mp h
    obtain ⟨rfl, rfl⟩ := Prod.mk.inj heq
    have hlen := ih hr
    simp only [length_cons]
    omega
  | case4 c rest' _ _ ih =>
    obtain ⟨⟨s', rest''⟩, hr, heq⟩ := Option.map_eq_some_iff.mp h
    obtain ⟨rfl, rfl⟩ := Prod.mk.inj heq
    have hlen := ih hr
    simp only [length_cons]
    omega

/-- An atom that is printed as it can be read. -/
def Flat (v : Value) : Prop := v.IsAtom ∧ ∀ s, v = .scalar s → IsScalar s

theorem IsScalar.word {s : Text} (h : IsScalar s) : s ≠ [] ∧ ∀ c ∈ s, isWord c = true ∧ c ≠ '\'' := by
  rcases h with rfl | rfl | rfl | ⟨hne, hdigit⟩
  · exact ⟨by decide, by simp [isWord]⟩
  · exact ⟨by decide, by simp [isWord]⟩
  · exact ⟨by decide, by simp [isWord]⟩
  · refine ⟨hne, fun c hc => ?_⟩
    have hd := hdigit c hc
    constructor
    · rw [isWord, decide_eq_true_iff]
      refine ⟨?_, ?_, ?_⟩ <;> rintro rfl <;> exact absurd hd (by decide)
    · rintro rfl
      exact absurd hd (by decide)

theorem reprAtom_ne_nil (h : Flat v) : reprAtom v ≠ [] := by
  cases v with
  | text s => exact cons_ne_nil _ _
  | scalar source => exact (h.2 source rfl).word.1
  | tuple _ => exact absurd h.1 id
  | list _ => exact absurd h.1 id
  | dict _ _ => exact absurd h.1 id

/-- What is printed of an atom is read again. -/
theorem readAtom_reprAtom (h : Flat v) {rest : Text} (hrest : ∀ c ∈ rest.head?, isWord c = false) :
    readAtom (reprAtom v ++ rest) = some (v, rest) := by
  cases v with
  | text s =>
    show readAtom ('\'' :: (escape s ++ ['\''] ++ rest)) = _
    rw [readAtom, append_assoc, singleton_append, readQuoted_escape]
    rfl
  | scalar source =>
    have hscalar := h.2 source rfl
    obtain ⟨hne, hword⟩ := hscalar.word
    have htake : (source ++ rest).takeWhile isWord = source ∧ (source ++ rest).dropWhile isWord = rest := by
      rw [takeWhile_append_of_pos fun c hc => (hword c hc).1, dropWhile_append_of_pos fun c hc => (hword c hc).1]
      cases rest with
      | nil => exact ⟨append_nil _, rfl⟩
      | cons c rest =>
        have hc := hrest c rfl
        rw [takeWhile_cons_of_neg (by rw [hc]; decide), dropWhile_cons_of_neg (by rw [hc]; decide)]
        exact ⟨append_nil _, rfl⟩
    show readAtom (source ++ rest) = _
    rw [readAtom, htake.1, htake.2, if_pos hscalar]
    obtain ⟨c, source, rfl⟩ := exists_cons_of_ne_nil hne
    exact fun _ he => (hword c mem_cons_self).2 (List.cons.inj he).1
  | tuple _ => exact absurd h.1 id
  | list _ => exact absurd h.1 id
  | dict _ _ => exact absurd h.1 id

theorem joined_cons (repr : Value → Text) (v w : Value) (vs : List Value) :
    joined repr (v :: w :: vs) = repr v ++ ',' :: ' ' :: joined repr (w :: vs) := by
  rw [joined, map_cons, intercalate_cons_of_ne_nil (by simp)]
  rw [append_assoc]
  rfl

theorem joined_singleton (repr : Value → Text) (v : Value) : joined repr [v] = repr v := intercalate_singleton

theorem length_le_joined {repr : Value → Text} (vs : List Value) : vs.length ≤ (joined repr vs).length + 1 := by
  induction vs with
  | nil => exact Nat.zero_le _
  | cons v vs ih =>
    cases vs with
    | nil => exact Nat.le_add_left _ _
    | cons w vs =>
      have hlen : (joined repr (v :: w :: vs)).length = (repr v).length + ((joined repr (w :: vs)).length + 2) := by
        rw [joined_cons, length_append]
        rfl
      rw [length_cons, hlen]
      omega

theorem joined_ne_nil (h : Flat v) : joined reprAtom (v :: vs) ≠ [] := by
  cases vs with
  | nil => exact joined_singleton reprAtom v ▸ reprAtom_ne_nil h
  | cons w vs => exact joined_cons reprAtom v w vs ▸ append_ne_nil_of_left_ne_nil (reprAtom_ne_nil h) _

theorem readItems_joined {close : Char} (hclose : isWord close = false) (hcomma : close ≠ ',') (hne : vs ≠ [])
    (h : ∀ v ∈ vs, Flat v) {n : ℕ} (hn : vs.length ≤ n) : readItems close n (joined reprAtom vs ++ [close]) = some vs := by
  induction vs generalizing n with
  | nil => exact absurd rfl hne
  | cons v vs ih =>
    obtain ⟨n, rfl⟩ : ∃ k, n = k + 1 := ⟨n - 1, by rw [length_cons] at hn; omega⟩
    have hv := h v mem_cons_self
    cases vs with
    | nil =>
      rw [joined_singleton, readItems, readAtom_reprAtom hv (by simpa using hclose), Option.bind_some]
      dsimp only
      split
      case h_1 heq => exact absurd (List.cons.inj heq).1 hcomma
      case h_2 => exact if_pos rfl
    | cons w vs =>
      have hcomma' : ∀ c ∈ (',' :: ' ' :: (joined reprAtom (w :: vs) ++ [close])).head?, isWord c = false := by
        intro c hc
        obtain rfl := Option.some.inj hc
        decide
      rw [joined_cons, readItems, append_assoc, cons_append, cons_append, readAtom_reprAtom hv hcomma',
        Option.bind_some]
      have hlen : (w :: vs).length ≤ n := by
        rw [length_cons] at hn
        omega
      have hitems := ih (cons_ne_nil _ _) (fun x hx => h x (mem_cons_of_mem _ hx)) hlen
      show (readItems close n (joined reprAtom (w :: vs) ++ [close])).map (v :: ·) = _
      rw [hitems]
      rfl

/-! ### What is read is shorter -/

theorem readAtom_length {source rest : Text} (h : readAtom source = some (v, rest)) :
    (∀ s ∈ v.texts, s.length < source.length) ∧ rest.length ≤ source.length := by
  unfold readAtom at h
  split at h
  case h_1 source =>
    obtain ⟨⟨s', rest'⟩, hr, heq⟩ := Option.map_eq_some_iff.mp h
    obtain ⟨rfl, rfl⟩ : Value.text s' = v ∧ rest' = rest := Prod.mk.inj heq
    have hlen := readQuoted_length hr
    rw [length_cons]
    refine ⟨fun s hs => ?_, by omega⟩
    rw [Value.texts, mem_singleton] at hs
    rw [hs]
    omega
  case h_2 =>
    split at h
    case isTrue =>
      obtain ⟨rfl, rfl⟩ := Prod.mk.inj (Option.some.inj h)
      refine ⟨fun s hs => ?_, (dropWhile_suffix _).length_le⟩
      rw [Value.texts] at hs
      cases hs
    case isFalse => cases h

theorem readItems_length {close : Char} {n : ℕ} (h : readItems close n source = some vs) :
    ∀ s ∈ textsOf vs, s.length < source.length := by
  induction n generalizing source vs with
  | zero => cases h
  | succ n ih =>
    obtain ⟨⟨v, rest⟩, hatom, hrest⟩ := Option.bind_eq_some_iff.mp h
    obtain ⟨hv, hle⟩ := readAtom_length hatom
    dsimp only at hrest
    split at hrest
    case h_1 rest =>
      obtain ⟨ws, hws, rfl⟩ := Option.map_eq_some_iff.mp hrest
      intro s hs
      rw [textsOf, mem_append] at hs
      rcases hs with hs | hs
      · exact hv s hs
      · have := ih hws s hs
        simp only [length_cons] at hle
        omega
    case h_2 =>
      split at hrest
      case isTrue =>
        obtain rfl := Option.some.inj hrest
        intro s hs
        rw [textsOf, textsOf, append_nil] at hs
        exact hv s hs
      case isFalse => cases hrest

theorem readTuple_length {rest : Text} (h : readTuple rest = some v) : ∀ s ∈ v.texts, s.length < rest.length + 1 := by
  unfold readTuple at h
  split at h
  case isTrue =>
    obtain rfl := Option.some.inj h
    exact fun s hs => absurd hs (by simp [Value.texts, textsOf])
  case isFalse =>
    split at h
    case h_1 w hatom =>
      obtain rfl := Option.some.inj h
      intro s hs
      rw [Value.texts, textsOf, textsOf, append_nil] at hs
      exact Nat.lt_succ_of_lt ((readAtom_length hatom).1 s hs)
    case h_2 w hatom =>
      obtain rfl := Option.some.inj h
      exact fun s hs => Nat.lt_succ_of_lt ((readAtom_length hatom).1 s hs)
    case h_3 =>
      obtain ⟨vs, hvs, rfl⟩ := Option.map_eq_some_iff.mp h
      exact fun s hs => Nat.lt_succ_of_lt (readItems_length hvs s (by rwa [Value.texts] at hs))

theorem readValue_length (h : readValue source = some v) :
    ∀ s ∈ v.texts, s.length < source.length := by
  unfold readValue at h
  split at h
  case h_1 rest =>
    split at h
    case isTrue =>
      obtain rfl := Option.some.inj h
      exact fun s hs => absurd hs (by simp [Value.texts, textsOf])
    case isFalse =>
      obtain ⟨vs, hvs, rfl⟩ := Option.map_eq_some_iff.mp h
      exact fun s hs => Nat.lt_succ_of_lt (readItems_length hvs s (by rwa [Value.texts] at hs))
  case h_2 rest => exact readTuple_length h
  case h_3 =>
    split at h
    case h_1 w hatom =>
      obtain rfl := Option.some.inj h
      exact (readAtom_length hatom).1
    case h_2 => cases h

theorem readFlat_ok : readFlat source = .ok v ↔ readValue source = some v := by
  rw [readFlat]
  cases readValue source with
  | none => exact ⟨nofun, nofun⟩
  | some w => exact ⟨fun h => congrArg some (Except.ok.inj h), fun h => congrArg Except.ok (Option.some.inj h)⟩

/-- The opening bracket is followed by what is read up to the closing one. -/
theorem joined_append_ne (h : Flat v) (close : Char) : joined reprAtom (v :: vs) ++ [close] ≠ [close] := fun he => by
  have hlen := congrArg List.length he
  rw [length_append] at hlen
  have hnil : joined reprAtom (v :: vs) = [] := length_eq_zero_iff.mp (by omega)
  exact joined_ne_nil h hnil

theorem length_le_close (close : Char) : vs.length ≤ (joined reprAtom vs ++ [close]).length := by
  rw [length_append]
  exact length_le_joined vs

/-- **The printer and the reader of flat literals.** -/
theorem reads_flat : Reads IsScalar reprAtom readFlat where
  list := fun vs h => by
    refine readFlat_ok.mpr ?_
    rw [listText, readValue]
    cases vs with
    | nil => rfl
    | cons v vs =>
      rw [if_neg (joined_append_ne (h v mem_cons_self) _),
        readItems_joined (by decide) (by decide) (cons_ne_nil _ _) h (length_le_close _)]
      rfl
  tuple := fun vs h => by
    refine readFlat_ok.mpr ?_
    match vs, h with
    | [], _ => rfl
    | [v], h =>
      have hv := h v mem_cons_self
      rw [tupleText, readValue, readTuple, readAtom_reprAtom hv (by simp [isWord]), if_neg ?_]
      · rfl
      · intro he
        have hlen := congrArg List.length he
        rw [length_append, length_cons, length_cons] at hlen
        omega
    | v :: w :: vs, h =>
      have hv := h v mem_cons_self
      have hcomma : ∀ c ∈ (',' :: ' ' :: (joined reprAtom (w :: vs) ++ [')'])).head?, isWord c = false := by
        intro c hc
        obtain rfl := Option.some.inj hc
        decide
      have hatom : readAtom (joined reprAtom (v :: w :: vs) ++ [')']) = some (v, ',' :: ' ' :: (joined reprAtom (w :: vs) ++ [')'])) := by
        rw [joined_cons, append_assoc, cons_append, cons_append, readAtom_reprAtom hv hcomma]
      have htuple : tupleText reprAtom (v :: w :: vs) = '(' :: (joined reprAtom (v :: w :: vs) ++ [')']) := rfl
      rw [htuple, readValue, readTuple, if_neg (joined_append_ne hv _), hatom,
        readItems_joined (by decide) (by decide) (cons_ne_nil _ _) h (length_le_close _)]
      rfl
  shorter := fun _ _ h => readValue_length (readFlat_ok.mp h)

end PyLiteral
