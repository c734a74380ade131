/-
  Subject: swift/common/utils.py, `parse_content_type`, `extract_swift_bytes` and
           `override_bytes_from_content_type`, with the pattern
           `_rfc_extension_pattern`.

  The pattern `\s*;\s*(token)\s*(?:=\s*(token|"(?:[^"\\]|\\.)*"))?` never has to
  backtrack into a choice: blanks, `;`, `=`, quotes and token characters exclude
  each other. `matchExtension` is its one match at the start of a text, `findall`
  the scan for all of them.
-/
import Mitaka.Swift.Timestamp

namespace Mitaka.Swift

open Numeral List

/-! ## 1. Parsing -/

/-- The blanks of `\s` and of `str.strip`. -/
def isSpace (c : Char) : Bool :=
  c = ' ' || (9 ≤ c.toNat && c.toNat ≤ 13)

/-- `str.strip`. -/
def strip (s : Str) : Str := ((s.dropWhile isSpace).reverse.dropWhile isSpace).reverse

/-- A character of `_rfc_token`. -/
def isToken (c : Char) : Bool :=
  32 < c.toNat && c.toNat ≠ 127 && c ∉ "()<>@,;:\"/[]?=\x7b\x7d".toList

/-- Behind an opening quote: the text up to the closing one, and what follows.
    `\\.` does not take a newline. -/
def quotedTail : Str → Option (Str × Str)
  | [] => none
  | '\\' :: c :: r =>
    if c = '\n' then none else (quotedTail r).map fun (b, t) => ('\\' :: c :: b, t)
  | '\\' :: [] => none
  | c :: r => if c = '"' then some ([], r) else (quotedTail r).map fun (b, t) => (c :: b, t)

/-- The value behind `=`: a token or a quoted text. -/
def matchValue (s : Str) : Option (Str × Str) :=
  match s.dropWhile isSpace with
  | '"' :: r => (quotedTail r).map fun (b, t) => ('"' :: b ++ ['"'], t)
  | r => if r.takeWhile isToken = [] then none else some (r.takeWhile isToken, r.dropWhile isToken)

/-- One match of `_rfc_extension_pattern` at the start: its two groups, the
    second empty when it did not take part, and the rest of the text. -/
def matchExtension (s : Str) : Option ((Str × Str) × Str) :=
  match s.dropWhile isSpace with
  | ';' :: r =>
    let r := r.dropWhile isSpace
    let key := r.takeWhile isToken
    if key = [] then none
    else
      let r := (r.dropWhile isToken).dropWhile isSpace
      match r with
      | '=' :: v =>
        match matchValue v with
        | some (value, rest) => some ((key, value), rest)
        | none => some ((key, []), r)
      | _ => some ((key, []), r)
  | _ => none

/-- `findall`: after a match the scan goes on behind it, else one character on.
    The first argument bounds the scan, by the length of the text. -/
def findall : Nat → Str → List (Str × Str)
  | 0, _ => []
  | _, [] => []
  | n + 1, c :: s =>
    match matchExtension (c :: s) with
    | some (groups, rest) => groups :: findall n rest
    | none => findall n s

/-- `parse_content_type`. -/
def parseContentType (contentType : Str) : Str × List (Str × Str) :=
  match splitFirst ';' contentType with
  | (t, none) => (t, [])
  | (t, some parms) =>
    (t, (findall (parms.length + 1) (';' :: parms)).map fun m => (strip m.1, strip m.2))

/-- `extract_swift_bytes`: the content type without its `swift_bytes` parameter,
    and the value of that parameter. -/
def extractSwiftBytes (contentType : Str) : Str × Option Str :=
  match parseContentType contentType with
  | (t, params) =>
    params.foldl (fun (acc : Str × Option Str) p =>
      if p.1 = "swift_bytes".toList then (acc.1, some p.2)
      else (acc.1 ++ ';' :: p.1 ++ '=' :: p.2, acc.2)) (t, none)

example : extractSwiftBytes "text/plain; charset=UTF-8;swift_bytes=7".toList =
    ("text/plain;charset=UTF-8".toList, some "7".toList) := by decide +kernel

/-! ## 2. Printing what was parsed -/

theorem not_isSpace_of_isToken {c : Char} (h : isToken c = true) : isSpace c = false := by
  simp only [isToken, Bool.and_eq_true, decide_eq_true_eq] at h
  have h32 := h.1.1
  rw [isSpace, Bool.or_eq_false_iff, Bool.and_eq_false_iff, decide_eq_false_iff_not,
    decide_eq_false_iff_not, decide_eq_false_iff_not]
  refine ⟨fun e => ?_, Or.inr (by omega)⟩
  subst e
  exact absurd h32 (by decide)

variable {s : Str}

/-- A text that neither begins nor ends with a blank. -/
theorem dropWhile_of_head {p : Char → Bool} (h : ∀ c ∈ s.head?, p c = false) : s.dropWhile p = s := by
  cases s with
  | nil => rfl
  | cons c s => rw [dropWhile_cons_of_neg (by simp [h c rfl])]

theorem strip_eq_self (h : ∀ c ∈ s.head?, isSpace c = false)
    (h' : ∀ c ∈ s.getLast?, isSpace c = false) : strip s = s := by
  rw [strip, dropWhile_of_head h, dropWhile_of_head (by rw [head?_reverse]; exact h'), reverse_reverse]

theorem quotedTail_spec (s b t : Str) (h : quotedTail s = some (b, t)) :
    ∀ u, quotedTail (b ++ '"' :: u) = some (b, u) := by
  fun_induction quotedTail s generalizing b t with
  | case1 => cases h
  | case2 r => cases h
  | case3 c r hc ih =>
    obtain ⟨⟨b', t'⟩, hr, he⟩ := Option.map_eq_some_iff.mp h
    obtain ⟨rfl, rfl⟩ := Prod.mk.inj he
    intro u
    rw [List.cons_append, List.cons_append, quotedTail, if_neg hc, ih b' t' hr u]
    rfl
  | case4 => cases h
  | case5 r h1 h2 =>
    obtain ⟨rfl, rfl⟩ := Prod.mk.inj (Option.some.inj h)
    intro u
    simp [quotedTail]
  | case6 c r h1 h2 hc ih =>
    obtain ⟨⟨b', t'⟩, hr, he⟩ := Option.map_eq_some_iff.mp h
    obtain ⟨rfl, rfl⟩ := Prod.mk.inj he
    have hback : c ≠ '\\' := fun e => by
      cases r with
      | nil => exact h2 e rfl
      | cons d r => exact h1 d r e rfl
    intro u
    rw [List.cons_append, quotedTail, if_neg hc, ih b' t' hr u]
    · rfl
    · exact fun _ _ e => absurd e hback
    · exact fun e => absurd e hback

/-- A parameter as the pattern reads it: a token, and nothing, a token or a quoted text. -/
def IsParam (p : Str × Str) : Prop :=
  (p.1 ≠ [] ∧ ∀ c ∈ p.1, isToken c = true) ∧
    (p.2 = [] ∨ (p.2 ≠ [] ∧ ∀ c ∈ p.2, isToken c = true) ∨
      ∃ b, p.2 = '"' :: b ++ ['"'] ∧ ∀ u, quotedTail (b ++ '"' :: u) = some (b, u))

theorem token_strip (h : ∀ c ∈ s, isToken c = true) : strip s = s :=
  strip_eq_self (fun c hc => not_isSpace_of_isToken (h c (mem_of_mem_head? hc)))
    fun c hc => not_isSpace_of_isToken (h c (mem_of_getLast? hc))

variable {p : Str × Str}

theorem IsParam.strip (h : IsParam p) : (strip p.1, strip p.2) = p := by
  refine Prod.ext (token_strip h.1.2) ?_
  rcases h.2 with hv | ⟨-, hv⟩ | ⟨b, hv, -⟩
  · rw [hv]
    rfl
  · exact token_strip hv
  · refine strip_eq_self (fun c hc => ?_) fun c hc => ?_
    · rw [hv] at hc
      obtain rfl := Option.some.inj hc
      decide
    · rw [hv, getLast?_append] at hc
      obtain rfl := Option.some.inj hc
      decide

theorem isParam_matchValue {s v t : Str} (h : matchValue s = some (v, t)) {k : Str}
    (hk : k ≠ [] ∧ ∀ c ∈ k, isToken c = true) : IsParam (k, v) := by
  unfold matchValue at h
  split at h
  · obtain ⟨⟨b, t'⟩, hq, he⟩ := Option.map_eq_some_iff.mp h
    obtain ⟨rfl, rfl⟩ := Prod.mk.inj he
    exact ⟨hk, Or.inr (Or.inr ⟨b, rfl, quotedTail_spec _ b t' hq⟩)⟩
  · split at h
    · cases h
    · next hne =>
      obtain ⟨rfl, rfl⟩ := Prod.mk.inj (Option.some.inj h)
      exact ⟨hk, Or.inr (Or.inl ⟨hne, fun c hc => mem_takeWhile_imp hc⟩)⟩

/-- **What the pattern matches is a parameter.** -/
theorem isParam_matchExtension {t : Str}
    (h : matchExtension s = some (p, t)) : IsParam p := by
  unfold matchExtension at h
  split at h
  · next r _ =>
    dsimp only at h
    split at h
    · cases h
    · next hne =>
      have hk : (r.dropWhile isSpace).takeWhile isToken ≠ [] ∧
          ∀ c ∈ (r.dropWhile isSpace).takeWhile isToken, isToken c = true :=
        ⟨hne, fun c hc => mem_takeWhile_imp hc⟩
      split at h
      · split at h
        · next value rest hv =>
          obtain ⟨rfl, -⟩ := Prod.mk.inj (Option.some.inj h)
          exact isParam_matchValue hv hk
        · obtain ⟨rfl, -⟩ := Prod.mk.inj (Option.some.inj h)
          exact ⟨hk, Or.inl rfl⟩
      · obtain ⟨rfl, -⟩ := Prod.mk.inj (Option.some.inj h)
        exact ⟨hk, Or.inl rfl⟩
  · cases h

theorem isParam_findall {n : Nat} (h : p ∈ findall n s) : IsParam p := by
  induction n generalizing s with
  | zero => cases h
  | succ n ih =>
    cases s with
    | nil => cases h
    | cons c s =>
      rw [findall] at h
      split at h
      · next groups rest hm =>
        rcases mem_cons.mp h with rfl | h
        · exact isParam_matchExtension hm
        · exact ih h
      · exact ih h

theorem dropWhile_space {c : Char} (h : isSpace c = false) (t : Str) :
    (c :: t).dropWhile isSpace = c :: t := dropWhile_cons_of_neg (by simp [h])

/-- `';%s=%s' % (key, value)`, one after the other. -/
def printParams (params : List (Str × Str)) : Str := params.flatMap fun p => ';' :: p.1 ++ '=' :: p.2

theorem head_printParams (params : List (Str × Str)) :
    printParams params = [] ∨ ∃ u, printParams params = ';' :: u := by
  cases params with
  | nil => exact Or.inl rfl
  | cons p ps => exact Or.inr ⟨_, rfl⟩

theorem takeWhile_token {k : Str} (hk : ∀ c ∈ k, isToken c = true) {u : Str}
    (hu : ∀ c ∈ u.head?, isToken c = false) :
    (k ++ u).takeWhile isToken = k ∧ (k ++ u).dropWhile isToken = u := by
  have hnil : u.takeWhile isToken = [] ∧ u.dropWhile isToken = u := by
    cases u with
    | nil => exact ⟨rfl, rfl⟩
    | cons c u => simp [hu c rfl]
  rw [takeWhile_append_of_pos hk, dropWhile_append_of_pos hk, hnil.1, hnil.2,
    append_nil]
  exact ⟨rfl, rfl⟩

/-- **A printed parameter is matched**, up to the `=` of one without a value. -/
theorem matchExtension_print (h : IsParam p) (ps : List (Str × Str)) :
    matchExtension (';' :: p.1 ++ '=' :: (p.2 ++ printParams ps)) =
      some (p, if p.2 = [] then '=' :: printParams ps else printParams ps) := by
  obtain ⟨k, v⟩ := p
  obtain ⟨⟨hk, hkt⟩, hv⟩ := h
  dsimp only at hk hkt hv ⊢
  have hrest : ∀ c ∈ (printParams ps).head?, isToken c = false := by
    rcases head_printParams ps with e | ⟨u, e⟩
    · rw [e]; simp
    · rw [e]; simp [show isToken ';' = false by decide]
  obtain ⟨htake, hdrop⟩ := takeWhile_token hkt (u := '=' :: (v ++ printParams ps)) (by
    intro c hc; obtain rfl := Option.some.inj hc; decide)
  have hkey : (k ++ '=' :: (v ++ printParams ps)).dropWhile isSpace = k ++ '=' :: (v ++ printParams ps) := by
    cases k with
    | nil => exact absurd rfl hk
    | cons d k => exact dropWhile_space (not_isSpace_of_isToken (hkt d mem_cons_self)) _
  have hvalue : matchValue (v ++ printParams ps) = if v = [] then none else some (v, printParams ps) := by
    rcases hv with rfl | ⟨hv0, hvt⟩ | ⟨b, rfl, hq⟩
    · rw [nil_append, if_pos rfl]
      rcases head_printParams ps with e | ⟨u, e⟩
      · rw [e]; rfl
      · have hsemi : isToken ';' = false := by decide
        rw [e, matchValue, dropWhile_space (by decide)]
        simp [hsemi]
    · obtain ⟨ht, hd⟩ := takeWhile_token hvt hrest
      obtain ⟨d, v', rfl⟩ := exists_cons_of_ne_nil hv0
      have hd' := hvt d mem_cons_self
      rw [matchValue, cons_append, dropWhile_space (not_isSpace_of_isToken hd'), if_neg hv0]
      split
      · next r he =>
        obtain rfl := (List.cons.inj he).1
        exact absurd hd' (by decide)
      · rw [← cons_append, ht, hd, if_neg hv0]
    · have hne : '"' :: b ++ ['"'] ≠ [] := cons_ne_nil _ _
      have happ : '"' :: b ++ ['"'] ++ printParams ps = '"' :: (b ++ '"' :: printParams ps) := by simp
      rw [if_neg hne, matchValue, happ, dropWhile_space (by decide)]
      simp [hq]
  have hsemi : isSpace ';' = false := by decide
  have heq : isSpace '=' = false := by decide
  unfold matchExtension
  rw [cons_append, dropWhile_space hsemi]
  simp only [hkey, htake, hdrop, if_neg hk, dropWhile_space heq, hvalue]
  by_cases hv0 : v = []
  · subst hv0; simp
  · simp [hv0]

/-- **What is printed is found again.** -/
theorem findall_print {ps : List (Str × Str)} (h : ∀ p ∈ ps, IsParam p) {n : Nat}
    (hn : (printParams ps).length ≤ n) : findall n (printParams ps) = ps := by
  induction ps generalizing n with
  | nil => cases n <;> rfl
  | cons p ps ih =>
    have hp := h p mem_cons_self
    have hps := fun {n : Nat} => @ih (fun q hq => h q (mem_cons_of_mem _ hq)) n
    have happ : printParams (p :: ps) = ';' :: p.1 ++ '=' :: (p.2 ++ printParams ps) := by
      simp [printParams]
    have hlen : (printParams (p :: ps)).length = p.1.length + p.2.length + (printParams ps).length + 2 := by
      rw [happ]
      simp only [cons_append, length_cons, length_append]
      omega
    obtain ⟨m, rfl⟩ : ∃ m, n = m + 2 := ⟨n - 2, by omega⟩
    have hm := matchExtension_print hp ps
    rw [happ]
    rw [cons_append] at hm ⊢
    rw [findall, hm]
    dsimp only
    by_cases hv : p.2 = []
    · rw [if_pos hv, findall]
      have heq : matchExtension ('=' :: printParams ps) = none := by
        rw [matchExtension, dropWhile_space (by decide)]
        rfl
      rw [heq, hps (by omega)]
    · rw [if_neg hv, hps (by omega)]

/-- **Printing what was parsed, and parsing it again.** -/
theorem parseContentType_print {t : Str} (ht : ';' ∉ t) (ps : List (Str × Str))
    (h : ∀ p ∈ ps, IsParam p) : parseContentType (t ++ printParams ps) = (t, ps) := by
  rw [parseContentType]
  cases ps with
  | nil =>
    rw [printParams, flatMap_nil, append_nil, splitFirst_of_notMem ht]
  | cons p ps =>
    have happ : printParams (p :: ps) = ';' :: (p.1 ++ '=' :: p.2 ++ printParams ps) := by
      simp [printParams]
    rw [happ, splitFirst_append ht]
    dsimp only
    rw [← happ, findall_print h (by rw [happ]; rfl)]
    refine congrArg (Prod.mk t) ?_
    exact (map_congr_left fun q hq => (h q hq).strip).trans (List.map_id _)

/-- What is parsed: a type without a semicolon, and parameters. -/
theorem parseContentType_spec (s : Str) :
    ';' ∉ (parseContentType s).1 ∧ ∀ p ∈ (parseContentType s).2, IsParam p := by
  have hhead : ';' ∉ (splitFirst ';' s).1 := by
    rw [splitFirst, span_eq_takeWhile_dropWhile]
    have htake : ';' ∉ s.takeWhile (fun c => decide (c ≠ ';')) := fun h => by
      have := mem_takeWhile_imp h
      simp at this
    split
    · next he => exact (Prod.mk.inj he).1 ▸ htake
    · next he => exact (Prod.mk.inj he).1 ▸ htake
  rw [parseContentType]
  split
  · next t he => exact ⟨by rw [he] at hhead; exact hhead, fun p hp => by cases hp⟩
  · next t parms he =>
    rw [he] at hhead
    refine ⟨hhead, fun p hp => ?_⟩
    obtain ⟨m, hm, rfl⟩ := List.mem_map.mp hp
    have := isParam_findall hm
    rwa [this.strip]

/-! ## 3. Sizes in a content type -/

/-- `int(s)`: a sign and digits, with blanks around them; `none` is the `ValueError`. -/
def pyInt (s : Str) : Option Int :=
  match strip s with
  | '-' :: r => (readNat 10 r).map fun n => -(n : Int)
  | '+' :: r => (readNat 10 r).map fun n => (n : Int)
  | r => (readNat 10 r).map fun n => (n : Int)

/-- A character that is printed for a number is no blank. -/
theorem not_isSpace_of_code {c : Char} (h : 48 ≤ c.toNat ∧ c.toNat ≤ 57) : isSpace c = false := by
  rw [isSpace, Bool.or_eq_false_iff, Bool.and_eq_false_iff, decide_eq_false_iff_not,
    decide_eq_false_iff_not, decide_eq_false_iff_not]
  exact ⟨fun e => by subst e; exact absurd h (by decide), Or.inr (by omega)⟩

theorem strip_toDigits (n : Nat) : strip (Nat.toDigits 10 n) = Nat.toDigits 10 n :=
  strip_eq_self (fun _ hc => not_isSpace_of_code (toNat_of_mem_toDigits (mem_of_mem_head? hc)))
    fun _ hc => not_isSpace_of_code (toNat_of_mem_toDigits (mem_of_getLast? hc))

/-- A printed number is read back. -/
theorem pyInt_toDigits (n : Nat) : pyInt (Nat.toDigits 10 n) = some (n : Int) := by
  have hcode : ∀ c ∈ Nat.toDigits 10 n, 48 ≤ c.toNat ∧ c.toNat ≤ 57 := fun c => toNat_of_mem_toDigits
  rw [pyInt, strip_toDigits]
  split
  · next r he => exact absurd (hcode '-' (he ▸ mem_cons_self)) (by decide)
  · next r he => exact absurd (hcode '+' (he ▸ mem_cons_self)) (by decide)
  · rw [readNat_toDigits (by norm_num) (by norm_num)]
    rfl

/-- The parameter's name. -/
def SWIFT_BYTES : Str := "swift_bytes".toList

/-- `override_bytes_from_content_type`: the content type without `swift_bytes`, and the
    size, which `swift_bytes` replaces. -/
def overrideBytes (contentType : Str) (bytes : Int) : Str × Int :=
  match parseContentType contentType with
  | (t, params) =>
    params.foldl (fun (acc : Str × Int) p =>
      if p.1 = SWIFT_BYTES then (acc.1, (pyInt p.2).getD acc.2)
      else (acc.1 ++ ';' :: p.1 ++ '=' :: p.2, acc.2)) (t, bytes)

theorem overrideBytes_fst (params : List (Str × Str)) (t : Str) (bytes : Int) :
    (params.foldl (fun (acc : Str × Int) p =>
      if p.1 = SWIFT_BYTES then (acc.1, (pyInt p.2).getD acc.2)
      else (acc.1 ++ ';' :: p.1 ++ '=' :: p.2, acc.2)) (t, bytes)).1 =
      t ++ printParams (params.filter fun p => p.1 ≠ SWIFT_BYTES) := by
  induction params generalizing t bytes with
  | nil => simp [printParams]
  | cons p ps ih =>
    rw [foldl_cons]
    by_cases hp : p.1 = SWIFT_BYTES
    · rw [if_pos hp, ih, filter_cons_of_neg (by simp [hp])]
    · rw [if_neg hp, ih, filter_cons_of_pos (by simp [hp])]
      simp [printParams]

/-- **Overriding twice is overriding once.** -/
theorem overrideBytes_overrideBytes (contentType : Str) (bytes : Int) :
    overrideBytes (overrideBytes contentType bytes).1 (overrideBytes contentType bytes).2 =
      overrideBytes contentType bytes := by
  obtain ⟨ht, hps⟩ := parseContentType_spec contentType
  set t := (parseContentType contentType).1
  set others := (parseContentType contentType).2.filter fun p => p.1 ≠ SWIFT_BYTES
  have hfst : (overrideBytes contentType bytes).1 = t ++ printParams others :=
    overrideBytes_fst (parseContentType contentType).2 t bytes
  have hparse := parseContentType_print ht others fun p hp => hps p (mem_filter.mp hp).1
  have hkeep : ∀ (l : List (Str × Str)), (∀ p ∈ l, p.1 ≠ SWIFT_BYTES) → ∀ acc : Str × Int,
      l.foldl (fun (acc : Str × Int) p =>
        if p.1 = SWIFT_BYTES then (acc.1, (pyInt p.2).getD acc.2)
        else (acc.1 ++ ';' :: p.1 ++ '=' :: p.2, acc.2)) acc = (acc.1 ++ printParams l, acc.2) := by
    intro l
    induction l with
    | nil => intro _ acc; simp [printParams]
    | cons p l ih =>
      intro hl acc
      rw [foldl_cons, if_neg (hl p mem_cons_self), ih fun q hq => hl q (mem_cons_of_mem _ hq)]
      simp [printParams]
  have hothers : ∀ p ∈ others, p.1 ≠ SWIFT_BYTES := fun p hp =>
    of_decide_eq_true (mem_filter.mp hp).2
  have hagain : ∀ b, overrideBytes (t ++ printParams others) b = (t ++ printParams others, b) := by
    intro b
    rw [overrideBytes, hparse]
    exact hkeep others hothers (t, b)
  rw [hfst, hagain, ← hfst]

end Mitaka.Swift
