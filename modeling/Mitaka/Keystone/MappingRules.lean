/-
  Subject: keystone/federation/utils.py, `RuleProcessor` and `DirectMaps`, for locals that name
           groups.

  What passes a filter is put into a text and read again by `literal_eval`. A list is printed
  so that it is read as it was; a single value stands bare in the text, and when it is a
  literal itself then its items come out, which no filter has seen. **The groups are those
  that pass exactly when a single value is no literal** (`process_respects_iff`).

  A set of group ids is the list of what was added to it. Locals with a user or a single
  group are left out.
-/
import Mitaka.Lib.PyLiteral
import Mitaka.Lib.Dict

namespace Mitaka.Federation

open PyLiteral List

/-! ## 1. Rules -/

/-- A member of `remote`. -/
structure Requirement where
  type : Text
  anyOneOf : Option (List Text)
  notAnyOf : Option (List Text)
  regex : Bool
  blacklist : Option (List Text)
  whitelist : Option (List Text)

/-- A text with fields for direct maps. -/
inductive Piece
  | lit (s : Text)
  | field (idx : ℕ)

abbrev Template := List Piece

/-- A member of `local`. -/
structure Local where
  groups : Option Template
  domain : Option (Dict Text Template)
  groupIds : Option Template

structure Rule where
  remote : List Requirement
  locals : List Local

/-- A value of the assertion data. -/
inductive Datum
  | str (s : Text)
  | other

/-- A local with the direct maps in it. -/
structure IdentityValue where
  groups : Option Text
  domain : Option (Dict Text Text)
  groupIds : Option Text

/-- What is left of a mapping. -/
structure Mapped where
  groupIds : List Value
  groupNames : List (Value × Dict Text Text)

inductive Error
  | directMapping
  | validation
  | typeError
  /-- an error of `literal_eval` that is not caught -/
  | literal

inductive EvalType
  | anyOneOf
  | notAnyOf

section Processor

variable (search : Text → Text → Bool) (repr : Value → Text) (literalEval : Text → Except Failure Value)

/-- `_evaluate_values_by_regex`, for `re.search`. -/
def evaluateValuesByRegex (values assertionValues : List Text) : Bool :=
  values.any fun value => assertionValues.any (search value)

/-- `_evaluate_requirement`. -/
def evaluateRequirement (values assertionValues : List Text) (evalType : EvalType) (regex : Bool) : Bool :=
  let anyMatch :=
    if regex then evaluateValuesByRegex search values assertionValues else values.any fun value => value ∈ assertionValues
  match evalType with
  | .anyOneOf => anyMatch
  | .notAnyOf => !anyMatch

/-- `_verify_all_requirements`; none is a rule that does not apply. -/
def verifyAllRequirements : List Requirement → Dict Text (List Text) → Option (List (List Text))
  | [], _ => some []
  | requirement :: rest, assertion =>
    match assertion.get requirement.type with
    | none => none
    | some [] => none
    | some directMapValues =>
      match requirement.anyOneOf with
      | some anyOneValues =>
        if evaluateRequirement search anyOneValues directMapValues .anyOneOf requirement.regex then
          verifyAllRequirements rest assertion
        else none
      | none =>
        match requirement.notAnyOf with
        | some notAnyValues =>
          if evaluateRequirement search notAnyValues directMapValues .notAnyOf requirement.regex then
            verifyAllRequirements rest assertion
          else none
        | none =>
          let directMapValues := match requirement.blacklist, requirement.whitelist with
            | some blacklistedValues, _ => directMapValues.filter (· ∉ blacklistedValues)
            | none, some whitelistedValues => directMapValues.filter (· ∈ whitelistedValues)
            | none, none => directMapValues
          (verifyAllRequirements rest assertion).map (directMapValues :: ·)

/-- An item of `DirectMaps` in a text: one value is the value, others are printed as a list. -/
def render : List Text → Text
  | [value] => value
  | values => listText repr (values.map .text)

/-- `v.format(*direct_maps)`. -/
def format (directMaps : List (List Text)) : Template → Except Error Text
  | [] => .ok []
  | .lit s :: rest => (format directMaps rest).map (s ++ ·)
  | .field idx :: rest =>
    match directMaps[idx]? with
    | some values => (format directMaps rest).map (render repr values ++ ·)
    | none => .error .directMapping

/-- `_update_local_mapping` of an entry that may be missing. -/
def formatEntry (directMaps : List (List Text)) : Option Template → Except Error (Option Text)
  | none => .ok none
  | some v => (format repr directMaps v).map some

/-- `_update_local_mapping` of the dictionary of a domain. -/
def formatDict (directMaps : List (List Text)) : Dict Text Template → Except Error (Dict Text Text)
  | [] => .ok []
  | (k, v) :: rest => do
    let newValue ← format repr directMaps v
    let new ← formatDict directMaps rest
    return (k, newValue) :: new

/-- `_update_local_mapping`. -/
def updateLocalMapping (directMaps : List (List Text)) (l : Local) : Except Error IdentityValue := do
  let groups ← formatEntry repr directMaps l.groups
  let domain ← match l.domain with
    | none => .ok none
    | some domain => (formatDict repr directMaps domain).map some
  let groupIds ← formatEntry repr directMaps l.groupIds
  return ⟨groups, domain, groupIds⟩

/-- `literal_eval` of an entry, or the entry itself; the value is iterated over. -/
def readGroups (entry : Text) : Except Error (List Value) :=
  match literalEval entry with
  | .ok value =>
    match value.iterate with
    | some items => .ok items
    | none => .error .typeError
  | .error .malformed => .ok [.text entry]
  | .error .other => .error .literal

/-- The items for the set of ids: an element of a set has a hash. -/
def readIds (entry : Text) : Except Error (List Value) := do
  let items ← readGroups literalEval entry
  if items.all Value.hashable then .ok items else .error .typeError

/-- One value in the loop of `_transform`. -/
def transformValue (mapped : Mapped) (identityValue : IdentityValue) : Except Error Mapped := do
  let groupNames ← match identityValue.groups, identityValue.domain with
    | none, _ => .ok []
    | some _, none => .error .validation
    | some groups, some domain => (readGroups literalEval groups).map fun names => names.map fun name => (name, domain)
  let groupIds ← match identityValue.groupIds with
    | none => .ok []
    | some groupIds => readIds literalEval groupIds
  return ⟨mapped.groupIds ++ groupIds, mapped.groupNames ++ groupNames⟩

/-- `_transform`. -/
def transform (identityValues : List IdentityValue) : Except Error Mapped :=
  if identityValues = [] then .error .validation else identityValues.foldlM (transformValue literalEval) ⟨[], []⟩

/-- The loop of `process` over the rules. -/
def identityValues : List Rule → Dict Text (List Text) → Except Error (List IdentityValue)
  | [], _ => .ok []
  | rule :: rest, assertion =>
    match verifyAllRequirements search rule.remote assertion with
    | none => identityValues rest assertion
    | some directMaps => do
      let new ← rule.locals.mapM (updateLocalMapping repr directMaps)
      let others ← identityValues rest assertion
      return new ++ others

/-- The assertion: the values of each text. -/
def assertionOf (assertionData : Dict Text Datum) : Dict Text (List Text) :=
  assertionData.filterMap fun x =>
    match x.2 with
    | .str v => some (x.1, v.splitOn ';')
    | .other => none

/-- `RuleProcessor.process`. -/
def process (rules : List Rule) (assertionData : Dict Text Datum) : Except Error Mapped := do
  let values ← identityValues search repr rules (assertionOf assertionData)
  transform literalEval values

end Processor

/-! ## 2. Rules that filter -/

/-- The filter of a requirement. -/
inductive Filter
  | none
  | whitelist (values : List Text)
  | blacklist (values : List Text)

def Filter.passes : Filter → Text → Bool
  | .none, _ => true
  | .whitelist values, v => v ∈ values
  | .blacklist values, v => v ∉ values

/-- What the values are for. -/
inductive Target
  /-- `{groups: '{0}', domain: d}` -/
  | groups (domain : Dict Text Text)
  /-- `{group_ids: '{0}'}` -/
  | groupIds

structure FilterRule where
  type : Text
  filter : Filter
  target : Target

namespace FilterRule

def requirement (r : FilterRule) : Requirement where
  type := r.type
  anyOneOf := none
  notAnyOf := none
  regex := false
  blacklist := match r.filter with
    | .blacklist values => some values
    | _ => none
  whitelist := match r.filter with
    | .whitelist values => some values
    | _ => none

def entry (r : FilterRule) : Local :=
  match r.target with
  | .groups domain => ⟨some [.field 0], some (domain.map fun x => (x.1, [.lit x.2])), none⟩
  | .groupIds => ⟨none, none, some [.field 0]⟩

/-- The rule with one requirement and one local. -/
def rule (r : FilterRule) : Rule := ⟨[r.requirement], [r.entry]⟩

variable (assertionData : Dict Text Datum)

/-- The values of the attribute. -/
def values (r : FilterRule) : Option (List Text) := (assertionOf assertionData).get r.type

/-- The values that pass the filter. -/
def passing (r : FilterRule) : List Text := ((r.values assertionData).getD []).filter r.filter.passes

def names (r : FilterRule) : List (Value × Dict Text Text) :=
  match r.target with
  | .groups domain => (r.passing assertionData).map fun v => (.text v, domain)
  | .groupIds => []

def ids (r : FilterRule) : List Value :=
  match r.target with
  | .groups _ => []
  | .groupIds => (r.passing assertionData).map .text

/-- **The groups are those that pass**: the names in their order, the ids as a set. Rules none of which applies are
refused. -/
def Respected (rules : List FilterRule) (result : Except Error Mapped) : Prop :=
  if ∀ r ∈ rules, r.values assertionData = none then result = .error .validation
  else ∃ mapped, result = .ok mapped ∧ mapped.groupNames = rules.flatMap (names assertionData) ∧
    ∀ x, x ∈ mapped.groupIds ↔ x ∈ rules.flatMap (ids assertionData)

/-- A single value that passes is no literal. -/
def Plain (literalEval : Text → Except Failure Value) (r : FilterRule) : Prop :=
  ∀ v, r.passing assertionData = [v] → literalEval v = .error .malformed

end FilterRule

/-! ## 3. What a rule gives -/

section Spec

variable {search : Text → Text → Bool} {repr : Value → Text} {literalEval : Text → Except Failure Value}
  {scalars : Text → Prop} {assertionData : Dict Text Datum}

theorem assertionOf_ne_nil {type : Text} {vs : List Text} (h : (assertionOf assertionData).get type = some vs) : vs ≠ [] := by
  have hmem := Dict.mem_of_get h
  rw [assertionOf, mem_filterMap] at hmem
  obtain ⟨x, -, hx⟩ := hmem
  split at hx
  case h_1 v _ =>
    obtain rfl := (Prod.mk.inj (Option.some.inj hx)).2
    exact splitOn_ne_nil ';' v
  case h_2 => cases hx

/-- A rule applies when the attribute is there, with what passes the filter as its one direct map. -/
theorem verifyAllRequirements_requirement (r : FilterRule) :
    verifyAllRequirements search r.rule.remote (assertionOf assertionData) =
      (r.values assertionData).map fun _ => [r.passing assertionData] := by
  rw [FilterRule.rule, verifyAllRequirements, FilterRule.passing, FilterRule.values, show r.requirement.type = r.type from rfl]
  cases hget : (assertionOf assertionData).get r.type with
  | none => rfl
  | some vs =>
    cases vs with
    | nil => exact absurd rfl (assertionOf_ne_nil hget)
    | cons v vs =>
      obtain ⟨type, filter, target⟩ := r
      cases filter with
      | none =>
        have hall : (v :: vs).filter Filter.none.passes = v :: vs := filter_eq_self.mpr fun _ _ => rfl
        show some [v :: vs] = some [(v :: vs).filter Filter.none.passes]
        rw [hall]
      | whitelist values => rfl
      | blacklist values => rfl

/-- What stands in the local of a rule. -/
def FilterRule.identityValue (repr : Value → Text) (assertionData : Dict Text Datum) (r : FilterRule) : IdentityValue :=
  match r.target with
  | .groups domain => ⟨some (render repr (r.passing assertionData)), some domain, none⟩
  | .groupIds => ⟨none, none, some (render repr (r.passing assertionData))⟩

theorem formatEntry_field (vs : List Text) : formatEntry repr [vs] (some [.field 0]) = .ok (some (render repr vs)) := by
  show Except.ok (some (render repr vs ++ [])) = _
  rw [append_nil]

theorem formatDict_lit (directMaps : List (List Text)) (domain : Dict Text Text) :
    formatDict repr directMaps (domain.map fun x => (x.1, [.lit x.2])) = .ok domain := by
  induction domain with
  | nil => rfl
  | cons x domain ih =>
    have hlit : format repr directMaps [.lit x.2] = .ok x.2 := by
      show Except.ok (x.2 ++ []) = _
      rw [append_nil]
    rw [map_cons, formatDict, hlit, ih]
    rfl

theorem updateLocalMapping_entry (r : FilterRule) :
    updateLocalMapping repr [r.passing assertionData] r.entry = .ok (r.identityValue repr assertionData) := by
  unfold updateLocalMapping FilterRule.entry FilterRule.identityValue
  cases r.target with
  | groups domain =>
    dsimp only
    rw [formatEntry_field, formatDict_lit]
    rfl
  | groupIds =>
    dsimp only
    rw [formatEntry_field]
    rfl

/-- The rules that apply, each with its local. -/
theorem identityValues_rules (rules : List FilterRule) :
    identityValues search repr (rules.map FilterRule.rule) (assertionOf assertionData) =
      .ok ((rules.filter fun r => (r.values assertionData).isSome).map (FilterRule.identityValue repr assertionData)) := by
  induction rules with
  | nil => rfl
  | cons r rules ih =>
    rw [map_cons, identityValues, verifyAllRequirements_requirement]
    cases hvalues : r.values assertionData with
    | none =>
      rw [Option.map_none, ih, filter_cons_of_neg (by rw [hvalues]; decide)]
    | some vs =>
      have hlocals : r.rule.locals.mapM (updateLocalMapping repr [r.passing assertionData]) =
          .ok [r.identityValue repr assertionData] := by
        rw [show r.rule.locals = [r.entry] from rfl, mapM_cons, updateLocalMapping_entry]
        rfl
      rw [Option.map_some, filter_cons_of_pos (by rw [hvalues]; rfl), map_cons]
      dsimp only
      rw [hlocals, ih]
      rfl

/-- What passes comes back, when it is read as it was printed. -/
theorem readGroups_render (h : Reads scalars repr literalEval) {vs : List Text}
    (hplain : ∀ v, vs = [v] → literalEval v = .error .malformed) :
    readGroups literalEval (render repr vs) = .ok (vs.map .text) := by
  by_cases hone : ∃ v, vs = [v]
  · obtain ⟨v, rfl⟩ := hone
    rw [render, readGroups, hplain v rfl]
    rfl
  · have hrender : render repr vs = listText repr (vs.map .text) := by
      unfold render
      split
      case h_1 v => exact absurd ⟨v, rfl⟩ hone
      case h_2 => rfl
    rw [hrender, readGroups, h.list]
    · rfl
    · intro v hv
      obtain ⟨s, -, rfl⟩ := List.mem_map.mp hv
      exact ⟨trivial, nofun⟩

theorem all_hashable (vs : List Text) : (vs.map Value.text).all Value.hashable = true := by
  rw [List.all_map, List.all_eq_true]
  exact fun v _ => rfl

theorem readIds_render (h : Reads scalars repr literalEval) {vs : List Text}
    (hplain : ∀ v, vs = [v] → literalEval v = .error .malformed) : readIds literalEval (render repr vs) = .ok (vs.map .text) := by
  rw [readIds, readGroups_render h hplain]
  exact if_pos (all_hashable vs)

theorem transformValue_plain (h : Reads scalars repr literalEval) {r : FilterRule}
    (hplain : r.Plain assertionData literalEval) (mapped : Mapped) :
    transformValue literalEval mapped (r.identityValue repr assertionData) =
      .ok ⟨mapped.groupIds ++ r.ids assertionData, mapped.groupNames ++ r.names assertionData⟩ := by
  have hread := readGroups_render h hplain
  have hids := readIds_render h hplain
  unfold transformValue FilterRule.identityValue FilterRule.ids FilterRule.names
  cases r.target with
  | groups domain =>
    dsimp only
    rw [hread]
    have hmap : ((r.passing assertionData).map Value.text).map (fun name => (name, domain)) =
        (r.passing assertionData).map fun v => (Value.text v, domain) := List.map_map
    show Except.ok (Mapped.mk _ (mapped.groupNames ++ ((r.passing assertionData).map Value.text).map fun name => (name, domain))) = _
    rw [hmap]
  | groupIds =>
    dsimp only
    rw [hids]
    rfl

theorem foldlM_plain (h : Reads scalars repr literalEval) (rules : List FilterRule)
    (hplain : ∀ r ∈ rules, r.Plain assertionData literalEval) (mapped : Mapped) :
    (rules.map (FilterRule.identityValue repr assertionData)).foldlM (transformValue literalEval) mapped =
      .ok ⟨mapped.groupIds ++ rules.flatMap (FilterRule.ids assertionData),
        mapped.groupNames ++ rules.flatMap (FilterRule.names assertionData)⟩ := by
  induction rules generalizing mapped with
  | nil =>
    rw [flatMap_nil, flatMap_nil, append_nil, append_nil]
    rfl
  | cons r rules ih =>
    rw [map_cons, foldlM_cons, transformValue_plain h (hplain r mem_cons_self)]
    show List.foldlM (transformValue literalEval) _ _ = _
    rw [ih (fun r' hr' => hplain r' (mem_cons_of_mem _ hr')), flatMap_cons, flatMap_cons, append_assoc,
      append_assoc]

/-- The entry of a rule is read before anything comes of it. -/
theorem transformValue_single {r : FilterRule} {v : Text} (hpassing : r.passing assertionData = [v]) {mapped : Mapped}
    (h : transformValue literalEval ⟨[], []⟩ (r.identityValue repr assertionData) = .ok mapped) :
    ∃ items, readGroups literalEval v = .ok items ∧
      ∀ x, x ∈ items ↔ x ∈ mapped.groupIds ∨ x ∈ mapped.groupNames.map Prod.fst := by
  unfold transformValue FilterRule.identityValue at h
  cases htarget : r.target with
  | groups domain =>
    rw [htarget] at h
    dsimp only at h
    rw [hpassing, render] at h
    cases hread : readGroups literalEval v with
    | error e =>
      rw [hread] at h
      cases h
    | ok items =>
      rw [hread] at h
      obtain rfl := Except.ok.inj h
      refine ⟨items, rfl, fun x => ?_⟩
      show _ ↔ x ∈ [] ∨ x ∈ (items.map fun name => (name, domain)).map Prod.fst
      rw [List.map_map, show (Prod.fst ∘ fun name : Value => (name, domain)) = id from rfl, List.map_id]
      exact ⟨Or.inr, fun h => h.elim nofun id⟩
  | groupIds =>
    rw [htarget] at h
    dsimp only at h
    rw [hpassing, render, readIds] at h
    cases hread : readGroups literalEval v with
    | error e =>
      rw [hread] at h
      cases h
    | ok items =>
      rw [hread] at h
      by_cases hall : items.all Value.hashable = true
      · have h : (Except.ok ⟨[] ++ items, [] ++ []⟩ : Except Error Mapped) = .ok mapped := by
          rw [← h]
          show _ = (((if items.all Value.hashable then .ok items else .error .typeError : Except Error (List Value)).bind
            fun groupIds => .ok ⟨[] ++ groupIds, [] ++ []⟩) : Except Error Mapped)
          rw [if_pos hall]
          rfl
        obtain rfl := Except.ok.inj h
        exact ⟨items, rfl, fun x => ⟨Or.inl, fun h => h.elim id nofun⟩⟩
      · exfalso
        have h : (Except.error .typeError : Except Error Mapped) = .ok mapped := by
          rw [← h]
          show _ = (((if items.all Value.hashable then .ok items else .error .typeError : Except Error (List Value)).bind
            fun groupIds => .ok ⟨[] ++ groupIds, [] ++ []⟩) : Except Error Mapped)
          rw [if_neg hall]
          rfl
        cases h

theorem process_rules (rules : List FilterRule) :
    process search repr literalEval (rules.map FilterRule.rule) assertionData =
      transform literalEval ((rules.filter fun r => (r.values assertionData).isSome).map
        (FilterRule.identityValue repr assertionData)) := by
  rw [process, identityValues_rules]
  rfl

/-- A rule that does not apply gives nothing. -/
theorem FilterRule.passing_nil {r : FilterRule} (h : r.values assertionData = none) : r.passing assertionData = [] := by
  rw [FilterRule.passing, h]
  rfl

theorem flatMap_filter {α : Type} (f : FilterRule → List α) (hf : ∀ r : FilterRule, r.values assertionData = none → f r = [])
    (rules : List FilterRule) : (rules.filter fun r => (r.values assertionData).isSome).flatMap f = rules.flatMap f := by
  induction rules with
  | nil => rfl
  | cons r rules ih =>
    rw [flatMap_cons, ← ih]
    cases hvalues : r.values assertionData with
    | none => rw [filter_cons_of_neg (by rw [hvalues]; decide), hf r hvalues, nil_append]
    | some vs => rw [filter_cons_of_pos (by rw [hvalues]; rfl), flatMap_cons]

/-- **A mapping whose rules read no literals gives what passes.** -/
theorem process_plain (h : Reads scalars repr literalEval) (rules : List FilterRule)
    (hplain : ∀ r ∈ rules, r.Plain assertionData literalEval) :
    FilterRule.Respected assertionData rules (process search repr literalEval (rules.map FilterRule.rule) assertionData) := by
  rw [process_rules, FilterRule.Respected]
  by_cases hnone : ∀ r ∈ rules, r.values assertionData = none
  · have hnil : (rules.filter fun r => (r.values assertionData).isSome) = [] :=
      filter_eq_nil_iff.mpr fun r hr hsome => by
        rw [hnone r hr] at hsome
        cases hsome
    rw [if_pos hnone, hnil]
    rfl
  · have hne : (rules.filter fun r => (r.values assertionData).isSome) ≠ [] := fun hnil => hnone fun r hr => by
      have hnot := filter_eq_nil_iff.mp hnil r hr
      rwa [Option.not_isSome_iff_eq_none] at hnot
    have hnames : ∀ r : FilterRule, r.values assertionData = none → r.names assertionData = [] := fun r hr => by
      rw [FilterRule.names, FilterRule.passing_nil hr]
      cases r.target <;> rfl
    have hids : ∀ r : FilterRule, r.values assertionData = none → r.ids assertionData = [] := fun r hr => by
      rw [FilterRule.ids, FilterRule.passing_nil hr]
      cases r.target <;> rfl
    rw [if_neg hnone, transform, if_neg fun hnil => hne (map_eq_nil_iff.mp hnil),
      foldlM_plain h _ fun r hr => hplain r (mem_of_mem_filter hr), flatMap_filter _ hnames, flatMap_filter _ hids]
    exact ⟨_, rfl, rfl, fun x => Iff.rfl⟩

/-- **When a rule gives what passes its filter**, and then so does a mapping of such rules. -/
theorem process_respects_iff (search : Text → Text → Bool) (h : Reads scalars repr literalEval) (assertionData : Dict Text Datum) :
    (∀ r : FilterRule, FilterRule.Respected assertionData [r] (process search repr literalEval [r.rule] assertionData) ↔
        r.Plain assertionData literalEval) ∧
      ∀ rules : List FilterRule, (∀ r ∈ rules, r.Plain assertionData literalEval) →
        FilterRule.Respected assertionData rules (process search repr literalEval (rules.map FilterRule.rule) assertionData) := by
  refine ⟨fun r => ⟨fun hrespected v hpassing => ?_, fun hplain => ?_⟩, fun rules => process_plain h rules⟩
  · have happlies : (r.values assertionData).isSome = true := by
      cases hvalues : r.values assertionData with
      | none =>
        rw [FilterRule.passing_nil hvalues] at hpassing
        cases hpassing
      | some vs => rfl
    rw [FilterRule.Respected, if_neg fun hnone => by rw [hnone r mem_cons_self] at happlies; cases happlies] at hrespected
    obtain ⟨mapped, hmapped, hnames, hids⟩ := hrespected
    have hprocess : process search repr literalEval [r.rule] assertionData =
        transformValue literalEval ⟨[], []⟩ (r.identityValue repr assertionData) := by
      have hrules : process search repr literalEval [r.rule] assertionData = _ := process_rules [r]
      have hfilter : ([r].filter fun r => (r.values assertionData).isSome) = [r] :=
        filter_eq_self.mpr fun r' hr' => mem_singleton.mp hr' ▸ happlies
      rw [hrules, hfilter, map_singleton, transform,
        if_neg (cons_ne_nil _ _), foldlM_cons]
      exact bind_pure _
    rw [hprocess] at hmapped
    obtain ⟨items, hread, hitems⟩ := transformValue_single hpassing hmapped
    rw [flatMap_singleton] at hnames
    have hmem : Value.text v ∈ items := by
      rw [hitems, hids, hnames, flatMap_singleton, FilterRule.ids, FilterRule.names, hpassing]
      cases r.target with
      | groups domain => exact Or.inr mem_cons_self
      | groupIds => exact Or.inl mem_cons_self
    rw [readGroups] at hread
    cases heval : literalEval v with
    | ok value =>
      rw [heval] at hread
      dsimp only at hread
      cases hiterate : value.iterate with
      | none =>
        rw [hiterate] at hread
        cases hread
      | some items' =>
        rw [hiterate] at hread
        obtain rfl := Except.ok.inj hread
        exact absurd hmem (h.ne_iterate heval hiterate)
    | error e =>
      cases e with
      | malformed => rfl
      | other =>
        rw [heval] at hread
        cases hread
  · exact process_plain h [r] fun r' hr' => by
      obtain rfl := mem_singleton.mp hr'
      exact hplain

/-- A blacklist, and a value that is the text of a list. -/
def blacklistRule : FilterRule := ⟨"groups".toList, .blacklist ["admin".toList], .groups [("name".toList, "d".toList)]⟩

/-- Two values, with the reader of flat literals. -/
theorem process_respects_iff_blacklist :
    FilterRule.Respected [("groups".toList, .str "a;b".toList)] [blacklistRule]
        (process (fun _ _ => false) reprAtom readFlat [blacklistRule.rule] [("groups".toList, .str "a;b".toList)]) ↔
      blacklistRule.Plain [("groups".toList, .str "a;b".toList)] readFlat :=
  (process_respects_iff (fun _ _ => false) reads_flat [("groups".toList, .str "a;b".toList)]).1 blacklistRule

/-- The text of a list passes the blacklist and is the group that it excludes; none has no items. -/
theorem process_bypass :
    ¬ FilterRule.Respected [("groups".toList, .str "['admin']".toList)] [blacklistRule]
        (process (fun _ _ => false) reprAtom readFlat [blacklistRule.rule] [("groups".toList, .str "['admin']".toList)]) ∧
      process (fun _ _ => false) reprAtom readFlat [blacklistRule.rule] [("groups".toList, .str "None".toList)] =
        .error .typeError := by
  have hprocess : process (fun _ _ => false) reprAtom readFlat [blacklistRule.rule] [("groups".toList, .str "['admin']".toList)] =
      .ok ⟨[], [(.text "admin".toList, [("name".toList, "d".toList)])]⟩ := rfl
  refine ⟨fun h => ?_, rfl⟩
  rw [hprocess, FilterRule.Respected, if_neg ?_] at h
  · obtain ⟨mapped, hmapped, hnames, -⟩ := h
    obtain rfl := Except.ok.inj hmapped
    have hname := (Prod.mk.inj (List.cons.inj hnames).1).1
    exact absurd (Value.text.inj hname) (by decide)
  · have hvalues : blacklistRule.values [("groups".toList, .str "['admin']".toList)] = some ["['admin']".toList] := rfl
    intro hnone
    rw [hnone blacklistRule mem_cons_self] at hvalues
    cases hvalues

end Spec

end Mitaka.Federation
