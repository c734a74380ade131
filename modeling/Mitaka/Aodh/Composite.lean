/-
  Subject: aodh/evaluator/composite.py.

  A composite rule is a formula over threshold rules. It is parsed into a condition for the
  alarm and its dual for ok, whose leaves refer to rule targets by their number; a rule
  target is evaluated when a condition first asks for it. `outcome i rule` is what the
  evaluator of the i-th rule target answers. Texts and notifications are left out. None is
  an exception.

  The truth value of a condition is that of the answers of all its targets, whichever are
  asked (`truth_spec`), and the state is the one for the value of the rule
  (`evaluateAlarm_full`), except for an operator without operands
  (**`evaluateAlarm_kleene_iff`**).
-/
import Mitaka.Lib.Kleene

namespace Mitaka.Aodh

/-! ## 1. Rules and their evaluators -/

/-- The states of an alarm; `unknown` is insufficient data. -/
inductive AlarmState
  | ok
  | alarm
  | unknown
deriving Repr, DecidableEq

/-- What `evaluate_rule` returns of the state: one of its own, or a trend only. -/
inductive RuleOutcome
  | settled (state : AlarmState)
  | trending (trend : AlarmState)
deriving Repr, DecidableEq

namespace RuleOutcome

def state : RuleOutcome → Option AlarmState
  | .settled state => some state
  | .trending _ => none

def trendingState : RuleOutcome → Option AlarmState
  | .settled _ => none
  | .trending trend => some trend

end RuleOutcome

/-- `AlarmEvaluation` and `OkEvaluation` of a rule target. -/
inductive RuleEvaluation
  | alarm (target : ℕ)
  | ok (target : ℕ)
deriving Repr, DecidableEq

/-- `AndOp` is `all` and `OrOp` is `any`. -/
abbrev Condition := Formula RuleEvaluation

/-- A composite rule: `and` is `all` and `or` is `any`. -/
abbrev CompositeRule (ρ : Type) := Formula ρ

/-- An alarm, with the answer of `within_time_constraint`. -/
structure Alarm (ρ : Type) where
  state : AlarmState
  repeatActions : Bool
  withinTimeConstraint : Bool
  rule : CompositeRule ρ

/-- `RuleTarget`. -/
structure RuleTarget (ρ : Type) where
  rule : ρ
  state : Option AlarmState
  trendingState : Option AlarmState
  evaluated : Bool

/-- The rule targets of an evaluation, and which of them were asked, in that order. -/
structure Evaluation (ρ : Type) where
  ruleTargets : List (RuleTarget ρ)
  asked : List ℕ

variable {ρ : Type}

mutual

/-- `_parse_composite_rule`: the conditions for alarm and ok, and the rules of the targets. -/
def parseCompositeRule : CompositeRule ρ → List ρ → Option ((Condition × Condition) × List ρ)
  | .atom rule, rules => some ((.atom (.alarm rules.length), .atom (.ok rules.length)), rules ++ [rule])
  | .all operands, rules => (parseOperands operands rules).bind fun r =>
    -- nothing to unpack
    if r.1.isEmpty then none else some ((.all (r.1.map Prod.fst), .any (r.1.map Prod.snd)), r.2)
  | .any operands, rules => (parseOperands operands rules).bind fun r =>
    if r.1.isEmpty then none else some ((.any (r.1.map Prod.fst), .all (r.1.map Prod.snd)), r.2)

def parseOperands : List (CompositeRule ρ) → List ρ → Option (List (Condition × Condition) × List ρ)
  | [], rules => some ([], rules)
  | operand :: operands, rules => (parseCompositeRule operand rules).bind fun r =>
    (parseOperands operands r.2).map fun r' => (r.1 :: r'.1, r'.2)

end

namespace Evaluation

variable (outcome : ℕ → ρ → RuleOutcome)

/-- A target that was not evaluated. -/
def fresh (rule : ρ) : RuleTarget ρ := ⟨rule, none, none, false⟩

def start (rules : List ρ) : Evaluation ρ := ⟨rules.map fresh, []⟩

/-- A target that was evaluated. -/
def done (i : ℕ) (rule : ρ) : RuleTarget ρ := ⟨rule, (outcome i rule).state, (outcome i rule).trendingState, true⟩

/-- `RuleTarget.evaluate` of a target. -/
def evaluate (w : Evaluation ρ) (i : ℕ) : Evaluation ρ :=
  match w.ruleTargets[i]? with
  | some target =>
    if target.evaluated then w else ⟨w.ruleTargets.set i (done outcome i target.rule), w.asked ++ [i]⟩
  | none => w

/-- `for rule in self.rule_targets: rule.evaluate()`. -/
def evaluateAll (w : Evaluation ρ) : Evaluation ρ := (List.range w.ruleTargets.length).foldl (evaluate outcome) w

def stateOf (w : Evaluation ρ) (i : ℕ) : Option AlarmState := w.ruleTargets[i]?.bind RuleTarget.state

/-- The truth value of a leaf. -/
def test (w : Evaluation ρ) : RuleEvaluation → Bool × Evaluation ρ
  | .alarm i => (decide ((w.evaluate outcome i).stateOf i = some .alarm), w.evaluate outcome i)
  | .ok i => (decide ((w.evaluate outcome i).stateOf i = some .ok), w.evaluate outcome i)

mutual

/-- The truth value of a condition; `all` and `any` stop at the first operand that decides. -/
def truth : Condition → Evaluation ρ → Bool × Evaluation ρ
  | .atom leaf, w => w.test outcome leaf
  | .all conditions, w => truthAll conditions w
  | .any conditions, w => truthAny conditions w

def truthAll : List Condition → Evaluation ρ → Bool × Evaluation ρ
  | [], w => (true, w)
  | condition :: conditions, w =>
    let r := truth condition w
    if r.1 then truthAll conditions r.2 else (false, r.2)

def truthAny : List Condition → Evaluation ρ → Bool × Evaluation ρ
  | [], w => (false, w)
  | condition :: conditions, w =>
    let r := truth condition w
    if r.1 then (true, r.2) else truthAny conditions r.2

end

/-- The states that are taken from trends. -/
def followTrends (alarm : Alarm ρ) (w : Evaluation ρ) : Evaluation ρ :=
  let unknown := decide (alarm.state = .unknown)
  if unknown || alarm.repeatActions then
    { w with ruleTargets := w.ruleTargets.map fun target =>
        match target.trendingState with
        | some trend => { target with state := some (if unknown then trend else alarm.state) }
        | none => target }
  else w

/-- `_evaluate_sufficient`: the state that the alarm gets, if it gets one. -/
def evaluateSufficient (alarm : Alarm ρ) (conditions : Condition × Condition) (w : Evaluation ρ) :
    Option AlarmState × Evaluation ρ :=
  let r := truth outcome conditions.1 (followTrends alarm w)
  if r.1 then (some .alarm, r.2)
  else
    let r' := truth outcome conditions.2 r.2
    if r'.1 then (some .ok, r'.2) else (none, r'.2)

/-- `evaluate`: the state of the alarm afterwards, and the evaluation. -/
def evaluateAlarm (alarm : Alarm ρ) : Option (AlarmState × Evaluation ρ) :=
  if alarm.withinTimeConstraint = false then some (alarm.state, start [])
  else (parseCompositeRule alarm.rule []).map fun parsed =>
    match evaluateSufficient outcome alarm parsed.1 (start parsed.2) with
    | (some state, w) => (state, w)
    | (none, w) =>
      match evaluateSufficient outcome alarm parsed.1 (w.evaluateAll outcome) with
      | (some state, w) => (state, w)
      | (none, w) => (.unknown, w)

end Evaluation

/-! ## 2. The two conditions -/

open Formula

/-- The condition for the alarm, with the targets numbered from `k`. -/
def alarmCondition (k : ℕ) (f : CompositeRule ρ) : Condition := (f.number k).map .alarm

/-- The condition for ok. -/
def okCondition (k : ℕ) (f : CompositeRule ρ) : Condition := (f.number k).dual.map .ok

mutual

/-- **Parsing** numbers the rules from the left to the right, and fails on an operator without operands. -/
theorem parseCompositeRule_eq : ∀ (f : CompositeRule ρ) (rules : List ρ), parseCompositeRule f rules =
    if f.full then some ((alarmCondition rules.length f, okCondition rules.length f), rules ++ f.atoms) else none
  | .atom rule, rules => rfl
  | .all operands, rules => by
    rw [parseCompositeRule, parseOperands_eq operands rules]
    cases operands with
    | nil => rfl
    | cons f operands =>
      cases hfull : fullList (f :: operands) with
      | false => simp [full, hfull]
      | true =>
        simp [full, hfull, alarmCondition, okCondition, number, dual, map, mapList_eq_map, dualList_eq_map, numberList, atoms]
  | .any operands, rules => by
    rw [parseCompositeRule, parseOperands_eq operands rules]
    cases operands with
    | nil => rfl
    | cons f operands =>
      cases hfull : fullList (f :: operands) with
      | false => simp [full, hfull]
      | true =>
        simp [full, hfull, alarmCondition, okCondition, number, dual, map, mapList_eq_map, dualList_eq_map, numberList, atoms]

theorem parseOperands_eq : ∀ (fs : List (CompositeRule ρ)) (rules : List ρ), parseOperands fs rules =
    if fullList fs then
      some ((numberList rules.length fs).map fun n => (n.map .alarm, n.dual.map .ok), rules ++ atomsOf fs)
    else none
  | [], rules => by simp [parseOperands, fullList, numberList, atomsOf]
  | f :: fs, rules => by
    rw [parseOperands, parseCompositeRule_eq f rules]
    cases hfull : f.full with
    | false => simp [fullList, hfull]
    | true =>
      rw [if_pos rfl, Option.bind_some, parseOperands_eq fs]
      cases hfulls : fullList fs with
      | false => simp [fullList, hfull, hfulls]
      | true =>
        simp [fullList, hfull, hfulls, numberList, atomsOf, alarmCondition, okCondition, List.length_append]

end

/-- The leaf with what is known of the targets. -/
def RuleEvaluation.value (f : ℕ → Option AlarmState) : RuleEvaluation → Bool
  | .alarm i => decide (f i = some .alarm)
  | .ok i => decide (f i = some .ok)

/-- A state as a truth value: whether there is an alarm. -/
def AlarmState.kleene : AlarmState → Kleene
  | .ok => .no
  | .alarm => .yes
  | .unknown => .unknown

/-- What is known of a target. -/
def known : Option AlarmState → Kleene
  | some state => state.kleene
  | none => .unknown

theorem known_eq_yes {s : Option AlarmState} : known s = .yes ↔ s = some .alarm := by
  rcases s with _ | _ | _ | _ <;> simp [known, AlarmState.kleene]

theorem known_eq_no {s : Option AlarmState} : known s = .no ↔ s = some .ok := by
  rcases s with _ | _ | _ | _ <;> simp [known, AlarmState.kleene]

theorem alarmCondition_holds (k : ℕ) (r : CompositeRule ρ) (f : ℕ → Option AlarmState) :
    (alarmCondition k r).holds (RuleEvaluation.value f) = true ↔ (r.number k).eval (known ∘ f) = .yes := by
  rw [alarmCondition, holds_map, eval_eq_yes]
  simp only [Function.comp_def, RuleEvaluation.value, known_eq_yes]

theorem okCondition_holds (k : ℕ) (r : CompositeRule ρ) (f : ℕ → Option AlarmState) :
    (okCondition k r).holds (RuleEvaluation.value f) = true ↔ (r.number k).eval (known ∘ f) = .no := by
  rw [okCondition, holds_map, eval_eq_no]
  simp only [Function.comp_def, RuleEvaluation.value, known_eq_no]

/-! ## 3. Evaluation on demand -/

namespace Evaluation

section Truth

variable {outcome : ℕ → ρ → RuleOutcome} {w : Evaluation ρ}

/-- The state that a target has when it is asked. -/
def answer (outcome : ℕ → ρ → RuleOutcome) (w : Evaluation ρ) (i : ℕ) : Option AlarmState :=
  w.ruleTargets[i]?.bind fun target => if target.evaluated then target.state else (outcome i target.rule).state

/-- What asking a target does. -/
theorem evaluate_cases (outcome : ℕ → ρ → RuleOutcome) (w : Evaluation ρ) (i : ℕ) :
    (w.evaluate outcome i = w ∧ ∀ target, w.ruleTargets[i]? = some target → target.evaluated = true) ∨
      ∃ target, w.ruleTargets[i]? = some target ∧ target.evaluated = false ∧
        w.evaluate outcome i = ⟨w.ruleTargets.set i (done outcome i target.rule), w.asked ++ [i]⟩ := by
  unfold evaluate
  cases htarget : w.ruleTargets[i]? with
  | none => exact .inl ⟨rfl, nofun⟩
  | some target =>
    cases hevaluated : target.evaluated with
    | true => exact .inl ⟨by simp [hevaluated], fun _ h => by cases h; exact hevaluated⟩
    | false => exact .inr ⟨target, rfl, hevaluated, by simp [hevaluated]⟩

theorem answer_evaluate (i : ℕ) : (w.evaluate outcome i).answer outcome = w.answer outcome := by
  rcases evaluate_cases outcome w i with ⟨h, -⟩ | ⟨target, htarget, hevaluated, h⟩
  · rw [h]
  · rw [h]
    funext j
    unfold answer
    by_cases hij : i = j
    · subst hij
      have hi := List.getElem?_eq_some_iff.mp htarget
      rw [List.getElem?_set_self hi.1, htarget]
      simp [done, hevaluated]
    · rw [List.getElem?_set_ne hij]

theorem stateOf_evaluate (i : ℕ) : (w.evaluate outcome i).stateOf i = w.answer outcome i := by
  rcases evaluate_cases outcome w i with ⟨h, hall⟩ | ⟨target, htarget, hevaluated, h⟩
  · rw [h, stateOf, answer]
    cases htarget : w.ruleTargets[i]? with
    | none => rfl
    | some target => simp [hall target htarget]
  · rw [h, stateOf, answer]
    have hi := List.getElem?_eq_some_iff.mp htarget
    rw [List.getElem?_set_self hi.1, htarget]
    simp [done, hevaluated]

/-- Some targets are asked, one after the other. -/
def Asks (outcome : ℕ → ρ → RuleOutcome) (w w' : Evaluation ρ) : Prop := ∃ is : List ℕ, w' = is.foldl (evaluate outcome) w

theorem Asks.refl (w : Evaluation ρ) : Asks outcome w w := ⟨[], rfl⟩

theorem Asks.trans {w' w'' : Evaluation ρ} (h : Asks outcome w w') (h' : Asks outcome w' w'') : Asks outcome w w'' := by
  obtain ⟨is, rfl⟩ := h
  obtain ⟨js, rfl⟩ := h'
  exact ⟨is ++ js, (List.foldl_append ..).symm⟩

/-- **What asking one target keeps is kept.** -/
theorem Asks.invariant {w' : Evaluation ρ} {I : Evaluation ρ → Prop} (h : Asks outcome w w') (h0 : I w)
    (hstep : ∀ w i, I w → I (w.evaluate outcome i)) : I w' := by
  obtain ⟨is, rfl⟩ := h
  induction is generalizing w with
  | nil => exact h0
  | cons i is ih => exact ih (hstep w i h0)

theorem Asks.answer {w' : Evaluation ρ} (h : Asks outcome w w') : w'.answer outcome = w.answer outcome :=
  h.invariant (I := fun w' => w'.answer outcome = w.answer outcome) rfl fun _ i hw => (answer_evaluate i).trans hw

mutual

/-- **The truth value of a condition** is that of the answers of the targets, whichever were asked before. -/
theorem truth_spec (outcome : ℕ → ρ → RuleOutcome) : ∀ (c : Condition) (w : Evaluation ρ),
    (truth outcome c w).1 = c.holds (RuleEvaluation.value (w.answer outcome)) ∧ Asks outcome w (truth outcome c w).2
  | .atom (.alarm i), w => ⟨by simp [truth, test, holds, RuleEvaluation.value, stateOf_evaluate], [i], rfl⟩
  | .atom (.ok i), w => ⟨by simp [truth, test, holds, RuleEvaluation.value, stateOf_evaluate], [i], rfl⟩
  | .all conditions, w => truthAll_spec outcome conditions w
  | .any conditions, w => truthAny_spec outcome conditions w

theorem truthAll_spec (outcome : ℕ → ρ → RuleOutcome) : ∀ (cs : List Condition) (w : Evaluation ρ),
    (truthAll outcome cs w).1 = holdsAll (RuleEvaluation.value (w.answer outcome)) cs ∧
      Asks outcome w (truthAll outcome cs w).2
  | [], w => ⟨rfl, .refl w⟩
  | c :: cs, w => by
    obtain ⟨hvalue, hasks⟩ := truth_spec outcome c w
    rw [truthAll, holdsAll, ← hvalue]
    cases htrue : (truth outcome c w).1 with
    | false => exact ⟨rfl, hasks⟩
    | true =>
      obtain ⟨hvalues, hasks'⟩ := truthAll_spec outcome cs (truth outcome c w).2
      rw [hasks.answer] at hvalues
      exact ⟨hvalues, hasks.trans hasks'⟩

theorem truthAny_spec (outcome : ℕ → ρ → RuleOutcome) : ∀ (cs : List Condition) (w : Evaluation ρ),
    (truthAny outcome cs w).1 = holdsAny (RuleEvaluation.value (w.answer outcome)) cs ∧
      Asks outcome w (truthAny outcome cs w).2
  | [], w => ⟨rfl, .refl w⟩
  | c :: cs, w => by
    obtain ⟨hvalue, hasks⟩ := truth_spec outcome c w
    rw [truthAny, holdsAny, ← hvalue]
    cases htrue : (truth outcome c w).1 with
    | true => exact ⟨rfl, hasks⟩
    | false =>
      obtain ⟨hvalues, hasks'⟩ := truthAny_spec outcome cs (truth outcome c w).2
      rw [hasks.answer] at hvalues
      exact ⟨hvalues, hasks.trans hasks'⟩

end

end Truth

end Evaluation

/-! ## 4. An alarm -/

/-- What an outcome counts as, with the state and the flag of the alarm. -/
def RuleOutcome.counted (alarm : Alarm ρ) : RuleOutcome → Option AlarmState
  | .settled state => some state
  | .trending trend =>
    if alarm.state = .unknown then some trend else if alarm.repeatActions then some alarm.state else none

/-- The value of a composite rule, its leaves from the left to the right. -/
def kleeneValue (outcome : ℕ → ρ → RuleOutcome) (alarm : Alarm ρ) : Kleene :=
  (alarm.rule.number 0).eval fun i => known (alarm.rule.atoms[i]?.bind fun rule => (outcome i rule).counted alarm)

/-- The state for a value. -/
def stateFor : Kleene → AlarmState
  | .no => .ok
  | .yes => .alarm
  | .unknown => .unknown

/-- The state for a value that is known. -/
def sufficient : Kleene → Option AlarmState
  | .no => some .ok
  | .yes => some .alarm
  | .unknown => none

namespace Evaluation

section Alarm

variable {outcome : ℕ → ρ → RuleOutcome} {alarm : Alarm ρ} {rules : List ρ} {w : Evaluation ρ}

/-- Each target is as it was created or as it was evaluated. -/
def Standing (outcome : ℕ → ρ → RuleOutcome) (rules : List ρ) (w : Evaluation ρ) : Prop :=
  ∀ i : ℕ, w.ruleTargets[i]? = rules[i]?.map fresh ∨ w.ruleTargets[i]? = rules[i]?.map (done outcome i)

/-- No target was asked twice. -/
structure AskedOnce (w : Evaluation ρ) : Prop where
  nodup : w.asked.Nodup
  evaluated : ∀ i ∈ w.asked, ∃ target, w.ruleTargets[i]? = some target ∧ target.evaluated = true

/-- A target that is there was evaluated. -/
def IsEvaluated (w : Evaluation ρ) (i : ℕ) : Prop := ∀ target, w.ruleTargets[i]? = some target → target.evaluated = true

theorem standing_start (outcome : ℕ → ρ → RuleOutcome) (rules : List ρ) : Standing outcome rules (start rules) :=
  fun _ => .inl List.getElem?_map

theorem askedOnce_start (rules : List ρ) : AskedOnce (start rules) := ⟨List.nodup_nil, nofun⟩

theorem Standing.evaluate (h : Standing outcome rules w) (i : ℕ) : Standing outcome rules (w.evaluate outcome i) := by
  rcases evaluate_cases outcome w i with ⟨hw, -⟩ | ⟨target, htarget, hevaluated, hw⟩
  · rwa [hw]
  · rw [hw]
    intro j
    by_cases hij : i = j
    · subst hij
      refine .inr ?_
      have hi := List.getElem?_eq_some_iff.mp htarget
      obtain ⟨rule, hrule, rfl⟩ : ∃ rule, rules[i]? = some rule ∧ fresh rule = target := by
        rcases h i with hfresh | hdone
        · rw [htarget] at hfresh
          exact Option.map_eq_some_iff.mp hfresh.symm
        · rw [htarget] at hdone
          obtain ⟨rule, -, rfl⟩ := Option.map_eq_some_iff.mp hdone.symm
          cases hevaluated
      rw [List.getElem?_set_self hi.1, hrule]
      rfl
    · rw [List.getElem?_set_ne hij]
      exact h j

theorem AskedOnce.evaluate (h : AskedOnce w) (i : ℕ) : AskedOnce (w.evaluate outcome i) := by
  rcases evaluate_cases outcome w i with ⟨hw, -⟩ | ⟨target, htarget, hevaluated, hw⟩
  · rwa [hw]
  · rw [hw]
    have hi := List.getElem?_eq_some_iff.mp htarget
    have hnew : i ∉ w.asked := fun hmem => by
      obtain ⟨target', htarget', hevaluated'⟩ := h.evaluated i hmem
      rw [htarget] at htarget'
      cases htarget'
      rw [hevaluated] at hevaluated'
      cases hevaluated'
    refine ⟨List.nodup_append.mpr ⟨h.nodup, List.nodup_singleton i, fun j hj k hk => ?_⟩, fun j hj => ?_⟩
    · rw [List.mem_singleton.mp hk]
      exact fun hjk => hnew (hjk ▸ hj)
    · by_cases hij : i = j
      · subst hij
        exact ⟨_, List.getElem?_set_self hi.1, rfl⟩
      · rw [List.getElem?_set_ne hij]
        refine h.evaluated j ?_
        rcases List.mem_append.mp hj with hj | hj
        · exact hj
        · exact absurd (List.mem_singleton.mp hj).symm hij

theorem IsEvaluated.evaluate {j : ℕ} (h : w.IsEvaluated j) (i : ℕ) : (w.evaluate outcome i).IsEvaluated j := by
  rcases evaluate_cases outcome w i with ⟨hw, -⟩ | ⟨target, htarget, -, hw⟩
  · rwa [hw]
  · rw [hw]
    intro target' htarget'
    by_cases hij : i = j
    · subst hij
      rw [List.getElem?_set_self (List.getElem?_eq_some_iff.mp htarget).1] at htarget'
      cases htarget'
      rfl
    · rw [List.getElem?_set_ne hij] at htarget'
      exact h target' htarget'

theorem isEvaluated_evaluate (i : ℕ) : (w.evaluate outcome i).IsEvaluated i := by
  rcases evaluate_cases outcome w i with ⟨hw, hall⟩ | ⟨target, htarget, -, hw⟩
  · rw [hw]
    exact hall
  · rw [hw]
    intro target' htarget'
    rw [List.getElem?_set_self (List.getElem?_eq_some_iff.mp htarget).1] at htarget'
    cases htarget'
    rfl

theorem isEvaluated_foldl (outcome : ℕ → ρ → RuleOutcome) (w : Evaluation ρ) {is : List ℕ} {i : ℕ} (h : i ∈ is) : (is.foldl (evaluate outcome) w).IsEvaluated i := by
  induction is generalizing w with
  | nil => cases h
  | cons j is ih =>
    rcases List.mem_cons.mp h with rfl | h
    · exact Asks.invariant (I := fun w => w.IsEvaluated i) ⟨is, rfl⟩ (isEvaluated_evaluate i) fun w j hw => hw.evaluate j
    · exact ih _ h

theorem asks_evaluateAll : Asks outcome w (w.evaluateAll outcome) := ⟨_, rfl⟩

/-- **After the second pass has asked all targets** each is as it was evaluated. -/
theorem Standing.evaluateAll (h : Standing outcome rules w) (i : ℕ) :
    (w.evaluateAll outcome).ruleTargets[i]? = rules[i]?.map (done outcome i) := by
  have hstanding : Standing outcome rules (w.evaluateAll outcome) :=
    asks_evaluateAll.invariant h fun _ j hw => hw.evaluate j
  rcases hstanding i with hfresh | hdone
  · cases hrule : rules[i]? with
    | none => rw [hfresh, hrule]; rfl
    | some rule =>
      have hlen : i < w.ruleTargets.length := by
        by_contra hge
        rcases h i with h' | h' <;> rw [hrule, List.getElem?_eq_none (not_lt.mp hge)] at h' <;> cases h'
      have hevaluated := isEvaluated_foldl outcome w (List.mem_range.mpr hlen)
      rw [hrule] at hfresh
      exact absurd (hevaluated _ hfresh) (by simp [fresh])
  · exact hdone

theorem followTrends_start : followTrends alarm (start rules) = start rules := by
  unfold followTrends
  dsimp only
  by_cases hfollow : (decide (alarm.state = .unknown) || alarm.repeatActions) = true
  · rw [if_pos hfollow, start, List.map_map]
    rfl
  · rw [if_neg hfollow]

theorem AskedOnce.followTrends (h : AskedOnce w) : AskedOnce (followTrends alarm w) := by
  unfold Evaluation.followTrends
  dsimp only
  by_cases hfollow : (decide (alarm.state = .unknown) || alarm.repeatActions) = true
  · rw [if_pos hfollow]
    refine ⟨h.nodup, fun i hi => ?_⟩
    obtain ⟨target, htarget, hevaluated⟩ := h.evaluated i hi
    refine ⟨_, by rw [List.getElem?_map, htarget, Option.map_some], ?_⟩
    cases target.trendingState <;> exact hevaluated
  · rw [if_neg hfollow]
    exact h

/-- With the trends a target answers what its outcome counts as. -/
theorem answer_followTrends (h : ∀ i : ℕ, w.ruleTargets[i]? = rules[i]?.map (done outcome i)) :
    (followTrends alarm w).answer outcome = fun i => rules[i]?.bind fun rule => (outcome i rule).counted alarm := by
  funext i
  unfold answer followTrends
  by_cases hunknown : alarm.state = .unknown <;> cases hrepeat : alarm.repeatActions <;>
    simp only [hunknown, decide_true, decide_false, Bool.true_or, Bool.false_or, if_true, if_false, Bool.false_eq_true,
      List.getElem?_map, h] <;> cases rules[i]? with
    | none => rfl
    | some rule =>
      cases houtcome : outcome i rule <;>
        simp [done, houtcome, RuleOutcome.counted, RuleOutcome.state, RuleOutcome.trendingState, hunknown, hrepeat]

/-- **One pass**: it is sufficient when the value of the answers is known. -/
theorem evaluateSufficient_spec (outcome : ℕ → ρ → RuleOutcome) (alarm : Alarm ρ) (w : Evaluation ρ) :
    (evaluateSufficient outcome alarm (alarmCondition 0 alarm.rule, okCondition 0 alarm.rule) w).1 =
        sufficient ((alarm.rule.number 0).eval (known ∘ (followTrends alarm w).answer outcome)) ∧
      Asks outcome (followTrends alarm w)
        (evaluateSufficient outcome alarm (alarmCondition 0 alarm.rule, okCondition 0 alarm.rule) w).2 := by
  obtain ⟨halarm, hasks⟩ := truth_spec outcome (alarmCondition 0 alarm.rule) (followTrends alarm w)
  obtain ⟨hok, hasks'⟩ := truth_spec outcome (okCondition 0 alarm.rule)
    (truth outcome (alarmCondition 0 alarm.rule) (followTrends alarm w)).2
  rw [hasks.answer] at hok
  unfold evaluateSufficient
  dsimp only
  rw [halarm, hok]
  have hyes := alarmCondition_holds 0 alarm.rule ((followTrends alarm w).answer outcome)
  have hno := okCondition_holds 0 alarm.rule ((followTrends alarm w).answer outcome)
  cases hvalue : (alarm.rule.number 0).eval (known ∘ (followTrends alarm w).answer outcome) with
  | yes =>
    rw [if_pos (hyes.mpr hvalue)]
    exact ⟨rfl, hasks⟩
  | no =>
    rw [if_neg (hyes.not.mpr (by rw [hvalue]; nofun)), if_pos (hno.mpr hvalue)]
    exact ⟨rfl, hasks.trans hasks'⟩
  | unknown =>
    rw [if_neg (hyes.not.mpr (by rw [hvalue]; nofun)), if_neg (hno.not.mpr (by rw [hvalue]; nofun))]
    exact ⟨rfl, hasks.trans hasks'⟩

/-- The second pass, whichever targets were asked before. -/
theorem secondPass_spec (outcome : ℕ → ρ → RuleOutcome) (alarm : Alarm ρ) (is : List ℕ) :
    (evaluateSufficient outcome alarm (alarmCondition 0 alarm.rule, okCondition 0 alarm.rule)
      ((is.foldl (evaluate outcome) (start alarm.rule.atoms)).evaluateAll outcome)).1 =
        sufficient (kleeneValue outcome alarm) := by
  have hstanding : Standing outcome alarm.rule.atoms (is.foldl (evaluate outcome) (start alarm.rule.atoms)) :=
    Asks.invariant ⟨is, rfl⟩ (standing_start outcome _) fun _ j hw => hw.evaluate j
  rw [(evaluateSufficient_spec _ _ _).1, answer_followTrends hstanding.evaluateAll]
  rfl

/-- What the first pass knows is so. -/
theorem firstPass_below (outcome : ℕ → ρ → RuleOutcome) (alarm : Alarm ρ) : ((alarm.rule.number 0).eval (known ∘ (start alarm.rule.atoms).answer outcome)).Below
    (kleeneValue outcome alarm) := by
  refine eval_mono (fun i => ?_) _
  show (known ((start alarm.rule.atoms).ruleTargets[i]?.bind _)).Below _
  rw [start, List.getElem?_map]
  cases alarm.rule.atoms[i]? with
  | none => exact .unknown _
  | some rule =>
    show (known (outcome i rule).state).Below (known ((outcome i rule).counted alarm))
    cases outcome i rule with
    | settled state => exact .refl _
    | trending trend => exact .unknown _

theorem sufficient_eq_some {v : Kleene} {s : AlarmState} (h : sufficient v = some s) : stateFor v = s := by
  cases v <;> cases h <;> rfl

/-- **The alarm gets the state for the value of its rule.** -/
theorem evaluateAlarm_full (outcome : ℕ → ρ → RuleOutcome) (alarm : Alarm ρ) (hwithin : alarm.withinTimeConstraint = true) (hfull : alarm.rule.full = true) :
    ∃ w, evaluateAlarm outcome alarm = some (stateFor (kleeneValue outcome alarm), w) ∧ w.AskedOnce := by
  have hparsed : parseCompositeRule alarm.rule [] =
      some ((alarmCondition 0 alarm.rule, okCondition 0 alarm.rule), alarm.rule.atoms) := by
    rw [parseCompositeRule_eq, if_pos hfull]
    rfl
  obtain ⟨hfirst, hasks⟩ := evaluateSufficient_spec outcome alarm (start alarm.rule.atoms)
  rw [followTrends_start] at hfirst hasks
  unfold evaluateAlarm
  rw [if_neg (by rw [hwithin]; nofun), hparsed, Option.map_some]
  dsimp only
  generalize evaluateSufficient outcome alarm (alarmCondition 0 alarm.rule, okCondition 0 alarm.rule)
    (start alarm.rule.atoms) = first at hfirst hasks
  obtain ⟨_ | state, w⟩ := first
  · -- the second pass
    obtain ⟨is, rfl⟩ := hasks
    have hsecond := secondPass_spec outcome alarm is
    have honce : AskedOnce ((is.foldl (evaluate outcome) (start alarm.rule.atoms)).evaluateAll outcome) :=
      asks_evaluateAll.invariant (Asks.invariant ⟨is, rfl⟩ (askedOnce_start _) fun _ j hw => hw.evaluate j)
        fun _ j hw => hw.evaluate j
    have hasks := (evaluateSufficient_spec outcome alarm
      ((is.foldl (evaluate outcome) (start alarm.rule.atoms)).evaluateAll outcome)).2
    have hlast := hasks.invariant honce.followTrends fun _ j hw => hw.evaluate j
    dsimp only at hsecond hlast ⊢
    generalize evaluateSufficient outcome alarm (alarmCondition 0 alarm.rule, okCondition 0 alarm.rule)
      ((is.foldl (evaluate outcome) (start alarm.rule.atoms)).evaluateAll outcome) = second at hsecond hlast
    obtain ⟨_ | state, w⟩ := second
    · refine ⟨w, ?_, hlast⟩
      dsimp only at hsecond ⊢
      cases hvalue : kleeneValue outcome alarm with
      | unknown => rfl
      | yes => rw [hvalue] at hsecond; cases hsecond
      | no => rw [hvalue] at hsecond; cases hsecond
    · exact ⟨w, by rw [sufficient_eq_some hsecond.symm], hlast⟩
  · refine ⟨w, ?_, hasks.invariant (askedOnce_start _) fun _ j hw => hw.evaluate j⟩
    dsimp only at hfirst ⊢
    have hbelow := firstPass_below outcome alarm
    cases hvalue : (alarm.rule.number 0).eval (known ∘ (start alarm.rule.atoms).answer outcome) with
    | yes =>
      rw [hvalue] at hfirst
      cases hfirst
      rw [hbelow.1 hvalue]
      rfl
    | no =>
      rw [hvalue] at hfirst
      cases hfirst
      rw [hbelow.2 hvalue]
      rfl
    | unknown =>
      rw [hvalue] at hfirst
      cases hfirst

end Alarm

end Evaluation

/-! ## 5. What is asked of an evaluation -/

open Evaluation

/-- An alarm within its time constraint gets the state for the value of its rule, no rule is evaluated twice, the two
conditions are never both true, and what a second pass finds does not depend on what was asked before. -/
structure EvaluatesKleene (outcome : ℕ → ρ → RuleOutcome) (alarm : Alarm ρ) : Prop where
  result : ∃ w, evaluateAlarm outcome alarm =
      some (if alarm.withinTimeConstraint then stateFor (kleeneValue outcome alarm) else alarm.state, w) ∧ w.asked.Nodup
  exclusive : ∀ conditions rules, parseCompositeRule alarm.rule [] = some (conditions, rules) → ∀ w,
    ¬ ((truth outcome conditions.1 w).1 = true ∧ (truth outcome conditions.2 (truth outcome conditions.1 w).2).1 = true)
  passes : ∀ conditions rules, parseCompositeRule alarm.rule [] = some (conditions, rules) → ∀ is : List ℕ,
    (evaluateSufficient outcome alarm conditions
      ((is.foldl (evaluate outcome) (start rules)).evaluateAll outcome)).1 = sufficient (kleeneValue outcome alarm)

/-- The conditions of a rule that is parsed. -/
theorem conditions_of_parsed {rule : CompositeRule ρ} {conditions : Condition × Condition} {rules : List ρ}
    (h : parseCompositeRule rule [] = some (conditions, rules)) :
    conditions = (alarmCondition 0 rule, okCondition 0 rule) ∧ rules = rule.atoms := by
  rw [parseCompositeRule_eq] at h
  split_ifs at h
  cases h
  exact ⟨rfl, rfl⟩

/-- **When a composite alarm is evaluated as three-valued logic**: unless some `and` or `or` of its rule is empty, which
is not parsed. -/
theorem evaluateAlarm_kleene_iff (outcome : ℕ → ρ → RuleOutcome) (alarm : Alarm ρ) :
    EvaluatesKleene outcome alarm ↔ alarm.withinTimeConstraint = false ∨ alarm.rule.full = true := by
  constructor
  · intro h
    obtain ⟨w, hresult, -⟩ := h.result
    by_contra hnot
    rw [not_or, Bool.not_eq_false, Bool.not_eq_true] at hnot
    rw [evaluateAlarm, if_neg (by rw [hnot.1]; nofun), parseCompositeRule_eq, if_neg (by rw [hnot.2]; nofun)] at hresult
    cases hresult
  · intro h
    refine ⟨?_, fun conditions rules hparsed w hboth => ?_, fun conditions rules hparsed is => ?_⟩
    · cases hwithin : alarm.withinTimeConstraint with
      | false =>
        refine ⟨start [], ?_, List.nodup_nil⟩
        rw [evaluateAlarm, if_pos hwithin]
        rfl
      | true =>
        obtain ⟨w, hw, honce⟩ := evaluateAlarm_full outcome alarm hwithin (h.resolve_left (by rw [hwithin]; nofun))
        exact ⟨w, hw, honce.nodup⟩
    · obtain ⟨rfl, -⟩ := conditions_of_parsed hparsed
      obtain ⟨halarm, hasks⟩ := truth_spec outcome (alarmCondition 0 alarm.rule) w
      have hok := (truth_spec outcome (okCondition 0 alarm.rule)
        (truth outcome (alarmCondition 0 alarm.rule) w).2).1
      rw [hasks.answer] at hok
      rw [halarm, hok, alarmCondition_holds, okCondition_holds] at hboth
      exact Kleene.noConfusion (hboth.1.symm.trans hboth.2)
    · obtain ⟨rfl, rfl⟩ := conditions_of_parsed hparsed
      exact secondPass_spec outcome alarm is

/-- A rule or an empty `and`: nothing is evaluated. -/
theorem evaluateAlarm_empty_operator :
    evaluateAlarm (fun _ (_ : Unit) => .settled .ok) ⟨.ok, false, true, .any [.atom (), .all []]⟩ = none ∧
      kleeneValue (fun _ (_ : Unit) => .settled .ok) ⟨.ok, false, true, .any [.atom (), .all []]⟩ = .yes ∧
      ¬ EvaluatesKleene (fun _ (_ : Unit) => .settled .ok) ⟨.ok, false, true, .any [.atom (), .all []]⟩ := by
  have hnone : evaluateAlarm (fun _ (_ : Unit) => .settled .ok) ⟨.ok, false, true, .any [.atom (), .all []]⟩ = none := rfl
  refine ⟨hnone, rfl, fun h => ?_⟩
  obtain ⟨w, hresult, -⟩ := h.result
  rw [hnone] at hresult
  cases hresult

end Mitaka.Aodh
