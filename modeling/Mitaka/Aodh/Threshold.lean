/-
  Subject: aodh/evaluator/threshold.py, and composite rules of a single threshold rule.

  Values are of any type with the comparisons, so that nothing depends on their
  arithmetic. Which datapoints are excluded as weak is a matter of floating point numbers:
  `inlier statistics s` is the test of `anomalies` with the bounds of the list. Texts and
  notifications are left out.

  The two evaluators leave an alarm in the same state unless the window is mixed, the alarm
  is in a known state and it does not repeat its actions
  (**`composite_threshold_agree_iff`**).
-/
import Mitaka.Aodh.Composite

namespace Mitaka.Aodh

/-! ## 1. Rules -/

inductive ComparisonOperator
  | gt
  | lt
  | ge
  | le
  | eq
  | ne
deriving Repr, DecidableEq

inductive StatisticName
  | max
  | min
  | avg
  | sum
  | count
deriving Repr, DecidableEq

/-- A datapoint of the meter. -/
structure Statistic (V : Type) where
  max : V
  min : V
  avg : V
  sum : V
  count : V
deriving Repr, DecidableEq

/-- What is read of a threshold rule after the datapoints were retrieved. -/
structure ThresholdRule (V : Type) where
  comparisonOperator : ComparisonOperator
  threshold : V
  statistic : StatisticName
  evaluationPeriods : ℕ
  excludeOutliers : Bool
deriving Repr, DecidableEq

/-- An alarm of a threshold rule. -/
structure ThresholdAlarm (V : Type) where
  state : AlarmState
  repeatActions : Bool
  withinTimeConstraint : Bool
  rule : ThresholdRule V

section

variable {V : Type}

/-- `getattr(stat, name)`. -/
def Statistic.get (s : Statistic V) : StatisticName → V
  | .max => s.max
  | .min => s.min
  | .avg => s.avg
  | .sum => s.sum
  | .count => s.count

/-- `statistics[-n:]`. -/
def lastOf {α : Type} (n : ℕ) (l : List α) : List α := if n = 0 then l else l.drop (l.length - n)

variable [LT V] [LE V] [DecidableEq V] [DecidableLT V] [DecidableLE V]

/-- `COMPARATORS`. -/
def ComparisonOperator.apply (op : ComparisonOperator) (value limit : V) : Bool :=
  match op with
  | .gt => decide (limit < value)
  | .lt => decide (value < limit)
  | .ge => decide (limit ≤ value)
  | .le => decide (value ≤ limit)
  | .eq => decide (value = limit)
  | .ne => decide (value ≠ limit)

/-! ## 2. The evaluator -/

namespace ThresholdRule

variable (inlier : List (Statistic V) → Statistic V → Bool) (rule : ThresholdRule V)

/-- `_sanitize`. -/
def sanitize (statistics : List (Statistic V)) : List V :=
  let statistics := if rule.excludeOutliers then statistics.filter (inlier statistics) else statistics
  (lastOf rule.evaluationPeriods statistics).map fun s => s.get rule.statistic

/-- `evaluate_rule`, with the datapoints that were retrieved. -/
def evaluateRule (statistics : List (Statistic V)) : RuleOutcome :=
  let statistics := rule.sanitize inlier statistics
  if ¬ statistics.length ≥ rule.evaluationPeriods then .settled .unknown
  else
    let compared := statistics.map fun value => rule.comparisonOperator.apply value rule.threshold
    let distilled := compared.all id
    if distilled || !compared.any id then .settled (if distilled then .alarm else .ok)
    else .trending (if compared.getLast? = some true then .alarm else .ok)

/-- There are enough datapoints, some within the threshold and some not. -/
def MixedWindow (statistics : List (Statistic V)) : Prop :=
  rule.evaluationPeriods ≤ (rule.sanitize inlier statistics).length ∧
    (∃ value ∈ rule.sanitize inlier statistics, rule.comparisonOperator.apply value rule.threshold = true) ∧
    ∃ value ∈ rule.sanitize inlier statistics, rule.comparisonOperator.apply value rule.threshold = false

/-- **The outcome** is a trend exactly when the window is mixed. -/
theorem evaluateRule_cases (statistics : List (Statistic V)) :
    (∃ trend, rule.evaluateRule inlier statistics = .trending trend ∧ trend ≠ .unknown ∧
      rule.MixedWindow inlier statistics) ∨
      ∃ state, rule.evaluateRule inlier statistics = .settled state ∧ ¬ rule.MixedWindow inlier statistics := by
  unfold evaluateRule MixedWindow
  dsimp only
  generalize rule.sanitize inlier statistics = values
  by_cases henough : values.length ≥ rule.evaluationPeriods
  · rw [if_neg (not_not_intro henough)]
    by_cases hdefinite : ((values.map fun value => rule.comparisonOperator.apply value rule.threshold).all id ||
        !(values.map fun value => rule.comparisonOperator.apply value rule.threshold).any id) = true
    · rw [if_pos hdefinite]
      refine .inr ⟨_, rfl, fun hmixed => ?_⟩
      obtain ⟨-, ⟨value, hvalue, htrue⟩, value', hvalue', hfalse⟩ := hmixed
      rw [Bool.or_eq_true, Bool.not_eq_true', List.all_eq_true, List.any_eq_false] at hdefinite
      rcases hdefinite with hall | hnone
      · have := hall _ (List.mem_map_of_mem hvalue')
        rw [hfalse] at this
        cases this
      · exact hnone _ (List.mem_map_of_mem hvalue) htrue
    · rw [if_neg hdefinite]
      refine .inl ⟨_, rfl, ?_, henough, ?_⟩
      · split_ifs <;> nofun
      · rw [Bool.or_eq_true, not_or, Bool.not_eq_true, Bool.not_eq_true, Bool.not_eq_false', List.all_eq_false,
          List.any_eq_true] at hdefinite
        obtain ⟨⟨_, hfalse, hnot⟩, _, htrue, hyes⟩ := hdefinite
        obtain ⟨value, hvalue, rfl⟩ := List.mem_map.mp hfalse
        obtain ⟨value', hvalue', rfl⟩ := List.mem_map.mp htrue
        exact ⟨⟨value', hvalue', hyes⟩, value, hvalue, Bool.not_eq_true _ ▸ hnot⟩
  · rw [if_pos henough]
    exact .inr ⟨_, rfl, fun hmixed => henough hmixed.1⟩

end ThresholdRule

namespace ThresholdAlarm

variable (inlier : List (Statistic V) → Statistic V → Bool) (alarm : ThresholdAlarm V)

omit [LT V] [LE V] [DecidableEq V] [DecidableLT V] [DecidableLE V] in
/-- `_transition_alarm`: the state afterwards. -/
def transition (outcome : RuleOutcome) : AlarmState :=
  let unknown := decide (alarm.state = .unknown)
  match outcome with
  | .trending trend =>
    if unknown || alarm.repeatActions then if unknown then trend else alarm.state
    -- there is no state to go to
    else alarm.state
  | .settled state =>
    if state = .unknown ∧ unknown = false then state
    else if alarm.state ≠ state ∨ alarm.repeatActions = true then state
    else alarm.state

/-- `evaluate`. -/
def evaluate (statistics : List (Statistic V)) : AlarmState :=
  if alarm.withinTimeConstraint = false then alarm.state
  else alarm.transition (alarm.rule.evaluateRule inlier statistics)

end ThresholdAlarm

end

/-! ## 3. Composite rules of one rule -/

section

variable {ρ V : Type}

/-- The operators of composite rules. -/
inductive Operator
  | and
  | or
deriving Repr, DecidableEq

/-- A rule within operators that have one operand. -/
def nest (rule : ρ) : List Operator → CompositeRule ρ
  | [] => .atom rule
  | .and :: operators => .all [nest rule operators]
  | .or :: operators => .any [nest rule operators]

/-- The composite alarm. -/
def ThresholdAlarm.composite (alarm : ThresholdAlarm V) (operators : List Operator) : Alarm (ThresholdRule V) :=
  ⟨alarm.state, alarm.repeatActions, alarm.withinTimeConstraint, nest alarm.rule operators⟩

theorem eval_nest (rule : ρ) (v : ℕ → Kleene) (operators : List Operator) :
    ((nest rule operators).number 0).eval v = v 0 := by
  induction operators with
  | nil => rfl
  | cons operator operators ih =>
    cases operator with
    | and =>
      show (((nest rule operators).number 0).eval v).and .yes = v 0
      rw [ih]
      cases v 0 <;> rfl
    | or =>
      show (((nest rule operators).number 0).eval v).or .no = v 0
      rw [ih]
      cases v 0 <;> rfl

theorem atoms_nest (rule : ρ) (operators : List Operator) : (nest rule operators).atoms = [rule] := by
  induction operators with
  | nil => rfl
  | cons operator operators ih =>
    cases operator <;> exact (List.append_nil _).trans ih

theorem full_nest (rule : ρ) (operators : List Operator) : (nest rule operators).full = true := by
  induction operators with
  | nil => rfl
  | cons operator operators ih =>
    cases operator <;> exact (Bool.and_true _).trans ih

/-- The value of the nested rule is what its outcome counts as. -/
theorem kleeneValue_nest (outcome : ℕ → ρ → RuleOutcome) (alarm : Alarm ρ) {rule : ρ} {operators : List Operator}
    (h : alarm.rule = nest rule operators) : kleeneValue outcome alarm = known ((outcome 0 rule).counted alarm) := by
  rw [kleeneValue, h, eval_nest, atoms_nest]
  rfl

/-- A state that is known or not goes to itself. -/
theorem stateFor_known (state : AlarmState) : stateFor (known (some state)) = state := by
  cases state <;> rfl

variable [LT V] [LE V] [DecidableEq V] [DecidableLT V] [DecidableLE V]

/-- **When the composite and the threshold evaluator agree** on one rule, however it is nested. -/
theorem composite_threshold_agree_iff (inlier : List (Statistic V) → Statistic V → Bool) (alarm : ThresholdAlarm V)
    (operators : List Operator) (statistics : List (Statistic V)) :
    (∃ w, Evaluation.evaluateAlarm (fun _ rule => rule.evaluateRule inlier statistics) (alarm.composite operators) =
        some (alarm.evaluate inlier statistics, w)) ↔
      ¬ (alarm.withinTimeConstraint = true ∧ alarm.rule.MixedWindow inlier statistics ∧ alarm.state ≠ .unknown ∧
        alarm.repeatActions = false) := by
  cases hwithin : alarm.withinTimeConstraint with
  | false =>
    refine iff_of_true ⟨Evaluation.start [], ?_⟩ (by simp)
    rw [Evaluation.evaluateAlarm, if_pos (show (alarm.composite operators).withinTimeConstraint = false from hwithin),
      ThresholdAlarm.evaluate, if_pos hwithin]
    rfl
  | true =>
    obtain ⟨w, hw, -⟩ := Evaluation.evaluateAlarm_full (fun _ rule => rule.evaluateRule inlier statistics) (alarm.composite operators)
      hwithin (full_nest _ _)
    have hvalue := kleeneValue_nest (fun _ rule => rule.evaluateRule inlier statistics) (alarm.composite operators) rfl
    have hstate : (∃ w, Evaluation.evaluateAlarm (fun _ rule => rule.evaluateRule inlier statistics)
        (alarm.composite operators) = some (alarm.evaluate inlier statistics, w)) ↔
        stateFor (known ((alarm.rule.evaluateRule inlier statistics).counted (alarm.composite operators))) =
          alarm.transition (alarm.rule.evaluateRule inlier statistics) := by
      rw [hw, hvalue, ThresholdAlarm.evaluate, if_neg (by simp [hwithin])]
      exact ⟨fun h => h.elim fun _ h => congrArg Prod.fst (Option.some.inj h), fun h => ⟨w, by rw [h]⟩⟩
    rw [hstate]
    rcases alarm.rule.evaluateRule_cases inlier statistics with ⟨trend, htrend, -, hmixed⟩ | ⟨state, hsettled, hnot⟩
    · rw [htrend]
      by_cases hunknown : alarm.state = .unknown
      · refine iff_of_true ?_ fun h => h.2.2.1 hunknown
        simp [RuleOutcome.counted, ThresholdAlarm.composite, ThresholdAlarm.transition, hunknown, stateFor_known]
      · cases hrepeat : alarm.repeatActions with
        | true =>
          refine iff_of_true ?_ fun h => by cases h.2.2.2
          simp [RuleOutcome.counted, ThresholdAlarm.composite, ThresholdAlarm.transition, hunknown, hrepeat, stateFor_known]
        | false =>
          refine iff_of_false ?_ fun h => h ⟨rfl, hmixed, hunknown, rfl⟩
          simp [RuleOutcome.counted, ThresholdAlarm.composite, ThresholdAlarm.transition, hunknown, hrepeat, known, stateFor,
            Ne.symm hunknown]
    · rw [hsettled]
      refine iff_of_true ?_ fun h => hnot h.2.1
      rw [RuleOutcome.counted, stateFor_known, ThresholdAlarm.transition]
      split_ifs with hlost hchange
      · rfl
      · rfl
      · rw [not_or, not_not] at hchange
        exact hchange.1.symm

/-- An alarm that is ok, on more than one. -/
def mixedAlarm : ThresholdAlarm ℕ := ⟨.ok, false, true, ⟨.gt, 1, .avg, 2, false⟩⟩

def mixedStatistics : List (Statistic ℕ) := [⟨0, 0, 1, 0, 0⟩, ⟨0, 0, 2, 0, 0⟩]

/-- Of 1 and 2 the threshold alarm stays ok, and the composite one becomes unknown. -/
theorem composite_threshold_differ :
    mixedAlarm.evaluate (fun _ _ => true) mixedStatistics = .ok ∧
      (Evaluation.evaluateAlarm (fun _ rule => rule.evaluateRule (fun _ _ => true) mixedStatistics)
        (mixedAlarm.composite [])).map Prod.fst = some .unknown := by
  decide

end

end Mitaka.Aodh
