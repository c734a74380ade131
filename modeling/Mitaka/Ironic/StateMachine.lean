/-
  Subject: ironic/common/fsm.py, on top of the finite machine of the automaton library.

  The machine is over any base class with what is documented of the automaton
  (`Automaton.Documented`): states are added once, transitions are between states that
  were added, and an event is checked before the machine moves, after which the hook is
  called. The finite machine of the library is one (`finiteMachine_documented`). Callbacks
  are left out.

  In every state that any calls reach the target is none or a stable state, and it is
  cleared when it is reached; a call that raises leaves the machine as it was unless it
  gives a target that is refused after the machine has moved
  (**`call_keeps_iff`**).
-/
import Mitaka.Lib.Dict
import Mitaka.Lib.Run

namespace Mitaka.Ironic.StateMachine

/-! ## 1. The base class -/

abbrev Name := List Char

/-- The exceptions, after `_translate_excp`. -/
inductive FsmError
  | invalidState
  | duplicate
deriving Repr, DecidableEq

/-- The automaton: its own data and what its methods do with them. -/
structure Automaton (Event : Type) where
  Data : Type
  new : Data
  states : Data → Set Name
  addState : Data → Name → Bool → Except FsmError Data
  addTransition : Data → Name → Name → Event → Except FsmError Data
  /-- the state to start from -/
  startIn : Data → Option Name → Except FsmError Name
  /-- the state that the event leads to from the current one -/
  processEvent : Data → Option Name → Event → Except FsmError Name

/-- What is documented of the automaton. -/
structure Automaton.Documented {Event : Type} (base : Automaton Event) : Prop where
  new : base.states base.new = ∅
  addState : ∀ d state terminal d', base.addState d state terminal = .ok d' →
    state ∉ base.states d ∧ base.states d' = insert state (base.states d)
  addTransition : ∀ d start last event d', base.addTransition d start last event = .ok d' → base.states d' = base.states d
  startIn : ∀ d start state, base.startIn d start = .ok state → state ∈ base.states d
  processEvent : ∀ d current event state, base.processEvent d current event = .ok state → state ∈ base.states d

/-! ## 2. The machine -/

/-- What `add_state` puts into the entry of a state. -/
structure Attributes where
  stable : Bool
  target : Option Name
deriving Repr, DecidableEq

/-- The machine; a machine that was not initialized has no current state. -/
structure FSM {Event : Type} (base : Automaton Event) where
  data : base.Data
  attributes : Dict Name Attributes
  current : Option Name
  targetState : Option Name

/-- The methods, with their arguments. -/
inductive Call (Event : Type)
  | addState (state : Name) (target : Option Name) (terminal stable : Bool)
  | addTransition (start last : Name) (event : Event)
  | fsmInitialize (startState targetState : Option Name)
  | processEvent (event : Event) (targetState : Option Name)

namespace FSM

variable {Event : Type} {base : Automaton Event}

def new (base : Automaton Event) : FSM base := ⟨base.new, [], none, none⟩

/-- A declared stable state. -/
def IsStable (fsm : FSM base) (state : Name) : Prop := (fsm.attributes.get state).map Attributes.stable = some true

instance (fsm : FSM base) (state : Name) : Decidable (fsm.IsStable state) := inferInstanceAs (Decidable (_ = _))

/-- The target of the entry of a state. -/
def declared (fsm : FSM base) (state : Name) : Option Name := (fsm.attributes.get state).bind Attributes.target

/-- `_validate_target_state` does not raise. -/
def ValidTarget (fsm : FSM base) (target : Option Name) : Prop := ∀ t ∈ target, fsm.IsStable t

instance (fsm : FSM base) (target : Option Name) : Decidable (fsm.ValidTarget target) :=
  match target with
  | none => isTrue nofun
  | some t => decidable_of_iff (fsm.IsStable t) ⟨fun h _ ht => Option.some.inj ht ▸ h, fun h => h t rfl⟩

/-- `if target_state`: nothing where the name is empty. -/
def truthy (target : Option Name) : Option Name := target.filter fun t => !t.isEmpty

/-- `_post_process_event`: the target after the machine has moved. -/
def postProcessEvent (fsm : FSM base) (current : Name) : Option Name :=
  let cleared := if fsm.targetState = some current then none else fsm.targetState
  (fsm.declared current).or cleared

/-- `add_state`; the exception that is raised. -/
def addState (fsm : FSM base) (state : Name) (target : Option Name) (terminal stable : Bool) : FSM base × Option FsmError :=
  if ¬ fsm.ValidTarget target then (fsm, some .invalidState)
  else
    match base.addState fsm.data state terminal with
    | .error e => (fsm, some e)
    | .ok data => ({ fsm with data := data, attributes := fsm.attributes.set state ⟨stable, target⟩ }, none)

/-- `add_transition`. -/
def addTransition (fsm : FSM base) (start last : Name) (event : Event) : FSM base × Option FsmError :=
  match base.addTransition fsm.data start last event with
  | .error e => (fsm, some e)
  | .ok data => ({ fsm with data := data }, none)

/-- `initialize`. -/
def fsmInitialize (fsm : FSM base) (startState targetState : Option Name) : FSM base × Option FsmError :=
  match base.startIn fsm.data startState with
  | .error e => (fsm, some e)
  | .ok current =>
    let started := { fsm with current := some current }
    if ¬ fsm.ValidTarget targetState then (started, some .invalidState)
    else ({ started with targetState := (truthy targetState).or (fsm.declared current) }, none)

/-- `process_event`. -/
def processEvent (fsm : FSM base) (event : Event) (targetState : Option Name) : FSM base × Option FsmError :=
  match base.processEvent fsm.data fsm.current event with
  | .error e => (fsm, some e)
  | .ok current =>
    let moved := { fsm with current := some current, targetState := fsm.postProcessEvent current }
    match truthy targetState with
    | none => (moved, none)
    | some target =>
      if ¬ fsm.ValidTarget (some target) then (moved, some .invalidState)
      else ({ moved with targetState := some target }, none)

/-- A call: the machine afterwards and the exception that was raised. -/
def run (fsm : FSM base) : Call Event → FSM base × Option FsmError
  | .addState state target terminal stable => fsm.addState state target terminal stable
  | .addTransition start last event => fsm.addTransition start last event
  | .fsmInitialize startState targetState => fsm.fsmInitialize startState targetState
  | .processEvent event targetState => fsm.processEvent event targetState

/-- The machines that calls reach, those that raise included. -/
def Reached (fsm : FSM base) : Prop :=
  Reach (fun (fsm : FSM base) call => some (fsm.run call).1) (fun _ _ => True) (new base) fsm

/-! ## 3. What is asked of a call -/

/-- What is asked of a call: the target is none or stable afterwards, it is cleared where it is reached, and an
`InvalidState` leaves the state and the target. -/
structure CallKeeps (fsm : FSM base) (call : Call Event) : Prop where
  target : ∀ t, (fsm.run call).1.targetState = some t → (fsm.run call).1.IsStable t
  cleared : ∀ event targetState s, call = .processEvent event targetState → (fsm.run call).2 = none →
    (fsm.run call).1.current = some s → fsm.targetState = some s → fsm.declared s = none → truthy targetState = none →
    (fsm.run call).1.targetState = none
  atomic : (fsm.run call).2 = some .invalidState →
    (fsm.run call).1.current = fsm.current ∧ (fsm.run call).1.targetState = fsm.targetState

/-- The hook leaves the target. -/
def TargetStays (fsm : FSM base) (current : Name) : Prop :=
  fsm.declared current = none ∧ fsm.targetState ≠ some current ∨
    fsm.declared current ≠ none ∧ fsm.targetState = fsm.declared current

/-- A target that is given is stable, or the call is refused before the machine moves, or the machine moves to where it
is. -/
def CallSound (fsm : FSM base) : Call Event → Prop
  | .fsmInitialize startState targetState => fsm.ValidTarget targetState ∨
      ∀ s, base.startIn fsm.data startState = .ok s → fsm.current = some s
  | .processEvent event targetState => fsm.ValidTarget (truthy targetState) ∨
      ∀ s, base.processEvent fsm.data fsm.current event = .ok s → fsm.current = some s ∧ fsm.TargetStays s
  | _ => True

/-! ## 4. What a call does -/

section Cases

variable {fsm : FSM base}

theorem fsmInitialize_cases (fsm : FSM base) (startState targetState : Option Name) :
    (∃ e, base.startIn fsm.data startState = .error e ∧ fsm.fsmInitialize startState targetState = (fsm, some e)) ∨
      ∃ s, base.startIn fsm.data startState = .ok s ∧
        (fsm.ValidTarget targetState ∧ fsm.fsmInitialize startState targetState =
            (⟨fsm.data, fsm.attributes, some s, (truthy targetState).or (fsm.declared s)⟩, none) ∨
          ¬ fsm.ValidTarget targetState ∧ fsm.fsmInitialize startState targetState =
            (⟨fsm.data, fsm.attributes, some s, fsm.targetState⟩, some .invalidState)) := by
  unfold fsmInitialize
  cases base.startIn fsm.data startState with
  | error e => exact .inl ⟨e, rfl, rfl⟩
  | ok s =>
    refine .inr ⟨s, rfl, ?_⟩
    by_cases hvalid : fsm.ValidTarget targetState
    · exact .inl ⟨hvalid, if_neg (not_not_intro hvalid)⟩
    · exact .inr ⟨hvalid, if_pos hvalid⟩

theorem processEvent_cases (fsm : FSM base) (event : Event) (targetState : Option Name) :
    (∃ e, base.processEvent fsm.data fsm.current event = .error e ∧ fsm.processEvent event targetState = (fsm, some e)) ∨
      ∃ s, base.processEvent fsm.data fsm.current event = .ok s ∧
        (fsm.ValidTarget (truthy targetState) ∧ fsm.processEvent event targetState =
            (⟨fsm.data, fsm.attributes, some s, (truthy targetState).or (fsm.postProcessEvent s)⟩, none) ∨
          ¬ fsm.ValidTarget (truthy targetState) ∧ fsm.processEvent event targetState =
            (⟨fsm.data, fsm.attributes, some s, fsm.postProcessEvent s⟩, some .invalidState)) := by
  unfold processEvent
  cases base.processEvent fsm.data fsm.current event with
  | error e => exact .inl ⟨e, rfl, rfl⟩
  | ok s =>
    refine .inr ⟨s, rfl, ?_⟩
    dsimp only
    cases truthy targetState with
    | none => exact .inl ⟨nofun, rfl⟩
    | some t =>
      by_cases hvalid : fsm.ValidTarget (some t)
      · exact .inl ⟨hvalid, if_neg (not_not_intro hvalid)⟩
      · exact .inr ⟨hvalid, if_pos hvalid⟩

/-- Adding states and transitions does not move the machine. -/
theorem addState_frame (fsm : FSM base) (state : Name) (target : Option Name) (terminal stable : Bool) :
    (fsm.addState state target terminal stable).1.current = fsm.current ∧
      (fsm.addState state target terminal stable).1.targetState = fsm.targetState := by
  unfold addState
  by_cases hvalid : fsm.ValidTarget target
  · rw [if_neg (not_not_intro hvalid)]
    cases base.addState fsm.data state terminal <;> exact ⟨rfl, rfl⟩
  · rw [if_pos hvalid]
    exact ⟨rfl, rfl⟩

theorem addTransition_frame (fsm : FSM base) (start last : Name) (event : Event) :
    (fsm.addTransition start last event).1.current = fsm.current ∧
      (fsm.addTransition start last event).1.targetState = fsm.targetState := by
  unfold addTransition
  cases base.addTransition fsm.data start last event <;> exact ⟨rfl, rfl⟩

theorem postProcessEvent_eq_iff (s : Name) : fsm.postProcessEvent s = fsm.targetState ↔ fsm.TargetStays s := by
  unfold postProcessEvent TargetStays
  cases hdeclared : fsm.declared s with
  | none =>
    by_cases hreached : fsm.targetState = some s
    · simp [hreached]
    · simp [hreached]
  | some t =>
    simp [eq_comm]

end Cases

/-! ## 5. Any calls -/

/-- Every target is a stable state, and the current state was added. -/
structure Inv (fsm : FSM base) : Prop where
  states : ∀ s, s ∈ base.states fsm.data ↔ (fsm.attributes.get s).isSome
  declared : ∀ s t, fsm.declared s = some t → fsm.IsStable t
  target : ∀ t, fsm.targetState = some t → fsm.IsStable t
  current : ∀ s, fsm.current = some s → (fsm.attributes.get s).isSome

section Invariant

variable {fsm : FSM base}

theorem inv_new (hbase : base.Documented) : Inv (new base) := by
  refine ⟨fun s => ?_, nofun, nofun, nofun⟩
  show s ∈ base.states base.new ↔ _
  rw [hbase.new]
  exact iff_of_false (Set.notMem_empty s) nofun

/-- A state that is added is no other state. -/
theorem get_addState (h : Inv fsm) {state s : Name} (hnew : state ∉ base.states fsm.data) (a : Attributes)
    (hs : (fsm.attributes.get s).isSome) : (fsm.attributes.set state a).get s = fsm.attributes.get s := by
  rw [Dict.get_set, if_neg]
  rintro rfl
  exact hnew ((h.states state).mpr hs)

theorem Inv.addState (hbase : base.Documented) (h : Inv fsm) (state : Name) (target : Option Name) (terminal stable : Bool) :
    Inv (fsm.addState state target terminal stable).1 := by
  unfold FSM.addState
  by_cases hvalid : fsm.ValidTarget target
  · rw [if_neg (not_not_intro hvalid)]
    cases hadd : base.addState fsm.data state terminal with
    | error e => exact h
    | ok data =>
      obtain ⟨hnew, hstates⟩ := hbase.addState _ _ _ _ hadd
      have hkeep : ∀ t, fsm.IsStable t → (fsm.attributes.set state ⟨stable, target⟩).get t = fsm.attributes.get t :=
        fun t ht => get_addState h hnew _ (Option.isSome_of_mem (Option.map_eq_some_iff.mp ht).choose_spec.1)
      have hstable : ∀ t, fsm.IsStable t →
          (((fsm.attributes.set state ⟨stable, target⟩).get t).map Attributes.stable) = some true := fun t ht => by
        rw [hkeep t ht]
        exact ht
      refine ⟨fun s => ?_, fun s t hs => hstable t ?_, fun t ht => hstable t (h.target t ht), fun s hs => ?_⟩
      · show s ∈ base.states data ↔ ((fsm.attributes.set state ⟨stable, target⟩).get s).isSome
        rw [hstates, Set.mem_insert_iff, h.states, Dict.get_set]
        by_cases hs : state = s
        · subst hs
          simp
        · rw [if_neg hs]
          simp [Ne.symm hs]
      · have hs : ((fsm.attributes.set state ⟨stable, target⟩).get s).bind Attributes.target = some t := hs
        rw [Dict.get_set] at hs
        by_cases heq : state = s
        · rw [if_pos heq] at hs
          exact hvalid t hs
        · rw [if_neg heq] at hs
          exact h.declared s t hs
      · show ((fsm.attributes.set state ⟨stable, target⟩).get s).isSome
        rw [get_addState h hnew _ (h.current s hs)]
        exact h.current s hs
  · rw [if_pos hvalid]
    exact h

theorem Inv.of_target (h : Inv fsm) {s : Name} (hs : s ∈ base.states fsm.data) {target : Option Name}
    (htarget : ∀ t, target = some t → fsm.IsStable t) : Inv (⟨fsm.data, fsm.attributes, some s, target⟩ : FSM base) :=
  ⟨h.states, h.declared, htarget, fun _ hs' => by cases hs'; exact (h.states s).mp hs⟩

theorem ValidTarget.truthy {target : Option Name} (h : fsm.ValidTarget target) : fsm.ValidTarget (truthy target) :=
  fun t ht => h t (Option.filter_eq_some_iff.mp ht).1

/-- A target that is given and accepted, or else one that is stable. -/
theorem stable_or {given target : Option Name} (hgiven : fsm.ValidTarget given)
    (htarget : ∀ t, target = some t → fsm.IsStable t) : ∀ t, given.or target = some t → fsm.IsStable t := by
  intro t ht
  rcases Option.or_eq_some_iff.mp ht with h | ⟨-, h⟩
  · exact hgiven t h
  · exact htarget t h

theorem Inv.post (h : Inv fsm) (s : Name) : ∀ t, fsm.postProcessEvent s = some t → fsm.IsStable t := by
  unfold postProcessEvent
  refine stable_or (fun t ht => h.declared s t ht) fun t ht => ?_
  split_ifs at ht with hreached
  exact h.target t ht

/-- **What every call keeps**, also one that raises. -/
theorem Inv.run (hbase : base.Documented) (h : Inv fsm) (call : Call Event) : Inv (fsm.run call).1 := by
  cases call with
  | addState state target terminal stable => exact h.addState hbase state target terminal stable
  | addTransition start last event =>
    show Inv (fsm.addTransition start last event).1
    unfold FSM.addTransition
    cases hadd : base.addTransition fsm.data start last event with
    | error e => exact h
    | ok data =>
      refine ⟨fun s => ?_, h.declared, h.target, h.current⟩
      exact (hbase.addTransition _ _ _ _ _ hadd ▸ Iff.rfl : s ∈ base.states data ↔ s ∈ base.states fsm.data).trans (h.states s)
  | fsmInitialize startState targetState =>
    show Inv (fsm.fsmInitialize startState targetState).1
    rcases fsmInitialize_cases fsm startState targetState with ⟨e, -, hrun⟩ | ⟨s, hs, ⟨hvalid, hrun⟩ | ⟨-, hrun⟩⟩ <;> rw [hrun]
    · exact h
    · exact h.of_target (hbase.startIn _ _ _ hs) (stable_or hvalid.truthy (h.declared s))
    · exact h.of_target (hbase.startIn _ _ _ hs) h.target
  | processEvent event targetState =>
    show Inv (fsm.processEvent event targetState).1
    rcases processEvent_cases fsm event targetState with ⟨e, -, hrun⟩ | ⟨s, hs, ⟨hvalid, hrun⟩ | ⟨-, hrun⟩⟩ <;> rw [hrun]
    · exact h
    · exact h.of_target (hbase.processEvent _ _ _ _ hs) (stable_or hvalid (h.post s))
    · exact h.of_target (hbase.processEvent _ _ _ _ hs) (h.post s)

theorem Reached.inv (hbase : base.Documented) (h : Reached fsm) : Inv fsm :=
  h.invariant (inv_new hbase) fun _ call _ hinv _ hs => Option.some.inj hs ▸ hinv.run hbase call

/-- A target that is reached is cleared by the hook. -/
theorem postProcessEvent_reached {s : Name} (htarget : fsm.targetState = some s) (hdeclared : fsm.declared s = none) :
    fsm.postProcessEvent s = none := by
  rw [postProcessEvent, if_pos htarget, hdeclared]
  rfl

end Invariant

/-- **When a call keeps what is asked of it**, of any machine that calls reach: unless a target that is given is refused
after the machine has moved. -/
theorem call_keeps_iff (hbase : base.Documented) {fsm : FSM base} (h : Reached fsm) (call : Call Event) :
    CallKeeps fsm call ↔ CallSound fsm call := by
  have htarget := ((h.inv hbase).run hbase call).target
  cases call with
  | addState state target terminal stable =>
    exact iff_of_true ⟨htarget, nofun, fun _ => addState_frame fsm state target terminal stable⟩ trivial
  | addTransition start last event =>
    exact iff_of_true ⟨htarget, nofun, fun _ => addTransition_frame fsm start last event⟩ trivial
  | fsmInitialize startState targetState =>
    have hcases := fsmInitialize_cases fsm startState targetState
    constructor
    · intro hkeeps
      refine or_iff_not_imp_left.mpr fun hnot s hs => ?_
      rcases hcases with ⟨e, he, -⟩ | ⟨s', hs', ⟨hvalid, -⟩ | ⟨-, hrun⟩⟩
      · rw [he] at hs
        cases hs
      · exact absurd hvalid hnot
      · rw [hs'] at hs
        cases hs
        have hatomic := hkeeps.atomic (show (fsm.fsmInitialize startState targetState).2 = _ by rw [hrun])
        have hcurrent : (fsm.fsmInitialize startState targetState).1.current = fsm.current := hatomic.1
        rw [hrun] at hcurrent
        exact hcurrent.symm
    · intro hsound
      refine ⟨htarget, nofun, fun hraise => ?_⟩
      show (fsm.fsmInitialize startState targetState).1.current = _ ∧ (fsm.fsmInitialize startState targetState).1.targetState = _
      have hraise : (fsm.fsmInitialize startState targetState).2 = some .invalidState := hraise
      rcases hcases with ⟨e, -, hrun⟩ | ⟨s, hs, ⟨-, hrun⟩ | ⟨hnot, hrun⟩⟩ <;> rw [hrun] at hraise ⊢
      · exact ⟨rfl, rfl⟩
      · cases hraise
      · exact ⟨(hsound.resolve_left hnot s hs).symm, rfl⟩
  | processEvent event targetState =>
    have hcases := processEvent_cases fsm event targetState
    constructor
    · intro hkeeps
      refine or_iff_not_imp_left.mpr fun hnot s hs => ?_
      rcases hcases with ⟨e, he, -⟩ | ⟨s', hs', ⟨hvalid, -⟩ | ⟨-, hrun⟩⟩
      · rw [he] at hs
        cases hs
      · exact absurd hvalid hnot
      · rw [hs'] at hs
        cases hs
        have hatomic := hkeeps.atomic (show (fsm.processEvent event targetState).2 = _ by rw [hrun])
        have hstay : (fsm.processEvent event targetState).1.current = fsm.current ∧
            (fsm.processEvent event targetState).1.targetState = fsm.targetState := hatomic
        rw [hrun] at hstay
        exact ⟨hstay.1.symm, (postProcessEvent_eq_iff s).mp hstay.2⟩
    · intro hsound
      refine ⟨htarget, ?_, fun hraise => ?_⟩
      · rintro _ _ s ⟨⟩ hreturn hcurrent hreached hdeclared hgiven
        have hreturn : (fsm.processEvent event targetState).2 = none := hreturn
        have hcurrent : (fsm.processEvent event targetState).1.current = some s := hcurrent
        show (fsm.processEvent event targetState).1.targetState = none
        rcases hcases with ⟨e, -, hrun⟩ | ⟨s', -, ⟨-, hrun⟩ | ⟨-, hrun⟩⟩ <;> rw [hrun] at hreturn hcurrent ⊢
        · cases hreturn
        · cases hcurrent
          rw [hgiven]
          exact postProcessEvent_reached hreached hdeclared
        · cases hreturn
      · show (fsm.processEvent event targetState).1.current = _ ∧ (fsm.processEvent event targetState).1.targetState = _
        have hraise : (fsm.processEvent event targetState).2 = some .invalidState := hraise
        rcases hcases with ⟨e, -, hrun⟩ | ⟨s, hs, ⟨-, hrun⟩ | ⟨hnot, hrun⟩⟩ <;> rw [hrun] at hraise ⊢
        · exact ⟨rfl, rfl⟩
        · cases hraise
        · obtain ⟨hcurrent, hstays⟩ := hsound.resolve_left hnot s hs
          exact ⟨hcurrent.symm, (postProcessEvent_eq_iff s).mpr hstays⟩

end FSM

/-- The machine after some calls. -/
def FSM.runAll {Event : Type} {base : Automaton Event} (fsm : FSM base) (calls : List (Call Event)) : FSM base :=
  calls.foldl (fun fsm call => (fsm.run call).1) fsm

theorem FSM.Reached.runAll {Event : Type} {base : Automaton Event} {fsm : FSM base} (h : fsm.Reached)
    (calls : List (Call Event)) : (fsm.runAll calls).Reached := by
  induction calls generalizing fsm with
  | nil => exact h
  | cons call calls ih => exact ih (h.tail trivial rfl)

/-! ## 6. The finite machine of automaton/machines.py -/

/-- A `FiniteMachine` without its callbacks: states with their terminal flag, and for each state the events and where they
lead to, which is a state of the machine. -/
structure FiniteMachine where
  states : Dict Name Bool
  transitions : Dict Name (Dict Name Name)
  defaultStartState : Option Name
  frozen : Bool
  ends : ∀ start jumps event last, transitions.get start = some jumps → jumps.get event = some last →
    last ∈ states.map Prod.fst

namespace FiniteMachine

/-- `add_state`. -/
def addState (m : FiniteMachine) (state : Name) (terminal : Bool) : Except FsmError FiniteMachine :=
  if m.frozen then .error .invalidState
  else if state ∈ m.states.map Prod.fst then .error .duplicate
  else .ok { m with
    states := m.states.set state terminal
    transitions := m.transitions.set state []
    ends := by
      intro start jumps event last hjumps hlast
      rw [Dict.get_set] at hjumps
      split at hjumps
      · cases hjumps
        cases hlast
      · exact Dict.mem_keys_set.mpr (Or.inr (m.ends start jumps event last hjumps hlast)) }

/-- `add_transition`. -/
def addTransition (m : FiniteMachine) (start last event : Name) : Except FsmError FiniteMachine :=
  if m.frozen then .error .invalidState
  else if hstates : start ∉ m.states.map Prod.fst ∨ last ∉ m.states.map Prod.fst then .error .invalidState
  else if m.states.get start = some true then .error .invalidState
  else
    let jumps := (m.transitions.get start).getD []
    match jumps.get event with
    | some target => if target ≠ last then .error .duplicate else .ok m
    | none => .ok { m with
        transitions := m.transitions.set start (jumps.set event last)
        ends := by
          intro start' jumps' event' last' hjumps hlast
          rw [Dict.get_set] at hjumps
          split at hjumps
          · cases hjumps
            rw [Dict.get_set] at hlast
            split at hlast
            · cases hlast
              exact not_not.mp (not_or.mp hstates).2
            · cases hold : m.transitions.get start with
              | none =>
                simp only [jumps, hold, Option.getD_none] at hlast
                cases hlast
              | some jumps' =>
                simp only [jumps, hold, Option.getD_some] at hlast
                exact m.ends start jumps' event' last' hold hlast
          · exact m.ends start' jumps' event' last' hjumps hlast }

/-- `initialize`: the state to start from. -/
def startIn (m : FiniteMachine) (start : Option Name) : Except FsmError Name :=
  match start.or m.defaultStartState with
  | none => .error .invalidState
  | some state =>
    match m.states.get state with
    | none => .error .invalidState
    | some terminal => if terminal then .error .invalidState else .ok state

/-- `_pre_process_event`, and where the event leads to. -/
def processEvent (m : FiniteMachine) (current : Option Name) (event : Name) : Except FsmError Name :=
  match current with
  | none => .error .invalidState
  | some state =>
    if m.states.get state = some true then .error .invalidState
    else
      match ((m.transitions.get state).getD []).get event with
      | none => .error .invalidState
      | some last => .ok last

end FiniteMachine

/-- The base class, with its default state to start from. -/
def finiteMachine (defaultStartState : Option Name) : Automaton Name where
  Data := FiniteMachine
  new := ⟨[], [], defaultStartState, false, nofun⟩
  states m := {s | s ∈ m.states.map Prod.fst}
  addState := FiniteMachine.addState
  addTransition := FiniteMachine.addTransition
  startIn := FiniteMachine.startIn
  processEvent := FiniteMachine.processEvent

/-- **The finite machine is as documented.** -/
theorem finiteMachine_documented (defaultStartState : Option Name) : (finiteMachine defaultStartState).Documented where
  new := Set.eq_empty_of_forall_notMem fun _ hs => nomatch hs
  addState m state terminal m' h := by
    have h : m.addState state terminal = .ok m' := h
    unfold FiniteMachine.addState at h
    split_ifs at h with hfrozen hold
    cases h
    exact ⟨hold, Set.ext fun s => Dict.mem_keys_set⟩
  addTransition m start last event m' h := by
    have h : m.addTransition start last event = .ok m' := h
    unfold FiniteMachine.addTransition at h
    split_ifs at h
    dsimp only at h
    split at h
    · split_ifs at h
      cases h
      rfl
    · cases h
      rfl
  startIn m start state h := by
    have h : m.startIn start = .ok state := h
    unfold FiniteMachine.startIn at h
    split at h
    · cases h
    · next hstate =>
      split at h
      · cases h
      · next hget =>
        split_ifs at h
        cases h
        exact Dict.mem_keys_iff.mpr (Option.isSome_of_mem hget)
  processEvent m current event state h := by
    have h : m.processEvent current event = .ok state := h
    unfold FiniteMachine.processEvent at h
    cases current with
    | none => cases h
    | some start =>
      dsimp only at h
      split_ifs at h
      split at h
      · cases h
      · next hlast =>
        cases h
        cases hjumps : m.transitions.get start with
        | none =>
          rw [hjumps] at hlast
          cases hlast
        | some jumps =>
          rw [hjumps, Option.getD_some] at hlast
          exact m.ends start jumps event state hjumps hlast

/-- The machine of the tests: `w` is working and stable, `d` is a daydream, and `u` is wakeup, from where a walk leads to
working. -/
def wakeup : FSM (finiteMachine none) :=
  (FSM.new (finiteMachine none)).runAll
    [.addState ['w'] none false true, .addState ['d'] none false false, .addState ['u'] (some ['w']) false false,
      .addTransition ['u'] ['w'] ['e'], .fsmInitialize (some ['u']) none]

theorem reached_wakeup : wakeup.Reached := FSM.Reached.runAll Reach.refl _

/-- The walk without a target. -/
theorem call_keeps_iff_walk : FSM.CallKeeps wakeup (.processEvent ['e'] none) ↔ FSM.CallSound wakeup (.processEvent ['e'] none) :=
  FSM.call_keeps_iff (finiteMachine_documented none) reached_wakeup _

/-- The walk to a daydream is refused, and the machine is working. -/
theorem processEvent_refused_moves :
    wakeup.current = some ['u'] ∧ (wakeup.run (.processEvent ['e'] (some ['d']))).2 = some .invalidState ∧
      (wakeup.run (.processEvent ['e'] (some ['d']))).1.current = some ['w'] ∧
      ¬ FSM.CallKeeps wakeup (.processEvent ['e'] (some ['d'])) := by
  have hraise : (wakeup.run (.processEvent ['e'] (some ['d']))).2 = some .invalidState := by decide
  have hmoved : (wakeup.run (.processEvent ['e'] (some ['d']))).1.current = some ['w'] := by decide
  have hcurrent : wakeup.current = some ['u'] := by decide
  refine ⟨hcurrent, hraise, hmoved, fun hkeeps => ?_⟩
  have hsame := (hkeeps.atomic hraise).1
  rw [hmoved, hcurrent] at hsame
  exact absurd hsame (by decide)

end Mitaka.Ironic.StateMachine
