/-
  Subject: ironic/conductor/task_manager.py: the provision states that `process_event` saves,
           with the machine of ironic/common/states.py.

  The machine of a task is initialized in the constructor. `upgrade_lock` reads the node again
  and leaves the machine where it is: what the task saves afterwards follows the machine only
  where the stored state was still the one the task has started from (`Meets`).
-/
import Mitaka.Ironic.NodeLocks

namespace Mitaka.Ironic

open Option

/-! ## 1. `states.machine` -/

inductive ProvisionState
  | enroll | verifying | manageable | available | active | deployWait | deploying | deployFail | deleting | cleaning
  | cleanWait | cleanFail | error | inspecting | inspectFail
  deriving DecidableEq

inductive ProvisionEvent
  | deploy | fail | rebuild | wait | resume | done | delete | error | clean | abort | manage | provide | inspect
  deriving DecidableEq

open ProvisionState ProvisionEvent in
/-- `states.machine`. -/
def provisionMachine : Machine ProvisionState ProvisionEvent where
  next
    | available, deploy => some deploying
    | deploying, fail => some deployFail
    | deployFail, rebuild => some deploying
    | deployFail, deploy => some deploying
    | deploying, wait => some deployWait
    | deployWait, resume => some deploying
    | deployWait, fail => some deployFail
    | deploying, done => some active
    | active, rebuild => some deploying
    | active, delete => some deleting
    | deployWait, delete => some deleting
    | deployFail, delete => some deleting
    | deleting, .error => some .error
    | deleting, clean => some cleaning
    | cleaning, done => some available
    | cleaning, fail => some cleanFail
    | cleanWait, fail => some cleanFail
    | cleanWait, abort => some cleanFail
    | cleaning, wait => some cleanWait
    | cleanWait, resume => some cleaning
    | cleanFail, manage => some manageable
    | manageable, provide => some cleaning
    | manageable, clean => some cleaning
    | cleaning, manage => some manageable
    | available, manage => some manageable
    | .error, rebuild => some deploying
    | .error, delete => some deleting
    | manageable, inspect => some inspecting
    | inspecting, done => some manageable
    | inspecting, fail => some inspectFail
    | inspectFail, manage => some manageable
    | inspectFail, inspect => some inspecting
    | enroll, manage => some verifying
    | verifying, done => some manageable
    | verifying, fail => some enroll
    | _, _ => none
  isStable
    | enroll | manageable | available | active | .error => some true
    | _ => some false
  target
    | verifying | inspecting | inspectFail => some manageable
    | deploying | deployWait | deployFail => some active
    | cleaning | cleanWait | cleanFail | deleting => some available
    | _ => none

section Transitions

variable {State Event Host : Type} {machine : Machine State Event}
  {available : State}

/-! ## 2. What an action does to the stored state -/

/-- The condition on an action: an upgrade that takes the node finds it in the state of the task's machine, a target is
valid, and NOSTATE is replaced in a row that no other task has moved. -/
def TaskAction.Meets (machine : Machine State Event) (available : State) (row : Option (Row State Host))
    (t : Task State Host) : TaskAction State Event → Prop
  | .upgrade => ∀ r fsm, row = some r → r.reservation = none → t.fsm = some fsm → r.provisionState = some fsm.current
  | .processEvent _ _ _ target => validTarget machine target = true
  | .noState => ∀ r, row = some r → r.provisionState = none ∨ r.provisionState = some available
  | _ => True

/-- What holds of a task by itself. -/
structure Formed (t : Task State Host) : Prop where
  creating : t.phase = .creating → t.fsm = none
  hook : t.onError.isSome → t.shared = false

/-- **The holder's node and machine are where the row is.** Before the machine is initialized, the row may have been
moved from NOSTATE to AVAILABLE. -/
def Agrees (available : State) (row : Option (Row State Host)) (t : Task State Host) : Prop :=
  ∀ r node, row = some r → t.shared = false → t.node = some node →
    match t.fsm with
    | none => node.provisionState = r.provisionState ∨ node.provisionState = none ∧ r.provisionState = some available
    | some fsm => node.provisionState = r.provisionState ∧ r.provisionState = some fsm.current

/-- What a task that does not hold the node may do to the stored state. -/
def Drifts (available : State) (row row' : Option (Row State Host)) : Prop :=
  ∀ r', row' = some r' → ∃ r, row = some r ∧ (r'.provisionState = r.provisionState ∨
    (r.provisionState = none ∨ r.provisionState = some available) ∧ r'.provisionState = some available)

theorem Drifts.refl (row : Option (Row State Host)) : Drifts available row row := fun r h => ⟨r, h, .inl rfl⟩

variable {row : Option (Row State Host)} {t : Task State Host}

theorem agrees_of_not_holds (h : ¬ t.Holds) :
    Agrees available row t := fun _ _ _ hs hn => absurd ⟨hs, hn ▸ rfl⟩ h

/-- A task that holds, and another that does not and acts. -/
theorem Agrees.of_drifts {row row' : Option (Row State Host)} {u : Task State Host} (h : Agrees available row u)
    (hd : Drifts available row row') : Agrees available row' u := by
  intro r' node hr' hs hn
  obtain ⟨r, hr, hmove⟩ := hd r' hr'
  have hu := h r node hr hs hn
  rcases hmove with heq | ⟨hfrom, hto⟩
  · rw [heq]
    exact hu
  · cases hf : u.fsm with
    | none =>
      rw [hf] at hu
      rcases hu with hu | hu
      · rcases hfrom with hnone | havail
        · exact .inr ⟨hu.trans hnone, hto⟩
        · exact .inl (hu.trans (havail.trans hto.symm))
      · exact .inr ⟨hu.1, hto⟩
    | some fsm =>
      rw [hf] at hu
      -- the row of an initialized machine is not NOSTATE, so it has not moved
      have havail : r.provisionState = some available :=
        hfrom.resolve_left fun hnone => nomatch hnone.symm.trans hu.2
      exact ⟨hu.1.trans (havail.trans hto.symm), hto.trans (havail.symm.trans hu.2)⟩

theorem drifts_release :
    Drifts available row (row.map fun r => { r with reservation := none }) := by
  intro r' hr'
  obtain ⟨r, hr, rfl⟩ := map_eq_some_iff.mp hr'
  exact ⟨r, hr, .inl rfl⟩

theorem drifts_endTask [DecidableEq Host] (h : Ok row t) :
    Drifts available row (endTask row t).1 := by
  rcases releaseResources_eq h with ⟨_, e⟩ | ⟨_, e⟩
  · rw [endTask, e]
    exact drifts_release
  · rw [endTask, e]
    exact Drifts.refl row

theorem formed_endTask [DecidableEq Host] (hok : Ok row t)
    (h : Formed t) :
    Formed (endTask row t).2 := by
  rcases releaseResources_eq hok with ⟨_, e⟩ | ⟨_, e⟩
  · rw [endTask, e]
    exact ⟨by simp, h.hook⟩
  · rw [endTask, e]
    exact ⟨by simp, h.hook⟩

/-- The error hook is set under the exclusive lock only. -/
theorem errorHook_eq [DecidableEq State] (h : Formed t)
    (hn : ¬ t.Holds)
    (noWorker : Bool) : errorHook row t noWorker = row := by
  unfold errorHook
  split
  · next hold hnode => exact absurd ⟨h.hook (hold ▸ rfl), hnode ▸ rfl⟩ hn
  · rfl

/-! ## 3. `process_event` -/

variable {fsm : Fsm State} {target : Option State}

theorem processEvent_returned [DecidableEq State] {event : Event}
    (h : (fsm.processEvent machine event target).2 = true) :
    machine.next fsm.current event = some (fsm.processEvent machine event target).1.current := by
  rw [Fsm.processEvent] at h ⊢
  cases hn : machine.next fsm.current event with
  | none => exact nomatch hn ▸ h
  | some current =>
    cases target with
    | none => rfl
    | some target =>
      simp only
      split_ifs
      · rfl
      · rfl

/-- With a valid target the machine stays where the event is not allowed. -/
theorem processEvent_raised [DecidableEq State] {event : Event}
    (htarget : validTarget machine target = true) (h : (fsm.processEvent machine event target).2 = false) :
    (fsm.processEvent machine event target).1 = fsm := by
  rw [Fsm.processEvent] at h ⊢
  cases hn : machine.next fsm.current event with
  | none => rfl
  | some current =>
    cases target with
    | none => exact nomatch hn ▸ h
    | some target =>
      simp only [hn, if_pos htarget] at h
      exact nomatch h

/-- Saving over a copy that agrees with the row. -/
theorem saveNode_provisionState [DecidableEq State] {old new : Node State} {r r' : Row State Host}
    (h : saveNode old new (some r) = some r') (heq : old.provisionState = r.provisionState) :
    r'.provisionState = new.provisionState := by
  cases h
  simp only
  split_ifs with hc
  · exact heq.symm.trans hc.symm
  · rfl

theorem taskProcessEvent_task [DecidableEq State] (machine : Machine State Event) (row : Option (Row State Host))
    (t : Task State Host) (node : Node State) (fsm : Fsm State) (event : Event) (callback errHandler : Bool)
    (target : Option State) :
    (taskProcessEvent machine row t node fsm event callback errHandler target).2.phase = t.phase ∧
      (taskProcessEvent machine row t node fsm event callback errHandler target).2.shared = t.shared := by
  rw [taskProcessEvent]
  simp only
  split_ifs
  · exact ⟨rfl, rfl⟩
  all_goals exact ⟨rfl, rfl⟩

/-- **`process_event` of a holder**: the node and the machine are where the row is, and what it has saved is the
successor of what was stored. -/
theorem taskProcessEvent_agrees [DecidableEq State]
    {node : Node State} {event : Event} {callback errHandler : Bool}
    (hagrees : Agrees available row t) (hshared : t.shared = false) (hnode : t.node = some node)
    (hfsm : t.fsm = some fsm) (htarget : validTarget machine target = true) {r' : Row State Host}
    (hr' : (taskProcessEvent machine row t node fsm event callback errHandler target).1 = some r') :
    Agrees available (some r') (taskProcessEvent machine row t node fsm event callback errHandler target).2 ∧
      ∃ r, row = some r ∧ r.provisionState = some fsm.current ∧
        ((fsm.processEvent machine event target).2 = true → ∃ q, machine.next fsm.current event = some q ∧
          r'.provisionState = some q) := by
  rw [taskProcessEvent] at hr' ⊢
  cases he : fsm.processEvent machine event target with
  | mk fsm' returned =>
  rw [he] at hr'
  simp only at hr' ⊢
  have hat {r : Row State Host} (hr : row = some r) :
      node.provisionState = r.provisionState ∧ r.provisionState = some fsm.current := by
    have h := hagrees r node hr hshared hnode
    rwa [hfsm] at h
  cases returned with
  | false =>
    have hstay : fsm' = fsm := by
      have h := processEvent_raised htarget (congrArg Prod.snd he)
      rwa [he] at h
    rw [if_pos rfl] at hr' ⊢
    refine ⟨?_, r', hr', (hat hr').2, nofun⟩
    rw [hstay]
    intro r node' hr _ hn
    cases hr
    cases hnode.symm.trans hn
    exact hat hr'
  | true =>
    have hnext : machine.next fsm.current event = some fsm'.current := by
      have h := processEvent_returned (congrArg Prod.snd he)
      rwa [he] at h
    rw [if_neg nofun] at hr' ⊢
    cases row with
    | none => exact nomatch hr'
    | some r =>
      have hsaved := saveNode_provisionState hr' (hat rfl).1
      refine ⟨?_, r, rfl, (hat rfl).2, fun _ => ⟨fsm'.current, hnext, hsaved⟩⟩
      intro r₁ node' hr _ hn
      cases hr
      cases hn
      exact ⟨hsaved.symm, hsaved⟩

/-! ## 4. Every action -/

/-- **What an action does to the stored state.** -/
theorem run_agrees [DecidableEq State] [DecidableEq Host] {row row' : Option (Row State Host)} {t t' : Task State Host}
    {action : TaskAction State Event} (hok : Ok row t) (hformed : Formed t) (hagrees : Agrees available row t)
    (hmeets : action.Meets machine available row t) (h : action.run machine available row t = some (row', t')) :
    Formed t' ∧ Agrees available row' t' ∧ (¬ t.Holds → Drifts available row row') := by
  have hend {row₁ : Option (Row State Host)} {t₁ : Task State Host} (he : endTask row₁ t₁ = (row', t'))
      (hok₁ : Ok row₁ t₁) (hformed₁ : Formed t₁) (hrow : ¬ t.Holds → row₁ = row) :
      Formed t' ∧ Agrees available row' t' ∧ (¬ t.Holds → Drifts available row row') := by
    have hf := formed_endTask hok₁ hformed₁
    have hn := (endTask_spec hok₁).1
    have hd : Drifts available row₁ (endTask row₁ t₁).1 := drifts_endTask hok₁
    rw [he] at hf hn hd
    exact ⟨hf, agrees_of_not_holds (not_holds_of_node hn), fun hh => hrow hh ▸ hd⟩
  have hsame {row₁ : Option (Row State Host)} (h : row = row₁) : ¬ t.Holds → Drifts available row row₁ :=
    fun _ => h ▸ Drifts.refl row
  cases action with
  | lock retry =>
    simp only [TaskAction.run] at h
    obtain ⟨⟨hp, hs, _⟩, h⟩ := ite_none_right_eq_some.mp h
    split at h
    · next reserved hr =>
      obtain ⟨_, _, hrow⟩ := reserveNode_ok hr
      cases h
      refine ⟨⟨hformed.creating, hformed.hook⟩, ?_, fun _ => ?_⟩
      · intro r node hr _ hn
        cases hr
        cases hn
        simp only [hformed.creating hp]
        exact .inl rfl
      · intro r' hr'
        cases hr'
        exact ⟨_, hrow, .inl rfl⟩
    · replace h := Option.some.inj h
      split_ifs at h with hretry
      · cases h
        exact ⟨hformed, hagrees, hsame rfl⟩
      · exact hend h hok hformed fun _ => rfl
    · exact hend (Option.some.inj h) hok hformed fun _ => rfl
  | read =>
    simp only [TaskAction.run] at h
    obtain ⟨⟨_, hs, _⟩, h⟩ := ite_none_right_eq_some.mp h
    split at h
    · cases h
      exact ⟨⟨hformed.creating, hformed.hook⟩, agrees_of_not_holds (fun hh => by cases hs.symm.trans hh.1), hsame rfl⟩
    · exact hend (Option.some.inj h) hok hformed fun _ => rfl
  | noState =>
    simp only [TaskAction.run] at h
    split at h
    · next node hp hn =>
      obtain ⟨hnone, h⟩ := ite_none_right_eq_some.mp h
      replace h := Option.some.inj h
      split_ifs at h with hrow
      · have hr : row = none := isNone_iff_eq_none.mp hrow
        refine hend h ⟨fun he => ?_, fun _ => .inl (congrArg _ hr)⟩ ⟨hformed.creating, hformed.hook⟩ fun _ => rfl
        cases hp.symm.trans he
      · cases h
        -- the row is NOSTATE or AVAILABLE already, and is AVAILABLE now
        have hnow {r r' : Row State Host} (hr : row = some r)
            (hr' : saveNode node { node with provisionState := some available } (some r) = some r') :
            r'.provisionState = some available := by
          cases hr'
          exact if_neg (by simp [hnone])
        refine ⟨⟨hformed.creating, hformed.hook⟩, ?_, fun _ => ?_⟩
        · intro r' node' hr' _ hn'
          cases hn'
          cases row with
          | none => cases hr'
          | some r =>
            simp only [hformed.creating hp]
            exact .inl (hnow rfl hr').symm
        · intro r' hr'
          cases row with
          | none => cases hr'
          | some r => exact ⟨r, rfl, .inr ⟨hmeets r rfl, hnow rfl hr'⟩⟩
    · cases h
  | initFsm =>
    simp only [TaskAction.run] at h
    split at h
    · next node hp hn =>
      split at h
      · cases h
      · next start hstart =>
        split at h
        · next fsm hfsm =>
          cases h
          refine ⟨⟨by simp, hformed.hook⟩, ?_, hsame rfl⟩
          intro r node' hr hs hn'
          cases hn.symm.trans hn'
          have hcur : fsm.current = start := by
            rw [fsmInitialize] at hfsm
            split_ifs at hfsm
            cases hfsm
            rfl
          have hrow := hagrees r node hr hs hn
          rw [hformed.creating hp] at hrow
          have heq : node.provisionState = r.provisionState :=
            hrow.resolve_right fun hno => by cases hstart.symm.trans hno.1
          exact ⟨heq, by rw [← heq, hstart, hcur]⟩
        · exact hend (Option.some.inj h) hok hformed fun _ => rfl
    · cases h
  | fail =>
    simp only [TaskAction.run] at h
    obtain ⟨_, h⟩ := ite_none_right_eq_some.mp h
    exact hend (Option.some.inj h) hok hformed fun _ => rfl
  | upgrade =>
    simp only [TaskAction.run] at h
    obtain ⟨_, h⟩ := ite_none_right_eq_some.mp h
    split at h
    · next reserved hr =>
      obtain ⟨_, _, hrow⟩ := reserveNode_ok hr
      cases h
      refine ⟨⟨hformed.creating, fun _ => rfl⟩, ?_, fun _ => ?_⟩
      · intro r node hr _ hn
        cases hr
        cases hn
        cases hf : t.fsm with
        | none => exact .inl rfl
        | some fsm =>
          exact ⟨rfl, hmeets { reserved with reservation := none } fsm hrow rfl hf⟩
      · intro r' hr'
        cases hr'
        exact ⟨_, hrow, .inl rfl⟩
    · cases h
      exact ⟨hformed, hagrees, hsame rfl⟩
  | processEvent event callback errHandler target =>
    simp only [TaskAction.run] at h
    obtain ⟨⟨hp, hs⟩, h⟩ := ite_none_right_eq_some.mp h
    split at h
    · next node fsm hn hf =>
      obtain ⟨hphase, hshared⟩ := taskProcessEvent_task machine row t node fsm event callback errHandler target
      have hrow' := Prod.ext_iff.mp (Option.some.inj h)
      rw [hrow'.2] at hphase hshared
      refine ⟨⟨fun hc => ?_, fun _ => hshared.trans hs⟩, fun r' node' hr' => ?_, fun hh => absurd ⟨hs, hn ▸ rfl⟩ hh⟩
      · rw [← hphase, hc] at hp
        simp at hp
      · have hagrees' := (taskProcessEvent_agrees hagrees hs hn hf hmeets (hrow'.1.trans hr')).1
        rw [hrow'.2] at hagrees'
        exact hagrees' r' node' rfl
    · cases h
  | spawnAfter =>
    simp only [TaskAction.run] at h
    obtain ⟨_, h⟩ := ite_none_right_eq_some.mp h
    cases h
    exact ⟨⟨hformed.creating, hformed.hook⟩, hagrees, hsame rfl⟩
  | deleteNode =>
    simp only [TaskAction.run] at h
    obtain ⟨_, h⟩ := ite_none_right_eq_some.mp h
    cases h
    exact ⟨hformed, by simp [Agrees], by simp [Drifts]⟩
  | exit exception spawn =>
    simp only [TaskAction.run] at h
    obtain ⟨_, h⟩ := ite_none_right_eq_some.mp h
    split at h
    · split at h
      · cases h
        exact ⟨⟨by simp, hformed.hook⟩, hagrees, hsame rfl⟩
      · next noWorker _ =>
        exact hend (Option.some.inj h) (hok.of_lockState (lockState_errorHook _ _ _) hok.ended rfl Iff.rfl) hformed
          fun hh => errorHook_eq hformed hh _
      · exact hend (Option.some.inj h) hok hformed fun _ => rfl
    · exact hend (Option.some.inj h) hok hformed fun _ => rfl
  | workerDone =>
    simp only [TaskAction.run] at h
    obtain ⟨_, h⟩ := ite_none_right_eq_some.mp h
    exact hend (Option.some.inj h) hok hformed fun _ => rfl

/-! ## 5. Every run -/

/-- The condition on a step. -/
def Meets (machine : Machine State Event) (available : State) (s : Sys State Host) : Action State Event Host → Prop
  | .create _ _ => True
  | .task i action => ∀ t, s.tasks[i]? = some t → action.Meets machine available s.row t

/-- The locks, and the nodes and machines of the tasks. -/
structure StatesAgree (available : State) (s : Sys State Host) : Prop where
  locks : LocksAgree s
  formed : ∀ (i : ℕ) t, s.tasks[i]? = some t → Formed t
  agrees : ∀ (i : ℕ) t, s.tasks[i]? = some t → Agrees available s.row t

theorem statesAgree_start (row : Row State Host) : StatesAgree available (startSys row : Sys State Host) where
  locks := locksAgree_start row
  formed _ _ h := nomatch h
  agrees _ _ h := nomatch h

theorem statesAgree_create {s : Sys State Host} (host : Host) (shared : Bool) (h : StatesAgree available s) :
    StatesAgree available { s with tasks := s.tasks ++ [Task.start host shared] } where
  locks := locksAgree_create host shared h.locks
  formed i t ht := by
    rcases Nat.lt_or_ge i s.tasks.length with hi | hi
    · exact h.formed i t (by rwa [List.getElem?_append_left hi] at ht)
    · rw [List.getElem?_append_right hi, List.getElem?_singleton] at ht
      split_ifs at ht
      cases ht
      exact ⟨fun _ => rfl, nofun⟩
  agrees i t ht := by
    by_cases hh : t.Holds
    · exact h.agrees i t (get?_create ht hh)
    · exact agrees_of_not_holds hh

/-- **One step that meets the condition.** -/
theorem statesAgree_step [DecidableEq State] [DecidableEq Host] {s s' : Sys State Host} {a : Action State Event Host}
    (h : StatesAgree available s) (hmeets : Meets machine available s a)
    (hstep : step machine available s a = some s') :
    StatesAgree available s' := by
  have hlocks := locksAgree_step h.locks hstep
  obtain ⟨host, shared, rfl, rfl⟩ | ⟨i, action, t, row', t', rfl, ht, hrun, rfl⟩ := step_cases hstep
  · exact statesAgree_create host shared h
  obtain ⟨hformed, hagrees, hdrifts⟩ := run_agrees (h.locks.ok i t ht) (h.formed i t ht) (h.agrees i t ht)
    (hmeets t ht) hrun
  have hi : (s.tasks.set i t')[i]? = some t' := List.getElem?_set_self (List.getElem?_eq_some_iff.mp ht).1
  refine ⟨hlocks, fun j u hu => ?_, fun j u hu => ?_⟩
  · rcases eq_or_ne j i with rfl | hj
    · cases hi.symm.trans hu
      exact hformed
    · exact h.formed j u (by rwa [List.getElem?_set_ne hj.symm] at hu)
  · rcases eq_or_ne j i with rfl | hj
    · cases hi.symm.trans hu
      exact hagrees
    · rw [List.getElem?_set_ne hj.symm] at hu
      by_cases hh : u.Holds
      · -- the acting task does not hold beside `u`
        have hne : ¬ t.Holds := fun hh' => hj (h.locks.unique j i ⟨u, hu, hh⟩ ⟨t, ht, hh'⟩)
        exact (h.agrees j u hu).of_drifts (hdrifts hne)
      · exact agrees_of_not_holds hh

theorem statesAgree_run [DecidableEq State] [DecidableEq Host] {row : Row State Host} {s : Sys State Host}
    (h : Reach (step machine available) (Meets machine available) (startSys row) s) : StatesAgree available s :=
  h.invariant (statesAgree_start row) fun _ _ _ hs hm hstep => statesAgree_step hs hm hstep

/-- What `process_event` saves in the step is the machine's successor, under the event, of what was stored. -/
def SavesSuccessor [DecidableEq State] (machine : Machine State Event) (s : Sys State Host)
    (a : Action State Event Host) (s' : Sys State Host) : Prop :=
  ∀ i event callback errHandler target t fsm r',
    a = .task i (.processEvent event callback errHandler target) → s.tasks[i]? = some t → t.fsm = some fsm →
    (fsm.processEvent machine event target).2 = true → s'.row = some r' →
    ∃ r p q, s.row = some r ∧ r.provisionState = some p ∧ machine.next p event = some q ∧ r'.provisionState = some q

/-- **Where every step meets the condition, transitions follow the machine**: in every run of tasks whose upgrades find
the node in the state their machine was initialized with. -/
theorem transitions_follow [DecidableEq State] [DecidableEq Host] {row : Row State Host} {s s' : Sys State Host}
    {a : Action State Event Host} (h : Reach (step machine available) (Meets machine available) (startSys row) s)
    (hmeets : Meets machine available s a) (hstep : step machine available s a = some s') :
    SavesSuccessor machine s a s' := by
  intro i event callback errHandler target t fsm r' ha ht hf hreturned hr'
  have hs := statesAgree_run h
  obtain ⟨_, _, rfl, _⟩ | ⟨_, _, t₁, row', t', rfl, ht₁, hrun, rfl⟩ := step_cases hstep
  · cases ha
  cases ha
  cases ht.symm.trans ht₁
  simp only [TaskAction.run] at hrun
  obtain ⟨⟨_, hshared⟩, hrun⟩ := ite_none_right_eq_some.mp hrun
  split at hrun
  · next node fsm₁ hn hf₁ =>
    cases hf.symm.trans hf₁
    have hrow : (taskProcessEvent machine s.row t node fsm event callback errHandler target).1 = some r' := by
      rw [Option.some.inj hrun]
      exact hr'
    obtain ⟨_, r, hr, hp, hsaved⟩ := taskProcessEvent_agrees (hs.agrees i t ht) hshared hn hf (hmeets t ht) hrow
    obtain ⟨q, hq, hsaved⟩ := hsaved hreturned
    exact ⟨r, fsm.current, q, hr, hp, hq, hsaved⟩
  · cases hrun

end Transitions

/-! The inspection that is under way when its status is read: it fails by a timeout, or it does not. -/

def inspectingRow : Row ProvisionState ℕ := ⟨none, some .inspecting, some .manageable⟩

/-- The periodic task has read the status. -/
def statusRead : List (Action ProvisionState ProvisionEvent ℕ) :=
  [.create 1 true, .task 0 .read, .task 0 .initFsm]

/-- The inspection fails: another conductor takes the node, saves and leaves. -/
def timeout : List (Action ProvisionState ProvisionEvent ℕ) :=
  [.create 2 false, .task 1 (.lock true), .task 1 .initFsm, .task 1 (.processEvent .fail false false none),
    .task 1 (.exit false .ok)]

def inspectionDone : Action ProvisionState ProvisionEvent ℕ := .task 0 (.processEvent .done false false none)

def afterTimeout : Sys ProvisionState ℕ :=
  (replay (step provisionMachine .available) (fun _ _ => True) (startSys inspectingRow)
    (statusRead ++ timeout ++ [.task 0 .upgrade])).get (by decide +kernel)

def afterTimeoutDone : Sys ProvisionState ℕ :=
  (step provisionMachine .available afterTimeout inspectionDone).get (by decide +kernel)

/-- Without the timeout the upgrade finds the node in the state of the task's machine. -/
def upgraded : Sys ProvisionState ℕ :=
  ⟨some ⟨some 1, some .inspecting, some .manageable⟩, [⟨1, false, .inside, some ⟨some .inspecting, some .manageable⟩,
    some ⟨.inspecting, some .manageable⟩, false, none⟩]⟩

def inspected : Sys ProvisionState ℕ :=
  (step provisionMachine .available upgraded inspectionDone).get (by decide +kernel)

theorem transitions_follow_done :
    SavesSuccessor provisionMachine upgraded inspectionDone inspected ∧
      inspected.row = some ⟨some 1, some .manageable, none⟩ := by
  have h : Reach (step provisionMachine .available) (Meets provisionMachine .available) (startSys inspectingRow)
      upgraded := by
    refine .tail (a := .task 0 .upgrade) (.tail (a := .task 0 .initFsm) (.tail (a := .task 0 .read)
      (.tail (a := .create 1 true) .refl trivial rfl) (fun _ _ => trivial) rfl) (fun _ _ => trivial) rfl) ?_ rfl
    intro t ht r fsm hr _ hf
    cases ht
    cases hr
    cases hf
    rfl
  exact ⟨transitions_follow h (fun _ _ => rfl) (some_get _).symm, by decide +kernel⟩

/-- The node fails its inspection between the shared read and the upgrade, and `done` moves it to MANAGEABLE. -/
theorem upgraded_not_follows :
    ¬ ∀ (row : Row ProvisionState ℕ) (s s' : Sys ProvisionState ℕ) (a : Action ProvisionState ProvisionEvent ℕ),
      Reach (step provisionMachine .available) (fun _ _ => True) (startSys row) s →
        step provisionMachine .available s a = some s' → SavesSuccessor provisionMachine s a s' := by
  intro h
  have hsaved := h inspectingRow afterTimeout afterTimeoutDone inspectionDone
    (Reach.of_replay (some_get _).symm) (some_get _).symm 0 .done false false none
  have hrow : afterTimeout.row = some ⟨some 1, some .inspectFail, some .manageable⟩ := by decide +kernel
  obtain ⟨r, p, q, hr, hp, hq, _⟩ := hsaved ⟨1, false, .inside, some ⟨some .inspectFail, some .manageable⟩,
    some ⟨.inspecting, some .manageable⟩, false, none⟩ ⟨.inspecting, some .manageable⟩
    ⟨some 1, some .manageable, none⟩ rfl (by decide +kernel) rfl (by decide +kernel) (by decide +kernel)
  rw [hrow] at hr
  cases hr
  cases hp
  exact nomatch hq

end Mitaka.Ironic
