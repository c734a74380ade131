/-
  Subject: ironic/conductor/task_manager.py: who holds the node.

  The reservation names a conductor and not a task. A task knows that it holds the node by
  its own fields (`Task.Holds`); that these and the reservation agree is the invariant
  (`LocksAgree`): at most one task holds, the reservation is that of its conductor, and a
  reservation without a task that holds does not exist.
-/
import Mitaka.Ironic.TaskManager

namespace Mitaka.Ironic

open Option

section Locks

variable {State Event Host : Type} {machine : Machine State Event}
  {available : State}

/-! ## 1. What an action does to the reservation -/

/-- The task holds the node exclusively. -/
def Task.Holds (t : Task State Host) : Prop := t.shared = false ∧ t.node.isSome = true

/-- The reservation of the node; nothing when the node was deleted. -/
def lockState (row : Option (Row State Host)) : Option (Option Host) := row.map (·.reservation)

/-- What the fields of a task say of the row. -/
structure Ok (row : Option (Row State Host)) (t : Task State Host) : Prop where
  ended : t.phase = .ended → t.node = none
  held : t.Holds → lockState row = none ∨ lockState row = some (some t.host)

/-- **The effect of an action** on the reservation and on who holds the node. -/
inductive Effect (row : Option (Row State Host)) (t : Task State Host) (row' : Option (Row State Host))
    (t' : Task State Host) : Prop
  | keeps (hholds : t'.Holds ↔ t.Holds) (hlock : lockState row' = lockState row ∨ t.Holds ∧ lockState row' = none)
  | takes (hfree : lockState row = some none) (hholds : t'.Holds) (hlock : lockState row' = some (some t.host))
  | drops (hheld : t.Holds) (hholds : ¬ t'.Holds) (hlock : lockState row' = none ∨ lockState row' = some none)

variable {row : Option (Row State Host)}

theorem reserveNode_ok {tag : Host} {reserved : Row State Host}
    (h : reserveNode tag row = .ok reserved) :
    lockState row = some none ∧ reserved.reservation = some tag ∧ row = some { reserved with reservation := none } := by
  unfold reserveNode at h
  split at h
  · exact nomatch h
  · next r =>
    split at h
    · next hr =>
      cases h
      refine ⟨congrArg some hr, rfl, ?_⟩
      rw [← hr]
    · exact nomatch h

variable {t : Task State Host}

theorem not_holds_of_node (h : t.node = none) : ¬ t.Holds := by
  intro hh
  rw [Task.Holds, h] at hh
  exact nomatch hh.2

/-- **`release_resources` gives back what the task holds, and nothing else.** -/
theorem releaseResources_eq [DecidableEq Host] (h : Ok row t) :
    (t.Holds ∧ releaseResources row t =
        (row.map fun r => { r with reservation := none }, { t with node := none, fsm := none })) ∨
      (¬ t.Holds ∧ releaseResources row t = (row, { t with node := none, fsm := none })) := by
  by_cases hh : t.Holds
  · left
    have hc : t.shared = false ∧ t.node.isSome = true := hh
    refine ⟨hh, ?_⟩
    rw [releaseResources, if_pos hc]
    rcases h.held hh with hnone | hsome
    · rw [map_eq_none_iff.mp hnone]
      rfl
    · obtain ⟨r, rfl, hr⟩ := map_eq_some_iff.mp hsome
      rw [releaseNode, if_pos hr]
      rfl
  · right
    have hc : ¬ (t.shared = false ∧ t.node.isSome = true) := hh
    exact ⟨hh, by rw [releaseResources, if_neg hc]⟩

theorem endTask_spec [DecidableEq Host] (h : Ok row t) :
    (endTask row t).2.node = none ∧ (endTask row t).2.host = t.host ∧
      Effect row t (endTask row t).1 (endTask row t).2 := by
  have hnot : ¬ ({ t with node := none, fsm := none, phase := .ended } : Task State Host).Holds :=
    not_holds_of_node rfl
  rcases releaseResources_eq h with ⟨hh, e⟩ | ⟨hh, e⟩
  · rw [endTask, e]
    refine ⟨rfl, rfl, .drops hh hnot ?_⟩
    cases row with
    | none => exact .inl rfl
    | some r => exact .inr rfl
  · rw [endTask, e]
    exact ⟨rfl, rfl, .keeps ⟨fun hn => absurd hn hnot, fun hn => absurd hn hh⟩ (.inl rfl)⟩

theorem lockState_saveNode [DecidableEq State] (old new : Node State) (row : Option (Row State Host)) :
    lockState (saveNode old new row) = lockState row := by
  cases row with
  | none => rfl
  | some r => rfl

theorem lockState_errorHook [DecidableEq State] (row : Option (Row State Host)) (t : Task State Host)
    (noWorker : Bool) :
    lockState (errorHook row t noWorker) = lockState row := by
  unfold errorHook
  split
  · split_ifs
    · exact lockState_saveNode _ _ _
    · rfl
  · rfl

theorem Ok.of_lockState {row row' : Option (Row State Host)} {t t' : Task State Host} (h : Ok row t)
    (hrow : lockState row' = lockState row) (hended : t'.phase = .ended → t'.node = none) (hhost : t'.host = t.host)
    (hholds : t'.Holds ↔ t.Holds) : Ok row' t' :=
  ⟨hended, fun hh => by rw [hrow, hhost]; exact h.held (hholds.mp hh)⟩

theorem Effect.of_lockState {row row₁ row' : Option (Row State Host)} {t t₁ t' : Task State Host}
    (h : Effect row₁ t₁ row' t') (hrow : lockState row₁ = lockState row) (hhost : t₁.host = t.host)
    (hholds : t₁.Holds ↔ t.Holds) : Effect row t row' t' := by
  cases h with
  | keeps hh hl => exact .keeps (hh.trans hholds) (hl.imp (·.trans hrow) fun hl => ⟨hholds.mp hl.1, hl.2⟩)
  | takes hf hh hl => exact .takes (hrow ▸ hf) hh (hhost ▸ hl)
  | drops hd hh hl => exact .drops (hholds.mp hd) hh hl

/-- The task is the same for the locks: its conductor, whether it holds, and that it goes on. -/
structure Goes (t t' : Task State Host) : Prop where
  host : t'.host = t.host
  holds : t'.Holds ↔ t.Holds
  phase : t'.phase ≠ .ended

theorem taskProcessEvent_spec [DecidableEq State] (machine : Machine State Event) (row : Option (Row State Host))
    {node : Node State} (fsm : Fsm State)
    (hnode : t.node = some node) (hphase : t.phase ≠ .ended) (event : Event) (callback errHandler : Bool)
    (targetState : Option State) :
    Goes t (taskProcessEvent machine row t node fsm event callback errHandler targetState).2 ∧
      lockState (taskProcessEvent machine row t node fsm event callback errHandler targetState).1 = lockState row := by
  unfold taskProcessEvent
  split
  next fsm' returned _ =>
  by_cases hr : returned = false
  · rw [if_pos hr]
    exact ⟨⟨rfl, Iff.rfl, hphase⟩, rfl⟩
  · rw [if_neg hr]
    exact ⟨⟨rfl, by simp [Task.Holds, hnode], hphase⟩, lockState_saveNode _ _ _⟩

/-- **What an action does to the reservation.** -/
theorem run_spec [DecidableEq State] [DecidableEq Host] {row row' : Option (Row State Host)} {t t' : Task State Host}
    {action : TaskAction State Event}
    (hok : Ok row t) (h : action.run machine available row t = some (row', t')) :
    t'.host = t.host ∧ (t'.phase = .ended → t'.node = none) ∧ Effect row t row' t' := by
  have hend {row₁ : Option (Row State Host)} {t₁ : Task State Host} (he : endTask row₁ t₁ = (row', t'))
      (hrow : lockState row₁ = lockState row)
      (hgoes : t₁.host = t.host ∧ (t₁.Holds ↔ t.Holds) ∧ (t₁.phase = .ended → t₁.node = none)) :
      t'.host = t.host ∧ (t'.phase = .ended → t'.node = none) ∧ Effect row t row' t' := by
    obtain ⟨hhost, hholds, hended⟩ := hgoes
    obtain ⟨hn, hh, heff⟩ := endTask_spec (hok.of_lockState hrow hended hhost hholds)
    rw [he] at hn hh heff
    exact ⟨hh.trans hhost, fun _ => hn, heff.of_lockState hrow hhost hholds⟩
  have hsame : t.host = t.host ∧ (t.Holds ↔ t.Holds) ∧ (t.phase = .ended → t.node = none) := ⟨rfl, Iff.rfl, hok.ended⟩
  have hkeep {row₁ : Option (Row State Host)} {t₁ : Task State Host} (he : (row₁, t₁) = (row', t'))
      (hrow : lockState row₁ = lockState row ∨ t.Holds ∧ lockState row₁ = none) (hgoes : Goes t t₁) :
      t'.host = t.host ∧ (t'.phase = .ended → t'.node = none) ∧ Effect row t row' t' := by
    cases he
    exact ⟨hgoes.host, fun hp => absurd hp hgoes.phase, .keeps hgoes.holds hrow⟩
  have halive {p : Phase} (hp : t.phase = p) (hne : p ≠ .ended) : t.phase ≠ .ended := by
    rw [hp]
    exact hne
  cases action with
  | lock retry =>
    simp only [TaskAction.run] at h
    obtain ⟨hg, h⟩ := ite_none_right_eq_some.mp h
    split at h
    · next reserved hr =>
      obtain ⟨hfree, hres, _⟩ := reserveNode_ok hr
      cases h
      refine ⟨rfl, fun hp => ?_, .takes hfree ⟨hg.2.1, rfl⟩ (congrArg some hres)⟩
      exact absurd (hg.1.symm.trans hp) nofun
    · replace h := Option.some.inj h
      split_ifs at h with hretry
      · exact hkeep h (.inl rfl) ⟨rfl, Iff.rfl, halive hg.1 nofun⟩
      · exact hend h rfl hsame
    · exact hend (Option.some.inj h) rfl hsame
  | read =>
    simp only [TaskAction.run] at h
    obtain ⟨hg, h⟩ := ite_none_right_eq_some.mp h
    split at h
    · refine hkeep (Option.some.inj h) (.inl rfl) ⟨rfl, ?_, halive hg.1 nofun⟩
      simp [Task.Holds, hg.2.1]
    · exact hend (Option.some.inj h) rfl hsame
  | noState =>
    simp only [TaskAction.run] at h
    split at h
    · next node hp hn =>
      have hholds (saved : Node State) : ({ t with node := some saved } : Task State Host).Holds ↔ t.Holds := by
        simp [Task.Holds, hn]
      obtain ⟨_, h⟩ := ite_none_right_eq_some.mp h
      replace h := Option.some.inj h
      split_ifs at h with hrow
      · exact hend h rfl ⟨rfl, hholds _, fun he => absurd he (halive hp nofun)⟩
      · exact hkeep h (.inl (lockState_saveNode _ _ _)) ⟨rfl, hholds _, halive hp nofun⟩
    · exact nomatch h
  | initFsm =>
    simp only [TaskAction.run] at h
    split at h
    · split at h
      · exact nomatch h
      · split at h
        · exact hkeep (Option.some.inj h) (.inl rfl) ⟨rfl, Iff.rfl, nofun⟩
        · exact hend (Option.some.inj h) rfl hsame
    · exact nomatch h
  | fail =>
    simp only [TaskAction.run] at h
    obtain ⟨_, h⟩ := ite_none_right_eq_some.mp h
    exact hend (Option.some.inj h) rfl hsame
  | upgrade =>
    simp only [TaskAction.run] at h
    obtain ⟨⟨hp, _⟩, h⟩ := ite_none_right_eq_some.mp h
    have hphase : t.phase ≠ .ended := hp.elim (halive · nofun) (halive · nofun)
    split at h
    · next reserved hr =>
      obtain ⟨hfree, hres, _⟩ := reserveNode_ok hr
      cases h
      exact ⟨rfl, fun hp => absurd hp hphase, .takes hfree ⟨rfl, rfl⟩ (congrArg some hres)⟩
    · exact hkeep (Option.some.inj h) (.inl rfl) ⟨rfl, Iff.rfl, hphase⟩
  | processEvent event callback errHandler targetState =>
    simp only [TaskAction.run] at h
    obtain ⟨⟨hp, _⟩, h⟩ := ite_none_right_eq_some.mp h
    split at h
    · next node fsm hn _ =>
      obtain ⟨hgoes, hlock⟩ := taskProcessEvent_spec machine row fsm hn
        (hp.elim (halive · nofun) (halive · nofun)) event callback errHandler targetState
      exact hkeep (Option.some.inj h) (.inl hlock) hgoes
    · exact nomatch h
  | spawnAfter =>
    simp only [TaskAction.run] at h
    obtain ⟨hp, h⟩ := ite_none_right_eq_some.mp h
    exact hkeep (Option.some.inj h) (.inl rfl) ⟨rfl, Iff.rfl, halive hp nofun⟩
  | deleteNode =>
    simp only [TaskAction.run] at h
    obtain ⟨⟨hp, hholds⟩, h⟩ := ite_none_right_eq_some.mp h
    exact hkeep (Option.some.inj h) (.inr ⟨hholds, rfl⟩) ⟨rfl, Iff.rfl, hp.elim (halive · nofun) (halive · nofun)⟩
  | exit exception spawn =>
    simp only [TaskAction.run] at h
    obtain ⟨_, h⟩ := ite_none_right_eq_some.mp h
    split at h
    · split at h
      · exact hkeep (Option.some.inj h) (.inl rfl) ⟨rfl, Iff.rfl, nofun⟩
      · exact hend (Option.some.inj h) (lockState_errorHook _ _ _) hsame
      · exact hend (Option.some.inj h) rfl hsame
    · exact hend (Option.some.inj h) rfl hsame
  | workerDone =>
    simp only [TaskAction.run] at h
    obtain ⟨_, h⟩ := ite_none_right_eq_some.mp h
    exact hend (Option.some.inj h) rfl hsame

/-! ## 2. The invariant -/

theorem step_cases [DecidableEq State] [DecidableEq Host] {s s' : Sys State Host} {a : Action State Event Host}
    (h : step machine available s a = some s') :
    (∃ host shared, a = .create host shared ∧ s' = { s with tasks := s.tasks ++ [Task.start host shared] }) ∨
      ∃ i action t row' t', a = .task i action ∧ s.tasks[i]? = some t ∧
        action.run machine available s.row t = some (row', t') ∧ s' = ⟨row', s.tasks.set i t'⟩ := by
  cases a with
  | create host shared => exact .inl ⟨host, shared, rfl, (Option.some.inj h).symm⟩
  | task i action =>
    rw [step] at h
    split at h
    · exact nomatch h
    · next t ht =>
      obtain ⟨u, hu, hs⟩ := map_eq_some_iff.mp h
      exact .inr ⟨i, action, t, u.1, u.2, rfl, ht, hu, hs.symm⟩

/-- The task at `i` holds the node. -/
def Sys.Holder (s : Sys State Host) (i : ℕ) : Prop := ∃ t, s.tasks[i]? = some t ∧ t.Holds

/-- **The reservation and the tasks agree.** -/
structure LocksAgree (s : Sys State Host) : Prop where
  ok : ∀ (i : ℕ) t, s.tasks[i]? = some t → Ok s.row t
  unique : ∀ i j, s.Holder i → s.Holder j → i = j
  taken : ∀ host, lockState s.row = some (some host) →
    ∃ (i : ℕ) (t : Task State Host), s.tasks[i]? = some t ∧ t.Holds ∧ t.host = host

variable {s : Sys State Host}

/-- A task that has just begun holds nothing. -/
theorem get?_create {host : Host} {shared : Bool} {i : ℕ}
    (h : (s.tasks ++ [Task.start host shared])[i]? = some t) (hh : t.Holds) : s.tasks[i]? = some t := by
  rcases Nat.lt_or_ge i s.tasks.length with hi | hi
  · rwa [List.getElem?_append_left hi] at h
  · rw [List.getElem?_append_right hi, List.getElem?_singleton] at h
    split_ifs at h
    cases h
    exact absurd hh (not_holds_of_node rfl)

theorem locksAgree_start (row : Row State Host) : LocksAgree (startSys row : Sys State Host) where
  ok _ _ h := nomatch h
  unique _ _ h _ := nomatch h.choose_spec.1
  taken _ h := nomatch h

theorem locksAgree_create (host : Host) (shared : Bool) (h : LocksAgree s) :
    LocksAgree { s with tasks := s.tasks ++ [Task.start host shared] } where
  ok i t ht := by
    rcases Nat.lt_or_ge i s.tasks.length with hi | hi
    · exact h.ok i t (by rwa [List.getElem?_append_left hi] at ht)
    · rw [List.getElem?_append_right hi, List.getElem?_singleton] at ht
      split_ifs at ht
      cases ht
      exact ⟨nofun, fun hh => absurd hh (not_holds_of_node rfl)⟩
  unique i j := by
    rintro ⟨t, ht, htt⟩ ⟨u, hu, huu⟩
    exact h.unique i j ⟨t, get?_create ht htt, htt⟩ ⟨u, get?_create hu huu, huu⟩
  taken g hg := by
    obtain ⟨i, t, ht, hh⟩ := h.taken g hg
    exact ⟨i, t, (List.getElem?_append_left (List.getElem?_eq_some_iff.mp ht).1).trans ht, hh⟩

section TaskStep

variable {s : Sys State Host} {i : ℕ} {t t' : Task State Host} {row' : Option (Row State Host)}

theorem holder_set_self (ht : s.tasks[i]? = some t) : Sys.Holder ⟨row', s.tasks.set i t'⟩ i ↔ t'.Holds := by
  have hi : (s.tasks.set i t')[i]? = some t' := List.getElem?_set_self (List.getElem?_eq_some_iff.mp ht).1
  constructor
  · rintro ⟨u, hu, hh⟩
    cases hi.symm.trans hu
    exact hh
  · exact fun hh => ⟨t', hi, hh⟩

theorem holder_set_ne {j : ℕ} (hj : j ≠ i) : Sys.Holder ⟨row', s.tasks.set i t'⟩ j ↔ s.Holder j := by
  rw [Sys.Holder, Sys.Holder]
  simp only [List.getElem?_set_ne (Ne.symm hj)]

theorem holder_self (ht : s.tasks[i]? = some t) : s.Holder i ↔ t.Holds :=
  ⟨fun ⟨_, hu, hh⟩ => Option.some.inj (ht.symm.trans hu) ▸ hh, fun hh => ⟨t, ht, hh⟩⟩

/-- Nobody holds a node whose row is not reserved. -/
theorem LocksAgree.not_holder_of_free (h : LocksAgree s) (hfree : lockState s.row = some none)
    (j : ℕ) : ¬ s.Holder j := by
  rintro ⟨u, hu, hh⟩
  rcases (h.ok j u hu).held hh with hn | hn
  · exact nomatch hfree.symm.trans hn
  · exact nomatch hfree.symm.trans hn

variable {action : TaskAction State Event}

/-- The task acts: the fields of every task agree with the new row. -/
theorem ok_task [DecidableEq State] [DecidableEq Host] (h : LocksAgree s)
    (ht : s.tasks[i]? = some t)
    (hrun : action.run machine available s.row t = some (row', t')) (j : ℕ) (u : Task State Host)
    (hu : (s.tasks.set i t')[j]? = some u) : Ok row' u := by
  obtain ⟨hhost, hended, heff⟩ := run_spec (h.ok i t ht) hrun
  rcases eq_or_ne j i with rfl | hj
  · have hi : (s.tasks.set j t')[j]? = some t' := List.getElem?_set_self (List.getElem?_eq_some_iff.mp ht).1
    cases hi.symm.trans hu
    refine ⟨hended, fun hh => ?_⟩
    cases heff with
    | keeps hk hl =>
      rcases hl with hl | ⟨_, hl⟩
      · rw [hl, hhost]
        exact (h.ok j t ht).held (hk.mp hh)
      · exact .inl hl
    | takes _ _ hl => exact .inr (hhost ▸ hl)
    | drops _ hn _ => exact absurd hh hn
  · rw [List.getElem?_set_ne hj.symm] at hu
    refine ⟨(h.ok j u hu).ended, fun hh => ?_⟩
    -- the acting task holds only where the two are one
    have hne : ¬ t.Holds := fun hh' => hj (h.unique j i ⟨u, hu, hh⟩ ⟨t, ht, hh'⟩)
    cases heff with
    | keeps _ hl =>
      rcases hl with hl | ⟨hh', _⟩
      · exact hl ▸ (h.ok j u hu).held hh
      · exact absurd hh' hne
    | takes hf _ _ => exact absurd ⟨u, hu, hh⟩ (h.not_holder_of_free hf j)
    | drops hh' _ _ => exact absurd hh' hne

theorem unique_task [DecidableEq State] [DecidableEq Host] (h : LocksAgree s)
    (ht : s.tasks[i]? = some t)
    (hrun : action.run machine available s.row t = some (row', t')) (j k : ℕ)
    (hj : Sys.Holder ⟨row', s.tasks.set i t'⟩ j) (hk : Sys.Holder ⟨row', s.tasks.set i t'⟩ k) : j = k := by
  obtain ⟨_, _, heff⟩ := run_spec (h.ok i t ht) hrun
  -- who holds now has held before, or is the acting task and nobody has held before
  have hbefore : (∀ l, Sys.Holder ⟨row', s.tasks.set i t'⟩ l → s.Holder l) ∨
      ∀ l, Sys.Holder ⟨row', s.tasks.set i t'⟩ l → l = i := by
    cases heff with
    | keeps hholds _ =>
      left
      intro l hl
      rcases eq_or_ne l i with rfl | hli
      · exact (holder_self ht).mpr (hholds.mp ((holder_set_self ht).mp hl))
      · exact (holder_set_ne hli).mp hl
    | takes hf _ _ =>
      right
      intro l hl
      by_contra hli
      exact h.not_holder_of_free hf l ((holder_set_ne hli).mp hl)
    | drops _ hn _ =>
      left
      intro l hl
      rcases eq_or_ne l i with rfl | hli
      · exact absurd ((holder_set_self ht).mp hl) hn
      · exact (holder_set_ne hli).mp hl
  rcases hbefore with hb | hb
  · exact h.unique j k (hb j hj) (hb k hk)
  · exact (hb j hj).trans (hb k hk).symm

theorem taken_task [DecidableEq State] [DecidableEq Host] (h : LocksAgree s)
    (ht : s.tasks[i]? = some t)
    (hrun : action.run machine available s.row t = some (row', t')) (host : Host)
    (htaken : lockState row' = some (some host)) :
    ∃ (j : ℕ) (u : Task State Host), (s.tasks.set i t')[j]? = some u ∧ u.Holds ∧ u.host = host := by
  obtain ⟨hhost, _, heff⟩ := run_spec (h.ok i t ht) hrun
  have hi : (s.tasks.set i t')[i]? = some t' := List.getElem?_set_self (List.getElem?_eq_some_iff.mp ht).1
  cases heff with
  | keeps hholds hl =>
    rcases hl with hl | ⟨_, hl⟩
    · obtain ⟨j, u, hu, hh, hhu⟩ := h.taken host (hl ▸ htaken)
      rcases eq_or_ne j i with rfl | hj
      · cases ht.symm.trans hu
        exact ⟨j, t', hi, hholds.mpr hh, hhost.trans hhu⟩
      · exact ⟨j, u, by rwa [List.getElem?_set_ne hj.symm], hh, hhu⟩
    · exact nomatch hl.symm.trans htaken
  | takes _ hh hl =>
    have heq : t.host = host := Option.some.inj (Option.some.inj (hl.symm.trans htaken))
    exact ⟨i, t', hi, hh, hhost.trans heq⟩
  | drops _ _ hl =>
    rcases hl with hl | hl
    · exact nomatch hl.symm.trans htaken
    · exact nomatch hl.symm.trans htaken

end TaskStep

theorem locksAgree_step [DecidableEq State] [DecidableEq Host] {s s' : Sys State Host} {a : Action State Event Host}
    (h : LocksAgree s)
    (hstep : step machine available s a = some s') : LocksAgree s' := by
  obtain ⟨host, shared, rfl, rfl⟩ | ⟨i, action, t, row', t', rfl, ht, hrun, rfl⟩ := step_cases hstep
  · exact locksAgree_create host shared h
  · exact ⟨ok_task h ht hrun, unique_task h ht hrun, taken_task h ht hrun⟩

theorem locksAgree_run [DecidableEq State] [DecidableEq Host] {row : Row State Host}
    (h : Reach (step machine available) (fun _ _ => True) (startSys row) s) : LocksAgree s :=
  h.invariant (locksAgree_start row) fun _ _ _ hs _ hstep => locksAgree_step hs hstep

/-! ## 3. Exclusive, and given back -/

/-- **Node locks are exclusive and do not leak.** In every state of every run at most one task holds the node; a
reservation is that of the conductor of a task that holds and has not ended, and an ended task does not hold. When a
task acts, a reservation another task has is left as it is; a task that comes to hold has reserved a free node; a task
that stops holding has given the reservation back, or the node is deleted. -/
theorem locks_exclusive [DecidableEq State] [DecidableEq Host] {row : Row State Host} {s : Sys State Host}
    (h : Reach (step machine available) (fun _ _ => True) (startSys row) s) :
    (∀ i j, s.Holder i → s.Holder j → i = j) ∧
      (∀ host, lockState s.row = some (some host) →
        ∃ (i : ℕ) (t : Task State Host), s.tasks[i]? = some t ∧ t.Holds ∧ t.host = host ∧ t.phase ≠ .ended) ∧
      (∀ (i : ℕ) t, s.tasks[i]? = some t → t.phase = .ended → ¬ t.Holds) ∧
      ∀ i action s', step machine available s (.task i action) = some s' →
        (∀ j, j ≠ i → s.Holder j → s'.Holder j ∧ lockState s'.row = lockState s.row) ∧
        (¬ s.Holder i → s'.Holder i → lockState s.row = some none ∧
          ∃ t', s'.tasks[i]? = some t' ∧ lockState s'.row = some (some t'.host)) ∧
        (s.Holder i → ¬ s'.Holder i → lockState s'.row = none ∨ lockState s'.row = some none) := by
  have hs : LocksAgree s := locksAgree_run h
  have hended (i : ℕ) (t : Task State Host) (ht : s.tasks[i]? = some t) (hp : t.phase = .ended) : ¬ t.Holds :=
    not_holds_of_node ((hs.ok i t ht).ended hp)
  refine ⟨hs.unique, fun host hhost => ?_, hended, fun i action s' hstep => ?_⟩
  · obtain ⟨i, t, ht, hh, hhost⟩ := hs.taken host hhost
    exact ⟨i, t, ht, hh, hhost, fun hp => hended i t ht hp hh⟩
  · obtain ⟨_, _, hcreate, _⟩ | ⟨_, _, t, row', t', heq, ht, hrun, rfl⟩ := step_cases hstep
    · exact nomatch hcreate
    cases heq
    obtain ⟨hhost, _, heff⟩ := run_spec (hs.ok i t ht) hrun
    have hi : (s.tasks.set i t')[i]? = some t' := List.getElem?_set_self (List.getElem?_eq_some_iff.mp ht).1
    rw [holder_self ht, holder_set_self ht]
    refine ⟨fun j hj hh => ⟨(holder_set_ne hj).mpr hh, ?_⟩, ?_⟩
    · have hne : ¬ t.Holds := fun hh' => hj (hs.unique j i hh ((holder_self ht).mpr hh'))
      cases heff with
      | keeps _ hl => exact hl.resolve_right fun hl => hne hl.1
      | takes hf _ _ => exact absurd hh (hs.not_holder_of_free hf j)
      | drops hh' _ _ => exact absurd hh' hne
    · cases heff with
      | keeps hholds _ => exact ⟨fun hn hh => absurd (hholds.mp hh) hn, fun hh hn => absurd (hholds.mpr hh) hn⟩
      | takes hf hh hl => exact ⟨fun _ _ => ⟨hf, t', hi, hhost ▸ hl⟩, fun _ hn => absurd hh hn⟩
      | drops hh hn hl => exact ⟨fun hn' _ => absurd hh hn', fun _ _ => hl⟩

end Locks

/-! The two tasks of one conductor: the second waits, the first spawns a worker whose completion releases. -/

/-- One transition. -/
def deployMachine : Machine ℕ Unit where
  next s _ := if s = 0 then some 1 else none
  isStable s := if s ≤ 1 then some (decide (s = 0)) else none
  target _ := none

def deployActions : List (Action ℕ Unit ℕ) :=
  [.create 7 false, .create 7 false, .task 0 (.lock true), .task 1 (.lock true), .task 0 .initFsm,
    .task 0 (.processEvent () true true none), .task 0 (.exit false .ok), .task 1 (.lock true), .task 0 .workerDone,
    .task 1 (.lock true)]

def deployRow : Row ℕ ℕ := ⟨none, some 0, none⟩

def afterDeploy : Sys ℕ ℕ :=
  (replay (step deployMachine 0) (fun _ _ => True) (startSys deployRow) deployActions).get (by decide +kernel)

/-- The second task has the reservation of its conductor, and the first has none left. -/
theorem locks_exclusive_deploy :
    afterDeploy.row = some ⟨some 7, some 1, none⟩ ∧ (afterDeploy.tasks.map (·.phase)) = [.ended, .creating] ∧
      ∀ i j, afterDeploy.Holder i → afterDeploy.Holder j → i = j :=
  ⟨by decide +kernel, by decide +kernel,
    (locks_exclusive (Reach.of_replay (some_get _).symm : Reach (step deployMachine 0) (fun _ _ => True)
      (startSys deployRow) afterDeploy)).1⟩

end Mitaka.Ironic
