/-
  Subject: Every run of a `DependencyTaskGroup`.

  `Status` says what state a runner can be in, `Advance` what one call of it does.
  `GroupInv` holds between the calls: a task that is not done still has its node, which
  requires what has not returned; a task whose requirement is done or has raised without
  returning is done. Every call that is not an exception makes `Group.weight` smaller, and
  some task is always ready or running.
-/
import Mitaka.Heat.TaskGroup

namespace Mitaka.Heat

open List

/-! ## 1. Logs -/

section Log

variable {κ ε : Type}

/-- The keys of the tasks that have raised. -/
def raisers : List (Event κ ε) → List κ
  | [] => []
  | .raised k _ :: log => k :: raisers log
  | _ :: log => raisers log

@[simp] theorem raisers_started (k : κ) (log : List (Event κ ε)) : raisers (.started k :: log) = raisers log := rfl

@[simp] theorem raisers_returned (k : κ) (log : List (Event κ ε)) : raisers (.returned k :: log) = raisers log := rfl

@[simp] theorem raisers_raised (k : κ) (e : ε) (log : List (Event κ ε)) :
    raisers (.raised k e :: log) = k :: raisers log := rfl

variable {log : List (Event κ ε)}

theorem mem_raisers {k : κ} : k ∈ raisers log ↔ ∃ e, Event.raised k e ∈ log := by
  induction log with
  | nil => simp [raisers]
  | cons event log ih => cases event <;> simp [ih, exists_or]

/-- The keys of `D` are started after what they require has returned. -/
def Ordered (D : κ → κ → Prop) (log : List (Event κ ε)) : Prop :=
  ∀ after before k, log = after ++ .started k :: before → ∀ r, D k r → .returned r ∈ before

/-- Nothing is started after an exception. -/
def Halted (log : List (Event κ ε)) : Prop :=
  ∀ after before k e, log = after ++ .raised k e :: before → ∀ j, .started j ∉ after

theorem Ordered.cons {D : κ → κ → Prop} (h : Ordered D log) {event : Event κ ε}
    (he : ∀ k, event = .started k → ∀ r, D k r → .returned r ∈ log) : Ordered D (event :: log) := by
  intro after before k heq r hr
  cases after with
  | nil =>
    obtain ⟨rfl, rfl⟩ := List.cons.inj heq
    exact he k rfl r hr
  | cons x after => exact h after before k (List.cons.inj heq).2 r hr

theorem Ordered.mem {D : κ → κ → Prop} (h : Ordered D log) {k r : κ}
    (hk : .started k ∈ log) (hr : D k r) : .returned r ∈ log := by
  obtain ⟨after, before, rfl⟩ := append_of_mem hk
  exact mem_append_right _ (mem_cons_of_mem _ (h after before k rfl r hr))

theorem Halted.cons (h : Halted log) {event : Event κ ε}
    (he : ∀ k, event = .started k → raisers log = []) : Halted (event :: log) := by
  intro after before k e heq j hj
  cases after with
  | nil => cases hj
  | cons x after =>
    obtain ⟨hx, hlog⟩ := List.cons.inj heq
    rcases mem_cons.mp hj with hj | hj
    · have hk : k ∈ raisers log :=
        mem_raisers.mpr ⟨e, by rw [hlog]; exact mem_append_right _ mem_cons_self⟩
      rw [he j (hx.trans hj.symm)] at hk
      cases hk
    · exact h after before k e hlog j hj

end Log

/-! ## 2. Runners -/

section Runner

variable {κ ε : Type}

/-- The states of the runner of a task, from what the log says of it. -/
inductive Status (task : Task ε) (log : List (Event κ ε)) (k : κ) : TaskRunner ε → Prop
  | waiting (hret : .returned k ∉ log) (hraised : k ∉ raisers log) : Status task log k ⟨task, none, false, none⟩
  | active (n : Nat) (timeout : Option ℚ) (hstarted : .started k ∈ log) (hret : .returned k ∉ log)
      (hraised : k ∉ raisers log) : Status task log k ⟨task, some (some (.suspended n task.raises)), false, timeout⟩
  | exhausted (timeout : Option ℚ) (hstarted : .started k ∈ log) (hret : .returned k ∉ log)
      (hraised : k ∈ raisers log) : Status task log k ⟨task, some (some .closed), false, timeout⟩
  | done (r : TaskRunner ε) (hdone : r.done = true) : Status task log k r

variable {log : List (Event κ ε)} {r : TaskRunner ε}

theorem Status.returned {task : Task ε} {k : κ}
    (h : Status task log k r) (hdone : r.done = false) : .returned k ∉ log := by
  cases h with
  | waiting hret => exact hret
  | active n timeout hstarted hret => exact hret
  | exhausted timeout hstarted hret => exact hret
  | done r h => rw [h] at hdone; cases hdone

/-- The log may grow by events of other keys, and by the start of this one. -/
theorem Status.cons {task : Task ε} {k : κ}
    (h : Status task log k r) {event : Event κ ε} (hret : event ≠ .returned k)
    (hraised : ∀ e, event ≠ .raised k e) : Status task (event :: log) k r := by
  have hr : k ∈ raisers (event :: log) ↔ k ∈ raisers log := by
    rw [mem_raisers, mem_raisers]
    refine exists_congr fun e => ?_
    rw [mem_cons, or_iff_right fun h => hraised e h.symm]
  have hn : .returned k ∉ log → .returned k ∉ event :: log := fun h hm => by
    rcases mem_cons.mp hm with e | hm
    · exact hret e.symm
    · exact h hm
  cases h with
  | waiting h1 h2 => exact .waiting (hn h1) (mt hr.mp h2)
  | active n timeout hs h1 h2 => exact .active n timeout (mem_cons_of_mem _ hs) (hn h1) (mt hr.mp h2)
  | exhausted timeout hs h1 h2 => exact .exhausted timeout (mem_cons_of_mem _ hs) (hn h1) (hr.mpr h2)
  | done r h => exact .done r h

/-- The steps that are left to a task. -/
def TaskRunner.left (r : TaskRunner ε) : Nat :=
  if r.done then 0
  else
    match r.runner with
    | none => r.task.yields + 3
    | some (some (.suspended n _)) => n + 2
    | _ => 1

/-- One call of a runner that is not done. -/
inductive Advance (r : TaskRunner ε) : Outcome ε × TaskRunner ε → Prop
  | yielded (n : Nat) (hopen : r.runner ≠ some (some .closed)) (hleft : n + 2 < r.left) :
      Advance r (.yielded, { r with runner := some (some (.suspended n r.task.raises)) })
  | returned (r' : TaskRunner ε) (hopen : r.runner ≠ some (some .closed)) (hraises : r.task.raises = none)
      (hdone : r'.done = true) (htimeout : r'.timeout = r.timeout) : Advance r (.returned, r')
  | raised (e : ε) (runner : Option (Option (Generator ε))) (hopen : r.runner ≠ some (some .closed))
      (hraises : r.task.raises = some e) (hrunner : runner = none ∨ runner = some (some .closed)) :
      Advance r (.raised e, { r with runner := runner })
  | closed (r' : TaskRunner ε) (hdone : r'.done = true) (htimeout : r'.timeout = r.timeout)
      (hr : r.timeout ≠ none ∨ r.runner = some (some .closed)) : Advance r (.closed, r')

/-- A generator that is not at its end. -/
theorem advance_suspended (task : Task ε) (n : Nat) (timeout : Option ℚ) (now : ℚ) :
    Advance ⟨task, some (some (.suspended n task.raises)), false, timeout⟩
      (TaskRunner.step now ⟨task, some (some (.suspended n task.raises)), false, timeout⟩) := by
  rw [TaskRunner.step, if_neg Bool.false_ne_true]
  dsimp only
  by_cases hexp : TaskRunner.expired now ⟨task, some (some (.suspended n task.raises)), false, timeout⟩ = true
  · rw [if_pos hexp]
    refine .closed _ rfl rfl (Or.inl fun h => ?_)
    obtain rfl : timeout = none := h
    cases hexp
  · rw [if_neg hexp]
    cases n with
    | zero =>
      cases hraises : task.raises with
      | none => exact .returned _ nofun hraises rfl rfl
      | some e => exact .raised e _ nofun hraises (Or.inr rfl)
    | succ n => exact .yielded n nofun (by show n + 2 < n + 1 + 2; omega)

/-- **Starting a task.** -/
theorem advance_start (task : Task ε) (now : ℚ) :
    Advance ⟨task, none, false, none⟩ ((⟨task, none, false, none⟩ : TaskRunner ε).start now) := by
  rw [TaskRunner.start]
  dsimp only
  cases task with
  | function raises =>
    cases raises with
    | none => exact .returned _ nofun rfl rfl rfl
    | some e => exact .raised e none nofun rfl (Or.inl rfl)
  | coroutine yields raises =>
    cases yields with
    | zero =>
      cases raises with
      | none => exact .returned _ nofun rfl rfl rfl
      | some e => exact .raised e _ nofun rfl (Or.inr rfl)
    | succ n => exact .yielded n nofun (by show n + 2 < n + 1 + 3; omega)

/-- **Stepping a task that has started.** -/
theorem advance_step {task : Task ε} {k : κ}
    (h : Status task log k r) (hdone : r.done = false) (hstarted : r.started = true) (now : ℚ) :
    Advance r (r.step now) := by
  cases h with
  | waiting => cases hstarted
  | active n timeout => exact advance_suspended task n timeout now
  | exhausted timeout =>
    rw [TaskRunner.step]
    dsimp only
    rw [if_neg Bool.false_ne_true]
    split
    · exact .closed _ rfl rfl (Or.inr rfl)
    · exact .closed _ rfl rfl (Or.inr rfl)
  | done r h => rw [h] at hdone; cases hdone

theorem step_done (h : r.done = true) (now : ℚ) : r.step now = (.closed, r) := by
  rw [TaskRunner.step, if_pos h]

/-- Cancelling a task that has not started, or at once. -/
theorem cancel_done {gracePeriod : Option ℚ} (h : r.done = true ∨ r.runner = none ∨ gracePeriod = none)
    (now : ℚ) : (r.cancel gracePeriod now).done = true := by
  unfold TaskRunner.cancel
  by_cases hdone : r.done = true
  · rw [if_pos hdone, hdone]
  · rw [if_neg hdone]
    rcases h with h | h | rfl
    · exact absurd h hdone
    · rw [h]
    · cases r.runner <;> rfl

theorem cancel_none_timeout (r : TaskRunner ε) (now : ℚ) : (r.cancel none now).timeout = r.timeout := by
  unfold TaskRunner.cancel
  split
  · rfl
  · cases r.runner <;> rfl

/-- **Cancelling a task** ends it or gives it a timeout. -/
theorem cancel_cases (r : TaskRunner ε) (gracePeriod : Option ℚ) (now : ℚ) :
    (r.cancel gracePeriod now).done = true ∨
      r.runner ≠ none ∧ gracePeriod ≠ none ∧ ∃ timeout, r.cancel gracePeriod now = { r with timeout := timeout } := by
  by_cases hdone : r.done = true
  · exact Or.inl (cancel_done (Or.inl hdone) now)
  · cases hrunner : r.runner with
    | none => exact Or.inl (cancel_done (Or.inr (Or.inl hrunner)) now)
    | some runner =>
      cases gracePeriod with
      | none => exact Or.inl (cancel_done (Or.inr (Or.inr rfl)) now)
      | some gracePeriod =>
        refine Or.inr ⟨nofun, nofun, ?_⟩
        obtain ⟨task, runner', done, timeout⟩ := r
        obtain rfl : runner' = _ := hrunner
        unfold TaskRunner.cancel
        rw [if_neg hdone]
        dsimp only
        split
        · exact ⟨_, rfl⟩
        · exact ⟨timeout, rfl⟩

end Runner

/-! ## 3. The invariant -/

section Inv

variable {κ ε : Type} [DecidableEq κ]

/-- What holds between the calls. -/
structure GroupInv (D : κ → κ → Prop) (task : κ → Task ε) (c : GroupConfig κ) (g : Group κ ε) : Prop where
  status : ∀ k, Status (task k) g.log k (g.runners k)
  ordered : Ordered D g.log
  finished : ∀ k, .returned k ∈ g.log ∨ k ∈ raisers g.log → .started k ∈ g.log
  returned : ∀ k, .returned k ∈ g.log → (task k).raises = none
  raises : ∀ k e, .raised k e ∈ g.log → (task k).raises = some e
  mem : ∀ k ∈ raisers g.log, k ∈ c.keys
  nodup : (raisers g.log).Nodup
  raised : g.raised.map some = (raisers g.log).reverse.map fun k => (task k).raises
  timeout : ∀ k, (g.runners k).timeout ≠ none → c.aggregateExceptions = false ∧ raisers g.log ≠ []
  satisfy : ∀ k, ∀ d ∈ (g.graph.node k).satisfy, D d k
  node : ∀ k ∈ c.keys, (g.runners k).done = false → ∃ n, g.graph.get k = some n ∧
    (∀ d, d ∈ n.satisfy ↔ D d k) ∧ ∀ r, r ∈ n.require ↔ D k r ∧ .returned r ∉ g.log
  dependents : ∀ k d, (g.runners k).done = true ∨ k ∈ raisers g.log → .returned k ∉ g.log → D d k →
    (g.runners d).done = true
  cause : ∀ k, (g.runners k).done = true → .returned k ∉ g.log → raisers g.log ≠ [] ∧
    (c.aggregateExceptions = true → ∃ r ∈ raisers g.log, Relation.ReflTransGen D k r)
  stopped : c.aggregateExceptions = false → raisers g.log ≠ [] →
    ∀ k ∈ c.keys, (g.runners k).done = true ∨ (g.runners k).started = true
  halted : c.aggregateExceptions = false → Halted g.log

variable {D : κ → κ → Prop} {task : κ → Task ε} {c : GroupConfig κ} {g : Group κ ε} {k : κ}

theorem GroupInv.task_eq (h : GroupInv D task c g) (hdone : (g.runners k).done = false) :
    (g.runners k).task = task k := by
  have hs := h.status k
  generalize g.runners k = r at hs hdone
  cases hs with
  | waiting => rfl
  | active => rfl
  | exhausted => rfl
  | done _ hd => rw [hdone] at hd; cases hd

/-- A task that is ready waits for its start, and all it requires has returned. -/
theorem GroupInv.of_isReady (h : GroupInv D task c g) (hk : k ∈ c.keys) (hready : g.isReady k = true) :
    g.runners k = ⟨task k, none, false, none⟩ ∧ ∀ r, D k r → .returned r ∈ g.log := by
  rw [Group.isReady, Bool.and_eq_true, Bool.and_eq_true] at hready
  obtain ⟨⟨hnode, hdone⟩, hstarted⟩ := hready
  rw [Bool.not_eq_true'] at hdone hstarted
  obtain ⟨n, hn, -, hreq⟩ := h.node k hk hdone
  refine ⟨?_, fun r hr => ?_⟩
  · have hs := h.status k
    generalize g.runners k = r at hs hdone hstarted
    cases hs with
    | waiting => rfl
    | active => cases hstarted
    | exhausted => cases hstarted
    | done _ hd => rw [hdone] at hd; cases hd
  · by_contra hret
    rw [hn, Option.any_some] at hnode
    have hmem := (hreq r).mpr ⟨hr, hret⟩
    rw [List.isEmpty_iff.mp hnode] at hmem
    cases hmem

/-- **The start of a ready task.** -/
theorem GroupInv.start (h : GroupInv D task c g) (hk : k ∈ c.keys) (hready : g.isReady k = true) :
    GroupInv D task c { g with log := .started k :: g.log } := by
  obtain ⟨hrunner, hreq⟩ := h.of_isReady hk hready
  refine { h with
    status := fun j => (h.status j).cons nofun nofun
    ordered := h.ordered.cons fun j hj => ?_
    finished := fun j hj => ?_
    returned := fun j hj => h.returned j (by simpa using hj)
    raises := fun j e hj => h.raises j e (by simpa using hj)
    node := fun j hj hdone => ?_
    dependents := fun j d hj hret hd => h.dependents j d hj (by simpa using hret) hd
    cause := fun j hj hret => h.cause j hj (by simpa using hret)
    halted := fun hagg => (h.halted hagg).cons fun j _ => ?_ }
  · obtain rfl := Event.started.inj hj
    exact hreq
  · exact mem_cons_of_mem _ (h.finished j (by simpa using hj))
  · obtain ⟨n, hn, hsat, hreq⟩ := h.node j hj hdone
    exact ⟨n, hn, hsat, fun r => by rw [hreq]; simp⟩
  · by_contra hne
    rcases h.stopped hagg hne k hk with hdone | hstarted
    · rw [hrunner] at hdone
      cases hdone
    · rw [hrunner] at hstarted
      cases hstarted

/-- Deleting the key of a task that is done. -/
theorem GroupInv.delItem (h : GroupInv D task c g) (hdone : (g.runners k).done = true) :
    GroupInv D task c { g with graph := g.graph.delItem k } := by
  refine { h with satisfy := fun j d hd => h.satisfy j d (Graph.satisfy_delItem hd), node := fun j hj hjd => ?_ }
  · obtain ⟨n, hn, hsat, hreq⟩ := h.node j hj hjd
    have hne : j ≠ k := fun e => by
      rw [e, hdone] at hjd
      cases hjd
    have hnode : g.graph.node j = n := by rw [Graph.node, hn]; rfl
    rw [Graph.get_delItem, if_neg hne]
    split
    case isTrue hmem =>
      refine ⟨_, rfl, fun d => by rw [hnode]; exact hsat d, fun r => ?_⟩
      rw [hnode, mem_filter, hreq]
      refine ⟨fun hr => hr.1, fun hr => ⟨hr, decide_eq_true fun e => ?_⟩⟩
      have := h.dependents k j (Or.inl hdone) (e ▸ hr.2) (e ▸ hr.1)
      rw [hjd] at this
      cases this
    case isFalse => exact ⟨n, hn, hsat, hreq⟩

/-- The edges of the group: between its keys, without a cycle. -/
structure Driven (D : κ → κ → Prop) (c : GroupConfig κ) (rank : κ → Nat) : Prop where
  keys : ∀ d k, D d k → d ∈ c.keys ∧ k ∈ c.keys
  order : ∀ k, k ∈ c.order ↔ k ∈ c.keys
  rank_lt : ∀ d k, D d k → rank d < rank k
  rank_le : ∀ k ∈ c.keys, rank k ≤ c.keys.length

/-- What has started is in the log. -/
theorem GroupInv.started_mem (h : GroupInv D task c g) (hdone : (g.runners k).done = false)
    (hstarted : (g.runners k).started = true) : .started k ∈ g.log := by
  have hs := h.status k
  generalize g.runners k = r at hs hdone hstarted
  cases hs with
  | waiting => cases hstarted
  | active n timeout hs => exact hs
  | exhausted timeout hs => exact hs
  | done _ hd => rw [hdone] at hd; cases hd

variable {r : TaskRunner ε}

/-- **A yield.** -/
theorem GroupInv.yielded (h : GroupInv D task c g) (calls : Nat) {n : Nat} (hdone : (g.runners k).done = false)
    (hstarted : .started k ∈ g.log) (hraised : k ∉ raisers g.log)
    (hr : r = { g.runners k with runner := some (some (.suspended n (g.runners k).task.raises)) }) :
    GroupInv D task c { g with runners := Function.update g.runners k r, calls := calls } := by
  have hrun : ∀ j, (Function.update g.runners k r j).done = (g.runners j).done := fun j => by
    rw [Function.update_apply]
    split
    case isTrue hj => rw [hj, hr]
    case isFalse => rfl
  refine { h with
    status := fun j => ?_
    timeout := fun j hj => ?_
    node := fun j hj hd => h.node j hj (by rw [← hrun]; exact hd)
    dependents := fun j d hj hret hd => ?_
    cause := fun j hj hret => h.cause j (by rw [← hrun]; exact hj) hret
    stopped := fun hagg hne j hj => ?_ }
  · dsimp only
    rw [Function.update_apply]
    split
    case isTrue hj =>
      subst hj
      have hactive : Status (task j) g.log j _ :=
        .active n (g.runners j).timeout hstarted ((h.status j).returned hdone) hraised
      rw [← h.task_eq hdone, ← hdone] at hactive
      rw [hr, ← h.task_eq hdone]
      exact hactive
    case isFalse => exact h.status j
  · refine h.timeout j fun hnone => hj ?_
    dsimp only
    rw [Function.update_apply]
    split
    case isTrue e => rw [hr, ← e]; exact hnone
    case isFalse => exact hnone
  · dsimp only at hj ⊢
    rw [hrun] at hj ⊢
    exact h.dependents j d hj hret hd
  · dsimp only
    rw [hrun, Function.update_apply]
    split
    · exact Or.inr (by rw [hr]; rfl)
    · exact h.stopped hagg hne j hj

variable {rank : κ → Nat}

/-- **A task that ends without returning**, after its timeout or an exception. -/
theorem GroupInv.closed (hD : Driven D c rank) (h : GroupInv D task c g) (calls : Nat)
    (hdone : (g.runners k).done = false) (hr : r.done = true)
    (htimeout : r.timeout = (g.runners k).timeout)
    (hclosed : (g.runners k).timeout ≠ none ∨ (g.runners k).runner = some (some .closed)) :
    GroupInv D task c { g with runners := Function.update g.runners k r, calls := calls } := by
  have hmono : ∀ j, (g.runners j).done = true → (Function.update g.runners k r j).done = true := fun j hj => by
    rw [Function.update_apply]
    split
    · exact hr
    · exact hj
  have hne : ∀ j, (Function.update g.runners k r j).done = false → j ≠ k ∧ (g.runners j).done = false := fun j hj => by
    rw [Function.update_apply] at hj
    split at hj
    · rw [hr] at hj
      cases hj
    · exact ⟨‹_›, hj⟩
  have hraised : (g.runners k).timeout ≠ none ∨ k ∈ raisers g.log := by
    refine hclosed.imp_right fun hrunner => ?_
    have hs := h.status k
    generalize g.runners k = r at hs hdone hrunner
    cases hs with
    | waiting => cases hrunner
    | active => cases hrunner
    | exhausted timeout hs hret hraised => exact hraised
    | done _ hd => rw [hdone] at hd; cases hd
  have hdep : ∀ d, D d k → (g.runners d).done = true := fun d hd => by
    rcases hraised with htime | hraised
    · obtain ⟨hagg, hne⟩ := h.timeout k htime
      rcases h.stopped hagg hne d (hD.keys d k hd).1 with hdd | hstarted
      · exact hdd
      · by_contra hdd
        rw [Bool.not_eq_true] at hdd
        exact (h.status k).returned hdone (h.ordered.mem (h.started_mem hdd hstarted) hd)
    · exact h.dependents k d (Or.inr hraised) ((h.status k).returned hdone) hd
  have hcause : raisers g.log ≠ [] ∧
      (c.aggregateExceptions = true → ∃ r ∈ raisers g.log, Relation.ReflTransGen D k r) := by
    rcases hraised with htime | hraised
    · obtain ⟨hagg, hne⟩ := h.timeout k htime
      exact ⟨hne, fun h => by rw [hagg] at h; cases h⟩
    · exact ⟨ne_nil_of_mem hraised, fun _ => ⟨k, hraised, .refl⟩⟩
  refine { h with
    status := fun j => ?_
    timeout := fun j hj => ?_
    node := fun j hj hd => h.node j hj (hne j hd).2
    dependents := fun j d hj hret hd => ?_
    cause := fun j hj hret => ?_
    stopped := fun hagg hne j hj => ?_ }
  · dsimp only
    rw [Function.update_apply]
    split
    · exact .done _ hr
    · exact h.status j
  · refine h.timeout j fun hnone => hj ?_
    dsimp only
    rw [Function.update_apply]
    split
    case isTrue e => rw [htimeout, ← e]; exact hnone
    case isFalse => exact hnone
  · dsimp only at hj ⊢
    by_cases hjk : j = k
    · exact hmono d (hdep d (hjk ▸ hd))
    · rw [Function.update_of_ne hjk] at hj
      exact hmono d (h.dependents j d hj hret hd)
  · dsimp only at hj
    by_cases hjk : j = k
    · subst hjk
      exact hcause
    · rw [Function.update_of_ne hjk] at hj
      exact h.cause j hj hret
  · dsimp only
    rw [Function.update_apply]
    split
    · exact Or.inl hr
    · exact h.stopped hagg hne j hj

/-- **A return.** -/
theorem GroupInv.returns (h : GroupInv D task c g) (hk : k ∈ c.keys) (calls : Nat)
    (hdone : (g.runners k).done = false) (hstarted : .started k ∈ g.log) (hraises : (task k).raises = none)
    (hr : r.done = true) (htimeout : r.timeout = (g.runners k).timeout) :
    GroupInv D task c ⟨g.graph.delItem k, Function.update g.runners k r, g.raised, calls, .returned k :: g.log⟩ := by
  obtain ⟨nk, hnk, hsatk, -⟩ := h.node k hk hdone
  have hnodek : g.graph.node k = nk := by rw [Graph.node, hnk]; rfl
  have hne : ∀ j, (Function.update g.runners k r j).done = false → j ≠ k ∧ (g.runners j).done = false := fun j hj => by
    rw [Function.update_apply] at hj
    split at hj
    · rw [hr] at hj
      cases hj
    · exact ⟨‹_›, hj⟩
  have hmem : ∀ j, .returned j ∈ (.returned k :: g.log : List (Event κ ε)) ↔ j = k ∨ .returned j ∈ g.log := by simp
  refine ⟨fun j => ?_, h.ordered.cons (by simp), fun j hj => ?_, fun j hj => ?_,
    fun j e hj => h.raises j e (by simpa using hj), h.mem, h.nodup, h.raised,
    fun j hj => ?_, fun j d hd => h.satisfy j d (Graph.satisfy_delItem hd), fun j hj hd => ?_,
    fun j d hj hret hd => ?_, fun j hj hret => ?_, fun hagg hne j hj => ?_, fun hagg => (h.halted hagg).cons (by simp)⟩
  · dsimp only
    by_cases hj : j = k
    · subst hj
      rw [Function.update_self]
      exact .done _ hr
    · rw [Function.update_of_ne hj]
      exact (h.status j).cons (fun e => hj (Event.returned.inj e).symm) (by simp)
  · refine mem_cons_of_mem _ ?_
    rw [hmem] at hj
    rcases hj with (rfl | hj) | hj
    · exact hstarted
    · exact h.finished j (Or.inl hj)
    · exact h.finished j (Or.inr hj)
  · rcases (hmem j).mp hj with rfl | hj
    · exact hraises
    · exact h.returned j hj
  · refine h.timeout j fun hnone => hj ?_
    dsimp only
    rw [Function.update_apply]
    split
    case isTrue e => rw [htimeout, ← e]; exact hnone
    case isFalse => exact hnone
  · obtain ⟨hjk, hd⟩ := hne j hd
    obtain ⟨n, hn, hsat, hreq⟩ := h.node j hj hd
    have hnode : g.graph.node j = n := by rw [Graph.node, hn]; rfl
    dsimp only
    rw [Graph.get_delItem, if_neg hjk, hnodek]
    split
    case isTrue hmemj =>
      refine ⟨_, rfl, fun d => by rw [hnode]; exact hsat d, fun r => ?_⟩
      rw [hnode, mem_filter, hreq, hmem, decide_eq_true_iff]
      tauto
    case isFalse hmemj =>
      refine ⟨n, hn, hsat, fun r => ?_⟩
      have hrk : D j r → r ≠ k := fun hr e => hmemj ((hsatk j).mpr (e ▸ hr))
      rw [hreq, hmem]
      tauto
  · rw [hmem, not_or] at hret
    dsimp only at hj ⊢
    rw [Function.update_of_ne hret.1] at hj
    have hdd := h.dependents j d hj hret.2 hd
    rw [Function.update_apply]
    split
    · exact hr
    · exact hdd
  · rw [hmem, not_or] at hret
    dsimp only at hj
    rw [Function.update_of_ne hret.1] at hj
    exact h.cause j hj hret.2
  · dsimp only
    rw [Function.update_apply]
    split
    · exact Or.inl hr
    · exact h.stopped hagg hne j hj

/-! ## 4. Exceptions -/

/-- A runner that has been cancelled. -/
def Cancelled (r r' : TaskRunner ε) : Prop :=
  r'.done = true ∨ r.runner ≠ none ∧ ∃ timeout, r' = { r with timeout := timeout }

/-- **`cancel_all`.** -/
theorem cancelAll_spec (gracePeriod : Option ℚ) (l : List κ) (g : Group κ ε) :
    ∃ runners calls, l.foldl (Group.cancel c gracePeriod) g = { g with runners := runners, calls := calls } ∧
      (∀ j, runners j = g.runners j ∨ Cancelled (g.runners j) (runners j)) ∧
      ∀ j ∈ l, Cancelled (g.runners j) (runners j) := by
  induction l using reverseRecOn with
  | nil => exact ⟨g.runners, g.calls, rfl, fun j => Or.inl rfl, nofun⟩
  | append_singleton l k ih =>
    obtain ⟨runners, calls, hfold, hall, hl⟩ := ih
    rw [foldl_append, hfold]
    have hk : Cancelled (g.runners k) ((runners k).cancel gracePeriod (c.clock calls)) := by
      rcases hall k with hsame | hdone | ⟨hrunner, timeout, heq⟩
      · rw [hsame]
        exact (cancel_cases _ gracePeriod _).imp_right fun h => ⟨h.1, h.2.2⟩
      · exact Or.inl (cancel_done (Or.inl hdone) _)
      · rcases cancel_cases (runners k) gracePeriod (c.clock calls) with hdone | ⟨-, -, t, ht⟩
        · exact Or.inl hdone
        · exact Or.inr ⟨hrunner, t, by rw [ht, heq]⟩
    refine ⟨_, _, rfl, fun j => ?_, fun j hj => ?_⟩
    · dsimp only
      rw [Function.update_apply]
      split
      case isTrue hjk => exact Or.inr (hjk ▸ hk)
      case isFalse => exact hall j
    · dsimp only
      rw [Function.update_apply]
      split
      case isTrue hjk => exact hjk ▸ hk
      case isFalse hjk =>
        rcases mem_append.mp hj with hj | hj
        · exact hl j hj
        · exact absurd (mem_singleton.mp hj) hjk

/-- The keys that require a key of the list, directly or not, and the keys themselves. -/
def Below (D : κ → κ → Prop) (l : List κ) (j : κ) : Prop := ∃ k ∈ l, Relation.ReflTransGen D j k

/-- What cancelling the keys below a list does. -/
structure CancelledBelow (D : κ → κ → Prop) (l : List κ) (g g' : Group κ ε) : Prop where
  log : g'.log = g.log
  raised : g'.raised = g.raised
  done : ∀ j, Below D l j → (g'.runners j).done = true
  runner : ∀ j, ¬ Below D l j → g'.runners j = g.runners j
  get : ∀ j, ¬ Below D l j → g'.graph.get j = g.graph.get j
  mono : ∀ j, (g.runners j).done = true → (g'.runners j).done = true
  timeout : ∀ j, (g'.runners j).timeout = (g.runners j).timeout
  satisfy : ∀ k, ∀ d ∈ (g'.graph.node k).satisfy, D d k

/-- A key with its whole node, or with nothing left to cancel. -/
def Covered (D : κ → κ → Prop) (g : Group κ ε) (j : κ) : Prop :=
  (∃ n, g.graph.get j = some n ∧ ∀ d, D d j → d ∈ n.satisfy) ∨
    ∀ d, Relation.TransGen D d j → (g.runners d).done = true

theorem cancelBelow_list {depth : Nat} (l : List κ)
    (ih : ∀ (g : Group κ ε), ∀ key ∈ l, (∀ k, ∀ d ∈ (g.graph.node k).satisfy, D d k) →
      (∀ j, Below D [key] j → Covered D g j) →
      ∃ g', Group.cancelRecursively c depth g key = some g' ∧ CancelledBelow D [key] g g')
    (g : Group κ ε) (hsat : ∀ k, ∀ d ∈ (g.graph.node k).satisfy, D d k)
    (hcov : ∀ j, Below D l j → Covered D g j) :
    ∃ g', l.foldlM (Group.cancelRecursively c depth) g = some g' ∧ CancelledBelow D l g g' := by
  induction l generalizing g with
  | nil =>
    refine ⟨g, rfl, rfl, rfl, fun j hj => ?_, fun _ _ => rfl, fun _ _ => rfl, fun _ h => h, fun _ => rfl, hsat⟩
    obtain ⟨k, hk, -⟩ := hj
    cases hk
  | cons key l ihl =>
    have hcons : ∀ j, Below D (key :: l) j ↔ Below D [key] j ∨ Below D l j := fun j => by
      simp only [Below, mem_cons, not_mem_nil, or_false, or_and_right, exists_or]
    obtain ⟨g₁, hg₁, h₁⟩ := ih g key mem_cons_self hsat fun j hj => hcov j ((hcons j).mpr (Or.inl hj))
    have hcov₁ : ∀ j, Below D l j → Covered D g₁ j := fun j hj => by
      by_cases hkey : Below D [key] j
      · obtain ⟨k, hk, hjk⟩ := hkey
        exact Or.inr fun d hd => h₁.done d ⟨k, hk, hd.to_reflTransGen.trans hjk⟩
      · rcases hcov j ((hcons j).mpr (Or.inr hj)) with ⟨n, hn, hfull⟩ | hdone
        · exact Or.inl ⟨n, by rw [h₁.get j hkey]; exact hn, hfull⟩
        · exact Or.inr fun d hd => h₁.mono d (hdone d hd)
    obtain ⟨g₂, hg₂, h₂⟩ := ihl (fun g k hk => ih g k (mem_cons_of_mem _ hk)) g₁ h₁.satisfy hcov₁
    refine ⟨g₂, ?_, h₂.log.trans h₁.log, h₂.raised.trans h₁.raised, fun j hj => ?_, fun j hj => ?_, fun j hj => ?_,
      fun j hj => h₂.mono j (h₁.mono j hj), fun j => (h₂.timeout j).trans (h₁.timeout j), h₂.satisfy⟩
    · rw [foldlM_cons, hg₁]
      exact hg₂
    · rcases (hcons j).mp hj with hj | hj
      · exact h₂.mono j (h₁.done j hj)
      · exact h₂.done j hj
    · rw [hcons, not_or] at hj
      exact (h₂.runner j hj.2).trans (h₁.runner j hj.1)
    · rw [hcons, not_or] at hj
      exact (h₂.get j hj.2).trans (h₁.get j hj.1)

/-- **`_cancel_recursively`** ends every task below the key. -/
theorem cancelRecursively_spec (hD : Driven D c rank) (depth : Nat) (g : Group κ ε) (key : κ)
    (hdepth : rank key < depth) (hsat : ∀ k, ∀ d ∈ (g.graph.node k).satisfy, D d k)
    (hcov : ∀ j, Below D [key] j → Covered D g j) :
    ∃ g', Group.cancelRecursively c depth g key = some g' ∧ CancelledBelow D [key] g g' := by
  induction depth generalizing g key with
  | zero => omega
  | succ depth ih =>
    have hrank : ∀ j, Relation.TransGen D j key → rank j < rank key := fun j hj => by
      induction hj using Relation.TransGen.head_induction_on with
      | single h => exact hD.rank_lt _ _ h
      | head h _ ih => exact (hD.rank_lt _ _ h).trans ih
    -- the state before the recursion
    generalize hg₁ : ({ Group.cancel c none g key with graph := g.graph.touch key } : Group κ ε) = g₁
    have hrun₁ : ∀ j, g₁.runners j = if j = key then (g.runners key).cancel none (c.clock g.calls) else g.runners j := by
      intro j
      rw [← hg₁]
      exact Function.update_apply ..
    have hget₁ : ∀ j, j ≠ key → g₁.graph.get j = g.graph.get j := fun j hj => by
      rw [← hg₁]
      dsimp only
      rw [Graph.get_touch, if_neg hj]
    have hnode₁ : ∀ j, g₁.graph.node j = g.graph.node j := fun j => by
      rw [← hg₁]
      exact Graph.node_touch ..
    have hsat₁ : ∀ k, ∀ d ∈ (g₁.graph.node k).satisfy, D d k := fun k d hd => hsat k d (by rw [← hnode₁]; exact hd)
    have hmono₁ : ∀ j, (g.runners j).done = true → (g₁.runners j).done = true := fun j hj => by
      rw [hrun₁]
      split
      · exact cancel_done (Or.inr (Or.inr rfl)) _
      · exact hj
    have hbelow : ∀ j, Below D (g₁.graph.node key).satisfy j → Relation.TransGen D j key := fun j hj => by
      obtain ⟨d, hd, hjd⟩ := hj
      exact Relation.TransGen.tail' hjd (hsat₁ key d hd)
    have hone : ∀ j, Below D [key] j ↔ j = key ∨ Relation.TransGen D j key := fun j => by
      rw [Below]
      simp only [mem_singleton, exists_eq_left]
      rw [Relation.reflTransGen_iff_eq_or_transGen, eq_comm]
    obtain ⟨g₂, hg₂, h₂⟩ := cancelBelow_list (g₁.graph.node key).satisfy
      (fun g d hd => ih g d (by have := hD.rank_lt d key (hsat₁ key d hd); omega)) g₁ hsat₁ fun j hj => by
        have hjk := hbelow j hj
        have hne : j ≠ key := fun e => absurd (hrank j hjk) (by rw [e]; omega)
        rcases hcov j ((hone j).mpr (Or.inr hjk)) with ⟨n, hn, hfull⟩ | hdone
        · exact Or.inl ⟨n, by rw [hget₁ j hne]; exact hn, hfull⟩
        · exact Or.inr fun d hd => hmono₁ d (hdone d hd)
    refine ⟨{ g₂ with graph := g₂.graph.delItem key }, ?_, ?_, ?_, fun j hj => ?_, fun j hj => ?_, fun j hj => ?_,
      fun j hj => h₂.mono j (hmono₁ j hj), fun j => ?_, fun k d hd => h₂.satisfy k d (Graph.satisfy_delItem hd)⟩
    · rw [Group.cancelRecursively]
      dsimp only
      have hbody : (⟨(Group.cancel c none g key).graph.touch key, (Group.cancel c none g key).runners,
          (Group.cancel c none g key).raised, (Group.cancel c none g key).calls,
          (Group.cancel c none g key).log⟩ : Group κ ε) = g₁ := hg₁
      have hgraph : (Group.cancel c none g key).graph.touch key = g₁.graph := by rw [← hg₁]; rfl
      rw [hbody, hgraph, hg₂]
      rfl
    · rw [h₂.log, ← hg₁]
      rfl
    · rw [h₂.raised, ← hg₁]
      rfl
    · rcases (hone j).mp hj with rfl | hj
      · refine h₂.mono j ?_
        rw [hrun₁, if_pos rfl]
        exact cancel_done (Or.inr (Or.inr rfl)) _
      · rcases hcov key ((hone key).mpr (Or.inl rfl)) with ⟨n, hn, hfull⟩ | hdone
        · obtain ⟨d, hjd, hd⟩ := Relation.TransGen.tail'_iff.mp hj
          refine h₂.done j ⟨d, ?_, hjd⟩
          rw [hnode₁, Graph.node, hn]
          exact hfull d hd
        · exact h₂.mono j (hmono₁ j (hdone j hj))
    · rw [hone, not_or] at hj
      rw [h₂.runner j fun h => hj.2 (hbelow j h), hrun₁, if_neg hj.1]
    · rw [hone, not_or] at hj
      dsimp only
      rw [Graph.get_delItem, if_neg hj.1, if_neg fun hd => hj.2 (Relation.TransGen.single (h₂.satisfy key j hd)),
        h₂.get j fun h => hj.2 (hbelow j h), hget₁ j hj.1]
    · rw [h₂.timeout, hrun₁]
      split
      case isTrue hj => rw [hj]; exact cancel_none_timeout ..
      case isFalse => rfl

/-- What handling an exception leaves of a runner. -/
def Spared (aggregate : Bool) (r r' : TaskRunner ε) : Prop :=
  r' = r ∨ aggregate = false ∧ r.started = true ∧ ∃ timeout, r' = { r with timeout := timeout }

/-- What is handled: the exception of a task that was not done. -/
structure Raising (task : κ → Task ε) (c : GroupConfig κ) (g : Group κ ε) (k : κ) (e : ε) : Prop where
  mem : k ∈ c.keys
  done : (g.runners k).done = false
  started : .started k ∈ g.log
  raisers : k ∉ raisers g.log
  raises : (task k).raises = some e

/-- What every way of handling it does. -/
structure Handled (D : κ → κ → Prop) (c : GroupConfig κ) (g : Group κ ε) (k : κ) (e : ε) (g' : Group κ ε) : Prop where
  log : g'.log = .raised k e :: g.log
  raised : g'.raised = g.raised ++ [e]
  runner : ∀ j ≠ k, (g'.runners j).done = true ∨ Spared c.aggregateExceptions (g.runners j) (g'.runners j)
  raising : (g'.runners k).done = true ∨ c.aggregateExceptions = false ∧
    ∃ timeout, g'.runners k = { g.runners k with runner := some (some .closed), timeout := timeout }
  mono : ∀ j, (g.runners j).done = true → (g'.runners j).done = true
  waiting : c.aggregateExceptions = false → ∀ j ∈ c.keys, (g'.runners j).done = true ∨ (g'.runners j).started = true
  timeout : c.aggregateExceptions = true → ∀ j, (g'.runners j).timeout = (g.runners j).timeout
  below : c.aggregateExceptions = true →
    ∀ j, (g'.runners j).done = true ↔ (g.runners j).done = true ∨ Relation.ReflTransGen D j k
  satisfy : ∀ k, ∀ d ∈ (g'.graph.node k).satisfy, D d k
  get : ∀ j, (g'.runners j).done = false → g'.graph.get j = g.graph.get j

variable {g' : Group κ ε}

/-- **After an exception.** -/
theorem GroupInv.handled (hD : Driven D c rank) (h : GroupInv D task c g) {e : ε}
    (hk : Raising task c g k e) (h' : Handled D c g k e g') : GroupInv D task c g' := by
  have hraisers : raisers g'.log = k :: raisers g.log := by rw [h'.log, raisers_raised]
  have hret : ∀ j, .returned j ∈ g'.log ↔ .returned j ∈ g.log := fun j => by rw [h'.log]; simp
  have hstarted : ∀ j, .started j ∈ g'.log ↔ .started j ∈ g.log := fun j => by rw [h'.log]; simp
  have hkret := (h.status k).returned hk.done
  have hstatus : ∀ j, Status (task j) g'.log j (g'.runners j) := fun j => by
    by_cases hjk : j = k
    · subst hjk
      rcases h'.raising with hdone | ⟨-, timeout, heq⟩
      · exact .done _ hdone
      · have hex : Status (task j) g'.log j _ := .exhausted timeout ((hstarted j).mpr hk.started) (mt (hret j).mp hkret)
          (by rw [hraisers]; exact mem_cons_self)
        dsimp only at heq
        rw [heq, h.task_eq hk.done, hk.done]
        exact hex
    · have hold : Status (task j) g'.log j (g.runners j) := by
        rw [h'.log]
        exact (h.status j).cons nofun fun e he => hjk (Event.raised.inj he).1.symm
      rcases h'.runner j hjk with hdone | hsame | ⟨-, hrun, timeout, heq⟩
      · exact .done _ hdone
      · rw [hsame]
        exact hold
      · rw [heq]
        generalize g.runners j = r at hold hrun
        cases hold with
        | waiting => cases hrun
        | active n _ h1 h2 h3 => exact .active n timeout h1 h2 h3
        | exhausted _ h1 h2 h3 => exact .exhausted timeout h1 h2 h3
        | done _ hd => exact .done _ hd
  refine ⟨hstatus, ?_, fun j hj => ?_, fun j hj => h.returned j ((hret j).mp hj), fun j e' hj => ?_, fun j hj => ?_, ?_, ?_,
    fun j hj => ?_, h'.satisfy, fun j hj hd => ?_, fun j d hj hjret hd => ?_, fun j hj hjret => ?_, fun hagg _ => h'.waiting hagg,
    fun hagg => ?_⟩
  · rw [h'.log]
    exact h.ordered.cons nofun
  · rw [hret, hraisers, mem_cons] at hj
    rw [hstarted]
    rcases hj with hj | rfl | hj
    · exact h.finished j (Or.inl hj)
    · exact hk.started
    · exact h.finished j (Or.inr hj)
  · rw [h'.log] at hj
    rcases mem_cons.mp hj with hj | hj
    · obtain ⟨rfl, rfl⟩ := Event.raised.inj hj
      exact hk.raises
    · exact h.raises j e' hj
  · rw [hraisers] at hj
    rcases mem_cons.mp hj with rfl | hj
    · exact hk.mem
    · exact h.mem j hj
  · rw [hraisers]
    exact nodup_cons.mpr ⟨hk.raisers, h.nodup⟩
  · rw [h'.raised, hraisers, map_append, h.raised, reverse_cons, map_append, map_singleton,
      map_singleton, hk.raises]
  · refine ⟨?_, by rw [hraisers]; nofun⟩
    by_contra hagg
    rw [Bool.not_eq_false] at hagg
    rw [h'.timeout hagg] at hj
    rw [(h.timeout j hj).1] at hagg
    cases hagg
  · have hdone : (g.runners j).done = false := by
      by_contra hdone
      rw [h'.mono j (by simpa using hdone)] at hd
      cases hd
    obtain ⟨n, hn, hsat, hreq⟩ := h.node j hj hdone
    exact ⟨n, by rw [h'.get j hd]; exact hn, hsat, fun r => by rw [hreq, hret]⟩
  · rw [hret] at hjret
    cases hagg : c.aggregateExceptions with
    | true =>
      rw [h'.below hagg d]
      rw [h'.below hagg j, hraisers, mem_cons] at hj
      rcases hj with (hj | hj) | rfl | hj
      · exact Or.inl (h.dependents j d (Or.inl hj) hjret hd)
      · exact Or.inr (Relation.ReflTransGen.head hd hj)
      · exact Or.inr (Relation.ReflTransGen.single hd)
      · exact Or.inl (h.dependents j d (Or.inr hj) hjret hd)
    | false =>
      rcases h'.waiting hagg d (hD.keys d j hd).1 with hdd | hrun
      · exact hdd
      · -- a task that has started requires nothing that has not returned
        by_contra hdd
        rw [Bool.not_eq_true] at hdd
        have hmem : .started d ∈ g'.log := by
          have hs := hstatus d
          generalize g'.runners d = r at hs hdd hrun
          cases hs with
          | waiting => cases hrun
          | active n timeout hs => exact hs
          | exhausted timeout hs => exact hs
          | done _ hd' => rw [hdd] at hd'; cases hd'
        exact hjret (h.ordered.mem ((hstarted d).mp hmem) hd)
  · rw [hret] at hjret
    refine ⟨by rw [hraisers]; nofun, fun hagg => ?_⟩
    rcases (h'.below hagg j).mp hj with hj | hj
    · obtain ⟨r, hr, hjr⟩ := (h.cause j hj hjret).2 hagg
      exact ⟨r, by rw [hraisers]; exact mem_cons_of_mem _ hr, hjr⟩
    · exact ⟨k, by rw [hraisers]; exact mem_cons_self, hj⟩
  · rw [h'.log]
    exact (h.halted hagg).cons nofun

/-- **`except Exception`**, after the call that has raised. -/
theorem handle_spec (hD : Driven D c rank) (h : GroupInv D task c g) {e : ε} (calls : Nat)
    {runner : Option (Option (Generator ε))} (hk : Raising task c g k e)
    (hrunner : runner = none ∨ runner = some (some .closed)) :
    ∃ g', Group.handle c { g with
        runners := Function.update g.runners k { g.runners k with runner := runner }
        calls := calls, log := .raised k e :: g.log } k e = some g' ∧ Handled D c g k e g' := by
  generalize hg₁ : ({ g with
    runners := Function.update g.runners k { g.runners k with runner := runner }
    calls := calls, log := .raised k e :: g.log } : Group κ ε) = g₁
  have hself : g₁.runners k = { g.runners k with runner := runner } := by rw [← hg₁]; exact Function.update_self ..
  have hother : ∀ j ≠ k, g₁.runners j = g.runners j := fun j hj => by rw [← hg₁]; exact Function.update_of_ne hj ..
  have hgraph : g₁.graph = g.graph := by rw [← hg₁]
  have hmono : ∀ j, (g₁.runners j).done = (g.runners j).done := fun j => by
    by_cases hj : j = k
    · rw [hj, hself]
    · rw [hother j hj]
  rw [Group.handle]
  cases hagg : c.aggregateExceptions with
  | true =>
    rw [if_pos rfl]
    obtain ⟨g₂, hg₂, h₂⟩ := cancelRecursively_spec (D := D) hD (c.keys.length + 1) g₁ k
      (by have := hD.rank_le k hk.mem; omega) (by rw [hgraph]; exact h.satisfy) fun j hj => by
        obtain ⟨k', hk', hjk⟩ := hj
        obtain rfl := mem_singleton.mp hk'
        by_cases hjd : (g.runners j).done = true
        · -- nothing below a task that is done without returning is left
          refine Or.inr fun d hd => ?_
          rw [hmono]
          have hret : .returned j ∉ g.log := fun hret => by
            rcases Relation.reflTransGen_iff_eq_or_transGen.mp hjk with rfl | hjk
            · exact (h.status k').returned hk.done hret
            · obtain ⟨x, hjx, hxk⟩ := Relation.TransGen.tail'_iff.mp hjk
              have hall : ∀ y, Relation.ReflTransGen D j y → .returned y ∈ g.log := fun y hy => by
                induction hy with
                | refl => exact hret
                | tail _ hyz ih => exact h.ordered.mem (h.finished _ (Or.inl ih)) hyz
              exact (h.status k').returned hk.done (hall k' hjk.to_reflTransGen)
          induction hd using Relation.TransGen.head_induction_on with
          | single hd => exact h.dependents j _ (Or.inl hjd) hret hd
          | head hd hjd' ih =>
            refine h.dependents _ _ (Or.inl ih) (fun hret' => hret ?_) hd
            clear hd ih
            induction hjd' using Relation.TransGen.head_induction_on with
            | single hd => exact h.ordered.mem (h.finished _ (Or.inl hret')) hd
            | head hd _ ih => exact ih (h.ordered.mem (h.finished _ (Or.inl hret')) hd)
        · rw [Bool.not_eq_true] at hjd
          have hjmem : j ∈ c.keys := by
            rcases Relation.reflTransGen_iff_eq_or_transGen.mp hjk with rfl | hjk
            · exact hk.mem
            · obtain ⟨x, hjx, -⟩ := Relation.TransGen.head'_iff.mp hjk
              exact (hD.keys j x hjx).1
          obtain ⟨n, hn, hsat, -⟩ := h.node j hjmem hjd
          exact Or.inl ⟨n, by rw [hgraph]; exact hn, fun d => (hsat d).mpr⟩
    have hbelow : ∀ j, Below D [k] j ↔ Relation.ReflTransGen D j k := fun j => by simp [Below]
    have hkdone : (g₂.runners k).done = true := h₂.done k ((hbelow k).mpr .refl)
    rw [hg₂]
    refine ⟨_, rfl, ?_, ?_, fun j hj => ?_, Or.inl hkdone, fun j hj => h₂.mono j (by rw [hmono]; exact hj),
      fun h => (by rw [hagg] at h; cases h), fun _ j => ?_, fun _ j => ⟨fun hj => ?_, fun hj => ?_⟩, h₂.satisfy,
      fun j hj => ?_⟩
    · dsimp only
      rw [h₂.log, ← hg₁]
    · dsimp only
      rw [h₂.raised, ← hg₁]
    · by_cases hb : Below D [k] j
      · exact Or.inl (h₂.done j hb)
      · exact Or.inr (Or.inl ((h₂.runner j hb).trans (hother j hj)))
    · dsimp only
      rw [h₂.timeout]
      by_cases hj : j = k
      · rw [hj, hself]
      · rw [hother j hj]
    · by_cases hb : Below D [k] j
      · exact Or.inr ((hbelow j).mp hb)
      · refine Or.inl ?_
        dsimp only at hj
        rw [h₂.runner j hb, hmono] at hj
        exact hj
    · rcases hj with hj | hj
      · exact h₂.mono j (by rw [hmono]; exact hj)
      · exact h₂.done j ((hbelow j).mpr hj)
    · dsimp only at hj ⊢
      by_cases hb : Below D [k] j
      · rw [h₂.done j hb] at hj
        cases hj
      · rw [h₂.get j hb, hgraph]
  | false =>
    rw [if_neg Bool.false_ne_true]
    obtain ⟨runners, calls', hall, hsame, hcancelled⟩ := cancelAll_spec (c := c) c.errorWaitTime c.order g₁
    rw [Group.cancelAll, hall]
    have hcan : ∀ j, (g₁.runners j).done = true → (runners j).done = true := fun j hj => by
      rcases hsame j with h | h | ⟨-, timeout, h⟩
      · rw [h]
        exact hj
      · exact h
      · rw [h]
        exact hj
    refine ⟨_, rfl, ?_, ?_, fun j hj => ?_, ?_, fun j hj => hcan j (by rw [hmono]; exact hj), fun _ j hj => ?_,
      fun h => (by rw [hagg] at h; cases h), fun h => (by rw [hagg] at h; cases h), ?_, fun j _ => ?_⟩
    · rw [← hg₁]
    · rw [← hg₁]
    · rcases hsame j with h | h | ⟨hrun, timeout, h⟩
      · exact Or.inr (Or.inl (h.trans (hother j hj)))
      · exact Or.inl h
      · refine Or.inr (Or.inr ⟨hagg, ?_, timeout, ?_⟩)
        · rw [TaskRunner.started, Option.isSome_iff_ne_none, ← hother j hj]
          exact hrun
        · dsimp only
          rw [h, hother j hj]
    · rcases hcancelled k ((hD.order k).mpr hk.mem) with h | ⟨hrun, timeout, h⟩
      · exact Or.inl h
      · refine Or.inr ⟨hagg, timeout, ?_⟩
        rw [hself] at hrun h
        dsimp only at hrun ⊢
        rw [h, hrunner.resolve_left hrun]
    · rcases hcancelled j ((hD.order j).mpr hj) with h | ⟨hrun, timeout, h⟩
      · exact Or.inl h
      · refine Or.inr ?_
        dsimp only
        rw [h, TaskRunner.started, Option.isSome_iff_ne_none]
        exact hrun
    · dsimp only
      rw [hgraph]
      exact h.satisfy
    · dsimp only
      rw [hgraph]

/-! ## 5. Progress -/

/-- The steps that a group has left for a task. -/
def Group.weight (g : Group κ ε) (k : κ) : Nat :=
  if (g.runners k).done then 0 else if k ∈ raisers g.log then 1 else (g.runners k).left

/-- The steps that a group has left. -/
def Group.total (c : GroupConfig κ) (g : Group κ ε) : Nat := (c.keys.map g.weight).sum

theorem weight_done (hdone : (g.runners k).done = true) : g.weight k = 0 := by rw [Group.weight, if_pos hdone]

theorem weight_raised (hdone : (g.runners k).done = false) (h : k ∈ raisers g.log) : g.weight k = 1 := by
  rw [Group.weight, hdone, if_neg Bool.false_ne_true, if_pos h]

theorem weight_left (hdone : (g.runners k).done = false) (h : k ∉ raisers g.log) : g.weight k = (g.runners k).left := by
  rw [Group.weight, hdone, if_neg Bool.false_ne_true, if_neg h]

theorem weight_congr (hdone : (g'.runners k).done = (g.runners k).done)
    (hleft : (g'.runners k).left = (g.runners k).left) (hraisers : k ∈ raisers g'.log ↔ k ∈ raisers g.log) :
    g'.weight k = g.weight k := by
  rw [Group.weight, Group.weight, hdone, hleft]
  simp only [hraisers]

/-- A task that has not ended. -/
theorem GroupInv.open (h : GroupInv D task c g) (hdone : (g.runners k).done = false)
    (hopen : (g.runners k).runner ≠ some (some .closed)) : k ∉ raisers g.log ∧ 2 ≤ (g.runners k).left := by
  have hs := h.status k
  generalize g.runners k = r at hs hdone hopen
  cases hs with
  | waiting h1 h2 =>
    refine ⟨h2, ?_⟩
    show 2 ≤ (task k).yields + 3
    omega
  | active n timeout h1 h2 h3 =>
    refine ⟨h3, ?_⟩
    show 2 ≤ n + 2
    omega
  | exhausted => exact absurd rfl hopen
  | done _ hd => rw [hdone] at hd; cases hd

theorem GroupInv.weight_pos (h : GroupInv D task c g) (hdone : (g.runners k).done = false) : 0 < g.weight k := by
  by_cases hraised : k ∈ raisers g.log
  · rw [weight_raised hdone hraised]
    exact Nat.one_pos
  · rw [weight_left hdone hraised]
    have hs := h.status k
    generalize g.runners k = r at hs hdone
    cases hs with
    | waiting => exact Nat.succ_pos _
    | active => exact Nat.succ_pos _
    | exhausted _ _ _ hr => exact absurd hr hraised
    | done _ hd => rw [hdone] at hd; cases hd

theorem total_le (h : ∀ j, g'.weight j ≤ g.weight j) : g'.total c ≤ g.total c :=
  sum_le_sum fun j _ => h j

theorem total_lt (h : ∀ j, g'.weight j ≤ g.weight j) (hk : k ∈ c.keys)
    (hlt : g'.weight k < g.weight k) : g'.total c < g.total c :=
  sum_lt_sum _ _ (fun j _ => h j) ⟨k, hk, hlt⟩

/-- After a call for a key: the group went on, with less left or nothing new, or it has handled an exception. -/
inductive Next (D : κ → κ → Prop) (task : κ → Task ε) (c : GroupConfig κ) (g : Group κ ε) (k : κ) :
    Group κ ε × Option (κ × ε) → Prop
  | next (g' : Group κ ε) (hinv : GroupInv D task c g') (hle : g'.total c ≤ g.total c)
      (hlt : g'.total c < g.total c ∨ (g.runners k).done = true ∧ g'.runners = g.runners ∧ g'.log = g.log) :
      Next D task c g k (g', none)
  | raised (g' : Group κ ε) (k' : κ) (e : ε) (g'' : Group κ ε) (hhandle : Group.handle c g' k' e = some g'')
      (hinv : GroupInv D task c g'') (hlt : g''.total c < g.total c) : Next D task c g k (g', some (k', e))

theorem total_handled (h : GroupInv D task c g) {e : ε} (hk : Raising task c g k e)
    (h' : Handled D c g k e g') (hopen : (g.runners k).runner ≠ some (some .closed)) : g'.total c < g.total c := by
  have hmem : ∀ j, j ∈ raisers g'.log ↔ j = k ∨ j ∈ raisers g.log := fun j => by
    rw [h'.log, raisers_raised, mem_cons]
  obtain ⟨hraised, hleft⟩ := h.open hk.done hopen
  have hlt : g'.weight k < g.weight k := by
    rw [weight_left hk.done hraised]
    cases hdone : (g'.runners k).done with
    | true => rw [weight_done hdone]; omega
    | false => rw [weight_raised hdone ((hmem k).mpr (Or.inl rfl))]; omega
  refine total_lt (fun j => ?_) hk.mem hlt
  by_cases hjk : j = k
  · exact hjk ▸ hlt.le
  · have hr : j ∈ raisers g'.log ↔ j ∈ raisers g.log := by rw [hmem, or_iff_right hjk]
    rcases h'.runner j hjk with hdone | hsame | ⟨-, -, timeout, heq⟩
    · rw [weight_done hdone]
      exact Nat.zero_le _
    · exact (weight_congr (by rw [hsame]) (by rw [hsame]) hr).le
    · exact (weight_congr (by rw [heq]) (by rw [heq]; rfl) hr).le

/-- **One call of a runner that is not done.** -/
theorem settle_spec (hD : Driven D c rank) (h : GroupInv D task c g) (hk : k ∈ c.keys)
    (hdone : (g.runners k).done = false) (hstarted : .started k ∈ g.log) (result : Outcome ε × TaskRunner ε)
    (hadv : Advance (g.runners k) result) : Next D task c g k (Group.settle k result g) := by
  have hless : ∀ g' : Group κ ε, (∀ j ≠ k, g'.runners j = g.runners j) → raisers g'.log = raisers g.log →
      g'.weight k < g.weight k → (g'.total c ≤ g.total c) ∧ g'.total c < g.total c := fun g' hother hr hlt => by
    have hall : ∀ j, g'.weight j ≤ g.weight j := fun j => by
      by_cases hjk : j = k
      · exact hjk ▸ hlt.le
      · exact (weight_congr (by rw [hother j hjk]) (by rw [hother j hjk]) (by rw [hr])).le
    exact ⟨total_le hall, total_lt hall hk hlt⟩
  cases hadv with
  | yielded n hopen hleft =>
    generalize hr : ({ g.runners k with
      runner := some (some (.suspended n (g.runners k).task.raises)) } : TaskRunner ε) = r
    have hrdone : r.done = false := by rw [← hr]; exact hdone
    have hinv := h.yielded (g.calls + 1) hdone hstarted (h.open hdone hopen).1 hr.symm
    have hw := hless { g with runners := Function.update g.runners k r, calls := g.calls + 1 }
      (fun j hj => Function.update_of_ne hj ..) rfl (by
        rw [weight_left (g := g) hdone (h.open hdone hopen).1]
        refine lt_of_eq_of_lt (weight_left ?_ (h.open hdone hopen).1) ?_
        · dsimp only
          rw [Function.update_self]
          exact hrdone
        · dsimp only
          rw [Function.update_self, TaskRunner.left, hrdone, ← hr]
          exact hleft)
    have hsettle : Group.settle k (.yielded, r) g =
        ({ g with runners := Function.update g.runners k r, calls := g.calls + 1 }, none) := by
      rw [Group.settle]
      dsimp only
      rw [hrdone, if_neg Bool.false_ne_true]
      rfl
    exact hsettle ▸ .next _ hinv hw.1 (Or.inl hw.2)
  | returned r' hopen hraises hr htimeout =>
    have hinv := h.returns hk (g.calls + 1) hdone hstarted (by rw [← h.task_eq hdone]; exact hraises) hr htimeout
    have hw := hless ⟨g.graph.delItem k, Function.update g.runners k r', g.raised, g.calls + 1, .returned k :: g.log⟩
      (fun j hj => Function.update_of_ne hj ..) rfl (by
        rw [weight_done]
        · exact h.weight_pos hdone
        · dsimp only
          rw [Function.update_self]
          exact hr)
    have hsettle : Group.settle k (.returned, r') g =
        (⟨g.graph.delItem k, Function.update g.runners k r', g.raised, g.calls + 1, .returned k :: g.log⟩, none) := by
      rw [Group.settle]
      dsimp only
      rw [hr, if_pos rfl]
      rfl
    exact hsettle ▸ .next _ hinv hw.1 (Or.inl hw.2)
  | raised e runner hopen hraises hrunner =>
    have hk' : Raising task c g k e :=
      ⟨hk, hdone, hstarted, (h.open hdone hopen).1, by rw [← h.task_eq hdone]; exact hraises⟩
    obtain ⟨g', hg', h'⟩ := handle_spec hD h (g.calls + 1) hk' hrunner
    exact .raised _ k e g' hg' (h.handled hD hk' h') (total_handled h hk' h' hopen)
  | closed r' hr htimeout hclosed =>
    have hinv := (h.closed hD (g.calls + 1) hdone hr htimeout hclosed).delItem (k := k) (by
      dsimp only
      rw [Function.update_self]
      exact hr)
    have hw := hless ⟨g.graph.delItem k, Function.update g.runners k r', g.raised, g.calls + 1, g.log⟩
      (fun j hj => Function.update_of_ne hj ..) rfl (by
        rw [weight_done]
        · exact h.weight_pos hdone
        · dsimp only
          rw [Function.update_self]
          exact hr)
    have hsettle : Group.settle k (.closed, r') g =
        (⟨g.graph.delItem k, Function.update g.runners k r', g.raised, g.calls + 1, g.log⟩, none) := by
      rw [Group.settle]
      dsimp only
      rw [hr, if_pos rfl]
      rfl
    exact hsettle ▸ .next _ hinv hw.1 (Or.inl hw.2)

/-- **`r.start()`** of a ready task. -/
theorem start_spec (hD : Driven D c rank) (h : GroupInv D task c g) (hk : k ∈ c.keys)
    (hready : g.isReady k = true) : Next D task c g k (Group.start c g k) := by
  have hrunner := (h.of_isReady hk hready).1
  have hnext := settle_spec hD (h.start hk hready) hk (by dsimp only; rw [hrunner]) mem_cons_self
    ((g.runners k).start (c.clock g.calls)) (by
      dsimp only
      rw [hrunner]
      exact advance_start (task k) _)
  have htotal : ({ g with log := .started k :: g.log } : Group κ ε).total c = g.total c := rfl
  rw [Group.start]
  generalize Group.settle k ((g.runners k).start (c.clock g.calls)) { g with log := .started k :: g.log } = x at hnext
  cases hnext with
  | next g' hinv hle hlt =>
    refine .next g' hinv hle (hlt.imp_right fun h => ?_)
    have hdone := h.1
    dsimp only at hdone
    rw [hrunner] at hdone
    cases hdone
  | raised g' k' e g'' hhandle hinv hlt => exact .raised g' k' e g'' hhandle hinv hlt

/-- **`r.step()`** of a task that has started. -/
theorem step_spec (hD : Driven D c rank) (h : GroupInv D task c g) (hk : k ∈ c.keys)
    (hrunning : g.isRunning k = true) : Next D task c g k (Group.step c g k) := by
  rw [Group.isRunning, Bool.and_eq_true] at hrunning
  cases hdone : (g.runners k).done with
  | false =>
    exact settle_spec hD h hk hdone (h.started_mem hdone hrunning.2) _
      (advance_step (h.status k) hdone hrunning.2 _)
  | true =>
    have hself : Function.update g.runners k (g.runners k) = g.runners := Function.update_eq_self ..
    have hstep : Group.step c g k = ({ g with graph := g.graph.delItem k, calls := g.calls + 1 }, none) := by
      rw [Group.step, step_done hdone, Group.settle]
      dsimp only
      rw [hdone, if_pos rfl, hself]
      rfl
    rw [hstep]
    exact .next _ { h.delItem hdone with } le_rfl (Or.inr ⟨hdone, rfl, rfl⟩)

/-! ## 6. Turns -/

/-- After a loop: it went on to its end, with less left or nothing new, or it has handled an exception. -/
inductive Looped (D : κ → κ → Prop) (task : κ → Task ε) (c : GroupConfig κ) (T : Group κ ε → κ → Prop) (l : List κ)
    (g : Group κ ε) : Group κ ε × Option (κ × ε) → Prop
  | next (g' : Group κ ε) (hinv : GroupInv D task c g') (hle : g'.total c ≤ g.total c)
      (hlt : g'.total c < g.total c ∨ g'.runners = g.runners ∧ g'.log = g.log ∧ ∀ k ∈ l, ¬ T g k) :
      Looped D task c T l g (g', none)
  | raised (g' : Group κ ε) (k' : κ) (e : ε) (g'' : Group κ ε) (hhandle : Group.handle c g' k' e = some g'')
      (hinv : GroupInv D task c g'') (hlt : g''.total c < g.total c) : Looped D task c T l g (g', some (k', e))

/-- **A loop** takes a step where some key meets its condition and is not done. -/
theorem loop_spec {test : Group κ ε → κ → Bool} {body : Group κ ε → κ → Group κ ε × Option (κ × ε)}
    {T : Group κ ε → κ → Prop}
    (hbody : ∀ g : Group κ ε, ∀ k ∈ c.keys, GroupInv D task c g → test g k = true → Next D task c g k (body g k))
    (htest : ∀ g : Group κ ε, ∀ k ∈ c.keys, GroupInv D task c g → T g k → test g k = true)
    (hdone : ∀ (g : Group κ ε) k, T g k → (g.runners k).done = false)
    (hT : ∀ (g g' : Group κ ε) k, g'.runners = g.runners → g'.log = g.log → T g k → T g' k)
    {l : List κ} (hl : ∀ k ∈ l, k ∈ c.keys) (g : Group κ ε) (h : GroupInv D task c g) :
    Looped D task c T l g (Group.loop test body l g) := by
  induction l generalizing g with
  | nil => exact .next g h le_rfl (Or.inr ⟨rfl, rfl, nofun⟩)
  | cons k l ih =>
    have hk := hl k mem_cons_self
    have hl' : ∀ k ∈ l, k ∈ c.keys := fun k hk => hl k (mem_cons_of_mem _ hk)
    rw [Group.loop]
    cases hcond : test g k with
    | true =>
      rw [if_pos rfl]
      have hnext := hbody g k hk h hcond
      generalize body g k = x at hnext
      cases hnext with
      | next g₁ hinv hle hlt =>
        have htail := ih hl' g₁ hinv
        dsimp only
        generalize Group.loop test body l g₁ = y at htail
        cases htail with
        | next g₂ hinv₂ hle₂ hlt₂ =>
          refine .next g₂ hinv₂ (hle₂.trans hle) ?_
          rcases hlt with hlt | ⟨hd, hrun, hlog⟩
          · exact Or.inl (hle₂.trans_lt hlt)
          · rcases hlt₂ with hlt₂ | ⟨hrun₂, hlog₂, hno⟩
            · exact Or.inl (hlt₂.trans_le hle)
            · refine Or.inr ⟨hrun₂.trans hrun, hlog₂.trans hlog, fun j hj hTj => ?_⟩
              rcases mem_cons.mp hj with rfl | hj
              · rw [hdone g j hTj] at hd
                cases hd
              · exact hno j hj (hT g g₁ j hrun hlog hTj)
        | raised g₂ k' e g₃ hhandle hinv₃ hlt₃ => exact .raised g₂ k' e g₃ hhandle hinv₃ (hlt₃.trans_le hle)
      | raised g₁ k' e g₂ hhandle hinv hlt => exact .raised g₁ k' e g₂ hhandle hinv hlt
    | false =>
      rw [if_neg Bool.false_ne_true]
      have htail := ih hl' g h
      generalize Group.loop test body l g = y at htail
      cases htail with
      | next g₂ hinv₂ hle₂ hlt₂ =>
        refine .next g₂ hinv₂ hle₂ (hlt₂.imp_right fun h₂ => ⟨h₂.1, h₂.2.1, fun j hj hTj => ?_⟩)
        rcases mem_cons.mp hj with rfl | hj
        · rw [htest g j hk h hTj] at hcond
          cases hcond
        · exact h₂.2.2 j hj hTj
      | raised g₂ k' e g₃ hhandle hinv₃ hlt₃ => exact .raised g₂ k' e g₃ hhandle hinv₃ hlt₃

/-- A task that `_ready` finds. -/
def Startable (D : κ → κ → Prop) (g : Group κ ε) (k : κ) : Prop :=
  (g.runners k).done = false ∧ (g.runners k).started = false ∧ ∀ r, D k r → .returned r ∈ g.log

/-- A task that `_running` finds and that is not done. -/
def Steppable (g : Group κ ε) (k : κ) : Prop := (g.runners k).done = false ∧ (g.runners k).started = true

theorem startReady_spec (hD : Driven D c rank) (h : GroupInv D task c g) :
    Looped D task c (Startable D) c.keys g (Group.startReady c g) := by
  refine loop_spec (fun g k hk h => start_spec hD h hk) (fun g k hk h hT => ?_) (fun g k hT => hT.1)
    (fun g g' k hrun hlog hT => ?_) (fun k hk => hk) g h
  · obtain ⟨hdone, hstarted, hret⟩ := hT
    obtain ⟨n, hn, -, hreq⟩ := h.node k hk hdone
    have hempty : n.require = [] := eq_nil_iff_forall_not_mem.mpr fun r hr =>
      ((hreq r).mp hr).2 (hret r ((hreq r).mp hr).1)
    rw [Group.isReady, hn, hdone, hstarted, Option.any_some, hempty]
    rfl
  · rw [Startable, hrun, hlog]
    exact hT

theorem stepRunning_spec (hD : Driven D c rank) (h : GroupInv D task c g) :
    Looped D task c Steppable c.order g (Group.stepRunning c g) := by
  refine loop_spec (fun g k hk h => step_spec hD h hk) (fun g k hk h hT => ?_) (fun g k hT => hT.1)
    (fun g g' k hrun hlog hT => ?_) (fun k hk => (hD.order k).mp hk) g h
  · obtain ⟨n, hn, -⟩ := h.node k hk hT.1
    rw [Group.isRunning, hn, hT.2]
    rfl
  · rw [Steppable, hrun]
    exact hT

/-- **Some task is ready or running** as long as one is not done. -/
theorem GroupInv.exists_step (h : GroupInv D task c g)
    (hD : Driven D c rank) (hk : k ∈ c.keys) (hdone : (g.runners k).done = false) :
    ∃ m ∈ c.keys, Startable D g m ∨ Steppable g m := by
  obtain ⟨m, hm, hmax⟩ := Finset.exists_max_image (c.keys.filter fun j => !(g.runners j).done).toFinset rank
    ⟨k, by simp [hk, hdone]⟩
  simp only [List.mem_toFinset, mem_filter, Bool.not_eq_true'] at hm hmax
  refine ⟨m, hm.1, ?_⟩
  cases hstarted : (g.runners m).started with
  | true => exact Or.inr ⟨hm.2, hstarted⟩
  | false =>
    refine Or.inl ⟨hm.2, hstarted, fun r hr => ?_⟩
    by_contra hret
    cases hrd : (g.runners r).done with
    | true =>
      have hd := h.dependents r m (Or.inl hrd) hret hr
      rw [hm.2] at hd
      cases hd
    | false =>
      have hle := hmax r ⟨(hD.keys m r hr).2, hrd⟩
      have hlt := hD.rank_lt m r hr
      omega

/-- **Every turn has less left to do.** -/
theorem turn_spec (hD : Driven D c rank) (h : GroupInv D task c g) (hk : k ∈ c.keys)
    (hdone : (g.runners k).done = false) :
    ∃ g', Group.turn c g = some g' ∧ GroupInv D task c g' ∧ g'.total c < g.total c := by
  obtain ⟨m, hm, hstep⟩ := h.exists_step hD hk hdone
  have hstart := startReady_spec hD h
  rw [Group.turn]
  generalize Group.startReady c g = x at hstart
  cases hstart with
  | raised g₁ k' e g₂ hhandle hinv hlt => exact ⟨g₂, hhandle, hinv, hlt⟩
  | next g₁ hinv hle hlt =>
    have hrunning := stepRunning_spec hD hinv
    dsimp only
    generalize Group.stepRunning c g₁ = y at hrunning
    cases hrunning with
    | raised g₂ k' e g₃ hhandle hinv₃ hlt₃ => exact ⟨g₃, hhandle, hinv₃, hlt₃.trans_le hle⟩
    | next g₂ hinv₂ hle₂ hlt₂ =>
      refine ⟨g₂, rfl, hinv₂, ?_⟩
      rcases hlt with hlt | ⟨hrun, -, hnostart⟩
      · exact hle₂.trans_lt hlt
      · rcases hlt₂ with hlt₂ | ⟨-, -, hnostep⟩
        · exact hlt₂.trans_le hle
        · rcases hstep with hstep | hstep
          · exact absurd hstep (hnostart m hm)
          · refine absurd ?_ (hnostep m ((hD.order m).mpr hm))
            rw [Steppable, hrun]
            exact hstep

/-- **A run ends**, with every task done. -/
theorem run_spec (hD : Driven D c rank) (h : GroupInv D task c g) :
    ∃ turns g', Group.run c turns g = some (g', Group.result c g') ∧ GroupInv D task c g' ∧
      ∀ k ∈ c.keys, (g'.runners k).done = true := by
  induction hn : g.total c using Nat.strongRecOn generalizing g with
  | ind n ih =>
    by_cases hall : (c.keys.all fun k => (g.runners k).done) = true
    · exact ⟨1, g, by rw [Group.run, if_pos hall], h, fun k hk => List.all_eq_true.mp hall k hk⟩
    · obtain ⟨k, hk, hdone⟩ : ∃ k ∈ c.keys, (g.runners k).done = false := by
        by_contra hnone
        push Not at hnone
        exact hall (List.all_eq_true.mpr fun k hk => by simpa using hnone k hk)
      obtain ⟨g₁, hturn, hinv, hlt⟩ := turn_spec hD h hk hdone
      obtain ⟨turns, g', hrun, hinv', hdone'⟩ := ih (g₁.total c) (hn ▸ hlt) hinv rfl
      refine ⟨turns + 1, g', ?_, hinv', hdone'⟩
      rw [Group.run, if_neg hall, hturn]
      exact hrun

/-! ## 7. Task groups -/

/-- A task ran to completion, or to its exception. -/
def Ended (log : List (Event κ ε)) (k : κ) : Prop := .returned k ∈ log ∨ ∃ e, .raised k e ∈ log

/-- A result for the exceptions of a group. -/
def GroupResult.ofExceptions : List ε → GroupResult ε
  | [] => .returned
  | exceptions => .exceptionGroup exceptions

/-- What a task group is for. `D`: its edges in the direction it runs in. -/
structure TaskGroupSpec (D : κ → κ → Prop) (IsKey : κ → Prop) (task : κ → Task ε) (aggregateExceptions : Bool)
    (log : List (Event κ ε)) (result : GroupResult ε) : Prop where
  ordered : Ordered D log
  raises : ∀ k e, .raised k e ∈ log → (task k).raises = some e
  complete : (∀ k, IsKey k → (task k).raises = none) → result = .returned ∧ ∀ k, IsKey k → .returned k ∈ log
  ended : aggregateExceptions = true →
    ∀ k, IsKey k → (Ended log k ↔ ∀ r, Relation.TransGen D k r → (task r).raises = none)
  group : aggregateExceptions = true → ∃ (ks : List κ) (exceptions : List ε), ks.Nodup ∧ (∀ k, k ∈ ks ↔ ∃ e, .raised k e ∈ log) ∧
    exceptions.map some = ks.map (fun k => (task k).raises) ∧ result = .ofExceptions exceptions
  first : aggregateExceptions = false → (∀ k e, .raised k e ∉ log) ∧ result = .returned ∨
    ∃ after before k e, log = after ++ .raised k e :: before ∧ (∀ j e', .raised j e' ∉ before) ∧
      (∀ j, .started j ∉ after) ∧ result = .raised e

omit [DecidableEq κ] in
/-- The first exception of a log. -/
theorem exists_first_raised {log : List (Event κ ε)} (h : raisers log ≠ []) :
    ∃ after before k e, log = after ++ .raised k e :: before ∧ (∀ j e', .raised j e' ∉ before) ∧
      (raisers log).reverse.head? = some k := by
  induction log with
  | nil => exact absurd rfl h
  | cons event log ih =>
    by_cases hlog : raisers log = []
    · cases event with
      | started k => exact absurd hlog h
      | returned k => exact absurd hlog h
      | raised k e =>
        refine ⟨[], log, k, e, rfl, fun j e' hj => ?_, by rw [raisers_raised, hlog]; rfl⟩
        have hmem := mem_raisers.mpr ⟨e', hj⟩
        rw [hlog] at hmem
        cases hmem
    · obtain ⟨after, before, k, e, rfl, hbefore, hhead⟩ := ih hlog
      refine ⟨event :: after, before, k, e, rfl, hbefore, ?_⟩
      cases event with
      | started j => exact hhead
      | returned j => exact hhead
      | raised j e' =>
        rw [raisers_raised, reverse_cons, head?_append, hhead]
        rfl

/-- **What the log says at the end.** -/
theorem GroupInv.spec (h : GroupInv D task c g) (hdone : ∀ k ∈ c.keys, (g.runners k).done = true) :
    TaskGroupSpec D (· ∈ c.keys) task c.aggregateExceptions g.log (Group.result c g) := by
  have hnil : g.raised = [] ↔ raisers g.log = [] := by
    rw [← map_eq_nil_iff (f := some), h.raised, map_eq_nil_iff, reverse_eq_nil_iff]
  have hreturned : ∀ k y, .started k ∈ g.log → Relation.TransGen D k y → .returned y ∈ g.log := fun k y hk hy => by
    induction hy with
    | single hy => exact h.ordered.mem hk hy
    | tail _ hyz ih => exact h.ordered.mem (h.finished _ (Or.inl ih)) hyz
  refine ⟨h.ordered, h.raises, fun hnone => ?_, fun hagg k hk => ⟨fun hend r hr => ?_, fun hreq => ?_⟩,
    fun hagg => ⟨(raisers g.log).reverse, g.raised, nodup_reverse.mpr h.nodup, fun k => ?_, h.raised, ?_⟩,
    fun hagg => ?_⟩
  · have hraisers : raisers g.log = [] := by
      refine eq_nil_iff_forall_not_mem.mpr fun k hk => ?_
      obtain ⟨e, he⟩ := mem_raisers.mp hk
      have hk' := hnone k (h.mem k hk)
      rw [h.raises k e he] at hk'
      cases hk'
    refine ⟨by rw [Group.result, hnil.mpr hraisers], fun k hk => ?_⟩
    by_contra hret
    exact (h.cause k (hdone k hk) hret).1 hraisers
  · have hstarted : .started k ∈ g.log := h.finished k (hend.imp_right mem_raisers.mpr)
    exact h.returned r (hreturned k r hstarted hr)
  · by_cases hret : .returned k ∈ g.log
    · exact Or.inl hret
    · obtain ⟨r, hr, hkr⟩ := (h.cause k (hdone k hk) hret).2 hagg
      rcases Relation.reflTransGen_iff_eq_or_transGen.mp hkr with rfl | hkr
      · exact Or.inr (mem_raisers.mp hr)
      · obtain ⟨e, he⟩ := mem_raisers.mp hr
        have hnone := hreq r hkr
        rw [h.raises r e he] at hnone
        cases hnone
  · rw [mem_reverse, mem_raisers]
  · rw [Group.result, hagg]
    cases g.raised <;> rfl
  · by_cases hraisers : raisers g.log = []
    · refine Or.inl ⟨fun k e hk => ?_, by rw [Group.result, hnil.mpr hraisers]⟩
      have hmem := mem_raisers.mpr ⟨e, hk⟩
      rw [hraisers] at hmem
      cases hmem
    · obtain ⟨after, before, k, e, heq, hbefore, hhead⟩ := exists_first_raised hraisers
      refine Or.inr ⟨after, before, k, e, heq, hbefore, h.halted hagg after before k e heq, ?_⟩
      have hfirst : g.raised.head? = some e := by
        have hmap := congrArg head? h.raised
        rw [head?_map, head?_map, hhead, Option.map_some, h.raises k e (heq ▸ mem_append_right _ mem_cons_self)] at hmap
        cases hraised : g.raised.head? with
        | none => rw [hraised] at hmap; cases hmap
        | some e' => rw [hraised] at hmap; exact Option.some.inj hmap
      rw [Group.result]
      cases hraised : g.raised with
      | nil => rw [hraised] at hfirst; cases hfirst
      | cons e' l =>
        rw [hraised] at hfirst
        obtain rfl := Option.some.inj hfirst
        rw [hagg]
        rfl

end Inv

section

variable {κ ε : Type} [DecidableEq κ]

theorem groupInv_init {D : κ → κ → Prop} {c : GroupConfig κ} {graph : Graph κ} (task : κ → Task ε)
    (hgraph : IsGraph D graph) (hkeys : ∀ k ∈ c.keys, (graph.get k).isSome = true) :
    GroupInv D task c (.init graph task) := by
  refine ⟨fun k => .waiting nofun nofun, fun after before k heq => ?_, nofun, nofun, nofun, nofun, nodup_nil, rfl,
    fun k hk => absurd rfl hk, fun k d => ((hgraph.node k).satisfy d).mp, fun k hk _ => ?_, fun k d hk => ?_,
    fun k hk => ?_, fun _ hne => absurd rfl hne, fun _ after before k e heq => ?_⟩
  · cases after <;> cases heq
  · obtain ⟨n, hn⟩ := Option.isSome_iff_exists.mp (hkeys k hk)
    have hnode := hgraph.node_of_get hn
    exact ⟨n, hn, hnode.satisfy, fun r => by rw [hnode.require]; simp [Group.init]⟩
  · rcases hk with hk | hk
    · cases hk
    · cases hk
  · cases hk
  · cases after <;> cases heq

/-- **A task group does what it is for**, whatever its tasks do and whenever it is cancelled. -/
theorem dependencyTaskGroup {R : κ → κ → Prop} {dependencies : Graph κ} (hgraph : IsGraph R dependencies)
    (hacyclic : Acyclic R) (task : κ → Task ε) (reverse : Bool) {order : List κ}
    (horder : ∀ k, k ∈ order ↔ (dependencies.get k).isSome = true) (errorWaitTime : Option ℚ)
    (aggregateExceptions : Bool) (clock : Nat → ℚ) :
    ∃ turns g result,
      runTaskGroup dependencies task reverse order errorWaitTime aggregateExceptions clock turns = some (g, result) ∧
      TaskGroupSpec (fun a b => if reverse then R b a else R a b) (fun k => (dependencies.get k).isSome = true) task
        aggregateExceptions g.log result := by
  obtain ⟨keys, hkeys, hsorted⟩ := toposort_of_acyclic hgraph hacyclic
  have hirrefl : ∀ k, ¬ R k k := fun k hk => hacyclic k (Relation.TransGen.single hk)
  have hidx : ∀ a b, R a b → keys.idxOf b < keys.idxOf a ∧ a ∈ keys ∧ b ∈ keys := fun a b hab => by
    obtain ⟨ha, hb⟩ := hgraph.mem a b hab
    rw [← hsorted.mem] at ha hb
    exact ⟨hsorted.idxOf_lt hirrefl hab ha hb, ha, hb⟩
  obtain ⟨graph, rank, hgr, hD, hinit⟩ : ∃ (graph : Graph κ) (rank : κ → Nat),
      (if reverse then dependencies.reverseCopy else dependencies) = graph ∧
      Driven (fun a b => if reverse then R b a else R a b) ⟨keys, order, errorWaitTime, aggregateExceptions, clock⟩ rank ∧
      GroupInv (fun a b => if reverse then R b a else R a b) task
        ⟨keys, order, errorWaitTime, aggregateExceptions, clock⟩ (.init graph task) := by
    have horder' : ∀ k, k ∈ order ↔ k ∈ keys := fun k => by rw [horder, hsorted.mem]
    cases reverse with
    | true =>
      refine ⟨dependencies.reverseCopy, fun k => keys.idxOf k, rfl, ⟨fun d k hdk => ?_, horder', fun d k hdk => ?_,
        fun k hk => idxOf_le_length⟩, groupInv_init task hgraph.reverseCopy fun k hk => ?_⟩
      · exact (hidx k d hdk).2.symm
      · exact (hidx k d hdk).1
      · rw [get_reverseCopy, Option.isSome_map]
        exact (hsorted.mem k).mp hk
    | false =>
      refine ⟨dependencies, fun k => keys.length - keys.idxOf k, rfl, ⟨fun d k hdk => ?_, horder', fun d k hdk => ?_,
        fun k hk => Nat.sub_le _ _⟩, groupInv_init task hgraph fun k hk => (hsorted.mem k).mp hk⟩
      · exact (hidx d k hdk).2
      · have hlt := (hidx d k hdk).1
        have hle : keys.idxOf d ≤ keys.length := idxOf_le_length
        show keys.length - keys.idxOf d < keys.length - keys.idxOf k
        omega
  obtain ⟨turns, g, hrun, hinv, hdone⟩ := run_spec hD hinit
  refine ⟨turns, g, Group.result ⟨keys, order, errorWaitTime, aggregateExceptions, clock⟩ g, ?_, ?_⟩
  · rw [runTaskGroup, hkeys, hgr]
    exact hrun
  · have hspec := hinv.spec hdone
    have hmem : (fun k => k ∈ keys) = fun k => (dependencies.get k).isSome = true :=
      funext fun k => propext (hsorted.mem k)
    rw [← hmem]
    exact hspec

end

/-- Two of four tasks, both required by a third, raise. -/
theorem dependencyTaskGroup_diamond :
    ∃ turns g result,
      runTaskGroup (ofEdges [(1, some 0), (2, some 0), (3, some 1), (3, some 2)])
        (fun k => .coroutine k (if k = 0 ∨ k = 3 then none else some k)) false
        ((ofEdges [(1, some 0), (2, some 0), (3, some 1), (3, some 2)]).map Prod.fst) (some 5) true (fun n => n) turns =
          some (g, result) ∧
      TaskGroupSpec (fun a b => if false = true then Requires [(1, some 0), (2, some 0), (3, some 1), (3, some 2)] b a
          else Requires [(1, some 0), (2, some 0), (3, some 1), (3, some 2)] a b)
        (fun k => (Dict.get (ofEdges [(1, some 0), (2, some 0), (3, some 1), (3, some 2)]) k).isSome = true)
        (fun k => .coroutine k (if k = 0 ∨ k = 3 then none else some k)) true g.log result := by
  refine dependencyTaskGroup (isGraph_ofEdges _) (fun k hk => ?_) _ false (fun k => Dict.mem_keys_iff) (some 5) true _
  have hlt : ∀ a b : Nat, Requires [(1, some 0), (2, some 0), (3, some 1), (3, some 2)] a b → b < a := fun a b hab => by
    simp only [Requires, mem_cons, not_mem_nil, Prod.mk.injEq, Option.some.injEq, or_false] at hab
    omega
  have htrans : ∀ a b : Nat, Relation.TransGen (Requires [(1, some 0), (2, some 0), (3, some 1), (3, some 2)]) a b →
      b < a := fun a b hab => by
    induction hab with
    | single h => exact hlt _ _ h
    | tail _ h ih => exact (hlt _ _ h).trans ih
  exact absurd (htrans k k hk) (lt_irrefl k)

end Mitaka.Heat
