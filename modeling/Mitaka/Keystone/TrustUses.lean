/-
  Subject: consume_use and delete_trust of keystone/trust/backends/sql.py, statement by
           statement.

  Any calls run at once, and each step of a run is one SELECT or UPDATE of one of them. A
  use is consumed by an UPDATE that finds the count that its SELECT read; an attempt that is
  lost was read from a greater count than the one there now, so the attempts of a call are
  paid for by uses of others (`Bounded`). No run gives away more uses than there are
  (**`uses_never_overconsumed`**).
-/
import Mathlib

namespace Mitaka.Keystone.Uses

/-! ## 1. The statements -/

def MAXIMUM_CONSUME_ATTEMPTS : ℕ := 10

inductive Error
  | trustNotFound
  | trustUseLimitReached
  | trustConsumeMaximumAttempt
deriving DecidableEq, Repr

/-- What the statements read and write of the row. -/
structure TrustModel where
  remainingUses : Option ℤ
  deletedAt : Bool
deriving DecidableEq, Repr

/-- Where a call of `consume_use` is: before the SELECT of an attempt, before its UPDATE with what was read, or at its end. -/
inductive ConsumeUse
  | select (attempt : ℕ)
  | update (attempt : ℕ) (remainingUses : ℤ)
  | returned
  | raised (e : Error)
deriving DecidableEq, Repr

/-- The next statement of `consume_use`. -/
def ConsumeUse.next (trust : TrustModel) : ConsumeUse → TrustModel × ConsumeUse
  | .select attempt =>
    if trust.deletedAt then (trust, .raised .trustNotFound)
    else
      match trust.remainingUses with
      | none => (trust, .returned)
      | some remainingUses =>
        if remainingUses > 0 then (trust, .update attempt remainingUses) else (trust, .raised .trustUseLimitReached)
  | .update attempt remainingUses =>
    if trust.deletedAt = false ∧ trust.remainingUses = some remainingUses then
      ({ trust with remainingUses := some (remainingUses - 1) }, .returned)
    else if attempt + 1 < MAXIMUM_CONSUME_ATTEMPTS then (trust, .select (attempt + 1))
    else (trust, .raised .trustConsumeMaximumAttempt)
  | .returned => (trust, .returned)
  | .raised e => (trust, .raised e)

/-- Where `delete_trust` is. -/
inductive DeleteTrust
  | select
  | update
  | returned
deriving DecidableEq, Repr

/-- The next statement of `delete_trust`. -/
def DeleteTrust.next (trust : TrustModel) : DeleteTrust → TrustModel × DeleteTrust
  | .select => (trust, .update)
  | .update => ({ trust with deletedAt := true }, .returned)
  | .returned => (trust, .returned)

/-! ## 2. Runs -/

variable {ι : Type} [DecidableEq ι]

/-- The row, the calls of `consume_use` and the one of `delete_trust`. -/
structure System (ι : Type) where
  trust : TrustModel
  calls : ι → ConsumeUse
  deletion : DeleteTrust

inductive Actor (ι : Type)
  | consume (i : ι)
  | delete
deriving DecidableEq

namespace System

/-- A trust with `k` uses, and no call begun. -/
def start (ι : Type) (k : ℕ) : System ι := ⟨⟨some k, false⟩, fun _ => .select 0, .select⟩

/-- One statement of one of them. -/
def step (sys : System ι) : Actor ι → System ι
  | .consume i =>
    let next := (sys.calls i).next sys.trust
    { sys with trust := next.1, calls := Function.update sys.calls i next.2 }
  | .delete =>
    let next := sys.deletion.next sys.trust
    { sys with trust := next.1, deletion := next.2 }

def run (sys : System ι) (schedule : List (Actor ι)) : System ι := schedule.foldl step sys

/-- The calls that have returned. -/
def winners [Fintype ι] (sys : System ι) : Finset ι := {i | sys.calls i = .returned}

/-! ## 3. One statement -/

variable {sys : System ι}

/-- What a step does: nothing to the row and what has returned, or it consumes a use, or it deletes the trust. -/
inductive Effect (sys sys' : System ι) : Actor ι → Prop
  | quiet {a : Actor ι} : sys'.trust = sys.trust → (∀ j, sys'.calls j = .returned ↔ sys.calls j = .returned) → Effect sys sys' a
  | consumed {i : ι} {attempt : ℕ} {n : ℤ} : sys.calls i = .update attempt n → sys.trust.deletedAt = false →
      sys.trust.remainingUses = some n → sys'.trust = { sys.trust with remainingUses := some (n - 1) } →
      sys'.calls = Function.update sys.calls i .returned → Effect sys sys' (.consume i)
  | deleted : sys'.trust = { sys.trust with deletedAt := true } → sys'.calls = sys.calls → Effect sys sys' .delete

variable {i : ι} {c : ConsumeUse}

/-- A call that has not returned with its last statement, or had before. -/
theorem returned_update (h : c = .returned ↔ sys.calls i = .returned) (j : ι) :
    Function.update sys.calls i c j = .returned ↔ sys.calls j = .returned := by
  by_cases hj : j = i
  · rw [hj, Function.update_self, h]
  · rw [Function.update_of_ne hj]

theorem step_effect (h : sys.trust.remainingUses ≠ none) (a : Actor ι) : Effect sys (sys.step a) a := by
  cases a with
  | delete =>
    cases hdeletion : sys.deletion with
    | select =>
      refine .quiet ?_ fun j => Iff.rfl
      rw [step, hdeletion]
      rfl
    | update =>
      refine .deleted ?_ rfl
      rw [step, hdeletion]
      rfl
    | returned =>
      refine .quiet ?_ fun j => Iff.rfl
      rw [step, hdeletion]
      rfl
  | consume i =>
    have hquiet : ∀ c, ConsumeUse.next sys.trust (sys.calls i) = (sys.trust, c) → (c = .returned ↔ sys.calls i = .returned) →
        Effect sys (sys.step (.consume i)) (.consume i) := by
      intro c hnext hc
      rw [step, hnext]
      exact .quiet rfl (returned_update hc)
    cases hcall : sys.calls i with
    | select attempt =>
      by_cases hdeleted : sys.trust.deletedAt = true
      · exact hquiet _ (by rw [hcall, ConsumeUse.next, if_pos hdeleted]) (by rw [hcall]; exact iff_of_false nofun nofun)
      · cases huses : sys.trust.remainingUses with
        | none => exact absurd huses h
        | some n =>
          by_cases hpos : n > 0
          · refine hquiet (.update attempt n) ?_ (by rw [hcall]; exact iff_of_false nofun nofun)
            rw [hcall, ConsumeUse.next, if_neg hdeleted, huses]
            exact if_pos hpos
          · refine hquiet (.raised .trustUseLimitReached) ?_ (by rw [hcall]; exact iff_of_false nofun nofun)
            rw [hcall, ConsumeUse.next, if_neg hdeleted, huses]
            exact if_neg hpos
    | update attempt n =>
      by_cases hwon : sys.trust.deletedAt = false ∧ sys.trust.remainingUses = some n
      · refine .consumed hcall hwon.1 hwon.2 ?_ ?_
        · rw [step, hcall, ConsumeUse.next, if_pos hwon]
        · rw [step, hcall, ConsumeUse.next, if_pos hwon]
      · by_cases hmore : attempt + 1 < MAXIMUM_CONSUME_ATTEMPTS
        · refine hquiet (.select (attempt + 1)) ?_ (by rw [hcall]; exact iff_of_false nofun nofun)
          rw [hcall, ConsumeUse.next, if_neg hwon, if_pos hmore]
        · refine hquiet (.raised .trustConsumeMaximumAttempt) ?_ (by rw [hcall]; exact iff_of_false nofun nofun)
          rw [hcall, ConsumeUse.next, if_neg hwon, if_neg hmore]
    | returned => exact hquiet _ (by rw [hcall]; rfl) (by rw [hcall])
    | raised e => exact hquiet (.raised e) (by rw [hcall]; rfl) (by rw [hcall])

/-- A call that does not run stays where it is. -/
theorem step_calls_of_ne {a : Actor ι} (h : a ≠ .consume i) : (sys.step a).calls i = sys.calls i := by
  cases a with
  | consume j =>
    have hne : i ≠ j := fun heq => h (heq ▸ rfl)
    exact Function.update_of_ne hne _ _
  | delete => rfl

theorem step_calls_self (i : ι) : (sys.step (.consume i)).calls i = ((sys.calls i).next sys.trust).2 :=
  Function.update_self _ _ _

/-- Where a call stands after a step, it stood before or its statement led to. -/
theorem calls_step {a : Actor ι} (hc : (sys.step a).calls i = c) :
    sys.calls i = c ∨ (a = .consume i ∧ ((sys.calls i).next sys.trust).2 = c) := by
  by_cases ha : a = .consume i
  · subst ha
    rw [step_calls_self] at hc
    exact Or.inr ⟨rfl, hc⟩
  · rw [step_calls_of_ne ha] at hc
    exact Or.inl hc

variable {trust : TrustModel}

omit [DecidableEq ι] in
/-- Before an UPDATE a call has read the count. -/
theorem next_eq_update {attempt : ℕ} {n : ℤ} (h : (c.next trust).2 = .update attempt n) :
    c = .select attempt ∧ trust.deletedAt = false ∧ trust.remainingUses = some n ∧ 0 < n := by
  cases c with
  | select attempt' =>
    rw [ConsumeUse.next] at h
    by_cases hdeleted : trust.deletedAt = true
    · rw [if_pos hdeleted] at h
      cases h
    · rw [if_neg hdeleted] at h
      cases huses : trust.remainingUses with
      | none =>
        rw [huses] at h
        cases h
      | some m =>
        rw [huses] at h
        dsimp only at h
        by_cases hpos : m > 0
        · rw [if_pos hpos] at h
          cases h
          exact ⟨rfl, Bool.not_eq_true _ ▸ hdeleted, rfl, hpos⟩
        · rw [if_neg hpos] at h
          cases h
  | update attempt' m =>
    rw [ConsumeUse.next] at h
    split_ifs at h
  | returned => cases h
  | raised e => cases h

omit [DecidableEq ι] in
/-- A call runs out of uses where none is left. -/
theorem next_eq_limit (h : (c.next trust).2 = .raised .trustUseLimitReached) :
    c = .raised .trustUseLimitReached ∨ ∃ n, trust.remainingUses = some n ∧ n ≤ 0 := by
  cases c with
  | select attempt' =>
    rw [ConsumeUse.next] at h
    by_cases hdeleted : trust.deletedAt = true
    · rw [if_pos hdeleted] at h
      cases h
    · rw [if_neg hdeleted] at h
      cases huses : trust.remainingUses with
      | none =>
        rw [huses] at h
        cases h
      | some m =>
        rw [huses] at h
        dsimp only at h
        by_cases hpos : m > 0
        · rw [if_pos hpos] at h
          cases h
        · exact Or.inr ⟨m, rfl, not_lt.mp hpos⟩
  | update attempt' m =>
    rw [ConsumeUse.next] at h
    split_ifs at h
    cases h
  | returned => cases h
  | raised e => exact Or.inl h

/-! ## 4. The count -/

variable [Fintype ι]

omit [DecidableEq ι] in
theorem mem_winners : i ∈ sys.winners ↔ sys.calls i = .returned := by
  simp [winners]

omit [DecidableEq ι] in
theorem winners_eq {sys' : System ι} (h : ∀ j, sys'.calls j = .returned ↔ sys.calls j = .returned) : sys'.winners = sys.winners := by
  ext j
  rw [mem_winners, mem_winners, h j]

/-- A use that is consumed is one winner more. -/
theorem winners_consumed {sys' : System ι} {attempt : ℕ} {n : ℤ} (hcall : sys.calls i = .update attempt n)
    (hcalls : sys'.calls = Function.update sys.calls i .returned) : sys'.winners = insert i sys.winners ∧ i ∉ sys.winners := by
  refine ⟨?_, fun hmem => ?_⟩
  · ext j
    rw [Finset.mem_insert, mem_winners, mem_winners, hcalls]
    by_cases hj : j = i
    · rw [hj, Function.update_self]
      exact iff_of_true rfl (Or.inl rfl)
    · rw [Function.update_of_ne hj, or_iff_right hj]
  · rw [mem_winners, hcall] at hmem
    cases hmem

/-- What holds in every state of a run. -/
structure Inv (k : ℕ) (sys : System ι) : Prop where
  count : sys.trust.remainingUses = some ((k : ℤ) - sys.winners.card)
  room : sys.winners.card ≤ k
  /-- What a call has read is a count that was there, and no less than the one there now. -/
  read : ∀ i attempt n, sys.calls i = .update attempt n → 0 < n ∧ (k : ℤ) - sys.winners.card ≤ n
  limit : ∀ i, sys.calls i = .raised .trustUseLimitReached → sys.winners.card = k

omit [DecidableEq ι] in
theorem inv_start (k : ℕ) : Inv k (start ι k) := by
  have hnone : (start ι k).winners = ∅ := Finset.eq_empty_of_forall_notMem fun i hi => nomatch mem_winners.mp hi
  refine ⟨?_, ?_, fun i attempt n h => ?_, fun i h => ?_⟩
  · rw [hnone, Finset.card_empty]
    simp [start]
  · rw [hnone, Finset.card_empty]
    exact Nat.zero_le k
  · cases h
  · cases h

variable {k : ℕ}

omit [DecidableEq ι] in
theorem Inv.uses_ne_none (h : Inv k sys) : sys.trust.remainingUses ≠ none := by
  rw [h.count]
  exact Option.some_ne_none _

theorem Inv.step (h : Inv k sys) (a : Actor ι) : Inv k (sys.step a) := by
  have hcount := h.count
  have hroom := h.room
  cases step_effect h.uses_ne_none a with
  | quiet htrust hreturned =>
    have hwinners := winners_eq hreturned
    refine ⟨by rw [htrust, hwinners, hcount], by rw [hwinners]; exact hroom, fun i attempt n hi => ?_, fun i hi => ?_⟩
    · rw [hwinners]
      rcases calls_step hi with hi | ⟨-, hi⟩
      · exact h.read i attempt n hi
      · obtain ⟨-, -, huses, hpos⟩ := next_eq_update hi
        exact ⟨hpos, (Option.some.inj (hcount.symm.trans huses)).le⟩
    · rw [hwinners]
      rcases calls_step hi with hi | ⟨-, hi⟩
      · exact h.limit i hi
      · rcases next_eq_limit hi with hi | ⟨n, huses, hn⟩
        · exact h.limit i hi
        · have heq := Option.some.inj (hcount.symm.trans huses)
          omega
  | @consumed i attempt n hcall hlive huses htrust hcalls =>
    obtain ⟨hwinners, hnew⟩ := winners_consumed hcall hcalls
    have hcard : (sys.step (.consume i)).winners.card = sys.winners.card + 1 := by
      rw [hwinners, Finset.card_insert_of_notMem hnew]
    have heq := Option.some.inj (hcount.symm.trans huses)
    obtain ⟨hpos, -⟩ := h.read i attempt n hcall
    refine ⟨?_, by omega, fun j attempt' m hj => ?_, fun j hj => ?_⟩
    · rw [htrust, hcard]
      refine congrArg some ?_
      push_cast
      omega
    · rw [hcard]
      rcases calls_step hj with hj | ⟨ha, hj⟩
      · obtain ⟨hm, hle⟩ := h.read j attempt' m hj
        push_cast
        omega
      · obtain ⟨hselect, -⟩ := next_eq_update hj
        obtain rfl := Actor.consume.inj ha
        rw [hcall] at hselect
        cases hselect
    · rcases calls_step hj with hj | ⟨ha, hj⟩
      · have hall := h.limit j hj
        omega
      · rcases next_eq_limit hj with hj | ⟨m, huses', hm⟩
        · have hall := h.limit j hj
          omega
        · have heq' := Option.some.inj (hcount.symm.trans huses')
          omega
  | deleted htrust hcalls =>
    have hwinners : (sys.step .delete).winners = sys.winners := winners_eq fun j => by rw [hcalls]
    refine ⟨by rw [htrust, hwinners, hcount], by rw [hwinners]; exact hroom, fun i attempt n hi => ?_, fun i hi => ?_⟩
    · rw [hwinners]
      exact h.read i attempt n (hcalls ▸ hi)
    · rw [hwinners]
      exact h.limit i (hcalls ▸ hi)

theorem Inv.run (h : Inv k sys) (schedule : List (Actor ι)) : Inv k (sys.run schedule) := by
  induction schedule generalizing sys with
  | nil => exact h
  | cons a schedule ih => exact ih (h.step a)

/-! ## 5. The deletion -/

/-- After the deletion no step makes a winner. -/
theorem step_deleted (h : Inv k sys) (hdeleted : sys.trust.deletedAt = true) (a : Actor ι) :
    (sys.step a).trust.deletedAt = true ∧ (sys.step a).winners = sys.winners := by
  cases step_effect h.uses_ne_none a with
  | quiet htrust hreturned => exact ⟨htrust.symm ▸ hdeleted, winners_eq hreturned⟩
  | consumed _ hlive => exact absurd (hdeleted.symm.trans hlive) nofun
  | deleted htrust hcalls => exact ⟨by rw [htrust], winners_eq fun j => by rw [hcalls]⟩

theorem run_deleted (h : Inv k sys) (hdeleted : sys.trust.deletedAt = true) (schedule : List (Actor ι)) :
    (sys.run schedule).winners = sys.winners := by
  induction schedule generalizing sys with
  | nil => rfl
  | cons a schedule ih =>
    obtain ⟨hdeleted', hwinners⟩ := step_deleted h hdeleted a
    exact (ih (h.step a) hdeleted').trans hwinners

theorem step_winners_subset (h : Inv k sys) (a : Actor ι) : sys.winners ⊆ (sys.step a).winners := by
  cases step_effect h.uses_ne_none a with
  | quiet htrust hreturned => exact (winners_eq hreturned).symm.subset
  | consumed hcall _ _ _ hcalls =>
    rw [(winners_consumed hcall hcalls).1]
    exact Finset.subset_insert _ _
  | deleted _ hcalls => exact (winners_eq fun j => by rw [hcalls]).symm.subset

/-! ## 6. Lost attempts -/

/-- The attempts of a call since there were `w` winners are paid for by winners since then. -/
def Paid (k w winners : ℕ) (deleted : Bool) : ConsumeUse → Prop
  | .select attempt => deleted = true ∨ w + attempt ≤ winners
  | .update attempt n => n ≤ (k : ℤ) - (w + attempt)
  | .raised .trustConsumeMaximumAttempt => w + (MAXIMUM_CONSUME_ATTEMPTS - 1) ≤ winners
  | _ => True

theorem Paid.mono {k w winners winners' : ℕ} {deleted deleted' : Bool} (h : Paid k w winners deleted c)
    (hwinners : winners ≤ winners') (hdeleted : deleted = true → deleted' = true) : Paid k w winners' deleted' c := by
  cases c with
  | select attempt => exact h.imp hdeleted fun hle => hle.trans hwinners
  | update attempt n => exact h
  | returned => trivial
  | raised e =>
    cases e with
    | trustConsumeMaximumAttempt => exact le_trans h hwinners
    | trustNotFound => trivial
    | trustUseLimitReached => trivial

/-- **A lost attempt** was read from a count that somebody has lowered since. -/
theorem Paid.next {k w winners : ℕ} (h : Paid k w winners trust.deletedAt c)
    (hcount : trust.remainingUses = some ((k : ℤ) - winners))
    (hread : ∀ attempt n, c = .update attempt n → (k : ℤ) - winners ≤ n) :
    Paid k w winners trust.deletedAt (c.next trust).2 := by
  cases c with
  | select attempt =>
    rw [ConsumeUse.next]
    by_cases hdeleted : trust.deletedAt = true
    · rw [if_pos hdeleted]
      trivial
    · have hle : w + attempt ≤ winners := h.resolve_left hdeleted
      rw [if_neg hdeleted, hcount]
      dsimp only
      by_cases hpos : (k : ℤ) - winners > 0
      · rw [if_pos hpos]
        have hbound : (k : ℤ) - winners ≤ k - (w + attempt) := by omega
        exact hbound
      · rw [if_neg hpos]
        trivial
  | update attempt n =>
    have hbound : n ≤ (k : ℤ) - (w + attempt) := h
    have hle := hread attempt n rfl
    rw [ConsumeUse.next]
    by_cases hwon : trust.deletedAt = false ∧ trust.remainingUses = some n
    · rw [if_pos hwon]
      trivial
    · rw [if_neg hwon]
      by_cases hmore : attempt + 1 < MAXIMUM_CONSUME_ATTEMPTS
      · rw [if_pos hmore]
        by_cases hdeleted : trust.deletedAt = true
        · exact Or.inl hdeleted
        · have hne : (k : ℤ) - winners ≠ n := by
            intro heq
            exact hwon ⟨Bool.not_eq_true _ ▸ hdeleted, by rw [hcount, heq]⟩
          have hpaid : w + (attempt + 1) ≤ winners := by omega
          exact Or.inr hpaid
      · rw [if_neg hmore]
        have hpaid : w + (MAXIMUM_CONSUME_ATTEMPTS - 1) ≤ winners := by omega
        exact hpaid
  | returned => trivial
  | raised e => exact h

theorem step_paid {k w : ℕ} (hinv : Inv k sys) (h : Paid k w sys.winners.card sys.trust.deletedAt (sys.calls i))
    (a : Actor ι) : Paid k w (sys.step a).winners.card (sys.step a).trust.deletedAt ((sys.step a).calls i) := by
  have hwinners := Finset.card_le_card (step_winners_subset hinv a)
  have hdeleted : sys.trust.deletedAt = true → (sys.step a).trust.deletedAt = true := fun hd => (step_deleted hinv hd a).1
  rcases calls_step (rfl : (sys.step a).calls i = (sys.step a).calls i) with heq | ⟨-, heq⟩
  · rw [← heq]
    exact h.mono hwinners hdeleted
  · rw [← heq]
    exact (h.next hinv.count fun attempt n hc => (hinv.read i attempt n hc).2).mono hwinners hdeleted

theorem run_paid {k w : ℕ} (hinv : Inv k sys) (h : Paid k w sys.winners.card sys.trust.deletedAt (sys.calls i))
    (schedule : List (Actor ι)) :
    Paid k w (sys.run schedule).winners.card (sys.run schedule).trust.deletedAt ((sys.run schedule).calls i) := by
  induction schedule generalizing sys with
  | nil => exact h
  | cons a schedule ih => exact ih (hinv.step a) (step_paid hinv h a)

omit [Fintype ι] in
/-- A call that is not run has not begun. -/
theorem calls_run_of_notMem {schedule : List (Actor ι)} (h : .consume i ∉ schedule) :
    (sys.run schedule).calls i = sys.calls i := by
  induction schedule generalizing sys with
  | nil => rfl
  | cons a schedule ih =>
    obtain ⟨hne, hrest⟩ := not_or.mp (mt List.mem_cons.mpr h)
    exact (ih hrest).trans (step_calls_of_ne (Ne.symm hne))

omit [Fintype ι] in
theorem run_append (sys : System ι) (schedule schedule' : List (Actor ι)) :
    sys.run (schedule ++ schedule') = (sys.run schedule).run schedule' := List.foldl_append

/-- **A trust is never used more often than it may be**, whatever the calls and the deletion do in between: the count is what
has not been consumed, nothing is consumed after the deletion, a call runs out of uses only when all are consumed, and
out of attempts only when that many others have consumed a use since it began. -/
theorem uses_never_overconsumed (k : ℕ) (schedule : List (Actor ι)) :
    (((start ι k).run schedule).trust.remainingUses = some ((k : ℤ) - ((start ι k).run schedule).winners.card) ∧
      0 ≤ (k : ℤ) - ((start ι k).run schedule).winners.card) ∧
    ((start ι k).run schedule).winners.card ≤ k ∧
    (∀ before after, schedule = before ++ after → ((start ι k).run before).trust.deletedAt = true →
      ((start ι k).run schedule).winners = ((start ι k).run before).winners) ∧
    (∀ i, ((start ι k).run schedule).calls i = .raised .trustUseLimitReached → ((start ι k).run schedule).winners.card = k) ∧
    ∀ before during i, schedule = before ++ during → .consume i ∉ before →
      ((start ι k).run schedule).calls i = .raised .trustConsumeMaximumAttempt →
        MAXIMUM_CONSUME_ATTEMPTS - 1 ≤ ((((start ι k).run schedule).winners \ ((start ι k).run before).winners).erase i).card := by
  have hinv : ∀ schedule, Inv k ((start ι k).run schedule) := fun schedule => (inv_start k).run schedule
  have hroom := (hinv schedule).room
  refine ⟨⟨(hinv schedule).count, by omega⟩, hroom, fun before after hsplit hdeleted => ?_, (hinv schedule).limit, ?_⟩
  · rw [hsplit, run_append]
    exact run_deleted (hinv before) hdeleted after
  · intro before during i hsplit hnot hraised
    have hbegin : ((start ι k).run before).calls i = .select 0 := calls_run_of_notMem hnot
    have hpaid : Paid k ((start ι k).run before).winners.card ((start ι k).run before).winners.card
        ((start ι k).run before).trust.deletedAt (((start ι k).run before).calls i) := by
      rw [hbegin]
      exact Or.inr (le_refl _)
    have hend := run_paid (hinv before) hpaid during
    rw [← run_append, ← hsplit, hraised] at hend
    have hlost : ((start ι k).run before).winners.card + (MAXIMUM_CONSUME_ATTEMPTS - 1) ≤ ((start ι k).run schedule).winners.card :=
      hend
    have hself : i ∉ ((start ι k).run schedule).winners \ ((start ι k).run before).winners := by
      intro hmem
      have hwon := mem_winners.mp (Finset.mem_sdiff.mp hmem).1
      rw [hraised] at hwon
      cases hwon
    rw [Finset.erase_eq_of_notMem hself]
    have hsdiff := Finset.le_card_sdiff ((start ι k).run before).winners ((start ι k).run schedule).winners
    omega

end System

end Mitaka.Keystone.Uses
