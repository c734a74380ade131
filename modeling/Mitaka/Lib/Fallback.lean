/-
  Subject: Searching nodes whose alternatives are tried in order, each an end or the search
           of another node, the next one when that finds nothing.

  `search` is the recursion with a bound on its depth. A node is `Dead` when its alternatives
  only lead on, and to dead nodes; the others decide where the search goes: it `Follows` the
  first alternative that is not dead. The search comes to an answer exactly where following
  comes to an end, at nodes that have alternatives to try.
-/
import Mathlib

namespace Mitaka.Fallback

open List

universe u v

variable {α : Type u} {β : Type v}

/-- What a search comes to. -/
inductive Answer (β : Type v) where
  | found (b : β)
  | missing
  | broken
  deriving DecidableEq, Repr

/-- The alternatives of a node, in order. -/
def tryAll (search : α → Option (Answer β)) : List (β ⊕ α) → Option (Answer β)
  | [] => some .missing
  | .inl b :: _ => some (.found b)
  | .inr a :: l =>
    match search a with
    | some .missing => tryAll search l
    | answer => answer

section Search

variable (alternatives : α → Option (List (β ⊕ α)))

/-- The search, `n` nodes deep at most. -/
def search : ℕ → α → Option (Answer β)
  | 0, _ => none
  | n + 1, a =>
    match alternatives a with
    | none => some .broken
    | some l => tryAll (search n) l

/-- All alternatives lead on, and to nothing. -/
inductive Dead : α → Prop where
  | intro {a : α} {l : List (β ⊕ α)} (h : alternatives a = some l) (hon : ∀ b, .inl b ∉ l)
      (hdead : ∀ a', .inr a' ∈ l → Dead a') : Dead a

/-- An alternative that comes to nothing. -/
def Failing : β ⊕ α → Prop
  | .inl _ => False
  | .inr a => Dead alternatives a

/-- The alternative that decides: those before it come to nothing. -/
def Decides (a : α) (x : β ⊕ α) : Prop :=
  ∃ l l', alternatives a = some (l ++ x :: l') ∧ (∀ y ∈ l, Failing alternatives y) ∧ ¬ Failing alternatives x

/-- Where the search goes on. -/
def Follows (a a' : α) : Prop := Decides alternatives a (.inr a')

/-- The search comes to this. -/
def Answers (a : α) (answer : Answer β) : Prop := ∃ n, search alternatives n a = some answer

end Search

variable {alternatives : α → Option (List (β ⊕ α))} {a a' : α} {b : β} {l l' : List (β ⊕ α)} {x : β ⊕ α} {n m : ℕ} {r r' : Answer β}

/-! ## 1. Deeper searches -/

theorem tryAll_mono {f g : α → Option (Answer β)} (hfg : ∀ a r, f a = some r → g a = some r) (h : tryAll f l = some r) :
    tryAll g l = some r := by
  induction l with
  | nil => exact h
  | cons x l ih =>
    cases x with
    | inl b => exact h
    | inr a =>
      rw [tryAll] at h ⊢
      cases hf : f a with
      | none =>
        rw [hf] at h
        cases h
      | some answer =>
        rw [hf] at h
        rw [hfg a answer hf]
        cases answer with
        | missing => exact ih h
        | found b => exact h
        | broken => exact h

theorem search_succ (h : search alternatives n a = some r) : search alternatives (n + 1) a = some r := by
  induction n generalizing a r with
  | zero => cases h
  | succ n ih =>
    rw [search] at h ⊢
    cases ha : alternatives a with
    | none =>
      rw [ha] at h
      exact h
    | some l =>
      rw [ha] at h
      exact tryAll_mono (fun _ _ => ih) h

/-- **A deeper search** comes to the same. -/
theorem search_mono (hnm : n ≤ m) (h : search alternatives n a = some r) : search alternatives m a = some r := by
  induction hnm with
  | refl => exact h
  | step _ ih => exact search_succ ih

theorem Answers.unique (h : Answers alternatives a r) (h' : Answers alternatives a r') : r = r' := by
  obtain ⟨n, hn⟩ := h
  obtain ⟨m, hm⟩ := h'
  rcases Nat.le_total n m with hle | hle
  · exact Option.some.inj ((search_mono hle hn).symm.trans hm)
  · exact Option.some.inj (hn.symm.trans (search_mono hle hm))

/-! ## 2. What comes to nothing -/

/-- Alternatives that come to nothing are passed over. -/
theorem tryAll_append {f : α → Option (Answer β)} (h : ∀ x ∈ l, ∃ a, x = .inr a ∧ f a = some .missing) :
    tryAll f (l ++ l') = tryAll f l' := by
  induction l with
  | nil => rfl
  | cons x l ih =>
    obtain ⟨a, rfl, ha⟩ := h x mem_cons_self
    rw [cons_append, tryAll, ha]
    exact ih fun y hy => h y (mem_cons_of_mem _ hy)

/-- One depth for all of them. -/
theorem exists_depth (h : ∀ x ∈ l, ∃ a n, x = .inr a ∧ search alternatives n a = some .missing) :
    ∃ n, ∀ x ∈ l, ∃ a, x = .inr a ∧ search alternatives n a = some .missing := by
  induction l with
  | nil => exact ⟨0, nofun⟩
  | cons x l ih =>
    obtain ⟨n, hn⟩ := ih fun y hy => h y (mem_cons_of_mem _ hy)
    obtain ⟨a, m, rfl, hm⟩ := h x mem_cons_self
    refine ⟨max n m, fun y hy => ?_⟩
    rcases mem_cons.mp hy with rfl | hy
    · exact ⟨a, rfl, search_mono (le_max_right n m) hm⟩
    · obtain ⟨a', rfl, ha'⟩ := hn y hy
      exact ⟨a', rfl, search_mono (le_max_left n m) ha'⟩

theorem Dead.answers (h : Dead alternatives a) : Answers alternatives a .missing := by
  induction h with
  | @intro a l ha hon _ ih =>
    have hl : ∀ x ∈ l, ∃ a' n, x = .inr a' ∧ search alternatives n a' = some .missing := by
      intro x hx
      cases x with
      | inl b => exact absurd hx (hon b)
      | inr a' =>
        obtain ⟨n, hn⟩ := ih a' hx
        exact ⟨a', n, rfl, hn⟩
    obtain ⟨n, hn⟩ := exists_depth hl
    refine ⟨n + 1, ?_⟩
    rw [search, ha]
    dsimp only
    rw [← l.append_nil, tryAll_append hn]
    rfl

theorem all_missing {f : α → Option (Answer β)} (h : tryAll f l = some .missing) : ∀ x ∈ l, ∃ a, x = .inr a ∧ f a = some .missing := by
  induction l with
  | nil => exact nofun
  | cons x l ih =>
    cases x with
    | inl b => cases h
    | inr a =>
      rw [tryAll] at h
      cases hf : f a with
      | none =>
        rw [hf] at h
        cases h
      | some answer =>
        rw [hf] at h
        cases answer with
        | found b => cases h
        | broken => cases h
        | missing =>
          intro y hy
          rcases mem_cons.mp hy with rfl | hy
          · exact ⟨a, rfl, hf⟩
          · exact ih h y hy

theorem dead_of_search (h : search alternatives n a = some .missing) : Dead alternatives a := by
  induction n generalizing a with
  | zero => cases h
  | succ n ih =>
    rw [search] at h
    cases ha : alternatives a with
    | none =>
      rw [ha] at h
      cases h
    | some l =>
      rw [ha] at h
      have hall := all_missing h
      refine .intro ha (fun b hb => ?_) fun a' ha' => ?_
      · obtain ⟨_, he, _⟩ := hall _ hb
        cases he
      · obtain ⟨a'', he, hmissing⟩ := hall _ ha'
        obtain rfl := Sum.inr.inj he
        exact ih hmissing

/-- **Nothing is found** exactly at dead nodes. -/
theorem answers_missing : Answers alternatives a .missing ↔ Dead alternatives a :=
  ⟨fun ⟨_, h⟩ => dead_of_search h, Dead.answers⟩

theorem Failing.missing (h : ∀ x ∈ l, Failing alternatives x) : ∀ x ∈ l, ∃ a n, x = .inr a ∧ search alternatives n a = some .missing := by
  intro x hx
  have hfails := h x hx
  cases x with
  | inl b => exact hfails.elim
  | inr a =>
    obtain ⟨n, hn⟩ := Dead.answers hfails
    exact ⟨a, n, rfl, hn⟩

/-! ## 3. What decides -/

open Classical in
/-- A list comes to nothing, or one of its alternatives decides. -/
theorem failing_or_decides (alternatives : α → Option (List (β ⊕ α))) (l : List (β ⊕ α)) : (∀ x ∈ l, Failing alternatives x) ∨
    ∃ l₁ x l₂, l = l₁ ++ x :: l₂ ∧ (∀ y ∈ l₁, Failing alternatives y) ∧ ¬ Failing alternatives x := by
  induction l with
  | nil => exact Or.inl nofun
  | cons x l ih =>
    by_cases hx : Failing alternatives x
    · rcases ih with hall | ⟨l₁, y, l₂, rfl, hl₁, hy⟩
      · exact Or.inl (forall_mem_cons.mpr ⟨hx, hall⟩)
      · exact Or.inr ⟨x :: l₁, y, l₂, rfl, forall_mem_cons.mpr ⟨hx, hl₁⟩, hy⟩
    · exact Or.inr ⟨[], x, l, rfl, nofun, hx⟩

/-- **A node** has nothing to try, comes to nothing, or has an alternative that decides. -/
theorem node_cases (alternatives : α → Option (List (β ⊕ α))) (a : α) : alternatives a = none ∨ Dead alternatives a ∨ ∃ x, Decides alternatives a x := by
  cases ha : alternatives a with
  | none => exact Or.inl rfl
  | some l =>
    rcases failing_or_decides alternatives l with hall | ⟨l₁, x, l₂, rfl, hl₁, hx⟩
    · exact Or.inr (Or.inl (.intro ha (fun b hb => hall _ hb) fun a' ha' => hall _ ha'))
    · exact Or.inr (Or.inr ⟨x, l₁, l₂, ha, hl₁, hx⟩)

/-- An end that decides is what is found. -/
theorem Decides.answers_found (h : Decides alternatives a (.inl b)) : Answers alternatives a (.found b) := by
  obtain ⟨l, l', ha, hl, -⟩ := h
  obtain ⟨n, hn⟩ := exists_depth (Failing.missing hl)
  refine ⟨n + 1, ?_⟩
  rw [search, ha]
  dsimp only
  rw [tryAll_append hn]
  rfl

theorem Follows.answers_of (h : Follows alternatives a a') (hr : Answers alternatives a' r) : Answers alternatives a r := by
  obtain ⟨l, l', ha, hl, hlive⟩ := h
  obtain ⟨n, hn⟩ := exists_depth (Failing.missing hl)
  obtain ⟨m, hm⟩ := hr
  have hn' : ∀ x ∈ l, ∃ a, x = .inr a ∧ search alternatives (max n m) a = some .missing := by
    intro x hx
    obtain ⟨a, rfl, hmissing⟩ := hn x hx
    exact ⟨a, rfl, search_mono (le_max_left n m) hmissing⟩
  refine ⟨max n m + 1, ?_⟩
  rw [search, ha]
  dsimp only
  rw [tryAll_append hn', tryAll, search_mono (le_max_right n m) hm]
  cases r with
  | found b => rfl
  | broken => rfl
  | missing => exact absurd (dead_of_search hm) hlive

/-- The search of the node that is followed is a part of the search. -/
theorem Follows.search (h : Follows alternatives a a') (hr : search alternatives (n + 1) a = some r) : search alternatives n a' = some r := by
  obtain ⟨l, l', ha, hl, hlive⟩ := h
  rw [Fallback.search, ha] at hr
  dsimp only at hr
  clear ha
  induction l with
  | nil =>
    rw [nil_append, tryAll] at hr
    cases hs : Fallback.search alternatives n a' with
    | none =>
      rw [hs] at hr
      cases hr
    | some answer =>
      rw [hs] at hr
      cases answer with
      | found b => exact hr
      | broken => exact hr
      | missing => exact absurd (dead_of_search hs) hlive
  | cons x l ih =>
    have hx := hl x mem_cons_self
    cases x with
    | inl b => exact hx.elim
    | inr d =>
      rw [cons_append, tryAll] at hr
      cases hs : Fallback.search alternatives n d with
      | none =>
        rw [hs] at hr
        cases hr
      | some answer =>
        obtain rfl := Answers.unique ⟨n, hs⟩ (Dead.answers hx)
        rw [hs] at hr
        exact ih hr fun y hy => hl y (mem_cons_of_mem _ hy)

theorem answers_broken_of_none (ha : alternatives a = none) : Answers alternatives a .broken := by
  refine ⟨1, ?_⟩
  rw [search, ha]

/-- What is found is an end of some node. -/
theorem found_of_ends {P : β → Prop} (hends : ∀ a l b, alternatives a = some l → .inl b ∈ l → P b)
    (h : Answers alternatives a (.found b)) : P b := by
  obtain ⟨n, hn⟩ := h
  induction n generalizing a with
  | zero => cases hn
  | succ n ih =>
    rcases node_cases alternatives a with ha | hdead | ⟨x, hx⟩
    · cases Answers.unique ⟨n + 1, hn⟩ (answers_broken_of_none ha)
    · cases Answers.unique ⟨n + 1, hn⟩ hdead.answers
    · cases x with
      | inr a' => exact ih (Follows.search hx hn)
      | inl b' =>
        cases Answers.unique ⟨n + 1, hn⟩ hx.answers_found
        obtain ⟨l, l', ha, -⟩ := hx
        exact hends a _ b ha (mem_append_right _ mem_cons_self)

/-! ## 4. When a search comes to an end -/

/-- Following comes to an end, and every node on the way has alternatives. -/
def Ends (alternatives : α → Option (List (β ⊕ α))) (a : α) : Prop :=
  Acc (flip (Follows alternatives)) a ∧ ∀ a', Relation.ReflTransGen (Follows alternatives) a a' → alternatives a' ≠ none

/-- **The search settles** exactly where following comes to an end. -/
theorem settles_iff : (∃ r, Answers alternatives a r ∧ r ≠ .broken) ↔ Ends alternatives a := by
  constructor
  · rintro ⟨r, ⟨n, hn⟩, hr⟩
    induction n generalizing a with
    | zero => cases hn
    | succ n ih =>
      have hsome : alternatives a ≠ none := fun ha => hr (Answers.unique ⟨n + 1, hn⟩ (answers_broken_of_none ha))
      refine ⟨.intro a fun a' hf => (ih (Follows.search hf hn)).1, fun a' hreach => ?_⟩
      rcases Relation.ReflTransGen.cases_head hreach with rfl | ⟨c, hf, hrest⟩
      · exact hsome
      · exact (ih (Follows.search hf hn)).2 a' hrest
  · rintro ⟨hacc, hsome⟩
    induction hacc with
    | intro a _ ih =>
      rcases node_cases alternatives a with ha | hdead | ⟨x, hx⟩
      · exact absurd ha (hsome a .refl)
      · exact ⟨.missing, hdead.answers, nofun⟩
      · cases x with
        | inl b => exact ⟨.found b, hx.answers_found, nofun⟩
        | inr a' =>
          obtain ⟨r, hr, hne⟩ := ih a' hx fun c hc => hsome c (.head hx hc)
          exact ⟨r, Follows.answers_of hx hr, hne⟩

end Mitaka.Fallback
