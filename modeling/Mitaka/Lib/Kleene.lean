/-
  Subject: Three truth values, and formulas of `all` and `any`.

  A formula has the value `yes` when it holds with what is `yes`, and the value `no` when
  its dual holds with what is `no` (`eval_eq_yes`, `eval_eq_no`). What is known of the
  atoms only adds to what is known of the formula (`eval_mono`).
-/
import Mathlib

namespace Mitaka

/-! ## 1. Truth values -/

/-- The truth values. -/
inductive Kleene
  | no
  | unknown
  | yes
deriving Repr, DecidableEq

namespace Kleene

variable {a b a' b' : Kleene}

def and : Kleene → Kleene → Kleene
  | .no, _ => .no
  | _, .no => .no
  | .yes, .yes => .yes
  | _, _ => .unknown

def or : Kleene → Kleene → Kleene
  | .yes, _ => .yes
  | _, .yes => .yes
  | .no, .no => .no
  | _, _ => .unknown

@[simp] theorem and_eq_yes : and a b = yes ↔ a = yes ∧ b = yes := by
  cases a <;> cases b <;> simp [and]

@[simp] theorem and_eq_no : and a b = no ↔ a = no ∨ b = no := by
  cases a <;> cases b <;> simp [and]

@[simp] theorem or_eq_yes : or a b = yes ↔ a = yes ∨ b = yes := by
  cases a <;> cases b <;> simp [or]

@[simp] theorem or_eq_no : or a b = no ↔ a = no ∧ b = no := by
  cases a <;> cases b <;> simp [or]

/-- What is known of the first value is known of the second. -/
def Below (a b : Kleene) : Prop := (a = yes → b = yes) ∧ (a = no → b = no)

theorem Below.refl (a : Kleene) : Below a a := ⟨id, id⟩

theorem Below.unknown (b : Kleene) : Below .unknown b := ⟨nofun, nofun⟩

theorem Below.and (h : Below a b) (h' : Below a' b') : Below (a.and a') (b.and b') := by
  constructor
  · rw [and_eq_yes, and_eq_yes]
    exact And.imp h.1 h'.1
  · rw [and_eq_no, and_eq_no]
    exact Or.imp h.2 h'.2

theorem Below.or (h : Below a b) (h' : Below a' b') : Below (a.or a') (b.or b') := by
  constructor
  · rw [or_eq_yes, or_eq_yes]
    exact Or.imp h.1 h'.1
  · rw [or_eq_no, or_eq_no]
    exact And.imp h.2 h'.2

end Kleene

/-! ## 2. Formulas -/

/-- Formulas over atoms. -/
inductive Formula (α : Type*)
  | atom (a : α)
  | all (operands : List (Formula α))
  | any (operands : List (Formula α))

namespace Formula

variable {α β : Type*}

mutual

/-- The value of a formula. -/
def eval (v : α → Kleene) : Formula α → Kleene
  | .atom a => v a
  | .all operands => evalAll v operands
  | .any operands => evalAny v operands

def evalAll (v : α → Kleene) : List (Formula α) → Kleene
  | [] => .yes
  | f :: operands => (eval v f).and (evalAll v operands)

def evalAny (v : α → Kleene) : List (Formula α) → Kleene
  | [] => .no
  | f :: operands => (eval v f).or (evalAny v operands)

end

mutual

/-- The formula holds. -/
def holds (p : α → Bool) : Formula α → Bool
  | .atom a => p a
  | .all operands => holdsAll p operands
  | .any operands => holdsAny p operands

def holdsAll (p : α → Bool) : List (Formula α) → Bool
  | [] => true
  | f :: operands => holds p f && holdsAll p operands

def holdsAny (p : α → Bool) : List (Formula α) → Bool
  | [] => false
  | f :: operands => holds p f || holdsAny p operands

end

mutual

/-- The formula with other atoms. -/
def map (g : α → β) : Formula α → Formula β
  | .atom a => .atom (g a)
  | .all operands => .all (mapList g operands)
  | .any operands => .any (mapList g operands)

def mapList (g : α → β) : List (Formula α) → List (Formula β)
  | [] => []
  | f :: operands => map g f :: mapList g operands

end

mutual

/-- All and any exchanged. -/
def dual : Formula α → Formula α
  | .atom a => .atom a
  | .all operands => .any (dualList operands)
  | .any operands => .all (dualList operands)

def dualList : List (Formula α) → List (Formula α)
  | [] => []
  | f :: operands => dual f :: dualList operands

end

mutual

/-- The atoms, from the left to the right. -/
def atoms : Formula α → List α
  | .atom a => [a]
  | .all operands => atomsOf operands
  | .any operands => atomsOf operands

def atomsOf : List (Formula α) → List α
  | [] => []
  | f :: operands => atoms f ++ atomsOf operands

end

mutual

/-- The atoms numbered from the left to the right, the first with `k`. -/
def number (k : ℕ) : Formula α → Formula ℕ
  | .atom _ => .atom k
  | .all operands => .all (numberList k operands)
  | .any operands => .any (numberList k operands)

def numberList (k : ℕ) : List (Formula α) → List (Formula ℕ)
  | [] => []
  | f :: operands => number k f :: numberList (k + f.atoms.length) operands

end

mutual

/-- No operator is without operands. -/
def full : Formula α → Bool
  | .atom _ => true
  | .all operands => !operands.isEmpty && fullList operands
  | .any operands => !operands.isEmpty && fullList operands

def fullList : List (Formula α) → Bool
  | [] => true
  | f :: operands => full f && fullList operands

end

/-! ## 3. Values -/

mutual

theorem eval_eq_yes (v : α → Kleene) : ∀ f : Formula α, f.eval v = .yes ↔ f.holds (fun a => decide (v a = .yes)) = true
  | .atom a => by rw [eval, holds, decide_eq_true_iff]
  | .all operands => evalAll_eq_yes v operands
  | .any operands => evalAny_eq_yes v operands

theorem evalAll_eq_yes (v : α → Kleene) :
    ∀ fs : List (Formula α), evalAll v fs = .yes ↔ holdsAll (fun a => decide (v a = .yes)) fs = true
  | [] => iff_of_true rfl rfl
  | f :: fs => by rw [evalAll, holdsAll, Kleene.and_eq_yes, Bool.and_eq_true, eval_eq_yes v f, evalAll_eq_yes v fs]

theorem evalAny_eq_yes (v : α → Kleene) :
    ∀ fs : List (Formula α), evalAny v fs = .yes ↔ holdsAny (fun a => decide (v a = .yes)) fs = true
  | [] => iff_of_false nofun nofun
  | f :: fs => by rw [evalAny, holdsAny, Kleene.or_eq_yes, Bool.or_eq_true, eval_eq_yes v f, evalAny_eq_yes v fs]

end

mutual

theorem eval_eq_no (v : α → Kleene) : ∀ f : Formula α, f.eval v = .no ↔ f.dual.holds (fun a => decide (v a = .no)) = true
  | .atom a => by rw [eval, dual, holds, decide_eq_true_iff]
  | .all operands => evalAll_eq_no v operands
  | .any operands => evalAny_eq_no v operands

theorem evalAll_eq_no (v : α → Kleene) :
    ∀ fs : List (Formula α), evalAll v fs = .no ↔ holdsAny (fun a => decide (v a = .no)) (dualList fs) = true
  | [] => iff_of_false nofun nofun
  | f :: fs => by rw [evalAll, dualList, holdsAny, Kleene.and_eq_no, Bool.or_eq_true, eval_eq_no v f, evalAll_eq_no v fs]

theorem evalAny_eq_no (v : α → Kleene) :
    ∀ fs : List (Formula α), evalAny v fs = .no ↔ holdsAll (fun a => decide (v a = .no)) (dualList fs) = true
  | [] => iff_of_true rfl rfl
  | f :: fs => by rw [evalAny, dualList, holdsAll, Kleene.or_eq_no, Bool.and_eq_true, eval_eq_no v f, evalAny_eq_no v fs]

end

mutual

variable {v w : α → Kleene}

/-- **What is known stays known.** -/
theorem eval_mono (h : ∀ a, (v a).Below (w a)) : ∀ f : Formula α, (f.eval v).Below (f.eval w)
  | .atom a => h a
  | .all operands => evalAll_mono h operands
  | .any operands => evalAny_mono h operands

theorem evalAll_mono (h : ∀ a, (v a).Below (w a)) :
    ∀ fs : List (Formula α), (evalAll v fs).Below (evalAll w fs)
  | [] => .refl _
  | f :: fs => (eval_mono h f).and (evalAll_mono h fs)

theorem evalAny_mono (h : ∀ a, (v a).Below (w a)) :
    ∀ fs : List (Formula α), (evalAny v fs).Below (evalAny w fs)
  | [] => .refl _
  | f :: fs => (eval_mono h f).or (evalAny_mono h fs)

end

theorem mapList_eq_map (g : α → β) (fs : List (Formula α)) : mapList g fs = fs.map (map g) := by
  induction fs with
  | nil => rfl
  | cons f fs ih => rw [mapList, ih, List.map_cons]

theorem dualList_eq_map (fs : List (Formula α)) : dualList fs = fs.map dual := by
  induction fs with
  | nil => rfl
  | cons f fs ih => rw [dualList, ih, List.map_cons]

mutual

theorem holds_map (g : α → β) (p : β → Bool) : ∀ f : Formula α, (f.map g).holds p = f.holds (p ∘ g)
  | .atom _ => rfl
  | .all operands => holdsAll_mapList g p operands
  | .any operands => holdsAny_mapList g p operands

theorem holdsAll_mapList (g : α → β) (p : β → Bool) :
    ∀ fs : List (Formula α), holdsAll p (mapList g fs) = holdsAll (p ∘ g) fs
  | [] => rfl
  | f :: fs => by rw [mapList, holdsAll, holdsAll, holds_map g p f, holdsAll_mapList g p fs]

theorem holdsAny_mapList (g : α → β) (p : β → Bool) :
    ∀ fs : List (Formula α), holdsAny p (mapList g fs) = holdsAny (p ∘ g) fs
  | [] => rfl
  | f :: fs => by rw [mapList, holdsAny, holdsAny, holds_map g p f, holdsAny_mapList g p fs]

end

end Formula

end Mitaka
