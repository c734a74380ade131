/-
  Subject: Samples (ceilometer/sample.py) and what the transformers of
           ceilometer/transformer/conversions.py share.

  A volume is an integer or a float, which divide differently; floats are exact. A time
  stands for the text of a timestamp, in microseconds. The substitution of regular
  expressions and the evaluation of a scaling rule are parameters.
-/
import Mitaka.Keystone.Text

namespace Mitaka.Ceilometer

open Keystone (Str)

/-! ## 1. Numbers -/

/-- An integer or a float. -/
inductive Number
  | int (n : ℤ)
  | float (q : ℚ)
deriving DecidableEq

namespace Number

def value : Number → ℚ
  | int n => n
  | float q => q

def add : Number → Number → Number
  | int a, int b => int (a + b)
  | a, b => float (a.value + b.value)

def sub : Number → Number → Number
  | int a, int b => int (a - b)
  | a, b => float (a.value - b.value)

def mul : Number → Number → Number
  | int a, int b => int (a * b)
  | a, b => float (a.value * b.value)

/-- Integers divide to the integer below. -/
def div : Number → Number → Number
  | int a, int b => int (a.fdiv b)
  | a, b => float (a.value / b.value)

instance : Add Number := ⟨add⟩
instance : Sub Number := ⟨sub⟩
instance : Mul Number := ⟨mul⟩
instance : Div Number := ⟨div⟩

@[simp] theorem value_int (n : ℤ) : (int n).value = n := rfl

@[simp] theorem value_float (q : ℚ) : (float q).value = q := rfl

@[simp] theorem value_add (a b : Number) : (a + b).value = a.value + b.value := by
  cases a with
  | int a =>
    cases b with
    | int b => exact Int.cast_add a b
    | float b => rfl
  | float a => rfl

@[simp] theorem value_sub (a b : Number) : (a - b).value = a.value - b.value := by
  cases a with
  | int a =>
    cases b with
    | int b => exact Int.cast_sub a b
    | float b => rfl
  | float a => rfl

@[simp] theorem value_mul (a b : Number) : (a * b).value = a.value * b.value := by
  cases a with
  | int a =>
    cases b with
    | int b => exact Int.cast_mul a b
    | float b => rfl
  | float a => rfl

def isInt : Number → Bool
  | int _ => true
  | float _ => false

theorem isInt_add (a b : Number) : (a + b).isInt = (a.isInt && b.isInt) := by
  cases a with
  | int a => cases b <;> rfl
  | float a => rfl

/-- **The integer below is the quotient** where this is an integer. -/
theorem value_div {a : Number} {n : ℕ} (hn : n ≠ 0) (h : a.isInt = true → (a.value / n).den = 1) :
    (a / int n).value = a.value / n := by
  have hcast : (n : ℚ) ≠ 0 := Nat.cast_ne_zero.mpr hn
  cases a with
  | int a =>
    have hquotient : (((a : ℚ) / n).num : ℚ) = (a : ℚ) / n := Rat.den_eq_one_iff _ |>.mp (h rfl)
    have hproduct : a = ((a : ℚ) / n).num * n := by
      have heq := hquotient
      rw [eq_div_iff hcast] at heq
      exact_mod_cast heq.symm
    have hdiv : a.fdiv n = ((a : ℚ) / n).num := by
      conv_lhs => rw [hproduct]
      exact Int.mul_fdiv_cancel _ (Int.natCast_ne_zero.mpr hn)
    have hvalue : (int a / int n).value = ((a.fdiv n : ℤ) : ℚ) := rfl
    rw [hvalue, hdiv, hquotient, value_int]
  | float a =>
    have hvalue : (float a / int n).value = a / ((n : ℤ) : ℚ) := rfl
    rw [hvalue, Int.cast_natCast, value_float]

end Number

/-! ## 2. Samples -/

inductive SampleType
  | gauge
  | delta
  | cumulative
deriving Repr, DecidableEq

/-- A sample, with metadata of the type `M`. -/
structure Sample (M : Type) where
  name : Str
  type : SampleType
  unit : Str
  volume : Number
  userId : Option Str
  projectId : Option Str
  resourceId : Str
  timestamp : ℤ
  resourceMetadata : M
deriving DecidableEq

/-! ## 3. Conversions -/

/-- `target.get('scale')`: a factor, or a text that is evaluated with the fields of the sample. -/
inductive Scale (M : Type)
  | factor (f : Number)
  | rule (eval : Sample M → Number)

/-- What `_map` reads for an attribute: the patterns of source and target, and the target's own value. -/
structure Mapping where
  mapFrom : Option Str
  mapTo : Option Str
  target : Option Str

/-- `source` and `target`, and `re.sub`, none where it raises. -/
structure Conversion (M : Type) where
  name : Mapping
  unit : Mapping
  type : Option SampleType
  scale : Option (Scale M)
  sub : Str → Str → Str → Option Str

namespace Conversion

variable {M : Type} (conv : Conversion M)

/-- `_map` of an attribute with the given value. -/
def map (m : Mapping) (value : Str) : Str :=
  let mapped :=
    match m.mapFrom, m.mapTo with
    | some from_, some to_ => if from_ ≠ [] ∧ to_ ≠ [] then conv.sub from_ to_ value else none
    | _, _ => none
  if Keystone.truthy mapped then mapped.getD [] else m.target.getD value

/-- `_scale`; a factor of zero is none. -/
def scaled (s : Sample M) : Number :=
  match conv.scale with
  | none => s.volume
  | some (.factor f) => if f.value = 0 then s.volume else s.volume * f
  | some (.rule eval) => eval s

/-- `ScalingTransformer._convert`. -/
def convert (s : Sample M) (growth : Number) : Sample M :=
  { s with
    name := conv.map conv.name s.name
    unit := conv.map conv.unit s.unit
    type := conv.type.getD s.type
    volume := conv.scaled s * growth }

end Conversion

/-- Neither a source nor a target. -/
def plain : Conversion Unit where
  name := ⟨none, none, none⟩
  unit := ⟨none, none, none⟩
  type := none
  scale := none
  sub := fun _ _ value => some value

end Mitaka.Ceilometer
