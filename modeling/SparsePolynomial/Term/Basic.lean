import SparsePolynomial.Coefficient

/-!
Contract: single terms, a coefficient times a power of the variable.

Owns:
- `Term` and its arithmetic, where a product whose exponent leaves the range is reported with the
  two exponents;
- evaluation at a point, comparison by exponent and equality up to the tolerance.

Does not own: lists of terms (`Term.Merge`, `Term.Normal`).
-/

set_option autoImplicit false

namespace SparsePolynomial

/-- Two exponents whose sum leaves the range of exponents. -/
structure ExponentOverflow where
  left : UInt64
  right : UInt64
deriving DecidableEq, Repr

namespace ExponentOverflow

def message (overflow : ExponentOverflow) : String :=
  s!"exponent overflow: x{overflow.left.toNat} * x{overflow.right.toNat} exceeds the exponent range"

end ExponentOverflow

/-- The sum of two exponents, if it is an exponent. -/
def exponentSum? (a b : UInt64) : Option UInt64 :=
  if a.toNat + b.toNat < UInt64.size then some (a + b) else none

/-- The monomial `coefficient * x ^ exponent`. -/
structure Term where
  coefficient : Float
  exponent : UInt64
deriving DecidableEq, Repr

namespace Term

/-- A term without the variable. -/
def constant (c : Float) : Term := ⟨c, 0⟩

instance : Inhabited Term := ⟨constant 0.0⟩

/-- The coefficient counts as zero. -/
def Negligible (term : Term) : Prop := Coefficient.Negligible term.coefficient

instance (term : Term) : Decidable term.Negligible := by unfold Negligible; infer_instance

/-- Equal exponents, and coefficients equal up to the tolerance. -/
def Close (a b : Term) : Prop :=
  a.exponent = b.exponent ∧ Coefficient.Close a.coefficient b.coefficient

instance (a b : Term) : Decidable (a.Close b) := by unfold Close; infer_instance

/-- Order by exponent alone. -/
def compareExponent (a b : Term) : Ordering := compare a.exponent b.exponent

def neg (term : Term) : Term := ⟨-term.coefficient, term.exponent⟩

def scale (term : Term) (c : Float) : Term := ⟨term.coefficient * c, term.exponent⟩

/-- The product of two terms, if the sum of their exponents is an exponent. -/
def mul? (a b : Term) : Option Term :=
  (exponentSum? a.exponent b.exponent).map fun exponent =>
    ⟨a.coefficient * b.coefficient, exponent⟩

/-- The product of two terms, or the exponents that do not add up. -/
def mul (a b : Term) : Except ExponentOverflow Term :=
  match a.mul? b with
  | some product => .ok product
  | none => .error ⟨a.exponent, b.exponent⟩

/-- The value of a term at a point. -/
def evaluate (term : Term) (x : Float) : Float :=
  term.coefficient * Coefficient.power x term.exponent

@[simp] theorem exponent_neg (term : Term) : term.neg.exponent = term.exponent := rfl

@[simp] theorem exponent_scale (term : Term) (c : Float) :
    (term.scale c).exponent = term.exponent := rfl

theorem mul_eq_ok {a b product : Term} :
    a.mul b = .ok product ↔ a.mul? b = some product := by
  unfold mul
  split <;> simp_all

end Term

end SparsePolynomial
