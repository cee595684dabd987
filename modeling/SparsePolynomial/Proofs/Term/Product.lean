import SparsePolynomial.Proofs.Term.Normal
import SparsePolynomial.Proofs.Traversal

/-!
Contract: products of terms, of a term with a list and of two lists.

Owns:
- `Fits`, the condition under which the product of two terms has an exponent, and `product`, the
  term it then is;
- `products`, the products of all pairs in the order in which they are met;
- the coefficients that a row of products and all rows give to an exponent.
-/

set_option autoImplicit false

namespace SparsePolynomial.Term

/-! ## Maps that keep the order -/

theorem ascending_map {change : Term → Term} {terms : List Term} (ascending : Ascending terms)
    (keepsOrder : ∀ a ∈ terms, ∀ b ∈ terms, a.exponent < b.exponent →
      (change a).exponent < (change b).exponent) : Ascending (terms.map change) := by
  apply List.pairwise_map.mpr
  exact ascending.imp_of_mem fun {a b} left right less => keepsOrder a left b right less

theorem ascending_map_neg {terms : List Term} (ascending : Ascending terms) :
    Ascending (terms.map neg) :=
  ascending_map ascending fun _ _ _ _ less => less

theorem ascending_map_scale {terms : List Term} (ascending : Ascending terms) (c : Float) :
    Ascending (terms.map fun term => term.scale c) :=
  ascending_map ascending fun _ _ _ _ less => less

/-- A change of coefficients alone acts on every coefficient that is there. -/
theorem coefficient?_map {change : Term → Term} {value : Float → Float}
    (exponents : ∀ term, (change term).exponent = term.exponent)
    (values : ∀ term, (change term).coefficient = value term.coefficient)
    (terms : List Term) (exponent : UInt64) :
    coefficient? (terms.map change) exponent = (coefficient? terms exponent).map value := by
  induction terms with
  | nil => rfl
  | cons first rest inductionHypothesis =>
      rw [List.map_cons, coefficient?_cons, coefficient?_cons, exponents, values,
        inductionHypothesis]
      by_cases same : first.exponent = exponent
      · rw [if_pos same, if_pos same]
        rfl
      · rw [if_neg same, if_neg same]

theorem coefficient?_map_neg (terms : List Term) (exponent : UInt64) :
    coefficient? (terms.map neg) exponent = (coefficient? terms exponent).map fun c => -c :=
  @coefficient?_map neg (fun c => -c) exponent_neg (fun _ => rfl) terms exponent

theorem coefficient?_map_scale (terms : List Term) (factor : Float) (exponent : UInt64) :
    coefficient? (terms.map fun term => term.scale factor) exponent =
      (coefficient? terms exponent).map fun c => c * factor :=
  @coefficient?_map (fun term => term.scale factor) (fun c => c * factor)
    (fun term => exponent_scale term factor) (fun _ => rfl) terms exponent

/-! ## Two terms -/

/-- The exponents add up to an exponent. -/
def Fits (a b : Term) : Prop := a.exponent.toNat + b.exponent.toNat < UInt64.size

theorem Fits.symm {a b : Term} (fits : Fits a b) : Fits b a := by
  rwa [Fits, Nat.add_comm]

/-- The product of terms whose exponents fit. -/
def product (a b : Term) : Term := ⟨a.coefficient * b.coefficient, a.exponent + b.exponent⟩

theorem mul?_of_fits {a b : Term} (fits : Fits a b) : a.mul? b = some (a.product b) := by
  rw [mul?, exponentSum?, if_pos (show a.exponent.toNat + b.exponent.toNat < _ from fits)]
  rfl

theorem mul?_of_not_fits {a b : Term} (overflow : ¬ Fits a b) : a.mul? b = none := by
  rw [mul?, exponentSum?, if_neg (show ¬ a.exponent.toNat + b.exponent.toNat < _ from overflow)]
  rfl

theorem mul_eq_ok_iff (a b result : Term) :
    a.mul b = .ok result ↔ Fits a b ∧ result = a.product b := by
  rw [mul_eq_ok]
  by_cases fits : Fits a b
  · rw [mul?_of_fits fits]
    constructor
    · intro computed
      exact ⟨fits, (Option.some.inj computed).symm⟩
    · intro given
      rcases given with ⟨_, rfl⟩
      rfl
  · rw [mul?_of_not_fits fits]
    constructor
    · intro impossible
      cases impossible
    · intro computed
      exact absurd computed.1 fits

theorem toNat_exponent_product {a b : Term} (fits : Fits a b) :
    (a.product b).exponent.toNat = a.exponent.toNat + b.exponent.toNat := by
  show (a.exponent + b.exponent).toNat = _
  rw [UInt64.toNat_add]
  exact Nat.mod_eq_of_lt fits

/-! ## A term with a list -/

theorem mapM_mul_eq_ok (a : Term) (right row : List Term) :
    right.mapM (fun b => a.mul b) = .ok row ↔
      (∀ b ∈ right, Fits a b) ∧ row = right.map a.product :=
  Traversal.mapM_eq_ok (fun b _ result => mul_eq_ok_iff a b result) row

/-- Shifting all exponents by the same amount keeps their order. -/
theorem ascending_map_product {a : Term} {right : List Term} (ascending : Ascending right)
    (fits : ∀ b ∈ right, Fits a b) : Ascending (right.map a.product) := by
  apply ascending_map ascending
  intro b left c later less
  rw [UInt64.lt_iff_toNat_lt] at less ⊢
  rw [toNat_exponent_product (fits b left), toNat_exponent_product (fits c later)]
  exact Nat.add_lt_add_left less _

/-! ## All pairs -/

/-- The products of all pairs, every term of `left` with all of `right`. -/
def products (left right : List Term) : List Term := left.flatMap fun a => right.map a.product

theorem coefficients_append (left right : List Term) (exponent : UInt64) :
    coefficients (left ++ right) exponent =
      coefficients left exponent ++ coefficients right exponent := by
  rw [coefficients, List.filter_append, List.map_append]
  rfl

/-- Each row meets an exponent at most once. -/
theorem coefficients_products_cons {a : Term} {left right : List Term}
    (ascending : Ascending right) (fits : ∀ b ∈ right, Fits a b) (exponent : UInt64) :
    coefficients (products (a :: left) right) exponent =
      (coefficient? (right.map a.product) exponent).toList ++
        coefficients (products left right) exponent := by
  rw [products, List.flatMap_cons, coefficients_append,
    coefficients_of_ascending (ascending_map_product ascending fits)]
  rfl

end SparsePolynomial.Term
