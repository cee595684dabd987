import Mathlib.Data.Finset.NAry
import SparsePolynomial.Proofs.Term.Product
import SparsePolynomial.Proofs.Term.Sums

/-!
Contract: which exponents a list of terms has, and how many.

Owns:
- `exponentCount`, the number of different exponents of a list, which is the length of an ascending
  one;
- that combining terms and summing them by exponent keep the exponents, so both give as many terms
  as there are exponents;
- the exponents of the products of all pairs, which are the sums of two exponents.
-/

set_option autoImplicit false

namespace SparsePolynomial

namespace Term

/-- The number of different exponents. -/
def exponentCount (terms : List Term) : Nat := (terms.map exponent).toFinset.card

theorem exponentCount_le_length (terms : List Term) : exponentCount terms ≤ terms.length := by
  calc (terms.map exponent).toFinset.card
      ≤ (terms.map exponent).length := List.toFinset_card_le _
    _ = terms.length := List.length_map _

theorem exponentCount_congr {left right : List Term}
    (same : ∀ n, n ∈ left.map exponent ↔ n ∈ right.map exponent) :
    exponentCount left = exponentCount right := by
  unfold exponentCount
  congr 1
  ext n
  simpa only [List.mem_toFinset] using same n

theorem Ascending.exponentCount_eq {terms : List Term} (ascending : Ascending terms) :
    exponentCount terms = terms.length := by
  have distinct : (terms.map exponent).Nodup :=
    List.pairwise_map.mpr (ascending.imp UInt64.ne_of_lt)
  rw [exponentCount, List.toFinset_card_of_nodup distinct, List.length_map]

/-! ## Lists with one term for each exponent -/

theorem mem_map_exponent_iff_coefficient? {terms : List Term} {n : UInt64} :
    n ∈ terms.map exponent ↔ coefficient? terms n ≠ none := by
  simp [coefficient?_eq_none]

theorem mem_map_exponent_iff_coefficients {terms : List Term} {n : UInt64} :
    n ∈ terms.map exponent ↔ coefficients terms n ≠ [] := by
  simp [coefficients]

theorem mem_map_exponent_combine (terms : List Term) (n : UInt64) :
    n ∈ (combine terms).map exponent ↔ n ∈ terms.map exponent := by
  rw [mem_map_exponent_iff_coefficient?, mem_map_exponent_iff_coefficients, coefficient?_combine]
  cases coefficients terms n with
  | nil => simp [Coefficient.total?]
  | cons first rest => simp [Coefficient.total?]

theorem length_combine (terms : List Term) : (combine terms).length = exponentCount terms := by
  rw [← (ascending_combine terms).exponentCount_eq]
  exact exponentCount_congr (mem_map_exponent_combine terms)

theorem mem_map_exponent_sumByExponent (terms : List Term) (n : UInt64) :
    n ∈ (sumByExponent terms).map exponent ↔ n ∈ terms.map exponent := by
  rw [mem_map_exponent_iff_coefficient?, mem_map_exponent_iff_coefficients,
    coefficient?_sumByExponent]
  cases coefficients terms n with
  | nil => simp
  | cons first rest => simp [Coefficient.collect, Coefficient.foldl_collect_some]

theorem length_sumByExponent (terms : List Term) :
    (sumByExponent terms).length = exponentCount terms := by
  rw [← (ascending_sumByExponent terms).exponentCount_eq]
  exact exponentCount_congr (mem_map_exponent_sumByExponent terms)

theorem length_dropNegligible_le (terms : List Term) :
    (dropNegligible terms).length ≤ terms.length :=
  (dropNegligible_sublist terms).length_le

/-! ## Products -/

/-- The number of different sums of an exponent of one list and an exponent of the other. -/
def sumCount (left right : List Term) : Nat :=
  (Finset.image₂ (fun m n : UInt64 => m.toNat + n.toNat) (left.map exponent).toFinset
    (right.map exponent).toFinset).card

theorem exponentCount_products {left right : List Term}
    (fits : ∀ a ∈ left, ∀ b ∈ right, Fits a b) :
    exponentCount (products left right) = sumCount left right := by
  have injective : Function.Injective UInt64.toNat := fun _ _ => UInt64.toNat_inj.mp
  rw [exponentCount, sumCount, ← Finset.card_image_of_injective _ injective]
  congr 1
  ext total
  simp only [Finset.mem_image, Finset.mem_image₂, List.mem_toFinset, List.mem_map, products,
    List.mem_flatMap]
  constructor
  · rintro ⟨_, ⟨_, ⟨a, inLeft, b, inRight, rfl⟩, rfl⟩, rfl⟩
    exact ⟨_, ⟨a, inLeft, rfl⟩, _, ⟨b, inRight, rfl⟩,
      (toNat_exponent_product (fits a inLeft b inRight)).symm⟩
  · rintro ⟨_, ⟨a, inLeft, rfl⟩, _, ⟨b, inRight, rfl⟩, rfl⟩
    exact ⟨_, ⟨_, ⟨a, inLeft, b, inRight, rfl⟩, rfl⟩,
      toNat_exponent_product (fits a inLeft b inRight)⟩

end Term

end SparsePolynomial
