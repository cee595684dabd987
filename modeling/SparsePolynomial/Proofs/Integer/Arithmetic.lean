import SparsePolynomial.Proofs.Integer.Meaning

/-!
Contract: arithmetic on polynomials that represent integer polynomials.

Owns:
- `Represents`, which fixes the term list of a polynomial by an integer polynomial, and
  `integerTerms`, the list it is fixed to;
- one lemma for each operation: it represents the exact result while the absolute sums of the
  operands leave room for it.
-/

set_option autoImplicit false

open scoped Polynomial
open Polynomial (C X)

namespace SparsePolynomial

open Binary64
open Coefficient (exactly)
open Term (Ascending Whole coefficient? coefficients products)

/-- The nonzero coefficients by ascending exponent. -/
noncomputable def integerTerms (f : ℤ[X]) : List Term :=
  (f.support.sort (· ≤ ·)).map fun e => ⟨ofInteger (f.coeff e), UInt64.ofNat e⟩

/-- The terms are the nonzero coefficients of the integer polynomial. -/
structure Represents (p : Polynomial) (f : ℤ[X]) : Prop where
  ascending : Ascending p.terms
  coefficients : ∀ exponent : UInt64,
    coefficient? p.terms exponent = exactly (f.coeff exponent.toNat)
  range : ∀ n, UInt64.size ≤ n → f.coeff n = 0

/-! ## The terms -/

theorem toNat_ofNat_of_coeff_ne_zero {p : Polynomial} {f : ℤ[X]} (represents : Represents p f)
    {e : Nat} (nonzero : f.coeff e ≠ 0) : (UInt64.ofNat e).toNat = e := by
  have below : e < UInt64.size := by
    by_contra large
    exact nonzero (represents.range e (Nat.le_of_not_lt large))
  exact UInt64.toNat_ofNat_of_lt' below

theorem Represents.eq_ofInteger {p : Polynomial} {f : ℤ[X]} (represents : Represents p f)
    {term : Term} (member : term ∈ p.terms) :
    f.coeff term.exponent.toNat ≠ 0 ∧
      term.coefficient = ofInteger (f.coeff term.exponent.toNat) := by
  have found := represents.coefficients term.exponent
  rw [Term.coefficient?_of_mem represents.ascending member] at found
  by_cases zero : f.coeff term.exponent.toNat = 0
  · rw [zero, Coefficient.exactly_zero] at found
    cases found
  · rw [Coefficient.exactly_of_ne_zero zero] at found
    exact ⟨zero, Option.some.inj found⟩

theorem Represents.whole {p : Polynomial} {f : ℤ[X]} (represents : Represents p f)
    (small : absoluteSum f ≤ exactBound) : Whole p.terms := by
  intro term member
  rw [(represents.eq_ofInteger member).2]
  exact (isInteger_ofInteger (le_trans (natAbs_coeff_le f _) small)).integerValued

theorem Represents.canonical {p : Polynomial} {f : ℤ[X]} (represents : Represents p f)
    (small : absoluteSum f ≤ exactBound) : p.Canonical := by
  refine ⟨represents.ascending, ?_⟩
  intro term member negligible
  obtain ⟨nonzero, same⟩ := represents.eq_ofInteger member
  have exact := isInteger_ofInteger (le_trans (natAbs_coeff_le f term.exponent.toNat) small)
  rw [← same] at exact
  exact nonzero (exact.negligible_iff.mp negligible)

theorem Represents.meaning {p : Polynomial} {f : ℤ[X]} (represents : Represents p f)
    (small : absoluteSum f ≤ exactBound) : Term.meaning p.terms = f := by
  ext n
  rcases Nat.lt_or_ge n UInt64.size with below | large
  · have index : (UInt64.ofNat n).toNat = n := UInt64.toNat_ofNat_of_lt' below
    rw [← index, Term.coeff_meaning, Term.coefficients_of_ascending represents.ascending,
      represents.coefficients]
    by_cases zero : f.coeff (UInt64.ofNat n).toNat = 0
    · rw [zero]
      rfl
    · have exact := isInteger_ofInteger (le_trans (natAbs_coeff_le f (UInt64.ofNat n).toNat) small)
      rw [Coefficient.exactly_of_ne_zero zero, Option.toList_some, Coefficient.total_cons,
        Coefficient.total_nil, add_zero, exact.integerOf_eq]
  · rw [Term.coeff_meaning_of_large _ large, represents.range n large]

theorem Represents.magnitude_le {p : Polynomial} {f : ℤ[X]} (represents : Represents p f)
    (small : absoluteSum f ≤ exactBound) : Term.magnitude p.terms ≤ absoluteSum f := by
  have size := Term.magnitude_le_absoluteSum represents.ascending
  rwa [represents.meaning small] at size

theorem ascending_integerTerms {p : Polynomial} {f : ℤ[X]} (represents : Represents p f) :
    Ascending (integerTerms f) := by
  apply List.pairwise_map.mpr
  apply (Finset.sortedLT_sort f.support).pairwise.imp_of_mem
  intro e k left right less
  have leftIndex := toNat_ofNat_of_coeff_ne_zero represents
    (Polynomial.mem_support_iff.mp ((Finset.mem_sort _).mp left))
  have rightIndex := toNat_ofNat_of_coeff_ne_zero represents
    (Polynomial.mem_support_iff.mp ((Finset.mem_sort _).mp right))
  show UInt64.ofNat e < UInt64.ofNat k
  rwa [UInt64.lt_iff_toNat_lt, leftIndex, rightIndex]

/-- A representing polynomial lists the nonzero coefficients by ascending exponent. -/
theorem Represents.terms_eq {p : Polynomial} {f : ℤ[X]} (represents : Represents p f) :
    p.terms = integerTerms f := by
  apply Term.eq_of_coefficient? represents.ascending (ascending_integerTerms represents)
  intro exponent
  rw [represents.coefficients]
  by_cases zero : f.coeff exponent.toNat = 0
  · rw [zero, Coefficient.exactly_zero, eq_comm, Term.coefficient?_eq_none]
    intro term member same
    obtain ⟨e, listed, rfl⟩ := List.mem_map.mp member
    have nonzero := Polynomial.mem_support_iff.mp ((Finset.mem_sort _).mp listed)
    have index := toNat_ofNat_of_coeff_ne_zero represents nonzero
    rw [← same] at zero
    exact nonzero (index ▸ zero)
  · have listed : ⟨ofInteger (f.coeff exponent.toNat), exponent⟩ ∈ integerTerms f := by
      refine List.mem_map.mpr ⟨exponent.toNat, ?_, ?_⟩
      · exact (Finset.mem_sort _).mpr (Polynomial.mem_support_iff.mpr zero)
      · rw [UInt64.ofNat_toNat]
    rw [Coefficient.exactly_of_ne_zero zero]
    exact (Term.coefficient?_of_mem (ascending_integerTerms represents) listed).symm

/-! ## Operations -/

/-- The normal form of any list of integer terms represents what the list denotes. -/
theorem represents_ofTerms {terms : List Term} (whole : Whole terms)
    (small : Term.magnitude terms ≤ exactBound) :
    Represents (.ofTerms terms) (Term.meaning terms) where
  ascending := (Polynomial.canonical_ofTerms terms).1
  coefficients := by
    intro exponent
    rw [Polynomial.terms_ofTerms, Term.coefficient?_normalize, Term.coeff_meaning]
    exact Coefficient.keep_total? (Term.whole_coefficients whole exponent)
      (le_trans (Term.magnitude_coefficients_le terms exponent) small)
  range := fun _ large => Term.coeff_meaning_of_large terms large

theorem represents_zero : Represents .zero 0 where
  ascending := Term.ascending_nil
  coefficients := fun _ => by rw [Polynomial.coeff_zero]; rfl
  range := fun _ _ => Polynomial.coeff_zero _

theorem represents_add {p q : Polynomial} {f g : ℤ[X]} (left : Represents p f)
    (right : Represents q g) (small : absoluteSum f + absoluteSum g ≤ exactBound) :
    Represents (p.add q) (f + g) where
  ascending := Polynomial.ascending_add left.ascending right.ascending
  coefficients := by
    intro exponent
    have leftSmall := natAbs_coeff_le f exponent.toNat
    have rightSmall := natAbs_coeff_le g exponent.toNat
    have grown := Int.natAbs_add_le (f.coeff exponent.toNat) (g.coeff exponent.toNat)
    rw [Polynomial.coefficient?_add left.ascending right.ascending, left.coefficients,
      right.coefficients, Polynomial.coeff_add]
    exact Coefficient.add?_exactly (by omega) (by omega) (by omega)
  range := by
    intro n large
    rw [Polynomial.coeff_add, left.range n large, right.range n large, add_zero]

theorem represents_neg {p : Polynomial} {f : ℤ[X]} (represents : Represents p f)
    (small : absoluteSum f ≤ exactBound) : Represents p.neg (-f) where
  ascending := Term.ascending_map_neg represents.ascending
  coefficients := by
    intro exponent
    rw [Polynomial.coefficient?_neg, represents.coefficients, Polynomial.coeff_neg]
    exact Coefficient.map_neg_exactly (le_trans (natAbs_coeff_le f _) small)
  range := by
    intro n large
    rw [Polynomial.coeff_neg, represents.range n large, neg_zero]

theorem represents_sub {p q : Polynomial} {f g : ℤ[X]} (left : Represents p f)
    (right : Represents q g) (small : absoluteSum f + absoluteSum g ≤ exactBound) :
    Represents (p.sub q) (f - g) := by
  rw [sub_eq_add_neg]
  apply represents_add left (represents_neg right (by omega))
  rwa [absoluteSum_neg]

/-- A factor that counts as zero is zero, and gives zero. Any other integer factor may be as large
as the coefficients leave room for. -/
theorem represents_scale {p : Polynomial} {f : ℤ[X]} {c : Float} {n : Int}
    (represents : Represents p f) (integer : IsInteger c n)
    (smallOperand : absoluteSum f ≤ exactBound)
    (small : absoluteSum f * n.natAbs ≤ exactBound) : Represents (p.scale c) (C n * f) := by
  by_cases zero : n = 0
  · rw [Polynomial.scale_of_negligible p (integer.negligible_iff.mpr zero), zero, map_zero,
      zero_mul]
    exact represents_zero
  · refine ⟨Polynomial.ascending_scale represents.ascending c, ?_, ?_⟩
    · intro exponent
      have within := natAbs_coeff_le f exponent.toNat
      have product : (f.coeff exponent.toNat * n).natAbs ≤ exactBound := by
        rw [Int.natAbs_mul]
        exact le_trans (Nat.mul_le_mul_right _ within) small
      rw [Polynomial.coefficient?_scale represents.ascending
          (mt integer.negligible_iff.mp zero), represents.coefficients, Polynomial.coeff_C_mul,
        mul_comm n]
      exact Coefficient.map_mul_exactly integer (le_trans within smallOperand) product
    · intro k large
      rw [Polynomial.coeff_C_mul, represents.range k large, mul_zero]

/-! ## Products -/

theorem represents_multiplyBy {strategy : Strategy} {p q result : Polynomial} {f g : ℤ[X]}
    (left : Represents p f) (right : Represents q g) (leftSmall : absoluteSum f ≤ exactBound)
    (rightSmall : absoluteSum g ≤ exactBound)
    (small : absoluteSum f * absoluteSum g ≤ exactBound)
    (computed : Polynomial.multiplyBy strategy p q = .ok result) :
    Represents result (f * g) ∧ absoluteSum (f * g) ≤ absoluteSum f * absoluteSum g := by
  have canonical := left.canonical leftSmall
  have fit := Polynomial.fit_of_multiplyBy canonical computed
  have sizes : Term.magnitude p.terms * Term.magnitude q.terms ≤ absoluteSum f * absoluteSum g :=
    Nat.mul_le_mul (left.magnitude_le leftSmall) (right.magnitude_le rightSmall)
  obtain ⟨whole, size, denoted⟩ := Term.meaning_products (left.whole leftSmall)
    (right.whole rightSmall) fit (le_trans sizes small)
  rw [← size] at sizes
  rw [left.meaning leftSmall, right.meaning rightSmall] at denoted
  refine ⟨⟨?_, ?_, ?_⟩, ?_⟩
  · exact (Polynomial.canonical_multiplyBy canonical right.ascending computed).1
  · intro exponent
    have wholeHere := Term.whole_coefficients whole exponent
    have smallHere := le_trans (Term.magnitude_coefficients_le (products p.terms q.terms) exponent)
      (le_trans sizes small)
    rw [← denoted, Term.coeff_meaning]
    cases strategy with
    | distribute =>
        rw [Polynomial.coefficient?_distribute canonical right.ascending computed]
        exact Coefficient.distributed_eq wholeHere smallHere
    | accumulate =>
        rw [Polynomial.coefficient?_accumulate computed]
        exact Coefficient.accumulated_eq wholeHere smallHere
  · intro n large
    rw [← denoted]
    exact Term.coeff_meaning_of_large _ large
  · rw [← denoted]
    exact le_trans (Term.absoluteSum_meaning_le _) sizes

theorem Represents.eq_zero_of_isZero {p : Polynomial} {f : ℤ[X]} (represents : Represents p f)
    (small : absoluteSum f ≤ exactBound) (isZero : p.IsZero) : f = 0 := by
  have denoted := represents.meaning small
  rw [show p.terms = [] from isZero, Term.meaning_nil] at denoted
  exact denoted.symm

theorem represents_multiply {strategy : Strategy} {p q result : Polynomial} {f g : ℤ[X]}
    (left : Represents p f) (right : Represents q g) (leftSmall : absoluteSum f ≤ exactBound)
    (rightSmall : absoluteSum g ≤ exactBound)
    (small : absoluteSum f * absoluteSum g ≤ exactBound)
    (computed : Polynomial.multiply strategy p q = .ok result) :
    Represents result (f * g) ∧ absoluteSum (f * g) ≤ absoluteSum f * absoluteSum g := by
  by_cases zero : p.IsZero ∨ q.IsZero
  · have product : f * g = 0 := by
      rcases zero with leftZero | rightZero
      · rw [left.eq_zero_of_isZero leftSmall leftZero, zero_mul]
      · rw [right.eq_zero_of_isZero rightSmall rightZero, mul_zero]
    rw [Polynomial.multiply, if_pos zero] at computed
    cases computed
    rw [product, absoluteSum_zero]
    exact ⟨represents_zero, Nat.zero_le _⟩
  · rw [Polynomial.multiply, if_neg zero] at computed
    exact represents_multiplyBy left right leftSmall rightSmall small computed

end SparsePolynomial
