import SparsePolynomial.Proofs.Storage.FirstLine
import SparsePolynomial.Proofs.Weight

/-!
Contract: polynomials that are written to a file and read again.

Owns:
- `Reloads`, what becomes of a polynomial on the way: it comes back if no exponent is past those of
  texts, and otherwise the file is malformed at the first term that has such an exponent;
- `reload_product`: the product of two texts is written wherever the file system takes files, and
  this is what happens to it.

Exponents of products go up to twice the largest that can be read, so not every product comes back.
-/

set_option autoImplicit false

namespace SparsePolynomial.Storage

open SparsePolynomial.Polynomial (IsInput multiplyOrHalt)
open Text (largestExponent)

/-! ## Polynomials -/

/-- What reading a file gives that a polynomial was written to. -/
structure Reloads (p : Polynomial) (result : Except ReadError Polynomial) : Prop where
  ok_iff : result = .ok p ↔ ∀ n ∈ p.exponents, n.toNat ≤ largestExponent
  error : ∀ before term after, p.terms = before ++ term :: after →
    (∀ own ∈ before, own.exponent.toNat ≤ largestExponent) →
    largestExponent < term.exponent.toNat →
    result = .error (.malformed ⟨Text.byteLength (Polynomial.mk before).chars,
      .invalid .exponent (term.charsBehind before)⟩)

theorem writable_iff {p : Polynomial} (finite : p.Finite) :
    p.Writable ↔ ∀ n ∈ p.exponents, n.toNat ≤ largestExponent := by
  rw [Polynomial.exponents, List.forall_mem_map]
  exact forall₂_congr fun term member => and_iff_right (finite term member)

theorem reloads_of_write {System : Type} [FileSystem System] {system saved : System} {name : String}
    {p : Polynomial} (canonical : p.Canonical) (finite : p.Finite)
    (written : write system name p = .ok saved) : Reloads p (read saved name) where
  ok_iff := by
    rw [read_of_write written, parseLine_eq_ok, Polynomial.parse_text_eq_ok_iff canonical,
      writable_iff finite]
  error before term after parts inRange past := by
    have failed := Polynomial.readTerms_chars_eq_error canonical.2 finite parts inRange past
    rw [read_of_write written]
    apply parseLine_of_error
    rw [Text.parse, Polynomial.text, String.toList_ofList, failed]
    rfl

/-- The product of two texts is computed, and written wherever the file system takes it. If its
coefficients are finite, it is read back exactly if its exponents are in the range of texts. -/
theorem reload_product {System : Type} [FileSystem System] {system : System}
    {left right name : String} {p q : Polynomial} (leftParsed : Text.parse left = .ok p)
    (rightParsed : Text.parse right = .ok q) (takes : FileSystem.Takes system name)
    (strategy : Strategy) :
    ∃ product saved, multiplyOrHalt strategy p q = .ok product ∧
      write system name product = .ok saved ∧
        (product.Finite → Reloads product (read saved name)) := by
  have leftInput : p.IsInput := .inl ⟨left, leftParsed⟩
  have rightInput : q.IsInput := .inl ⟨right, rightParsed⟩
  obtain ⟨product, computed⟩ := Polynomial.exists_multiply_of_isInput strategy leftInput rightInput
  obtain ⟨saved, written⟩ := takes (encode product.text)
  have canonical :=
    Polynomial.canonical_multiply leftInput.canonical rightInput.canonical.1 computed
  exact ⟨product, saved, Polynomial.multiplyOrHalt_eq_ok.mpr computed, written,
    fun finite => reloads_of_write canonical finite written⟩

/-- `x + x^4294967295`, with the largest exponent of texts. -/
def highBinomial : Polynomial := ⟨[⟨1.0, 1⟩, ⟨1.0, 4294967295⟩]⟩

/-- Its product with `x`, where one exponent is in the range of texts and one just past it. -/
def shiftedBinomial : Polynomial := ⟨[⟨1.0, 2⟩, ⟨1.0, 4294967296⟩]⟩

theorem reload_product_shiftedBinomial :
    Text.parse "x+x4294967295" = .ok highBinomial ∧ Text.parse "x" = .ok .x ∧
      FileSystem.Takes Store.empty "m.txt" ∧
        multiplyOrHalt .distribute highBinomial .x = .ok shiftedBinomial ∧
          shiftedBinomial.Finite ∧ ∃ saved, write Store.empty "m.txt" shiftedBinomial = .ok saved ∧
            Reloads shiftedBinomial (read saved "m.txt") := by
  have canonical : highBinomial.Canonical ∧ Polynomial.x.Canonical := by decide +kernel
  have leftParsed : Text.parse "x+x4294967295" = .ok (.ofTerms highBinomial.terms) := rfl
  rw [Polynomial.ofTerms_of_canonical canonical.1] at leftParsed
  have variableTerms : Polynomial.x.terms = [⟨1.0, 1⟩] := by decide +kernel
  have rightParsed : Text.parse "x" = .ok (.ofTerms [⟨1.0, 1⟩]) := rfl
  rw [← variableTerms, Polynomial.ofTerms_of_canonical canonical.2] at rightParsed
  have place : Place.ofName "m.txt" = .file "m.txt" := by decide
  have takes := Store.takes place .empty
  have shifted : multiplyOrHalt .distribute highBinomial .x = .ok shiftedBinomial := by
    decide +kernel
  have finite : shiftedBinomial.Finite := by decide +kernel
  obtain ⟨product, saved, computed, written, reloads⟩ :=
    reload_product leftParsed rightParsed takes .distribute
  obtain rfl : shiftedBinomial = product := Except.ok.inj (shifted.symm.trans computed)
  exact ⟨leftParsed, rightParsed, takes, shifted, finite, saved, written, reloads finite⟩

/-- `x^4294967295`, the highest power that can be read. -/
def highestPower : Polynomial := ⟨[⟨1.0, 4294967295⟩]⟩

/-- Its square, `x^8589934590`. -/
def squaredPower : Polynomial := ⟨[⟨1.0, 8589934590⟩]⟩

/-- The square is finite and can be written, and the file is malformed from its first byte on. -/
theorem squaredPower_not_reloaded :
    Text.parse "x4294967295" = .ok highestPower ∧
      (∀ strategy, multiplyOrHalt strategy highestPower highestPower = .ok squaredPower) ∧
        squaredPower.Finite ∧ ∃ saved, write Store.empty "m.txt" squaredPower = .ok saved ∧
          read saved "m.txt" =
            .error (.malformed ⟨0, .invalid .exponent "1.0x8589934590".toList⟩) := by
  have canonical : highestPower.Canonical ∧ squaredPower.Canonical := by decide +kernel
  have finite : squaredPower.Finite := by decide +kernel
  have parsed : Text.parse "x4294967295" = .ok (.ofTerms highestPower.terms) := rfl
  have squared (strategy : Strategy) :
      multiplyOrHalt strategy highestPower highestPower = .ok squaredPower := by
    cases strategy <;> decide +kernel
  have text : Term.charsBehind [] ⟨1.0, 8589934590⟩ = "1.0x8589934590".toList := by decide +kernel
  have place : Place.ofName "m.txt" = .file "m.txt" := by decide
  obtain ⟨saved, written⟩ := Store.takes place .empty (encode squaredPower.text)
  have refused := (reloads_of_write canonical.2 finite written).error [] _ [] rfl
    (List.forall_mem_nil _) (by decide)
  rw [Polynomial.ofTerms_of_canonical canonical.1] at parsed
  rw [text] at refused
  exact ⟨parsed, squared, finite, saved, written, refused⟩

end SparsePolynomial.Storage
