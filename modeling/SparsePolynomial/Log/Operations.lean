import SparsePolynomial.Log.Event
import SparsePolynomial.Storage.Files

/-!
Contract: the operations that record events, together with the events they record.

Owns:
- a recording form of construction, multiplication, reading and writing;
- the proof, beside each, that its value is that of the operation itself.

Sums, differences, scaling and the product with a term bring no list into normal form and record
nothing, so they have no form here.
-/

set_option autoImplicit false

namespace SparsePolynomial.Log

/-! ## Construction -/

/-- The sum of any terms; every normalization is recorded, that of no terms too. -/
def ofTerms (terms : List Term) : Logged Polynomial := do
  let combined := Term.combine terms
  let kept := Term.dropNegligible combined
  Logged.record (.normalized terms.length combined.length kept.length)
  return ⟨kept⟩

/-- The sum of terms that may have been refused before. -/
def ofTermsOrError {ε : Type} (terms : Except ε (List Term)) : Logged (Except ε Polynomial) :=
  match terms with
  | .error error => pure (.error error)
  | .ok terms => Except.ok <$> ofTerms terms

def ofArrays (coefficients : List Float) (exponents : List UInt32) :
    Logged (Except ConstructionError Polynomial) :=
  ofTermsOrError (Polynomial.termsOfArrays coefficients exponents)

@[simp] theorem value_ofTerms (terms : List Term) :
    (ofTerms terms).value = Polynomial.ofTerms terms := rfl

@[simp] theorem value_ofTermsOrError {ε : Type} (terms : Except ε (List Term)) :
    (ofTermsOrError terms).value = terms.map Polynomial.ofTerms := by
  cases terms <;> rfl

@[simp] theorem value_ofArrays (coefficients : List Float) (exponents : List UInt32) :
    (ofArrays coefficients exponents).value = Polynomial.ofArrays coefficients exponents :=
  value_ofTermsOrError _

/-! ## Products -/

/-- The product by a strategy; only `accumulate` normalizes. -/
def multiplyBy (strategy : Strategy) (p q : Polynomial) :
    Logged (Except ExponentOverflow Polynomial) :=
  match strategy with
  | .distribute => pure (Polynomial.distribute p q)
  | .accumulate => ofTermsOrError (Polynomial.collectedProducts p q)

/-- The product; one with zero is not recorded. -/
def multiply (strategy : Strategy) (p q : Polynomial) :
    Logged (Except ExponentOverflow Polynomial) :=
  if p.IsZero ∨ q.IsZero then pure (.ok .zero)
  else do
    Logged.record (.multiplying strategy p.length q.length)
    multiplyBy strategy p q

/-- The product, where an exponent out of range ends the run. -/
def multiplyOrHalt (strategy : Strategy) (p q : Polynomial) : Logged (Except Halt Polynomial) :=
  Polynomial.orHalt <$> multiply strategy p q

@[simp] theorem value_multiplyBy (strategy : Strategy) (p q : Polynomial) :
    (multiplyBy strategy p q).value = Polynomial.multiplyBy strategy p q := by
  cases strategy
  · rfl
  · exact value_ofTermsOrError _

@[simp] theorem value_multiply (strategy : Strategy) (p q : Polynomial) :
    (multiply strategy p q).value = Polynomial.multiply strategy p q := by
  unfold multiply Polynomial.multiply
  split <;> simp

@[simp] theorem value_multiplyOrHalt (strategy : Strategy) (p q : Polynomial) :
    (multiplyOrHalt strategy p q).value = Polynomial.multiplyOrHalt strategy p q := by
  simp [multiplyOrHalt, Polynomial.multiplyOrHalt]

/-! ## Text -/

/-- Reads a polynomial from its text. -/
def parse (text : String) : Logged (Except Text.SyntaxError Polynomial) :=
  match Text.readTerms text.toList with
  | .error error => do
    Logged.record (.rejected error)
    return .error error
  | .ok terms => do
    Logged.record (.parsed terms.length)
    return .ok (← ofTerms terms)

@[simp] theorem value_parse (text : String) : (parse text).value = Text.parse text := by
  unfold parse Text.parse
  split <;> simp_all [Except.map]

/-! ## Files -/

variable {System : Type} [Storage.FileSystem System]

/-- Reads a polynomial from a file; nothing is recorded if there is no line to read. -/
def read (system : System) (name : String) : Logged (Except Storage.ReadError Polynomial) :=
  match Storage.readLine system name with
  | .error error => pure (.error (.storage error))
  | .ok text => do
    Logged.record (.reading name text)
    return (← parse text).mapError .malformed

/-- Writes a polynomial to a file; the attempt is recorded even if it fails. -/
def write (system : System) (name : String) (p : Polynomial) :
    Logged (Except Storage.StorageError System) := do
  Logged.record (.writing name p.text)
  return Storage.write system name p

@[simp] theorem value_read (system : System) (name : String) :
    (read system name).value = Storage.read system name := by
  unfold read Storage.read
  split <;> simp_all [Storage.parseLine]

@[simp] theorem value_write (system : System) (name : String) (p : Polynomial) :
    (write system name p).value = Storage.write system name p := rfl

end SparsePolynomial.Log
