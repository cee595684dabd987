/-!
Contract: why a text is not a polynomial.

Owns:
- the fault of a term, the byte offset at which the term starts, and the message.
-/

set_option autoImplicit false

namespace SparsePolynomial.Text

/-- The two parts of a term that can be invalid. -/
inductive Part where
  | coefficient
  | exponent
deriving DecidableEq, Repr

/-- What is wrong with a term. -/
inductive Fault where
  /-- A sign with nothing behind it at the end of the text. -/
  | emptyTerm
  /-- A part that cannot be read, with the text of the term and its sign. -/
  | invalid (part : Part) (term : List Char)
deriving DecidableEq, Repr

/-- A fault and where in the text its term starts, in bytes of UTF-8. -/
structure SyntaxError where
  offset : Nat
  fault : Fault
deriving DecidableEq, Repr

namespace Part

def name : Part → String
  | coefficient => "coefficient"
  | exponent => "exponent"

end Part

namespace SyntaxError

/-- The text of the term that is at fault; an empty term has none. -/
def term? (error : SyntaxError) : Option (List Char) :=
  match error.fault with
  | .emptyTerm => none
  | .invalid _ term => some term

def message (error : SyntaxError) : String :=
  match error.fault with
  | .emptyTerm => s!"empty term at offset {error.offset}"
  | .invalid part term =>
    s!"invalid {part.name} in term `" ++ String.ofList term ++ s!"` at offset {error.offset}"

end SyntaxError

end SparsePolynomial.Text
