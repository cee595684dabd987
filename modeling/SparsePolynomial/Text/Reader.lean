import SparsePolynomial.Polynomial.Basic
import SparsePolynomial.Text.Body
import SparsePolynomial.Text.Segment

/-!
Contract: reading a polynomial from its text.

Owns:
- `parse`, which reads every segment and adds up the terms;
- which error is reported: the first from the left, be it in the body of a segment or in the cuts.

The empty text is zero. Nothing is skipped: white space is no part of any term.
-/

set_option autoImplicit false

namespace SparsePolynomial.Text

/-- The term that a segment stands for. -/
def Segment.read (segment : Segment) : Except SyntaxError Term :=
  match (Body.ofChars segment.body).read with
  | .error part => .error ⟨segment.offset, .invalid part segment.text⟩
  | .ok term => .ok ⟨segment.sign.apply term.coefficient, term.exponent⟩

/-- The terms of all segments. The fault in the cuts stands behind all of them, so it is reported
only if they can be read. -/
def Segmentation.read (segmentation : Segmentation) : Except SyntaxError (List Term) := do
  let terms ← segmentation.segments.mapM Segment.read
  match segmentation.failure? with
  | some error => throw error
  | none => return terms

/-- The terms of a text in the order in which they stand there. -/
def readTerms (text : List Char) : Except SyntaxError (List Term) :=
  (Segmentation.ofChars text).read

/-- The polynomial that a text stands for. -/
def parse (text : String) : Except SyntaxError Polynomial :=
  (readTerms text.toList).map Polynomial.ofTerms

end SparsePolynomial.Text
