import SparsePolynomial.Binary64.Basic
import SparsePolynomial.Binary64.Nearest
import SparsePolynomial.Coefficient
import SparsePolynomial.Decimal.Basic
import SparsePolynomial.Decimal.Shortest
import SparsePolynomial.Log.Event
import SparsePolynomial.Log.Operations
import SparsePolynomial.Polynomial.Arithmetic
import SparsePolynomial.Polynomial.Basic
import SparsePolynomial.Polynomial.Evaluation
import SparsePolynomial.Polynomial.Product
import SparsePolynomial.Proofs.Binary64.Exact
import SparsePolynomial.Proofs.Binary64.Integer
import SparsePolynomial.Proofs.Binary64.Negation
import SparsePolynomial.Proofs.Binary64.Opposite
import SparsePolynomial.Proofs.Binary64.Order
import SparsePolynomial.Proofs.Binary64.Parts
import SparsePolynomial.Proofs.Binary64.Product
import SparsePolynomial.Proofs.Binary64.Rational
import SparsePolynomial.Proofs.Binary64.Rounding
import SparsePolynomial.Proofs.Integer.Arithmetic
import SparsePolynomial.Proofs.Integer.Evaluation
import SparsePolynomial.Proofs.Integer.Meaning
import SparsePolynomial.Proofs.Integer.Sum
import SparsePolynomial.Proofs.Integer.Tree
import SparsePolynomial.Proofs.Log.Faithful
import SparsePolynomial.Proofs.Polynomial.Arithmetic
import SparsePolynomial.Proofs.Polynomial.Asserting
import SparsePolynomial.Proofs.Polynomial.Closeness
import SparsePolynomial.Proofs.Polynomial.Construction
import SparsePolynomial.Proofs.Polynomial.Difference
import SparsePolynomial.Proofs.Polynomial.Ends
import SparsePolynomial.Proofs.Polynomial.Enumeration
import SparsePolynomial.Proofs.Polynomial.Exchange
import SparsePolynomial.Proofs.Polynomial.Exponents
import SparsePolynomial.Proofs.Polynomial.Loss
import SparsePolynomial.Proofs.Polynomial.Meeting
import SparsePolynomial.Proofs.Polynomial.OneTerm
import SparsePolynomial.Proofs.Polynomial.Overflow
import SparsePolynomial.Proofs.Polynomial.Product
import SparsePolynomial.Proofs.Polynomial.Strategies
import SparsePolynomial.Proofs.Polynomial.Symmetry
import SparsePolynomial.Proofs.Power
import SparsePolynomial.Proofs.Session
import SparsePolynomial.Proofs.Storage.FirstLine
import SparsePolynomial.Proofs.Storage.Reload
import SparsePolynomial.Proofs.Term.Account
import SparsePolynomial.Proofs.Term.Exponents
import SparsePolynomial.Proofs.Term.Lookup
import SparsePolynomial.Proofs.Term.Merge
import SparsePolynomial.Proofs.Term.Negation
import SparsePolynomial.Proofs.Term.Normal
import SparsePolynomial.Proofs.Term.Product
import SparsePolynomial.Proofs.Term.Search
import SparsePolynomial.Proofs.Term.Sums
import SparsePolynomial.Proofs.Text.Addition
import SparsePolynomial.Proofs.Text.Body
import SparsePolynomial.Proofs.Text.Cursor
import SparsePolynomial.Proofs.Text.Flip
import SparsePolynomial.Proofs.Text.Grammar
import SparsePolynomial.Proofs.Text.Malformed
import SparsePolynomial.Proofs.Text.Pinpoint
import SparsePolynomial.Proofs.Text.Printed
import SparsePolynomial.Proofs.Text.ReadBack
import SparsePolynomial.Proofs.Text.RoundTrip
import SparsePolynomial.Proofs.Text.Segment
import SparsePolynomial.Proofs.Text.Tiling
import SparsePolynomial.Proofs.Traversal
import SparsePolynomial.Proofs.Weight
import SparsePolynomial.Storage.FileSystem
import SparsePolynomial.Storage.Files
import SparsePolynomial.Storage.Store
import SparsePolynomial.Term.Basic
import SparsePolynomial.Term.Merge
import SparsePolynomial.Term.Normal
import SparsePolynomial.Term.Search
import SparsePolynomial.Term.Sums
import SparsePolynomial.Text.Body
import SparsePolynomial.Text.Printer
import SparsePolynomial.Text.Reader
import SparsePolynomial.Text.Segment
import SparsePolynomial.Text.SyntaxError
import SparsePolynomial.Text.WhiteSpace
