import SparsePolynomial.Polynomial.Product
import SparsePolynomial.Text.SyntaxError

/-!
Contract: what is recorded while polynomials are normalized, multiplied, read and written.

Owns:
- the kinds of events with what each one carries, their levels and messages;
- `Entry`, an event as the log shows it, with its details by name.

Does not own: when an event is recorded (`Log.Operations`).
-/

set_option autoImplicit false

namespace SparsePolynomial.Log

/-- How detailed an event is. -/
inductive Level where
  | trace
  | debug
deriving DecidableEq, Repr

def Level.name : Level → String
  | trace => "trace"
  | debug => "debug"

/-- One record of the log. -/
inductive Event where
  /-- A list of terms was brought into normal form: its length, the number of exponents in it, and
  the number of terms that are left. -/
  | normalized (input unique kept : Nat)
  /-- A product is about to be computed from operands with so many terms. -/
  | multiplying (strategy : Strategy) (left right : Nat)
  /-- A text was read as so many terms. -/
  | parsed (terms : Nat)
  /-- A text was refused. -/
  | rejected (error : Text.SyntaxError)
  /-- The line of a file is about to be read as a polynomial. -/
  | reading (name text : String)
  /-- A text is about to be written to a file. -/
  | writing (name text : String)
deriving DecidableEq, Repr

/-- What stands under one name of an entry. -/
inductive Detail where
  | count (n : Nat)
  | text (text : String)
deriving DecidableEq, Repr

/-- An event as the log shows it. -/
structure Entry where
  level : Level
  message : String
  details : List (String × Detail)
deriving DecidableEq, Repr

namespace Event

def level : Event → Level
  | normalized .. => .trace
  | multiplying .. | parsed .. | rejected .. | reading .. | writing .. => .debug

def message : Event → String
  | normalized .. => "normalized polynomial terms"
  | multiplying .. => "multiplying polynomials"
  | parsed .. => "parsed polynomial string"
  | rejected .. => "rejected polynomial string"
  | reading .. => "reading polynomial"
  | writing .. => "writing polynomial"

def details : Event → List (String × Detail)
  | normalized input unique kept =>
    [("input", .count input), ("unique", .count unique), ("kept", .count kept)]
  | multiplying strategy left right =>
    [("strategy", .text strategy.name), ("lhs_terms", .count left), ("rhs_terms", .count right)]
  | parsed terms => [("terms", .count terms)]
  | rejected error => [("err", .text error.message)]
  | reading name text | writing name text => [("path", .text name), ("text", .text text)]

def entry (event : Event) : Entry := ⟨event.level, event.message, event.details⟩

end Event

/-- A value and the events recorded on the way to it, the earliest first. -/
structure Logged (α : Type) where
  value : α
  events : List Event

namespace Logged

variable {α β : Type}

instance : Monad Logged where
  pure value := ⟨value, []⟩
  bind first next :=
    let second := next first.value
    ⟨second.value, first.events ++ second.events⟩

/-- Records one event. -/
def record (event : Event) : Logged Unit := ⟨(), [event]⟩

/-- What the log shows afterwards. -/
def entries (logged : Logged α) : List Entry := logged.events.map Event.entry

@[simp] theorem value_pure (a : α) : (pure a : Logged α).value = a := rfl

@[simp] theorem events_pure (a : α) : (pure a : Logged α).events = [] := rfl

@[simp] theorem value_bind (first : Logged α) (next : α → Logged β) :
    (first >>= next).value = (next first.value).value := rfl

@[simp] theorem events_bind (first : Logged α) (next : α → Logged β) :
    (first >>= next).events = first.events ++ (next first.value).events := rfl

@[simp] theorem value_map (f : α → β) (logged : Logged α) :
    (f <$> logged).value = f logged.value := rfl

@[simp] theorem events_map (f : α → β) (logged : Logged α) :
    (f <$> logged).events = logged.events := List.append_nil _

@[simp] theorem events_record (event : Event) : (record event).events = [event] := rfl

end Logged

end SparsePolynomial.Log
