import ShiftReduce.Span

/-!
# Calculator tokens

What the calculator's trees hold at their leaves: a value, and the part of the source it comes
from.  Lexed tokens and results of arithmetic are alike.

* `Value`, `Token`;
* `Token.number?`, `Token.mergeSpan`, `Token.text`.
-/

namespace ShiftReduce.Calc

/-- What a token stands for. -/
inductive Value where
  /-- The result of an operation that failed. -/
  | invalid
  /-- A literal or a result. -/
  | number (n : Int)
  /-- An operator or a parenthesis. -/
  | operator (c : Char)
deriving DecidableEq, Repr

/-- A value and where it stands. -/
structure Token where
  value : Value
  span : Option Span
deriving DecidableEq, Repr

namespace Token

/-- The number that the token stands for. -/
def number? (t : Token) : Option Int :=
  match t.value with
  | .number n => some n
  | _ => none

/-- Widens the span of the token to cover another one. -/
def mergeSpan (t : Token) (span : Option Span) : Token := { t with span := mergeSpans t.span span }

/-- The token as text. -/
def text (t : Token) : String :=
  match t.value with
  | .invalid => "?"
  | .number n => toString n
  | .operator c => String.singleton c

end Token

end ShiftReduce.Calc
