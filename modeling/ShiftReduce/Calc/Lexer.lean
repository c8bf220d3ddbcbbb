import ShiftReduce.Calc.Error
import ShiftReduce.Source
import ShiftReduce.Text.Blank

/-!
# Reading expressions

An expression is read as a token source of numbers, operators and parentheses.  Spacing and line
feeds only separate tokens.  Lines and columns are counted from zero, and columns count bytes.

A character that is no part of an expression and a literal beyond the largest number are faults of
the source; reading goes on after them.

* `Alphabet`: the grammar's symbols for the tokens;
* `checked`: the numbers of the calculator;
* `pulls`: the token source of a text.
-/

namespace ShiftReduce.Calc

/-- The symbols that the grammar has for the tokens of an expression. -/
structure Alphabet where
  number : Nat
  plus : Nat
  minus : Nat
  asterisk : Nat
  slash : Nat
  leftParen : Nat
  rightParen : Nat
deriving DecidableEq, Repr

/-- The symbol of an operator or parenthesis. -/
def Alphabet.operator? (t : Alphabet) (c : Char) : Option Nat :=
  if c = '+' then some t.plus
  else if c = '-' then some t.minus
  else if c = '*' then some t.asterisk
  else if c = '/' then some t.slash
  else if c = '(' then some t.leftParen
  else if c = ')' then some t.rightParen
  else none

/-- The least number of the calculator: numbers have 64 bits, one of them for the sign. -/
def least : Int := -9223372036854775808

/-- The greatest number of the calculator. -/
def greatest : Int := 9223372036854775807

/-- The integer itself, provided that it is a number of the calculator. -/
def checked (n : Int) : Option Int := if least ≤ n ∧ n ≤ greatest then some n else none

/-- The number that decimal digits stand for. -/
def decimal (digits : List Char) : Nat :=
  digits.foldl (fun n c => 10 * n + (c.toNat - '0'.toNat)) 0

/-- The answer of the source for a literal. -/
def literal (t : Alphabet) (digits : List Char) (span : Span) : Pull Token Error :=
  match checked (decimal digits) with
  | some n => .token (Tree.scalar t.number ⟨.number n, some span⟩)
  | none => .fault .literalTooLarge

/-- The answer of the source for any other character. -/
def single (t : Alphabet) (c : Char) (span : Span) : Pull Token Error :=
  match t.operator? c with
  | some symbol => .token (Tree.scalar symbol ⟨.operator c, some span⟩)
  | none => .fault (.unexpectedChar c span)

/-- The span of `width` bytes from a position on. -/
def spanFrom (place : Position) (width : Nat) : Span :=
  ⟨place, { place with column := place.column + width }⟩

/-- Reads at most `fuel` pieces of a text that begins at `place`. -/
def pullsFrom (t : Alphabet) : Nat → Position → List Char → List (Pull Token Error)
  | 0, _, _ => []
  | _ + 1, _, [] => []
  | fuel + 1, place, c :: cs =>
    if Text.isSpacing c then pullsFrom t fuel (spanFrom place 1).stop cs
    else if c = '\n' then pullsFrom t fuel ⟨place.line + 1, 0⟩ cs
    else if c.isDigit then
      let digits := c :: cs.takeWhile Char.isDigit
      let span := spanFrom place digits.length
      literal t digits span :: pullsFrom t fuel span.stop (cs.dropWhile Char.isDigit)
    else
      let span := spanFrom place c.utf8Size
      single t c span :: pullsFrom t fuel span.stop cs

/-- The token source of a text. -/
def pulls (t : Alphabet) (text : List Char) : List (Pull Token Error) :=
  pullsFrom t text.length ⟨0, 0⟩ text

end ShiftReduce.Calc
