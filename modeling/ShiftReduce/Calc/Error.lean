import ShiftReduce.Calc.Token
import ShiftReduce.GrammarText.Draft

/-!
# Why a calculation cannot be carried out

Errors that leave nothing to show.  A syntax error or a failed operation is no such error: it comes
out as a marked tree.

* `Error`: the causes;
* `Error.message`, `Error.cause?`: their wording, and what lies behind them.
-/

namespace ShiftReduce.Calc

/-- The reason why there is no calculator, or no result. -/
inductive Error where
  /-- The grammar text cannot be read. -/
  | text (error : GrammarText.DraftError)
  /-- The grammar lacks a terminal of the calculator. -/
  | missingTerminal (name : String)
  /-- The grammar is refused. -/
  | grammar (error : GrammarError)
  /-- A character is no part of an expression. -/
  | unexpectedChar (c : Char) (span : Span)
  /-- A literal is larger than any number of the calculator. -/
  | literalTooLarge
  /-- The run of the parser was cut off. -/
  | unfinished
deriving DecidableEq, Repr

namespace Error

/-- The wording of an error. -/
def message : Error → String
  | text error => s!"calculator grammar: {error.message}"
  | missingTerminal name => s!"calculator grammar: no terminal named {name}"
  | grammar error => s!"calculator grammar: {error.message}"
  | unexpectedChar c span => s!"unexpected character {Text.quoteChar c} at {span.describe}"
  | literalTooLarge => "unable to parse ParseIntError \x7b kind: PosOverflow \x7d"
  | unfinished => "evaluation did not end"

/-- What lies behind an error, where it can be said in other words. -/
def cause? : Error → Option String
  | literalTooLarge => some "number too large to fit in target type"
  | _ => none

end Error

end ShiftReduce.Calc
