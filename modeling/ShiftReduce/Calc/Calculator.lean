import ShiftReduce.Calc.Folding
import ShiftReduce.Parser.Basic
import ShiftReduce.Tree.Views

/-!
# The calculator

* `grammarText`: the calculator's own grammar;
* `Calculator.ofText`: a calculator for any grammar text with the right terminals;
* `Calculator.eval`: evaluates a text;
* `Evaluation`: the result, with `Evaluation.value?` and `Evaluation.span?`.
-/

namespace ShiftReduce.Calc

/-- The grammar of expressions, from the tightest group to the loosest. -/
def grammarText : String :=
  "num: Expr -> number\n" ++
  "paren: Expr -> ( Expr )\n" ++
  "%right\n" ++
  "neg: Expr -> - Expr\n" ++
  "%left\n" ++
  "mul: Expr -> Expr * Expr\n" ++
  "div: Expr -> Expr / Expr\n" ++
  "%left\n" ++
  "add: Expr -> Expr + Expr\n" ++
  "sub: Expr -> Expr - Expr\n"

/-- A parser for expressions and the symbols of its tokens. -/
structure Calculator where
  parser : Parser Token
  alphabet : Alphabet

/-- Finds the symbols of the tokens; the first missing one is reported. -/
def alphabetOf (draft : GrammarText.Draft) : Except Error Alphabet := do
  let find (name : String) : Except Error Nat :=
    match draft.symbol? name with
    | some symbol => .ok symbol
    | none => .error (.missingTerminal name)
  return {
    number := ← find "number"
    plus := ← find "plus"
    minus := ← find "minus"
    asterisk := ← find "asterisk"
    slash := ← find "slash"
    leftParen := ← find "leftParen"
    rightParen := ← find "rightParen" }

/-- Makes a calculator of what a grammar text declares. -/
def calculatorOf (draft : GrammarText.Draft) : Except Error Calculator := do
  let alphabet ← alphabetOf draft
  let grammar ← (draft.build hookFor).mapError Error.grammar
  let parser ← (Parser.build grammar true).mapError Error.grammar
  return ⟨parser, alphabet⟩

/-- The result of evaluating a text. -/
structure Evaluation where
  root : Tree Token
  stats : Stats
deriving Repr

namespace Evaluation

/-- Whether there was a syntax error or a failed operation. -/
def isError (e : Evaluation) : Bool := e.root.isError

/-- The number that the text evaluates to. -/
def value? (e : Evaluation) : Option Int := numberIn? e.root

/-- The part of the source that the result covers: for a syntax error the offending token, and
nothing at the end of the input. -/
def span? (e : Evaluation) : Option Span := coveredSpan e.root.leaves

/-- The result in a line of text. -/
def summary (e : Evaluation) : String :=
  match e.value?, e.span? with
  | some n, _ => toString n
  | none, some span => s!"error at {span.describe}"
  | none, none => "error at end of input"

end Evaluation

namespace Calculator

/-- Makes a calculator of a grammar text. -/
def ofText (text : String) : Except Error Calculator := do
  let draft ← (GrammarText.Draft.ofText text).mapError Error.text
  calculatorOf draft

/-- The calculator of the grammar of expressions. -/
def standard : Except Error Calculator := ofText grammarText

/-- The token source of a text. -/
def source (c : Calculator) (text : String) : List (Pull Token Error) :=
  pulls c.alphabet text.toList

/-- Evaluates a text. -/
def eval (c : Calculator) (text : String) : Except Error Evaluation :=
  let outcome := c.parser.parse (c.source text)
  match outcome.verdict with
  | .accepted root => .ok ⟨root, outcome.stats⟩
  | .rejected token => .ok ⟨token, outcome.stats⟩
  | .faulted error => .error error
  | .stuck => .error .unfinished
  | .unfinished => .error .unfinished

end Calculator

end ShiftReduce.Calc
