import ShiftReduce.Calc.Calculator
import ShiftReduce.Parser.Notes

/-!
# Notes of the calculator

* `remarks`: failed operations;
* `Calculator.buildNotes`, `Calculator.evalNotes`: what there is to say about the making of a
  calculator and about an evaluation.
-/

namespace ShiftReduce.Calc

/-- A position as a record. -/
def positionRecord (p : Position) : String :=
  s!"Position \x7b line: {p.line}, column: {p.column} \x7d"

/-- A span that may be absent as a record. -/
def spanRecord : Option Span → String
  | none => "None"
  | some s => s!"Some(Span \x7b start: {positionRecord s.start}, end: {positionRecord s.stop} \x7d)"

/-- What there is to say about a reduction: that the operation failed. -/
def remarks (g : Grammar Token) (production : Nat) (children : List (Tree Token)) : List Note :=
  match g.replacement? production children with
  | none => []
  | some tree =>
    if tree.state < 0 then
      [⟨.debug, s!"arithmetic fault at {spanRecord (tree.value?.bind Token.span)}"⟩]
    else []

namespace Calculator

/-- What there is to say about the making of a calculator, up to where it fails. -/
def buildNotes (text : String) : List Note :=
  match GrammarText.Draft.ofText text with
  | .error _ => []
  | .ok draft =>
    draft.notes ++
      match alphabetOf draft, draft.build hookFor with
      | .ok _, .ok grammar =>
        let automaton := grammar.automaton
        let counts := s!"{grammar.cfg.rules.length} productions, {automaton.stateCount} states"
        automaton.notes grammar ++
          (if automaton.table.conflicts.isEmpty then [⟨.debug, s!"calculator: {counts}"⟩] else [])
      | _, _ => []

/-- What there is to say about an evaluation. -/
def evalNotes (c : Calculator) (text : String) : List Note :=
  c.parser.notes (remarks c.parser.grammar) (c.source text) ++
    match c.eval text with
    | .error _ => []
    | .ok e =>
      let root := e.root.render Token.text
      [⟨.debug, s!"{Text.quoteString text} => {root} ({e.stats.record})"⟩]

end Calculator

end ShiftReduce.Calc
