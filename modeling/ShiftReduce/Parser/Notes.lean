import ShiftReduce.Parser.Basic

/-!
# Notes on a run

* `Parser.showConfig`: a configuration in a line;
* `Parser.notes`: what there is to say about a run: each configuration, and the step that leads on.
-/

namespace ShiftReduce.Parser

variable {α ε : Type}

/-- The stack from its bottom, the current state and the lookahead. -/
def showConfig (symbols : SymbolTable) (c : Config α ε) : String :=
  let frames := c.stack.reverse
  let places := (0 :: frames.map Frame.state).zip (frames.map fun f => f.tree.symbol)
  let stack := places.map fun (state, symbol) =>
    s!"<{state}> {SymbolTable.lookaheadName symbols symbol}  "
  let next := SymbolTable.lookaheadName symbols c.lookahead
  String.join stack ++ s!"<{c.state}>  <-  {next}"

/-- What there is to say about a reduction: the production, what `remarks` adds about it and its
children, and whether it ends the run. -/
def reduceNotes (p : Parser α) (remarks : Nat → List (Tree α) → List Note) (c : Config α ε)
    (production : Nat) : List Note :=
  match p.grammar.cfg.rules[production]? with
  | none => []
  | some rule =>
    let count := rule.right.length
    let children := ((c.stack.take count).map Frame.tree).reverse
    let accepts := rule.left == 0 && (c.stack.drop count).isEmpty
    [⟨.trace, s!"Reduce {p.grammar.showRule rule}"⟩] ++ remarks production children ++
      (if accepts then [⟨.trace, "Accept"⟩] else [])

/-- What there is to say about a configuration and the step that leads on from it. -/
def configNotes (p : Parser α) (remarks : Nat → List (Tree α) → List Note) (c : Config α ε) :
    List Note :=
  let symbols := p.grammar.symbols
  ⟨.trace, showConfig symbols c⟩ ::
    match p.actionFor c.state c.lookahead with
    | .shift target => [⟨.trace, s!"Shift {target}"⟩]
    | .reduce production => p.reduceNotes remarks c production
    | .error _ =>
      let next := SymbolTable.lookaheadName symbols c.lookahead
      [⟨.debug, s!"syntax error in state {c.state} on {next}"⟩]
    | .shiftReduce _ => []
    | .reduceReduce _ => []

/-- The notes of a whole run. -/
def notes (p : Parser α) (remarks : Nat → List (Tree α) → List Note)
    (source : List (Pull α ε)) : List Note :=
  match start source with
  | .halt _ => []
  | .next c => (p.trail (p.budget source.length) c).flatMap (p.configNotes remarks)

end ShiftReduce.Parser
