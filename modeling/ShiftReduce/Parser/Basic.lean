import ShiftReduce.Automaton
import ShiftReduce.Parser.Config

/-!
# Parsers

A parser is a grammar with a parse table free of conflicts.  It looks at one token at a time: it
shifts the token, or reduces the top of the stack by a production, until the start production is
reduced with nothing left below it, or no action applies, or the source fails.

A token that no action applies to is the result of the run, marked as being in error.  Tokens whose
symbol is no terminal never have an action, because columns of nonterminals hold transitions.

* `Parser.build`: refuses grammars with conflicts;
* `Parser.step`: a single step;
* `Parser.run`, `Parser.trail`: steps until the run ends, and the configurations on the way;
* `Parser.parse`: a whole run over a token source.
-/

namespace ShiftReduce

/-- A grammar with its conflict-free table. -/
structure Parser (α : Type) where
  grammar : Grammar α
  table : Table
  /-- Whether a reduction by a single nonterminal is left out of the tree. -/
  trim : Bool
  /-- The table is the one of the grammar. -/
  table_eq : table = grammar.automaton.table
  /-- The table has no conflicts. -/
  conflictFree : table.conflicts = []

/-- Makes a parser of a grammar, or gives its conflicts. -/
def Parser.build {α : Type} (grammar : Grammar α) (trim : Bool) : Except GrammarError (Parser α) :=
  let table := grammar.automaton.table
  if h : table.conflicts = [] then .ok ⟨grammar, table, trim, rfl, h⟩
  else .error (.conflicts table.conflicts)

namespace Parser

variable {α ε : Type}

/-! ## Steps -/

/-- The table's entry, except that only terminals can be read. -/
def actionFor (p : Parser α) (q : Nat) : Lookahead → Action
  | none => p.table.action q none
  | some symbol =>
    if p.grammar.cfg.isTerminal symbol then p.table.action q (some symbol)
    else .error (some symbol)

/-- Whether a reduction by this rule is left out of trimmed trees: it has a single nonterminal on
its right side. -/
def isUnit (g : Cfg) (rule : Rule) : Bool :=
  match rule.right with
  | [only] => g.isNonterminal only
  | _ => false

/-- The tree for a reduction: what the hook gives, else the only child of a trimmed unit rule,
else a node. -/
def reduce (p : Parser α) (production : Nat) (rule : Rule) (children : List (Tree α)) : Tree α :=
  match p.grammar.replacement? production children with
  | some tree => tree
  | none =>
    match children with
    | [only] =>
      if p.trim && isUnit p.grammar.cfg rule then only.relabel rule.left
      else Tree.reduction rule.left production [only]
    | children => Tree.reduction rule.left production children

/-- Shifts the token in sight and moves on. -/
def shiftStep (c : Config α ε) (target : Nat) : Step α ε :=
  Config.advance {
    window := c.window.taken
    stack := ⟨target, stamp target c.token⟩ :: c.stack
    stats := { c.stats with shifts := c.stats.shifts + 1 } }

/-- Reduces the top of the stack by a production.  The run is accepted when this leaves nothing
below the start symbol. -/
def reduceStep (p : Parser α) (c : Config α ε) (production : Nat) : Step α ε :=
  match p.grammar.cfg.rules[production]? with
  | none => c.halt .stuck
  | some rule =>
    let count := rule.right.length
    if c.stack.length < count then c.halt .stuck
    else
      let children := ((c.stack.take count).map Frame.tree).reverse
      let below := c.stack.drop count
      let tree := p.reduce production rule children
      let c : Config α ε :=
        { c with stats := { c.stats with reductions := c.stats.reductions + 1 } }
      if rule.left == 0 && below.isEmpty then c.halt (.accepted tree)
      else
        match p.table.goto? (topState below) rule.left with
        | none => c.halt .stuck
        | some target => .next { c with stack := ⟨target, stamp target tree⟩ :: below }

/-- A single step. -/
def step (p : Parser α) (c : Config α ε) : Step α ε :=
  match p.actionFor c.state c.lookahead with
  | .shift target => shiftStep c target
  | .reduce production => p.reduceStep c production
  | .error _ => c.halt (.rejected (c.token.withState Tree.errorState))
  | .shiftReduce _ => c.halt .stuck
  | .reduceReduce _ => c.halt .stuck

/-! ## Runs -/

/-- Steps until the run ends, at most `fuel` times. -/
def run (p : Parser α) : Nat → Config α ε → Outcome α ε
  | 0, c => ⟨.unfinished, c.stats, c.window.rest⟩
  | fuel + 1, c =>
    match p.step c with
    | .halt outcome => outcome
    | .next c => p.run fuel c

/-- The configurations that a run goes through, at most `fuel` of them. -/
def trail (p : Parser α) : Nat → Config α ε → List (Config α ε)
  | 0, _ => []
  | fuel + 1, c =>
    match p.step c with
    | .halt _ => [c]
    | .next next => c :: p.trail fuel next

/-- The start of a run: the first token is pulled. -/
def start (source : List (Pull α ε)) : Step α ε :=
  Config.advance ⟨Window.ofSource source, [], ⟨0, 0, 0⟩⟩

/-- A number of steps that no run over `length` answers exceeds if it ends at all.  Under one
lookahead, what happens above a place in the stack depends on the state there only, so a state that
came up again above itself would do so for ever, and a stack that came up again likewise.  Hence
between two shifts the stack grows by no more than the number of states, and the bound counts the
stacks that can come up. -/
def budget (p : Parser α) (length : Nat) : Nat :=
  let states := p.table.stateCount + 2
  (length + 2) * Nat.pow (p.grammar.cfg.symbolCount + states) ((length + 2) * states)

/-- Runs the parser over a token source. -/
def parse (p : Parser α) (source : List (Pull α ε)) : Outcome α ε :=
  match start source with
  | .halt outcome => outcome
  | .next c => p.run (p.budget source.length) c

end Parser

end ShiftReduce
