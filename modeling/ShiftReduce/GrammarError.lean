import ShiftReduce.Conflict
import ShiftReduce.Text.Quoted

/-!
# Why a grammar is refused

* `GrammarError`: the causes, from malformed declarations to conflicts in the parse table;
* `GrammarError.message`: their wording.
-/

namespace ShiftReduce

/-- The reason why no parser can be made from a grammar. -/
inductive GrammarError where
  /-- There is nothing to parse. -/
  | noProductions
  /-- A name is declared a second time. -/
  | duplicateSymbol (name : String)
  /-- A production uses a number that is no symbol. -/
  | symbolOutOfRange (production symbol count : Nat)
  /-- Symbol zero must be the left side of the first production and of no other. -/
  | badStart (production : Nat)
  /-- The parse table has unsettled cells. -/
  | conflicts (all : List Conflict)
deriving DecidableEq, Repr

/-- The wording of an error. -/
def GrammarError.message : GrammarError → String
  | noProductions => "grammar has no productions"
  | duplicateSymbol name => s!"duplicate symbol name {Text.quoteString name}"
  | symbolOutOfRange production symbol count =>
    s!"production {production} refers to symbol {symbol}, but only {count} symbols are declared"
  | badStart production => s!"production {production} is not a valid augmented start production"
  | conflicts all =>
    let first := (all.head?.map Conflict.message).getD "none"
    s!"{all.length} unresolved conflict(s), first: {first}"

end ShiftReduce
