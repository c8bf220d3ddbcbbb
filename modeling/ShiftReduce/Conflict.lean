import ShiftReduce.Lookahead

/-!
# Conflicts

A conflict is a cell of a parse table for which several actions compete and none is preferred.

* `Conflict.message`: names the lookahead by its number;
* `Conflict.describe`: names the lookahead as the symbol table does.
-/

namespace ShiftReduce

/-- Which actions compete. -/
inductive ConflictKind where
  /-- A shift against one reduction. -/
  | shiftReduce
  /-- Several reductions, with or without a shift. -/
  | reduceReduce
deriving DecidableEq, Repr

/-- The name of a kind of conflict. -/
def ConflictKind.name : ConflictKind → String
  | shiftReduce => "shift/reduce"
  | reduceReduce => "reduce/reduce"

/-- An unsettled cell of a parse table. -/
structure Conflict where
  state : Nat
  lookahead : Lookahead
  kind : ConflictKind
deriving DecidableEq, Repr

namespace Conflict

/-- What the two texts of a conflict have in common. -/
def place (c : Conflict) : String := s!"{c.kind.name} conflict in state {c.state} on "

/-- The conflict with its lookahead given by number. -/
def message (c : Conflict) : String :=
  c.place ++ match c.lookahead with
    | none => "end of input"
    | some symbol => s!"symbol {symbol}"

/-- The conflict with its lookahead given by name. -/
def describe (symbols : SymbolTable) (c : Conflict) : String :=
  c.place ++ SymbolTable.lookaheadName symbols c.lookahead

end Conflict

end ShiftReduce
