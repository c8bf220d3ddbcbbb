import ShiftReduce.Lookaheads.Propagation

/-!
# Parse tables

One row per state and one column per lookahead: the end of the input first, then the symbols.
Columns of nonterminals hold the transitions of the automaton.

For each cell the candidate actions are the transition, ranked by the tightest production that
takes part in it, and every reduction of a completed item under the lookahead, ranked by its
production.  Only the tightest candidates count.  If several are left the associativity of their
group decides: a single reduction wins to the left, the transition wins to the right, and anything
else is a conflict.

* `Grammar.candidates`, `Grammar.choose`: the candidates of a cell and the choice among them;
* `Grammar.tableOf`: the table over given transitions and lookahead sets;
* `Table.action`, `Table.goto?`: reading the table;
* `Table.conflicts`: its conflicts by state and column.
-/

namespace ShiftReduce

/-- The entry of a cell. -/
inductive Action where
  /-- Nothing can be done. -/
  | error (la : Lookahead)
  /-- A shift and one reduction compete. -/
  | shiftReduce (la : Lookahead)
  /-- Several reductions compete. -/
  | reduceReduce (la : Lookahead)
  /-- Reduce by a production. -/
  | reduce (production : Nat)
  /-- Go on to a state. -/
  | shift (state : Nat)
deriving DecidableEq, Repr

namespace Action

/-- Whether the action is a reduction. -/
def isReduce : Action → Bool
  | reduce _ => true
  | _ => false

/-- Whether the action is a shift. -/
def isShift : Action → Bool
  | shift _ => true
  | _ => false

/-- The kind of conflict that an entry stands for, with its lookahead. -/
def conflict? : Action → Option (ConflictKind × Lookahead)
  | shiftReduce la => some (.shiftReduce, la)
  | reduceReduce la => some (.reduceReduce, la)
  | _ => none

end Action

/-- An action that competes for a cell; lower ranks are tighter. -/
structure Candidate where
  action : Action
  rank : Nat
deriving DecidableEq, Repr

namespace Grammar

variable {α : Type}

/-! ## Cells -/

/-- The transition that competes for a cell. -/
def shiftCandidate? (g : Grammar α) (c : Collection) (q : Nat) (la : Lookahead) :
    Option Candidate := do
  let symbol ← la
  let target ← c.goto? q symbol
  let rank ← g.gotoRank? (c.state q) symbol
  return ⟨.shift target, rank⟩

/-- The reductions that compete for a cell. -/
def reduceCandidates (g : Grammar α) (set : List LookaheadItem) (la : Lookahead) :
    List Candidate :=
  (set.filter fun x => decide (x.lookahead = la) && g.cfg.isComplete x.item).map fun x =>
    ⟨.reduce x.item.production, g.rank x.item.production⟩

/-- All actions that compete for the cell of state `q` under `la`. -/
def candidates (g : Grammar α) (c : Collection) (s : Lookaheads) (q : Nat) (la : Lookahead) :
    List Candidate :=
  (g.shiftCandidate? c q la).toList ++ g.reduceCandidates (s.state q) la

/-- Settles a tie between several actions of one group. -/
def settleTie (associativity : Associativity) (tied : List Action) (la : Lookahead) : Action :=
  match associativity, tied.filter Action.isReduce, tied.find? Action.isShift with
  | .left, [reduce], _ => reduce
  | .right, _, some shift => shift
  | .none, [_], _ => .shiftReduce la
  | _, _, _ => .reduceReduce la

/-- The entry of a cell with the given candidates. -/
def choose (g : Grammar α) (candidates : List Candidate) (la : Lookahead) : Action :=
  match (candidates.map Candidate.rank).min? with
  | none => .error la
  | some tightest =>
    match (candidates.filter fun c => c.rank == tightest).map Candidate.action with
    | [only] => only
    | tied => settleTie (g.associativity tightest) tied la

end Grammar

/-! ## Tables -/

/-- The entries by state and column. -/
structure Table where
  rows : List (List Action)
deriving DecidableEq, Repr

namespace Table

/-- The entries of a state. -/
def row (t : Table) (q : Nat) : List Action := t.rows.getD q []

/-- The entry of a state under a lookahead. -/
def action (t : Table) (q : Nat) (la : Lookahead) : Action := (t.row q).getD (column la) (.error la)

/-- The transition of a state over a symbol. -/
def goto? (t : Table) (q symbol : Nat) : Option Nat :=
  match t.action q (some symbol) with
  | .shift target => some target
  | _ => none

/-- The number of states. -/
def stateCount (t : Table) : Nat := t.rows.length

/-- The number of columns. -/
def columnCount (t : Table) : Nat := (t.row 0).length

/-- The conflicts in a row. -/
def rowConflicts (row : List Action × Nat) : List Conflict :=
  row.1.filterMap fun action => action.conflict?.map fun c => ⟨row.2, c.2, c.1⟩

/-- All conflicts, by state and then by column. -/
def conflicts (t : Table) : List Conflict := t.rows.zipIdx.flatMap rowConflicts

/-- What there is to say about a table: its conflicts and its size. -/
def notes (symbols : SymbolTable) (t : Table) : List Note :=
  let conflicts := t.conflicts
  let size := s!"{t.stateCount} states x {t.columnCount} columns"
  conflicts.map (fun c => ⟨.warn, c.describe symbols⟩) ++
    [⟨.debug, s!"table: {size}, {conflicts.length} conflicts"⟩]

/-- Whether no entry is a conflict. -/
def isConflictFree (t : Table) : Bool :=
  t.rows.all fun row => row.all fun action => action.conflict?.isNone

end Table

/-- The table over a collection and its lookahead sets. -/
def Grammar.tableOf {α : Type} (g : Grammar α) (c : Collection) (s : Lookaheads) : Table where
  rows := (List.range c.states.size).map fun q =>
    (List.range (g.cfg.symbolCount + 1)).map fun col =>
      g.choose (g.candidates c s q (lookaheadOf col)) (lookaheadOf col)

end ShiftReduce
