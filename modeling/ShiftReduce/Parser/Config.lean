import ShiftReduce.Source

/-!
# Configurations of a run

A run of a parser keeps a stack of trees, each with the state it led to, and looks at its token
source through a window.

* `Config`: a run at rest between two steps;
* `Config.advance`: pulls the next token;
* `Step`, `Outcome`, `Verdict`: what a step leads to, and how a run ends.
-/

namespace ShiftReduce

/-- What a run has counted. -/
structure Stats where
  /-- The tokens pulled from the source. -/
  tokens : Nat
  shifts : Nat
  reductions : Nat
deriving DecidableEq, Repr

/-- The counters as a record. -/
def Stats.record (s : Stats) : String :=
  let fields := s!"tokens: {s.tokens}, shifts: {s.shifts}, reductions: {s.reductions}"
  s!"ParserStats \x7b {fields} \x7d"

/-- A tree on the stack and the state it led to. -/
structure Frame (α : Type) where
  state : Nat
  tree : Tree α
deriving Repr

/-- The state that a stack has led to; the empty stack is at the start. -/
def topState {α : Type} (stack : List (Frame α)) : Nat := (stack.head?.map Frame.state).getD 0

/-- A run at rest between two steps. -/
structure Config (α ε : Type) where
  window : Window α ε
  /-- The trees not yet reduced, the last one first. -/
  stack : List (Frame α)
  stats : Stats
deriving Repr

namespace Config

variable {α ε : Type}

/-- The current state. -/
def state (c : Config α ε) : Nat := topState c.stack

/-- The symbol in sight. -/
def lookahead (c : Config α ε) : Lookahead := c.window.lookahead

/-- The token in sight. -/
def token (c : Config α ε) : Tree α := c.window.current.getD Tree.endOfInput

end Config

/-- How a run ended. -/
inductive Verdict (α ε : Type) where
  /-- The start production was reduced to this tree. -/
  | accepted (root : Tree α)
  /-- No action applied to this token. -/
  | rejected (token : Tree α)
  /-- The source failed. -/
  | faulted (error : ε)
  /-- The table asked for something impossible. -/
  | stuck
  /-- The run was cut off. -/
  | unfinished
deriving Repr

/-- The end of a run. -/
structure Outcome (α ε : Type) where
  verdict : Verdict α ε
  stats : Stats
  /-- The answers of the source that were never pulled. -/
  unread : List (Pull α ε)
deriving Repr

/-- What a step leads to. -/
inductive Step (α ε : Type) where
  /-- The run goes on. -/
  | next (c : Config α ε)
  /-- The run is over. -/
  | halt (outcome : Outcome α ε)
deriving Repr

namespace Config

variable {α ε : Type}

/-- Ends the run. -/
def halt (c : Config α ε) (verdict : Verdict α ε) : Step α ε :=
  .halt ⟨verdict, c.stats, c.window.rest⟩

/-- Moves the window on, counting the token that comes into sight. -/
def advance (c : Config α ε) : Step α ε :=
  match c.window.advance with
  | (window, .ok true) =>
    .next { c with window := window, stats := { c.stats with tokens := c.stats.tokens + 1 } }
  | (window, .ok false) => .next { c with window := window }
  | (window, .error error) => { c with window := window }.halt (.faulted error)

end Config

/-- Records a state on a tree that is not marked itself. -/
def stamp {α : Type} (state : Nat) (t : Tree α) : Tree α :=
  if t.state < 0 then t else t.withState state

end ShiftReduce
