import ShiftReduce.LookaheadItem
import ShiftReduce.Note

/-!
# Lookahead sets

Every state of a collection is refined by a set of items with lookaheads.  Lookaheads pass from one
state to another along edges between sites, a site being an item in a state.

* `Site`, `Edges`: edges by their source, in order of first appearance;
* `Lookaheads`: the numbered items with lookaheads, the sets of the states, and the edges.
-/

namespace ShiftReduce

/-- An item in a state. -/
structure Site where
  state : Nat
  item : Item
deriving DecidableEq, Repr

/-! ## Edges -/

/-- Edges by their source, in order of first appearance; the targets of a source likewise. -/
abbrev Edges := List (Site × List Site)

namespace Edges

/-- Adds an edge unless it is there. -/
def add (source target : Site) : Edges → Edges
  | [] => [(source, [target])]
  | (site, targets) :: rest =>
    if site = source then
      (site, if target ∈ targets then targets else targets ++ [target]) :: rest
    else (site, targets) :: add source target rest

/-- The targets of a source. -/
def targets (edges : Edges) (source : Site) : List Site :=
  ((edges.find? fun e => decide (e.1 = source)).map Prod.snd).getD []

/-- The number of edges. -/
def count (edges : Edges) : Nat := (edges.flatMap Prod.snd).length

end Edges

/-! ## The sets -/

/-- Numbered items with lookaheads, the set of each state, and the edges between sites. -/
structure Lookaheads where
  items : Numbering LookaheadItem
  /-- The members of each state, without repetitions. -/
  states : List (List LookaheadItem)
  edges : Edges
deriving DecidableEq

namespace Lookaheads

/-- The set of a state. -/
def state (s : Lookaheads) (q : Nat) : List LookaheadItem := s.states.getD q []

/-- The set of a state by ascending numbers. -/
def ordered (s : Lookaheads) (q : Nat) : List LookaheadItem := s.items.inOrder (s.state q)

/-- What there is to say about the first phase. -/
def spontaneousNote (s : Lookaheads) : Note :=
  ⟨.debug, s!"LALR phase 1: {s.edges.length} propagation sources, {s.edges.count} edges"⟩

/-- What there is to say about the second phase when it took `passes` passes. -/
def propagationNote (s : Lookaheads) (passes : Nat) : Note :=
  ⟨.debug, s!"LALR phase 2: {passes} passes, {s.items.size} LR(1) items"⟩

/-- Puts an item into the set of a state, numbering it if it is new. -/
def put (s : Lookaheads) (q : Nat) (x : LookaheadItem) : Lookaheads :=
  { s with
    items := s.items.insert x
    states := s.states.modify q fun set => if x ∈ set then set else set ++ [x] }

end Lookaheads

end ShiftReduce
