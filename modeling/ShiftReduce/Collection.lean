import ShiftReduce.Item
import ShiftReduce.Grammar
import ShiftReduce.Note

/-!
# The LR(0) collection

The states of the automaton that recognises how far a parser can have come.  A state is a closed
list of items, and moving the dots over a symbol leads from one state to another.  Items and
states are numbered in order of discovery: states are taken up in the order of their numbers, and
in each of them the symbols in theirs.

* `Collection`: the numbered items and states, and the transitions of the states taken up so far;
* `Cfg.collection`: the finished collection;
* `Collection.goto?`, `Collection.kernel`: transitions, and the items that make up a state before
  it is closed;
* `Grammar.gotoRank?`: the tightest rank among the productions that take part in a transition.
-/

namespace ShiftReduce

/-- Items, states and transitions. -/
structure Collection where
  items : Numbering Item
  /-- Closed lists of items, each ordered by the numbers of its items. -/
  states : Numbering (List Item)
  /-- For each state taken up, its target for every symbol. -/
  gotos : List (List (Option Nat))
deriving DecidableEq

namespace Collection

/-- The items of a state. -/
def state (c : Collection) (q : Nat) : List Item := (c.states.get? q).getD []

/-- The target of a transition. -/
def goto? (c : Collection) (q symbol : Nat) : Option Nat := ((c.gotos[q]?).bind (·[symbol]?)).join

/-- Whether an item belongs to state `q` other than by closing it. -/
def isKernel (q : Nat) (item : Item) : Bool :=
  decide (0 < item.position) || (q == 0 && item.production == 0)

/-- The items of a state from which all others follow by closing it. -/
def kernel (c : Collection) (q : Nat) : List Item := (c.state q).filter (isKernel q)

/-- The kernels of all states. -/
def kernels (c : Collection) : List (List Item) := (List.range c.states.size).map c.kernel

/-- What there is to say about the collection. -/
def note (c : Collection) : Note :=
  ⟨.debug, s!"LR(0): {c.items.size} items, {c.states.size} states"⟩

end Collection

namespace Cfg

/-- The numbering of items after a kernel has been closed, and the state that this gives. -/
def closeState (g : Cfg) (items : Numbering Item) (kernel : List Item) :
    Numbering Item × List Item :=
  let closed := g.closure kernel
  let items := items.insertAll closed
  (items, items.inOrder closed)

/-- The collection before any state is taken up: the closed start item alone. -/
def collectionSeed (g : Cfg) : Collection :=
  let start := g.closeState Numbering.empty [⟨0, 0⟩]
  ⟨start.1, Numbering.ofList [start.2], []⟩

/-- Follows one symbol from `state`; beside the collection, `acc` holds the targets of the symbols
before it. -/
def follow (g : Cfg) (state : List Item) (acc : Collection × List (Option Nat)) (symbol : Nat) :
    Collection × List (Option Nat) :=
  match g.moved state symbol with
  | [] => (acc.1, acc.2 ++ [none])
  | item :: kernel =>
    let target := g.closeState acc.1.items (item :: kernel)
    ({ acc.1 with items := target.1, states := acc.1.states.insert target.2 },
      acc.2 ++ [some (acc.1.states.number target.2)])

/-- Takes up a state: follows every symbol from it. -/
def takeUp (g : Cfg) (c : Collection) (state : List Item) : Collection :=
  let acc := (List.range g.symbolCount).foldl (g.follow state) (c, [])
  { acc.1 with gotos := acc.1.gotos ++ [acc.2] }

/-- Takes up the states that have not been taken up, at most `fuel` of them. -/
def collect (g : Cfg) : Nat → Collection → Collection
  | 0, c => c
  | fuel + 1, c =>
    match c.states.get? c.gotos.length with
    | none => c
    | some state => g.collect fuel (g.takeUp c state)

/-- All states that can be reached from the start.  A state is a set of items, so there are no
more of them than sets of items. -/
def collection (g : Cfg) : Collection := g.collect (Nat.pow 2 g.itemCount) g.collectionSeed

end Cfg

/-- The tightest rank among the productions of a state's items that await `symbol`. -/
def Grammar.gotoRank? {α : Type} (g : Grammar α) (state : List Item) (symbol : Nat) :
    Option Nat :=
  ((state.filter (g.cfg.awaits symbol)).map fun item => g.rank item.production).min?

end ShiftReduce
