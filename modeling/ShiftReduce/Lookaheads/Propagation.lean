import ShiftReduce.Collection
import ShiftReduce.Lookaheads.Basic

/-!
# Propagation of lookaheads

The lookahead sets of a collection are found in two phases.

In the first, each kernel item is closed under a placeholder, for which the end of the input
serves because no FIRST set contains it.  A lookahead that is generated inside the closure belongs
to the successor state as it is; where the placeholder itself comes up, whatever will reach the
kernel item will also reach the successor, and this is kept as an edge.  In the start state the
placeholder is meant literally.

In the second phase every state is closed, and lookaheads are passed along the edges until a pass
adds nothing.

* `Cfg.spontaneous`, `Cfg.propagate`: the two phases;
* `Cfg.lookaheads`: the finished sets, with `Cfg.lookaheadPasses` counting the passes.
-/

namespace ShiftReduce

namespace Cfg

/-! ## First phase -/

/-- What a member of the closure of a kernel item of state `q` contributes. -/
def spread (g : Cfg) (c : Collection) (q : Nat) (s : Lookaheads) (x : LookaheadItem) :
    Lookaheads :=
  let s := if x.lookahead.isSome || q == 0 then s.put q x else s
  match (g.nextSymbol? x.item).bind (c.goto? q) with
  | none => s
  | some target =>
    match x.lookahead with
    | none =>
      { s with edges := s.edges.add ⟨q, x.item⟩ ⟨target, x.item.advance⟩ }
    | some _ => s.put target ⟨x.item.advance, x.lookahead⟩

/-- Closes a kernel item of state `q` under the placeholder and spreads the result. -/
def spontaneousFrom (g : Cfg) (sets : FirstSets) (c : Collection) (q : Nat) (s : Lookaheads)
    (item : Item) : Lookaheads :=
  let closed := g.closureWith sets [⟨item, none⟩]
  let items := s.items.insertAll closed
  (items.inOrder closed).foldl (g.spread c q) { s with items := items }

/-- The first phase: every kernel item of every state. -/
def spontaneous (g : Cfg) (sets : FirstSets) (c : Collection) : Lookaheads :=
  (List.range c.states.size).foldl
    (fun s q => (c.kernel q).foldl (g.spontaneousFrom sets c q) s)
    ⟨Numbering.empty, List.replicate c.states.size [], []⟩

/-! ## Second phase -/

/-- Closes the set of a state. -/
def closeSet (g : Cfg) (sets : FirstSets) (s : Lookaheads) (q : Nat) : Lookaheads :=
  let closed := g.closureWith sets (s.ordered q)
  let items := s.items.insertAll closed
  { s with items := items, states := s.states.set q (items.inOrder closed) }

/-- Passes a lookahead on to a site; a state that grows is noted among the `grown` ones. -/
def push (la : Lookahead) (acc : Lookaheads × List Nat) (target : Site) :
    Lookaheads × List Nat :=
  let x : LookaheadItem := ⟨target.item, la⟩
  (acc.1.put target.state x,
    if x ∈ acc.1.state target.state then acc.2 else target.state :: acc.2)

/-- Passes the lookaheads of a state along its edges. -/
def pushState (acc : Lookaheads × List Nat) (q : Nat) : Lookaheads × List Nat :=
  (acc.1.ordered q).foldl
    (fun acc x => (acc.1.edges.targets ⟨q, x.item⟩).foldl (push x.lookahead) acc) acc

/-- Passes the lookaheads of all states along all edges, and says which states have grown. -/
def pushAll (s : Lookaheads) : Lookaheads × List Nat :=
  (List.range s.states.length).foldl pushState (s, [])

/-- Passes lookaheads along the edges and closes what has grown, until nothing grows; at most
`fuel` passes are made, and they are counted. -/
def propagate (g : Cfg) (sets : FirstSets) : Nat → Lookaheads → Lookaheads × Nat
  | 0, s => (s, 0)
  | fuel + 1, s =>
    let pushed := pushAll s
    if pushed.2.isEmpty then (pushed.1, 1)
    else
      let dirty := (List.range s.states.length).filter (· ∈ pushed.2)
      let settled := g.propagate sets fuel (dirty.foldl (g.closeSet sets) pushed.1)
      (settled.1, settled.2 + 1)

/-- A pass after which another one is needed adds a lookahead to an item of a state, so this many
passes are enough for `states` states. -/
def propagateBound (g : Cfg) (states : Nat) : Nat :=
  states * g.itemCount * (g.terminals.length + 1) + 1

/-- The result of both phases and the number of passes of the second. -/
def settleLookaheads (g : Cfg) (sets : FirstSets) (c : Collection) : Lookaheads × Nat :=
  let found := g.spontaneous sets c
  let closed := (List.range found.states.length).foldl (g.closeSet sets) found
  g.propagate sets (g.propagateBound c.states.size) closed

/-- The lookahead sets of all states. -/
def lookaheads (g : Cfg) : Lookaheads := (g.settleLookaheads g.firstSets g.collection).1

/-- How many passes along the edges it takes, the last one adding nothing. -/
def lookaheadPasses (g : Cfg) : Nat := (g.settleLookaheads g.firstSets g.collection).2

end Cfg

end ShiftReduce
