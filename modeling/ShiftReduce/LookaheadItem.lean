import ShiftReduce.FirstSets
import ShiftReduce.Item

/-!
# Items with lookaheads

An item is refined by what may follow its rule once it is complete.

* `Cfg.closureWith`: a list of items with lookaheads together with all that they await: the
  beginnings of the symbol after a dot, under every lookahead of what comes after that symbol.
-/

namespace ShiftReduce

/-- An item and a lookahead after its rule. -/
structure LookaheadItem where
  item : Item
  lookahead : Lookahead
deriving DecidableEq, Repr

namespace Cfg

/-- The items with lookaheads that an item with lookahead awaits next: the beginnings of the symbol
after its dot, each under every lookahead of what comes after that symbol. -/
def awaitedWith (g : Cfg) (sets : FirstSets) (x : LookaheadItem) : List LookaheadItem :=
  match g.nextSymbol? x.item with
  | none => []
  | some symbol =>
    let tail := (g.rightOf x.item).drop (x.item.position + 1)
    let lookaheads := sets.firstBefore tail x.lookahead
    (g.beginningsOf symbol).flatMap fun item => lookaheads.map (⟨item, ·⟩)

/-- Closes a list of items with lookaheads, in order of discovery. -/
def closureWith (g : Cfg) (sets : FirstSets) (seeds : List LookaheadItem) : List LookaheadItem :=
  let bound := seeds.length + g.rules.length * (g.symbolCount + seeds.length + 1)
  explore (g.awaitedWith sets) bound seeds 0

end Cfg

end ShiftReduce
