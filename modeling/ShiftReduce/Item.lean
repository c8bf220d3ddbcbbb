import ShiftReduce.Cfg
import ShiftReduce.Worklist

/-!
# Dotted rules

An item is a rule with a dot in its right side: what stands before the dot has been seen, what
stands after it is awaited.

* `Cfg.allItems`: the items of a grammar;
* `Cfg.nextSymbol?`, `Item.advance`: the symbol after the dot, and the dot moved over it;
* `Cfg.closure`: a list of items together with all items that begin a rule awaited by one of them;
* `Cfg.moved`: the items of a state in which the dot can move over a given symbol, moved.
-/

namespace ShiftReduce

/-- The rule with index `production` and the dot before the symbol at index `position`. -/
structure Item where
  production : Nat
  position : Nat
deriving DecidableEq, Repr

/-- Moves the dot by one symbol. -/
def Item.advance (item : Item) : Item := { item with position := item.position + 1 }

namespace Cfg

/-- The right side of an item's rule. -/
def rightOf (g : Cfg) (item : Item) : List Nat :=
  ((g.rules[item.production]?).map Rule.right).getD []

/-- All items, the rules in order and each with every place of the dot. -/
def allItems (g : Cfg) : List Item :=
  g.rules.zipIdx.flatMap fun r => (List.range (r.1.right.length + 1)).map (⟨r.2, ·⟩)

/-- The number of items, the measure of a grammar's size. -/
def itemCount (g : Cfg) : Nat := g.allItems.length

/-- The symbol right after the dot. -/
def nextSymbol? (g : Cfg) (item : Item) : Option Nat := (g.rightOf item)[item.position]?

/-- Whether the dot stands at the end. -/
def isComplete (g : Cfg) (item : Item) : Bool := (g.nextSymbol? item).isNone

/-- The items that begin a rule of `symbol`. -/
def beginningsOf (g : Cfg) (symbol : Nat) : List Item := (g.rulesOf symbol).map (⟨·, 0⟩)

/-- The items that an item awaits next: the beginnings of the symbol after its dot. -/
def awaited (g : Cfg) (item : Item) : List Item :=
  match g.nextSymbol? item with
  | none => []
  | some symbol => g.beginningsOf symbol

/-- Closes a list of items over what they await, in order of discovery.  The given items stay as
they are, repetitions included, and everything else is listed once. -/
def closure (g : Cfg) (kernel : List Item) : List Item :=
  explore g.awaited (kernel.length + g.rules.length) kernel 0

/-- Whether the dot of an item stands before `symbol`. -/
def awaits (g : Cfg) (symbol : Nat) (item : Item) : Bool :=
  decide (g.nextSymbol? item = some symbol)

/-- The items of a state with `symbol` after the dot, with the dot moved over it. -/
def moved (g : Cfg) (state : List Item) (symbol : Nat) : List Item :=
  (state.filter (g.awaits symbol)).map Item.advance

end Cfg

end ShiftReduce
