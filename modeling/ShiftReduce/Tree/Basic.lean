import ShiftReduce.Lookahead

/-!
# Parse trees

One type serves for the tokens a parser reads and for the trees it builds from them.  Every tree
carries a tag: the symbol it stands for, or none for the end of the input, and a state.  A
negative state marks the tree as being in error.

* `Tree.empty`, `Tree.scalar`, `Tree.nested`, `Tree.reduction`, `Tree.endOfInput`: how trees arise;
* `Tree.isError`: whether a tree, or anything below it, is marked;
* `Tree.withState`, `Tree.relabel`: change of tag.
-/

namespace ShiftReduce

/-- What every tree carries besides its content. -/
structure Tag where
  /-- The symbol, or `none` for the end of the input. -/
  symbol : Lookahead
  /-- The state; it is negative on trees in error. -/
  state : Int
deriving DecidableEq, Repr

/-- A token or a parse tree over values of type `α`. -/
inductive Tree (α : Type) where
  /-- No content. -/
  | blank (tag : Tag)
  /-- A value. -/
  | leaf (tag : Tag) (value : α)
  /-- A single wrapped tree. -/
  | wrap (tag : Tag) (inner : Tree α)
  /-- A reduced production and what stands for its right side. -/
  | node (tag : Tag) (production : Nat) (children : List (Tree α))
deriving Repr

namespace Tree

variable {α : Type}

/-- The state that marks an error. -/
def errorState : Int := -1

/-- The tag at the root. -/
def tag : Tree α → Tag
  | blank tag => tag
  | leaf tag _ => tag
  | wrap tag _ => tag
  | node tag _ _ => tag

/-- The same content under another tag. -/
def withTag (tag : Tag) : Tree α → Tree α
  | blank _ => blank tag
  | leaf _ value => leaf tag value
  | wrap _ inner => wrap tag inner
  | node _ production children => node tag production children

@[simp]
theorem tag_withTag (tag : Tag) (t : Tree α) : (t.withTag tag).tag = tag := by
  cases t <;> rfl

/-- The symbol at the root. -/
def symbol (t : Tree α) : Lookahead := t.tag.symbol

/-- The state at the root. -/
def state (t : Tree α) : Int := t.tag.state

/-- Whether the tree stands for the end of the input. -/
def isEndOfInput (t : Tree α) : Bool := t.symbol.isNone

/-- Replaces the state at the root. -/
def withState (t : Tree α) (state : Int) : Tree α := t.withTag { t.tag with state := state }

@[simp]
theorem state_withState (t : Tree α) (state : Int) : (t.withState state).state = state := by
  simp [withState, Tree.state]

@[simp]
theorem symbol_withState (t : Tree α) (state : Int) : (t.withState state).symbol = t.symbol := by
  simp [withState, Tree.symbol]

/-- The subtrees of a reduction; any other tree has none. -/
def children : Tree α → List (Tree α)
  | node _ _ children => children
  | _ => []

/-- The value of a leaf. -/
def value? : Tree α → Option α
  | leaf _ value => some value
  | _ => none

/-- The tree below a wrapping. -/
def inner? : Tree α → Option (Tree α)
  | wrap _ inner => some inner
  | _ => none

/-- The production of a reduction. -/
def production? : Tree α → Option Nat
  | node _ production _ => some production
  | _ => none

/-! ## Error marks -/

mutual

/-- Whether the tree or anything below it has a negative state. -/
def isError : Tree α → Bool
  | blank tag => decide (tag.state < 0)
  | leaf tag _ => decide (tag.state < 0)
  | wrap tag inner => decide (tag.state < 0) || inner.isError
  | node tag _ children => decide (tag.state < 0) || anyError children

/-- Whether some tree of the list is in error. -/
def anyError : List (Tree α) → Bool
  | [] => false
  | t :: ts => t.isError || anyError ts

end

/-! ## Building trees -/

/-- A tree for `symbol` without content. -/
def empty (symbol : Nat) : Tree α := blank ⟨some symbol, 0⟩

/-- A tree for `symbol` that holds a value. -/
def scalar (symbol : Nat) (value : α) : Tree α := leaf ⟨some symbol, 0⟩ value

/-- A tree for `symbol` that wraps another one. -/
def nested (symbol : Nat) (inner : Tree α) : Tree α := wrap ⟨some symbol, 0⟩ inner

/-- A tree for `symbol` reduced by a production; it is marked when a child is in error. -/
def reduction (symbol production : Nat) (children : List (Tree α)) : Tree α :=
  node ⟨some symbol, if anyError children then errorState else 0⟩ production children

/-- The token at the end of the input. -/
def endOfInput : Tree α := blank ⟨none, 0⟩

instance : Inhabited (Tree α) := ⟨endOfInput⟩

/-- Moves the content under another symbol; the result is marked exactly when the tree was in
error. -/
def relabel (t : Tree α) (symbol : Nat) : Tree α :=
  t.withTag ⟨some symbol, if t.isError then errorState else 0⟩

end Tree

end ShiftReduce
