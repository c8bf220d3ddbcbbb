import ShiftReduce.Tree.Basic

/-!
# Views of parse trees

* `Tree.leaves`: the frontier of a tree from left to right;
* `Tree.outline`: a tree and all below it in preorder, with depths;
* `Tree.render`: a tree as text.  Reductions list their children between brackets, and the end of
  the input has a sign of its own.
-/

namespace ShiftReduce.Tree

variable {α : Type}

mutual

/-- The trees without subtrees, from left to right. -/
def leaves : Tree α → List (Tree α)
  | blank tag => [blank tag]
  | leaf tag value => [leaf tag value]
  | wrap _ inner => inner.leaves
  | node _ _ children => leavesAll children

/-- The leaves of a list of trees. -/
def leavesAll : List (Tree α) → List (Tree α)
  | [] => []
  | t :: ts => t.leaves ++ leavesAll ts

end

mutual

/-- The tree and all below it in preorder, each with its depth counted from `depth`. -/
def outline (depth : Nat) : Tree α → List (Nat × Tree α)
  | blank tag => [(depth, blank tag)]
  | leaf tag value => [(depth, leaf tag value)]
  | wrap tag inner => (depth, wrap tag inner) :: inner.outline (depth + 1)
  | node tag production children =>
    (depth, node tag production children) :: outlineAll (depth + 1) children

/-- The outlines of a list of trees, one after the other. -/
def outlineAll (depth : Nat) : List (Tree α) → List (Nat × Tree α)
  | [] => []
  | t :: ts => t.outline depth ++ outlineAll depth ts

end

mutual

/-- The text of the tree's content: a reduction lists its children between brackets. -/
def renderContent (text : α → String) : Tree α → String
  | blank _ => ""
  | leaf _ value => text value
  | wrap _ inner =>
    if inner.isEndOfInput then endOfInputName else inner.renderContent text
  | node _ _ children => "[" ++ " ".intercalate (renderAll text children) ++ "]"

/-- The texts of a list of trees. -/
def renderAll (text : α → String) : List (Tree α) → List String
  | [] => []
  | t :: ts =>
    (if t.isEndOfInput then endOfInputName else t.renderContent text) :: renderAll text ts

end

/-- The text of a tree. -/
def render (text : α → String) (t : Tree α) : String :=
  if t.isEndOfInput then endOfInputName else t.renderContent text

end ShiftReduce.Tree
