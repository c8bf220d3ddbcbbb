import ShiftReduce.Tree.Basic

/-!
# Trees that keep the answers

Whether a tree is in error depends on everything below it.  A tree of this kind keeps the answer in
its tag when it has been asked, and gives it again when it is asked again.  Asking goes on below as
far as it has to and fills the tags there.

* `CachedTree`, `CachedTree.erase`: the trees, and the trees without what they keep;
* `CachedTree.query`: asks a tree, which keeps the answer;
* `CachedTree.reduction`, `CachedTree.relabel`, `CachedTree.withState`: how such trees arise;
* `CachedTree.parts`, `CachedTree.below?`, `CachedTree.queryAt`: what is below a tree;
* `CachedTree.Operation`, `CachedTree.run`: programs over any number of trees.
-/

namespace ShiftReduce

/-- A tag that has room for an answer. -/
structure CachedTag extends Tag where
  /-- What has been found out about the tree, if anything. -/
  answer : Option Bool
deriving DecidableEq, Repr

namespace CachedTag

/-- A tag without an answer. -/
def fresh (symbol : Lookahead) (state : Int) : CachedTag := ⟨⟨symbol, state⟩, none⟩

/-- Keeps an answer. -/
def keep (tag : CachedTag) (answer : Bool) : CachedTag := { tag with answer := some answer }

/-- The answer as far as the tag alone tells it: one that has been kept, or else what the state
says.  A negative state is not kept as an answer. -/
def known? (tag : CachedTag) : Option Bool :=
  match tag.answer with
  | some answer => some answer
  | none => if tag.state < 0 then some true else none

end CachedTag

/-- A token or a parse tree whose nodes keep answers. -/
inductive CachedTree (α : Type) where
  | blank (tag : CachedTag)
  | leaf (tag : CachedTag) (value : α)
  | wrap (tag : CachedTag) (inner : CachedTree α)
  | node (tag : CachedTag) (production : Nat) (children : List (CachedTree α))
deriving Repr

namespace CachedTree

variable {α : Type}

/-- The tag at the root. -/
def tag : CachedTree α → CachedTag
  | blank tag => tag
  | leaf tag _ => tag
  | wrap tag _ => tag
  | node tag _ _ => tag

/-- The same content under another tag. -/
def withTag (tag : CachedTag) : CachedTree α → CachedTree α
  | blank _ => blank tag
  | leaf _ value => leaf tag value
  | wrap _ inner => wrap tag inner
  | node _ production children => node tag production children

/-- The state at the root. -/
def state (t : CachedTree α) : Int := t.tag.state

/-- The trees right below the root. -/
def parts : CachedTree α → List (CachedTree α)
  | wrap _ inner => [inner]
  | node _ _ children => children
  | _ => []

mutual

/-- The tree without the answers that it keeps. -/
def erase : CachedTree α → Tree α
  | blank tag => .blank tag.toTag
  | leaf tag value => .leaf tag.toTag value
  | wrap tag inner => .wrap tag.toTag inner.erase
  | node tag production children => .node tag.toTag production (eraseAll children)

/-- The trees of a list without their answers. -/
def eraseAll : List (CachedTree α) → List (Tree α)
  | [] => []
  | t :: ts => t.erase :: eraseAll ts

end

/-! ## Asking -/

mutual

/-- Asks whether the tree or anything below it has a negative state.  The answer stands beside the
tree that keeps it. -/
def query : CachedTree α → Bool × CachedTree α
  | blank tag =>
    match tag.known? with
    | some answer => (answer, blank tag)
    | none => (false, blank (tag.keep false))
  | leaf tag value =>
    match tag.known? with
    | some answer => (answer, leaf tag value)
    | none => (false, leaf (tag.keep false) value)
  | wrap tag inner =>
    match tag.known? with
    | some answer => (answer, wrap tag inner)
    | none =>
      let (answer, inner) := inner.query
      (answer, wrap (tag.keep answer) inner)
  | node tag production children =>
    match tag.known? with
    | some answer => (answer, node tag production children)
    | none =>
      let (answer, children) := queryAny children
      (answer, node (tag.keep answer) production children)

/-- Asks trees from left to right up to the first one that is in error. -/
def queryAny : List (CachedTree α) → Bool × List (CachedTree α)
  | [] => (false, [])
  | t :: ts =>
    match t.query with
    | (true, t) => (true, t :: ts)
    | (false, t) =>
      let (answer, ts) := queryAny ts
      (answer, t :: ts)

end

/-! ## Building trees -/

/-- A tree for `symbol` without content. -/
def empty (symbol : Nat) : CachedTree α := blank (.fresh (some symbol) 0)

/-- A tree for `symbol` that holds a value. -/
def scalar (symbol : Nat) (value : α) : CachedTree α := leaf (.fresh (some symbol) 0) value

/-- The token at the end of the input. -/
def endOfInput : CachedTree α := blank (.fresh none 0)

/-- A tree for `symbol` that wraps another one. -/
def nested (symbol : Nat) (inner : CachedTree α) : CachedTree α :=
  wrap (.fresh (some symbol) 0) inner

/-- A tree for `symbol` reduced by a production.  The children are asked whether one of them is in
error. -/
def reduction (symbol production : Nat) (children : List (CachedTree α)) : CachedTree α :=
  let (answer, children) := queryAny children
  node (.fresh (some symbol) (if answer then Tree.errorState else 0)) production children

/-- The content of a tree under another symbol, as if it had just been built. -/
def renew (symbol : Nat) : CachedTree α → CachedTree α
  | blank _ => empty symbol
  | leaf _ value => scalar symbol value
  | wrap _ inner => nested symbol inner
  | node _ production children => reduction symbol production children

/-- Writes the state and leaves the answer as it is. -/
def mark (t : CachedTree α) : CachedTree α := t.withTag { t.tag with state := Tree.errorState }

/-- Moves the content under another symbol and keeps the mark. -/
def relabel (t : CachedTree α) (symbol : Nat) : CachedTree α :=
  let (answer, t) := t.query
  if answer then (t.renew symbol).mark else t.renew symbol

/-- Replaces the state at the root and forgets the answer there. -/
def withState (t : CachedTree α) (state : Int) : CachedTree α :=
  t.withTag (.fresh t.tag.symbol state)

/-! ## Below a tree -/

/-- The tree at the end of a path down. -/
def below? : List Nat → CachedTree α → Option (CachedTree α)
  | [], t => some t
  | i :: path, t => t.parts[i]?.bind (below? path)

/-- Replaces a tree right below the root. -/
def withPart (t : CachedTree α) (i : Nat) (part : CachedTree α) : CachedTree α :=
  match t with
  | wrap tag _ => wrap tag part
  | node tag production children => node tag production (children.set i part)
  | t => t

/-- Asks the tree at the end of a path down, in its place. -/
def queryAt : List Nat → CachedTree α → Option (Bool × CachedTree α)
  | [], t => some t.query
  | i :: path, t => do
    let (answer, part) ← queryAt path (← t.parts[i]?)
    return (answer, t.withPart i part)

/-! ## Programs -/

/-- What a program does to the trees it has, which are numbered.  A tree that is used is copied, and
so are the answers in it. -/
inductive Operation (α : Type) where
  | scalar (symbol : Nat) (value : α)
  | empty (symbol : Nat)
  | endOfInput
  | nested (symbol source : Nat)
  | reduction (symbol production : Nat) (sources : List Nat)
  | relabel (source symbol : Nat)
  | withState (source : Nat) (state : Int)
  /-- Replaces the state of a tree in its place. -/
  | setState (source : Nat) (state : Int)
  | clone (source : Nat)
  /-- Takes out a tree somewhere below another one. -/
  | extract (source : Nat) (path : List Nat)
  /-- Asks a tree, or a tree somewhere below it. -/
  | query (source : Nat) (path : List Nat)

/-- Carries out an operation; it fails if a tree is not there. -/
def Operation.apply (trees : List (CachedTree α)) : Operation α → Option (List (CachedTree α))
  | scalar symbol value => some (trees ++ [.scalar symbol value])
  | empty symbol => some (trees ++ [.empty symbol])
  | endOfInput => some (trees ++ [.endOfInput])
  | nested symbol source => do return trees ++ [.nested symbol (← trees[source]?)]
  | reduction symbol production sources => do
    return trees ++ [.reduction symbol production (← sources.mapM fun i => trees[i]?)]
  | relabel source symbol => do return trees ++ [(← trees[source]?).relabel symbol]
  | withState source state => do return trees ++ [(← trees[source]?).withState state]
  | setState source state => do return trees.set source ((← trees[source]?).withState state)
  | clone source => do return trees ++ [← trees[source]?]
  | extract source path => do return trees ++ [← below? path (← trees[source]?)]
  | query source path => do return trees.set source (← queryAt path (← trees[source]?)).2

/-- Carries out a program from the beginning. -/
def run (program : List (Operation α)) : Option (List (CachedTree α)) :=
  program.foldlM Operation.apply []

end CachedTree

end ShiftReduce
