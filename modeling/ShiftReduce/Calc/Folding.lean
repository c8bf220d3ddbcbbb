import ShiftReduce.Calc.Lexer
import ShiftReduce.Grammar

/-!
# Folding expressions

Expressions are evaluated while they are parsed: hooks replace each reduction by its result.
Arithmetic is checked.  An operation that overflows or divides by zero gives a marked tree, and
since hooks leave marked operands alone the mark travels up to the root.

* `folded`: the tree of a result;
* `foldNumber`, `foldParen`, `foldNegation`, `foldBinary`: the hooks;
* `hookFor`: the hook for a production's label.
-/

namespace ShiftReduce.Calc

/-- The number in a tree that is not in error. -/
def numberIn? (t : Tree Token) : Option Int :=
  if t.isError then none else t.value?.bind Token.number?

/-- The spans of the leaves among some trees, merged. -/
def coveredSpan (trees : List (Tree Token)) : Option Span :=
  (trees.filterMap Tree.value?).foldl (fun span token => mergeSpans span token.span) none

/-- The tree for a result; without a result it is marked. -/
def folded (left : Nat) (result : Option Int) (children : List (Tree Token)) : Tree Token :=
  match result with
  | some n => Tree.scalar left ⟨.number n, coveredSpan children⟩
  | none => (Tree.scalar left ⟨.invalid, coveredSpan children⟩).withState Tree.errorState

/-- Folds a number to itself. -/
def foldNumber : Hook Token := fun left children =>
  (children.head?.bind Tree.value?).map (Tree.scalar left)

/-- Folds parentheses to what they enclose. -/
def foldParen : Hook Token := fun left children =>
  match children with
  | [_, inner, _] => (numberIn? inner).map fun n => folded left (some n) children
  | _ => none

/-- Folds a sign. -/
def foldNegation : Hook Token := fun left children =>
  match children with
  | [_, inner] => (numberIn? inner).map fun n => folded left (checked (-n)) children
  | _ => none

/-- Folds an operation between two numbers. -/
def foldBinary (operation : Int → Int → Option Int) : Hook Token := fun left children =>
  match children with
  | [a, _, b] => do
    let m ← numberIn? a
    let n ← numberIn? b
    return folded left (operation m n) children
  | _ => none

/-- Division cuts off the fraction; there is none by zero. -/
def divide (m n : Int) : Option Int := if n = 0 then none else checked (m.tdiv n)

/-- The hook for the productions with a given label. -/
def hookFor (label : String) : Option (Hook Token) :=
  match label with
  | "num" => some foldNumber
  | "paren" => some foldParen
  | "neg" => some foldNegation
  | "mul" => some (foldBinary fun m n => checked (m * n))
  | "div" => some (foldBinary divide)
  | "add" => some (foldBinary fun m n => checked (m + n))
  | "sub" => some (foldBinary fun m n => checked (m - n))
  | _ => none

end ShiftReduce.Calc
