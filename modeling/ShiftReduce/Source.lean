import ShiftReduce.Tree.Basic

/-!
# Token sources

A token source is what a parser pulls its tokens from.  It is given by the list of its answers to
successive pulls; after the last one it answers that nothing is left.

* `Pull`: one answer of a source;
* `Window`: a source seen through one token of lookahead;
* `Window.advance`: moves the window on.  Once the source has said that nothing is left it is not
  asked again and the window stays at the end of the input.
-/

namespace ShiftReduce

/-- The answer of a token source to a pull. -/
inductive Pull (α ε : Type) where
  /-- The next token. -/
  | token (t : Tree α)
  /-- The source failed. -/
  | fault (error : ε)
  /-- Nothing is left. -/
  | stop
deriving Repr

/-- A token source with one token of lookahead. -/
structure Window (α ε : Type) where
  /-- The answers not yet pulled. -/
  rest : List (Pull α ε)
  /-- The token in sight, if one was pulled and not taken. -/
  current : Option (Tree α)
  /-- Whether the source has said that nothing is left. -/
  exhausted : Bool
deriving Repr

namespace Window

variable {α ε : Type}

/-- The window before the first pull. -/
def ofSource (source : List (Pull α ε)) : Window α ε := ⟨source, none, false⟩

/-- Pulls the next token into sight.  The result is whether there was one; a fault leaves the
token in sight as it is. -/
def advance (w : Window α ε) : Window α ε × Except ε Bool :=
  if w.exhausted then ({ w with current := some Tree.endOfInput }, .ok false)
  else
    match w.rest with
    | .token t :: rest => ({ w with rest := rest, current := some t }, .ok true)
    | .fault error :: rest => ({ w with rest := rest }, .error error)
    | .stop :: rest => (⟨rest, some Tree.endOfInput, true⟩, .ok false)
    | [] => (⟨[], some Tree.endOfInput, true⟩, .ok false)

/-- Takes the token in sight away. -/
def taken (w : Window α ε) : Window α ε := { w with current := none }

/-- The symbol in sight; there is none at the end of the input and when no token is in sight. -/
def lookahead (w : Window α ε) : Lookahead := w.current.bind Tree.symbol

end Window

end ShiftReduce
