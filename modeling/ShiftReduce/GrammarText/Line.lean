import ShiftReduce.GrammarText.Token

/-!
# The lines of grammar text

A line is empty, or a directive that opens a precedence group, or a production: an optional label,
a nonterminal, an arrow and any number of symbols.

* `Line`: the two kinds of line that say something;
* `splitLines`: the lines of a sequence of tokens.  The line feed at the end of the last line may
  be missing;
* `readLines`: what the lines say, or nothing if one of them is malformed.
-/

namespace ShiftReduce.GrammarText

/-- A symbol by its name. -/
inductive SymbolName where
  | nonterminal (name : String)
  | terminal (name : String)
deriving DecidableEq, Repr

/-- A line that says something. -/
inductive Line where
  /-- Opens a precedence group. -/
  | group (associativity : Associativity)
  /-- Declares a production. -/
  | production (label : Option String) (left : String) (right : List SymbolName)
deriving DecidableEq, Repr

/-- The symbol that a token names. -/
def symbol? : Token → Option SymbolName
  | .nonterminal name => some (.nonterminal name)
  | .terminal name => some (.terminal name)
  | _ => none

/-- Cuts a sequence of tokens at its line feeds. -/
def splitLines : List Token → List (List Token)
  | [] => [[]]
  | t :: ts =>
    if t = .lineFeed then [] :: splitLines ts
    else
      match splitLines ts with
      | [] => [[t]]
      | line :: lines => (t :: line) :: lines

/-- What a line says: nothing if it is empty.  There is no answer for a malformed line. -/
def readLine : List Token → Option (List Line)
  | [] => some []
  | [.directive associativity] => some [.group associativity]
  | .nonterminal left :: .arrow :: right =>
    (right.mapM symbol?).map fun right => [.production none left right]
  | .label label :: .nonterminal left :: .arrow :: right =>
    (right.mapM symbol?).map fun right => [.production (some label) left right]
  | _ => none

/-- What all lines say. -/
def readLines (tokens : List Token) : Option (List Line) :=
  ((splitLines tokens).mapM readLine).map List.flatten

end ShiftReduce.GrammarText
