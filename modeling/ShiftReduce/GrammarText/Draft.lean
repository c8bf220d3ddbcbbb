import ShiftReduce.GrammarText.Line
import ShiftReduce.Note

/-!
# Grammars in text form

What a grammar text declares, before it is checked as a grammar.  Nonterminals come first among the
symbols, then terminals, each in order of first occurrence.  The text does not declare its start:
the nonterminal `Start` is symbol zero, and the production `Start -> X`, where `X` is the first
other nonterminal, precedes all others in a group without associativity.

* `Draft.ofText`: reads a text;
* `DraftError`: why a text cannot be read;
* `Draft.build`: makes a grammar, with hooks attached by label;
* `Draft.notes`: warnings about nonterminals that are never defined.
-/

namespace ShiftReduce.GrammarText

/-- A production as declared in a text. -/
structure DraftProduction where
  label : String
  left : Nat
  right : List Nat
deriving DecidableEq, Repr

/-- A precedence group as declared in a text. -/
structure DraftGroup where
  associativity : Associativity
  productions : List DraftProduction
deriving DecidableEq, Repr

/-- A grammar as declared in a text. -/
structure Draft where
  symbols : List String
  nonterminalCount : Nat
  groups : List DraftGroup
deriving DecidableEq, Repr

/-- Why a text is no grammar. -/
inductive DraftError where
  /-- A character begins no token. -/
  | unexpected (place : Unexpected)
  /-- A line has none of the known forms. -/
  | malformed
  /-- The text mentions no nonterminal. -/
  | noNonterminals
deriving DecidableEq, Repr

/-- The wording of an error. -/
def DraftError.message : DraftError → String
  | unexpected place =>
    s!"line {place.line}: unexpected input {Text.quoteString (String.singleton place.char)}"
  | malformed => "malformed grammar (1 parse errors)"
  | noNonterminals => "grammar declares no nonterminals"

/-! ## Reading -/

/-- The name of the start symbol. -/
def startName : String := "Start"

/-- The label of the start production. -/
def startLabel : String := "start"

/-- The nonterminals of a text, the start first. -/
def nonterminalNames (tokens : List Token) : List String :=
  (Numbering.ofList (startName :: tokens.filterMap fun
    | .nonterminal name => some name
    | _ => none)).entries

/-- The terminals of a text. -/
def terminalNames (tokens : List Token) : List String :=
  (Numbering.ofList (tokens.filterMap fun
    | .terminal name => some name
    | _ => none)).entries

/-- The number of a symbol: terminals follow the nonterminals. -/
def symbolNumber (nonterminals terminals : List String) : SymbolName → Nat
  | .nonterminal name => nonterminals.idxOf name
  | .terminal name => nonterminals.length + terminals.idxOf name

/-- The label of the production with index `i`. -/
def labelOr (label : Option String) (i : Nat) : String := label.getD s!"rule{i}"

/-- Sorts lines into groups.  `current` is the group being filled, and `next` the index of the
next production. -/
def groupLines (number : SymbolName → Nat) :
    Nat → DraftGroup → List Line → List DraftGroup
  | _, current, [] => [current]
  | next, current, .group associativity :: lines =>
    current :: groupLines number next ⟨associativity, []⟩ lines
  | next, current, .production label left right :: lines =>
    let production : DraftProduction :=
      ⟨labelOr label next, number (.nonterminal left), right.map number⟩
    groupLines number (next + 1)
      { current with productions := current.productions ++ [production] } lines

/-- The implicit first group, with the start production. -/
def startGroup : DraftGroup := ⟨.none, [⟨startLabel, 0, [1]⟩]⟩

namespace Draft

/-- What a sequence of tokens declares. -/
def ofTokens (tokens : List Token) : Except DraftError Draft :=
  match readLines tokens with
  | none => .error .malformed
  | some lines =>
    let nonterminals := nonterminalNames tokens
    let terminals := terminalNames tokens
    if nonterminals.length < 2 then .error .noNonterminals
    else
      .ok {
        symbols := nonterminals ++ terminals
        nonterminalCount := nonterminals.length
        groups := groupLines (symbolNumber nonterminals terminals) 1 startGroup lines }

/-- What a sequence of characters declares. -/
def ofChars (text : List Char) : Except DraftError Draft :=
  match tokens text with
  | .error unexpected => .error (.unexpected unexpected)
  | .ok tokens => ofTokens tokens

/-- Reads a text. -/
def ofText (text : String) : Except DraftError Draft := ofChars text.toList

/-! ## Productions and symbols -/

/-- All productions in order. -/
def productions (s : Draft) : List DraftProduction := s.groups.flatMap DraftGroup.productions

/-- The labels of all productions. -/
def labels (s : Draft) : List String := s.productions.map DraftProduction.label

/-- The symbol with a given name. -/
def symbol? (s : Draft) (name : String) : Option Nat := s.symbols.idxOf? name

/-- The first production with a given label. -/
def production? (s : Draft) (label : String) : Option Nat := s.labels.idxOf? label

/-- Makes a grammar; `hookFor` gives the hook for a label. -/
def build {α : Type} (s : Draft) (hookFor : String → Option (Hook α)) :
    Except GrammarError (Grammar α) :=
  Grammar.build s.symbols (s.groups.map fun group =>
    ⟨group.associativity, group.productions.map fun p => ⟨p.left, p.right, hookFor p.label⟩⟩)

/-- The nonterminals besides the start that no production defines. -/
def undefined (s : Draft) : List String :=
  ((s.symbols.take s.nonterminalCount).zipIdx.drop 1).filterMap fun (name, symbol) =>
    if s.productions.any fun p => p.left == symbol then none else some name

/-- A warning for every nonterminal that is not defined. -/
def notes (s : Draft) : List Note :=
  s.undefined.map fun name => ⟨.warn, s!"nonterminal {name} has no productions"⟩

end Draft

end ShiftReduce.GrammarText
