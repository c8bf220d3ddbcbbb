import ShiftReduce.Grammar
import ShiftReduce.Text.Blank

/-!
# The tokens of grammar text

Grammar text is read as a sequence of tokens.  Words that begin with a capital are nonterminals;
other words and single punctuation characters are terminals; a word that begins in lower case and
is followed at once by a colon is a label.  Blanks and comments, which run from two hyphens to the
end of the line, are skipped.  At every point the longest token that fits is taken.

* `punctuation`: the names of punctuation terminals;
* `scan`: the token at the front of a text;
* `tokens`: all tokens, or the first character that begins none, with its line.
-/

namespace ShiftReduce.GrammarText

/-- A token of grammar text. -/
inductive Token where
  /-- The label of a production. -/
  | label (name : String)
  | nonterminal (name : String)
  | terminal (name : String)
  /-- The arrow between the two sides of a production. -/
  | arrow
  /-- The directive that opens a precedence group. -/
  | directive (associativity : Associativity)
  | lineFeed
deriving DecidableEq, Repr

/-- The characters that are terminals by themselves, and their names. -/
def punctuation : List (Char × String) :=
  [('.', "dot"), ('-', "minus"), ('~', "tilde"), ('\x60', "backtick"), ('!', "exclamation"),
    ('@', "at"), ('#', "hash"), ('$', "dollar"), ('%', "percent"), ('^', "caret"),
    ('&', "ampersand"), ('*', "asterisk"), ('+', "plus"), ('=', "equals"), ('|', "pipe"),
    ('\x5c', "backslash"), ('<', "lessThan"), ('>', "greaterThan"), ('?', "question"),
    ('/', "slash"), (';', "semicolon"), ('(', "leftParen"), (')', "rightParen"),
    ('[', "leftBrack"), (']', "rightBrack"), ('\x7b', "leftBrace"), ('\x7d', "rightBrace"),
    (',', "comma"), ('\x27', "singleQuote"), ('\x22', "doubleQuote"), (':', "colon")]

/-- The name of a punctuation character. -/
def punctuationName? (c : Char) : Option String := punctuation.lookup c

/-- Characters that go on with a word. -/
def isWordChar (c : Char) : Bool := c.isAlphanum || c = '_'

/-- What stands at the front of a text. -/
inductive Scan where
  /-- A token, and the text after it. -/
  | token (t : Token) (rest : List Char)
  /-- Something to skip, and the text after it. -/
  | skip (rest : List Char)
  /-- A character that begins no token. -/
  | unknown (c : Char)
deriving Repr

/-- The directive whose name stands at the front of a text, and the text after it. -/
def directive? : List Char → Option (Associativity × List Char)
  | 'n' :: 'o' :: 'n' :: 'e' :: rest => some (.none, rest)
  | 'l' :: 'e' :: 'f' :: 't' :: rest => some (.left, rest)
  | 'r' :: 'i' :: 'g' :: 'h' :: 't' :: rest => some (.right, rest)
  | _ => none

/-- Reads a punctuation character. -/
def scanPunctuation (c : Char) (cs : List Char) : Scan :=
  match punctuationName? c with
  | some name => .token (.terminal name) cs
  | none => .unknown c

/-- Reads what begins with a hyphen: a comment, an arrow or the hyphen itself. -/
def scanHyphen : List Char → Scan
  | '-' :: cs => .skip (cs.dropWhile (· ≠ '\n'))
  | '>' :: cs => .token .arrow cs
  | cs => scanPunctuation '-' cs

/-- Reads what begins with a percent sign: a directive or the sign itself. -/
def scanPercent (cs : List Char) : Scan :=
  match directive? cs with
  | some (associativity, rest) => .token (.directive associativity) rest
  | none => scanPunctuation '%' cs

/-- Reads a word that begins in lower case: a label if a colon follows, else a terminal. -/
def scanLower (c : Char) (cs : List Char) : Scan :=
  let name := String.ofList (c :: cs.takeWhile isWordChar)
  match cs.dropWhile isWordChar with
  | ':' :: rest => .token (.label name) rest
  | rest => .token (.terminal name) rest

/-- Reads a word that begins with a capital. -/
def scanUpper (c : Char) (cs : List Char) : Scan :=
  .token (.nonterminal (String.ofList (c :: cs.takeWhile isWordChar))) (cs.dropWhile isWordChar)

/-- Reads the front of the text that begins with `c` and goes on with `cs`. -/
def scan (c : Char) (cs : List Char) : Scan :=
  if Text.isSpacing c then .skip cs
  else if c = '\n' then .token .lineFeed cs
  else if c = '-' then scanHyphen cs
  else if c = '%' then scanPercent cs
  else if c.isLower then scanLower c cs
  else if c.isUpper then scanUpper c cs
  else scanPunctuation c cs

/-- A character that begins no token, and the line it stands on, counted from one. -/
structure Unexpected where
  line : Nat
  char : Char
deriving DecidableEq, Repr

/-- Reads at most `fuel` fronts of a text whose first line has number `line`. -/
def tokensFrom : Nat → Nat → List Char → Except Unexpected (List Token)
  | 0, _, _ => .ok []
  | _ + 1, _, [] => .ok []
  | fuel + 1, line, c :: cs =>
    match scan c cs with
    | .unknown c => .error ⟨line, c⟩
    | .skip rest => tokensFrom fuel line rest
    | .token t rest =>
      match tokensFrom fuel (if t = .lineFeed then line + 1 else line) rest with
      | .error unexpected => .error unexpected
      | .ok ts => .ok (t :: ts)

/-- All tokens of a text. -/
def tokens (text : List Char) : Except Unexpected (List Token) := tokensFrom text.length 1 text

end ShiftReduce.GrammarText
