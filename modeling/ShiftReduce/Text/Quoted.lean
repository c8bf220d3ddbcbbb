import ShiftReduce.Text.Printable

/-!
# Quoted text

How a message quotes a piece of input: between quotation marks, with escapes for the mark
itself, for the backslash, for the usual controls and for everything that cannot be shown by
itself: characters without a look of their own, and those that attach to the one before them.

* `quoteString`: a string between double quotes;
* `quoteChar`: a character between single quotes.
-/

namespace ShiftReduce.Text

/-- The escape of a code point by its number in lower-case hexadecimal digits. -/
def codePointEscape (c : Char) : List Char :=
  ['\x5c', 'u', '\x7b'] ++ Nat.toDigits 16 c.toNat ++ ['\x7d']

/-- One character of quoted text; `mark` is the quotation mark in use. -/
def quotedChar (mark : Char) (c : Char) : List Char :=
  if c = '\x00' then ['\x5c', '0']
  else if c = '\t' then ['\x5c', 't']
  else if c = '\r' then ['\x5c', 'r']
  else if c = '\n' then ['\x5c', 'n']
  else if c = mark || c = '\x5c' then ['\x5c', c]
  else if isPrintable c && !isCombining c then [c]
  else codePointEscape c

/-- Text between quotation marks. -/
def quoted (mark : Char) (text : List Char) : String :=
  String.ofList (mark :: text.flatMap (quotedChar mark) ++ [mark])

/-- A string between double quotes. -/
def quoteString (s : String) : String := quoted '\x22' s.toList

/-- A character between single quotes. -/
def quoteChar (c : Char) : String := quoted '\x27' [c]

end ShiftReduce.Text
