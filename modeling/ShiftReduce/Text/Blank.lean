/-!
# Blank characters and lines

The characters that count as white space (`White_Space`), those of them that only separate tokens
within a line, and how a text falls into lines.

* `isBlank`: the character is white space;
* `isSpacing`: the character separates tokens and means nothing else;
* `linesOf`: the lines of a text.  A line ends at a line feed, together with one carriage return
  right before it; a text that ends in a line feed has no further line after it.
-/

namespace ShiftReduce.Text

/-- Whether the character is white space. -/
def isBlank (c : Char) : Bool :=
  let n := c.toNat
  (9 ≤ n && n ≤ 13) || n == 0x20 || n == 0x85 || n == 0xA0 || n == 0x1680 ||
    (0x2000 ≤ n && n ≤ 0x200A) || n == 0x2028 || n == 0x2029 || n == 0x202F || n == 0x205F ||
    n == 0x3000

/-- Whether the character is a blank, a tab, a form feed or a carriage return. -/
def isSpacing (c : Char) : Bool := c = ' ' || c = '\t' || c = '\x0c' || c = '\r'

/-- Drops a carriage return at the end of a line. -/
def dropReturn (line : List Char) : List Char :=
  if line.getLast? = some '\r' then line.dropLast else line

/-- The lines of a text, where `line` holds what has been read of the current one. -/
def linesFrom (line : List Char) : List Char → List (List Char)
  | [] => if line.isEmpty then [] else [line]
  | c :: cs =>
    if c = '\n' then dropReturn line :: linesFrom [] cs else linesFrom (line ++ [c]) cs

/-- The lines of a text. -/
def linesOf (text : List Char) : List (List Char) := linesFrom [] text

end ShiftReduce.Text
