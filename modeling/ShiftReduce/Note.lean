/-!
# Notes

What the library has to say while it works: warnings about a grammar, counts of what was
constructed, and the single steps of a run.

* `Note`: a text and how important it is;
* `Note.shownAt`: the notes that are at least as important as a level, as lines of text.
-/

namespace ShiftReduce

/-- How important a note is, the most important level first. -/
inductive Level where
  | warn
  | debug
  | trace
deriving DecidableEq, Repr

namespace Level

/-- The place of a level, counted from the most important one. -/
def depth : Level → Nat
  | warn => 0
  | debug => 1
  | trace => 2

/-- The name of a level. -/
def name : Level → String
  | warn => "WARN"
  | debug => "DEBUG"
  | trace => "TRACE"

end Level

/-- A remark made in passing. -/
structure Note where
  level : Level
  text : String
deriving DecidableEq, Repr

namespace Note

/-- A note as a line. -/
def line (n : Note) : String := s!"{n.level.name} {n.text}"

/-- The notes that are shown at a level, as lines. -/
def shownAt (level : Level) (notes : List Note) : List String :=
  (notes.filter fun n => decide (n.level.depth ≤ level.depth)).map line

end Note

end ShiftReduce
