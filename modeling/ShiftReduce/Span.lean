/-!
# Positions and spans

Places in a source text by line and column, both counted from zero, and the ranges between two
places.  A span is not required to run forward.

* `Position`, ordered by line and then by column;
* `Span.merge`: the smallest span that covers two given ones;
* `mergeSpans`: the same for spans that may be absent.
-/

namespace ShiftReduce

/-- A place in a source text. -/
structure Position where
  line : Nat
  column : Nat
deriving DecidableEq, Repr

namespace Position

/-- Positions in reading order. -/
def compare (a b : Position) : Ordering :=
  if a.line < b.line then .lt
  else if b.line < a.line then .gt
  else if a.column < b.column then .lt
  else if b.column < a.column then .gt
  else .eq

/-- Whether `a` stands before `b` or at the same place. -/
def atOrBefore (a b : Position) : Bool := compare a b != .gt

/-- The earlier of two positions. -/
def earlier (a b : Position) : Position := if atOrBefore a b then a else b

/-- The later of two positions. -/
def later (a b : Position) : Position := if atOrBefore b a then a else b

end Position

/-- The range from `start` up to and without `stop`. -/
structure Span where
  start : Position
  stop : Position
deriving DecidableEq, Repr

namespace Span

/-- The span that covers both. -/
def merge (a b : Span) : Span := ⟨a.start.earlier b.start, a.stop.later b.stop⟩

/-- Spans by their start and then by their end. -/
def compare (a b : Span) : Ordering :=
  match a.start.compare b.start with
  | .eq => a.stop.compare b.stop
  | unequal => unequal

/-- Whether nothing lies in the span. -/
def isEmpty (s : Span) : Bool := s.start == s.stop

/-- The first and the last line that the span touches. -/
def lines (s : Span) : Nat × Nat := (s.start.line, s.stop.line)

/-- The span as messages give it. -/
def describe (s : Span) : String :=
  s!"span {s.start.line}:{s.start.column} to {s.stop.line}:{s.stop.column}"

end Span

/-- Merges spans that may be absent; an absent span adds nothing. -/
def mergeSpans : Option Span → Option Span → Option Span
  | some a, some b => some (a.merge b)
  | a, none => a
  | none, b => b

end ShiftReduce
