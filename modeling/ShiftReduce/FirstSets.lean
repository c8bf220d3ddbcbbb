import ShiftReduce.Cfg
import ShiftReduce.Note

/-!
# FIRST sets

For each symbol, the terminals that can begin what it derives, and whether it derives the empty
string.  Both are computed together by passing over the rules until a pass changes nothing.

* `FirstSets.begins`, `FirstSets.vanishes`: the same two facts for a sequence of symbols;
* `Cfg.firstStep`: one pass over the rules;
* `Cfg.firstSets`: the finished sets, with `Cfg.firstPasses` counting the passes;
* `FirstSets.firstBefore`: the lookaheads of a sequence that is followed by a given lookahead.
-/

namespace ShiftReduce

/-- Per symbol, its first terminals in ascending order and whether it can vanish. -/
structure FirstSets where
  first : List (List Nat)
  nullable : List Bool
deriving DecidableEq, Repr

namespace FirstSets

/-- The terminals that begin a symbol. -/
def of (sets : FirstSets) (symbol : Nat) : List Nat := sets.first.getD symbol []

/-- Whether a symbol can vanish. -/
def isNullable (sets : FirstSets) (symbol : Nat) : Bool := sets.nullable.getD symbol false

/-- The union of two ascending lists of symbols. -/
def union (xs ys : List Nat) : List Nat := ys.foldl (fun acc y => insertBy id y acc) xs

/-- The terminals that begin a sequence of symbols. -/
def begins (sets : FirstSets) : List Nat → List Nat
  | [] => []
  | s :: rest => if sets.isNullable s then union (sets.of s) (sets.begins rest) else sets.of s

/-- Whether a whole sequence can vanish. -/
def vanishes (sets : FirstSets) (seq : List Nat) : Bool := seq.all sets.isNullable

/-- What a rule says about its left side is added to the sets. -/
def absorb (sets : FirstSets) (rule : Rule) : FirstSets where
  first := sets.first.set rule.left (union (sets.of rule.left) (sets.begins rule.right))
  nullable := sets.nullable.set rule.left (sets.isNullable rule.left || sets.vanishes rule.right)

/-- The lookaheads of `seq` when `fallback` follows it; `fallback` is one of them exactly when
the sequence can vanish.  The end of the input comes first, then symbols ascend. -/
def firstBefore (sets : FirstSets) (seq : List Nat) (fallback : Lookahead) : List Lookahead :=
  let terminals := (sets.begins seq).map some
  if sets.vanishes seq then insertBy column fallback terminals else terminals

end FirstSets

namespace Cfg

/-- The sets before the first pass: a terminal begins itself, and the left side of an empty rule
can vanish. -/
def firstSeed (g : Cfg) : FirstSets where
  first := (List.range g.symbolCount).map fun s => if g.isTerminal s then [s] else []
  nullable := (List.range g.symbolCount).map fun s =>
    g.rules.any fun r => decide (r.left = s) && r.right.isEmpty

/-- One pass over all rules, each seeing what those before it added. -/
def firstStep (g : Cfg) (sets : FirstSets) : FirstSets := g.rules.foldl FirstSets.absorb sets

/-- Repeats the pass until it changes nothing, at most `fuel` times, and counts the passes. -/
def settleFirst (g : Cfg) : Nat → FirstSets → FirstSets × Nat
  | 0, sets => (sets, 0)
  | fuel + 1, sets =>
    let next := g.firstStep sets
    if next = sets then (sets, 1)
    else
      let settled := g.settleFirst fuel next
      (settled.1, settled.2 + 1)

/-- A pass that changes something adds a terminal to a nonterminal's set or makes a nonterminal
vanish, so this many passes are enough. -/
def firstBound (g : Cfg) : Nat := g.nonterminals.length * (g.terminals.length + 1) + 1

/-- The FIRST sets of all symbols. -/
def firstSets (g : Cfg) : FirstSets := (g.settleFirst g.firstBound g.firstSeed).1

/-- How many passes it takes to find the FIRST sets, the last one changing nothing. -/
def firstPasses (g : Cfg) : Nat := (g.settleFirst g.firstBound g.firstSeed).2

/-- What there is to say about the FIRST sets when they took `passes` passes. -/
def firstNote (g : Cfg) (passes : Nat) : Note :=
  ⟨.debug, s!"FIRST sets: {g.symbolCount} symbols, {passes} passes"⟩

end Cfg

end ShiftReduce
