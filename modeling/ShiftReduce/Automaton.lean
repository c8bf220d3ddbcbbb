import ShiftReduce.Table

/-!
# Automata

All that is constructed from a grammar, in one place.

* `Grammar.automaton`: constructs it;
* `Automaton.notes`: what there is to say about the construction, in the order of its stages.
-/

namespace ShiftReduce

/-- The stages of the construction of a parse table. -/
structure Automaton where
  collection : Collection
  first : FirstSets
  /-- The passes it took to find the FIRST sets. -/
  firstPasses : Nat
  lookaheads : Lookaheads
  /-- The passes it took to propagate lookaheads. -/
  lookaheadPasses : Nat
  table : Table
deriving DecidableEq

/-- Constructs the automaton and the parse table of a grammar. -/
def Grammar.automaton {α : Type} (g : Grammar α) : Automaton :=
  let collection := g.cfg.collection
  let first := g.cfg.settleFirst g.cfg.firstBound g.cfg.firstSeed
  let lookaheads := g.cfg.settleLookaheads first.1 collection
  { collection := collection
    first := first.1
    firstPasses := first.2
    lookaheads := lookaheads.1
    lookaheadPasses := lookaheads.2
    table := g.tableOf collection lookaheads.1 }

@[simp]
theorem Grammar.collection_automaton {α : Type} (g : Grammar α) :
    g.automaton.collection = g.cfg.collection := by
  simp only [Grammar.automaton]

@[simp]
theorem Grammar.first_automaton {α : Type} (g : Grammar α) :
    g.automaton.first = g.cfg.firstSets := by
  simp only [Grammar.automaton, Cfg.firstSets]

@[simp]
theorem Grammar.firstPasses_automaton {α : Type} (g : Grammar α) :
    g.automaton.firstPasses = g.cfg.firstPasses := by
  simp only [Grammar.automaton, Cfg.firstPasses]

@[simp]
theorem Grammar.lookaheads_automaton {α : Type} (g : Grammar α) :
    g.automaton.lookaheads = g.cfg.lookaheads := by
  simp only [Grammar.automaton, Cfg.lookaheads, Cfg.firstSets]

@[simp]
theorem Grammar.lookaheadPasses_automaton {α : Type} (g : Grammar α) :
    g.automaton.lookaheadPasses = g.cfg.lookaheadPasses := by
  simp only [Grammar.automaton, Cfg.lookaheadPasses, Cfg.firstSets]

@[simp]
theorem Grammar.table_automaton {α : Type} (g : Grammar α) :
    g.automaton.table = g.tableOf g.cfg.collection g.cfg.lookaheads := by
  simp only [Grammar.automaton, Cfg.lookaheads, Cfg.firstSets]

namespace Automaton

/-- The number of states. -/
def stateCount (a : Automaton) : Nat := a.collection.states.size

/-- The notes of a construction. -/
def notes {α : Type} (g : Grammar α) (a : Automaton) : List Note :=
  [a.collection.note, g.cfg.firstNote a.firstPasses, a.lookaheads.spontaneousNote,
    a.lookaheads.propagationNote a.lookaheadPasses] ++ a.table.notes g.symbols

end Automaton

end ShiftReduce
