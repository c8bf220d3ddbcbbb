import ShiftReduce.Main
import ShiftReduce.Tree.Equality
import ShiftReduce.Proofs.Worklist
import ShiftReduce.Proofs.Numbering
import ShiftReduce.Proofs.FirstPass
import ShiftReduce.Proofs.Lookaheads.Settled
import ShiftReduce.Proofs.Lookaheads.Canonical
import ShiftReduce.Proofs.Table
import ShiftReduce.Proofs.Parser.Run
import ShiftReduce.Proofs.Parser.Safety
import ShiftReduce.Proofs.Derivation
import ShiftReduce.Proofs.Parser.Soundness
import ShiftReduce.Proofs.Parser.Completeness
import ShiftReduce.Proofs.Parser.Budget
import ShiftReduce.Proofs.Sentences
import ShiftReduce.Proofs.Parser.Alike
import ShiftReduce.Proofs.Parser.Marks
import ShiftReduce.Proofs.Parser.Weight
import ShiftReduce.Proofs.Parser.Heights
import ShiftReduce.Proofs.Parser.Rewriting
import ShiftReduce.Proofs.Parser.Vanishing
import ShiftReduce.Proofs.Parser.Termination
import ShiftReduce.Proofs.Parser.Tokens
import ShiftReduce.Proofs.Declarations
import ShiftReduce.Proofs.Parser.Detection
import ShiftReduce.Proofs.Parser.Acceptance
import ShiftReduce.Proofs.Precedence
import ShiftReduce.Proofs.Expressions.Basic
import ShiftReduce.Proofs.Expressions.Stacks
import ShiftReduce.Proofs.Expressions.Table
import ShiftReduce.Proofs.Expressions.Traversal
import ShiftReduce.Proofs.Expressions.Derivations
import ShiftReduce.Proofs.Expressions.Regrouping
import ShiftReduce.Proofs.Expressions.Runs
import ShiftReduce.Proofs.Expressions.Operators
import ShiftReduce.Proofs.Calc.Reference
import ShiftReduce.Proofs.Calc.Folding
import ShiftReduce.Proofs.Calc.Evaluation
import ShiftReduce.Proofs.SubsetConstruction
import ShiftReduce.Proofs.Contested
import ShiftReduce.Proofs.Justification
import ShiftReduce.Proofs.Parser.Trimming
import ShiftReduce.Proofs.Renaming.Automata
import ShiftReduce.Proofs.Renaming.Tables
import ShiftReduce.Proofs.Renaming.Trees
import ShiftReduce.Proofs.Renaming.Runs
import ShiftReduce.Proofs.Renaming.Declarations
import ShiftReduce.Proofs.FirstPass
import ShiftReduce.Proofs.Lookaheads.Ledger
import ShiftReduce.Proofs.Lookaheads.Edges
import ShiftReduce.Proofs.Parser.Pulls
import ShiftReduce.Proofs.Loops.Construction
import ShiftReduce.Proofs.Arenas.Closing
import ShiftReduce.Proofs.GrammarText.Spacing
import ShiftReduce.Proofs.GrammarText.Building
import ShiftReduce.Proofs.Calc.Covering
import ShiftReduce.Proofs.CachedAnswers
import ShiftReduce.Proofs.Report
