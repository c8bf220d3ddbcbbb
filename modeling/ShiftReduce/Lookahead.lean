import ShiftReduce.Numbering

/-!
# Symbols and lookaheads

Grammar symbols are numbers; a symbol table gives each of them a name.  What a parser sees next
is a symbol or the end of the input, and the end of the input is no symbol.

* `Lookahead`, with `column` and `lookaheadOf` between lookaheads and table columns;
* `insertBy`: ascending lists without repetitions, used for sets of symbols and lookaheads;
* `SymbolTable`, with `SymbolTable.name` and `SymbolTable.lookaheadName` for messages.
-/

namespace ShiftReduce

/-- What comes next in the input: a symbol, or `none` at the end of the input. -/
abbrev Lookahead := Option Nat

/-- The table column of a lookahead: the end of the input comes first, then the symbols. -/
def column : Lookahead → Nat
  | none => 0
  | some symbol => symbol + 1

/-- The lookahead of a table column. -/
def lookaheadOf : Nat → Lookahead
  | 0 => none
  | symbol + 1 => some symbol

@[simp]
theorem lookaheadOf_column (la : Lookahead) : lookaheadOf (column la) = la := by
  cases la <;> rfl

@[simp]
theorem column_lookaheadOf (col : Nat) : column (lookaheadOf col) = col := by
  cases col <;> rfl

/-! ## Ascending lists -/

/-- Puts `a` into a list that ascends by `key`, unless it is there already. -/
def insertBy {α : Type} [DecidableEq α] (key : α → Nat) (a : α) : List α → List α
  | [] => [a]
  | b :: bs =>
    if a = b then b :: bs
    else if key a < key b then a :: b :: bs
    else b :: insertBy key a bs

@[simp]
theorem mem_insertBy {α : Type} [DecidableEq α] {key : α → Nat} {a x : α} {as : List α} :
    x ∈ insertBy key a as ↔ x = a ∨ x ∈ as := by
  induction as with
  | nil => simp [insertBy]
  | cons b bs ih =>
    rw [insertBy]
    split
    · next h => subst h; simp
    · split
      · simp
      · simp only [List.mem_cons, ih]
        constructor
        · rintro (h | h | h)
          · exact Or.inr (Or.inl h)
          · exact Or.inl h
          · exact Or.inr (Or.inr h)
        · rintro (h | h | h)
          · exact Or.inr (Or.inl h)
          · exact Or.inl h
          · exact Or.inr (Or.inr h)

/-! ## Symbol tables -/

/-- Symbol names; the number of a name is the symbol it stands for. -/
abbrev SymbolTable := Numbering String

/-- How the end of the input is written. -/
def endOfInputName : String := "$"

namespace SymbolTable

/-- The name of a symbol, or a question mark for a symbol the table does not know. -/
def name (table : SymbolTable) (symbol : Nat) : String := (table.get? symbol).getD "?"

/-- The name of a lookahead. -/
def lookaheadName (table : SymbolTable) : Lookahead → String
  | none => endOfInputName
  | some symbol => SymbolTable.name table symbol

end SymbolTable

end ShiftReduce
