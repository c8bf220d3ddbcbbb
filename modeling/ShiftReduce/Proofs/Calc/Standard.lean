import Mathlib.Tactic.IntervalCases
import ShiftReduce.Calc.Calculator
import ShiftReduce.Proofs.Expressions.Table

/-!
# The grammar of the calculator

The grammar text of the calculator declares an expression grammar.  Its tokens come from a text, and
each of them holds the value that belongs to its symbol.

* `draft`, `alphabet`: what the grammar text declares, and the symbols of the tokens;
* `Standard`: the rules, hooks, ranks and associativities of the calculator's grammar;
* `Standard.expressions`: it is an expression grammar;
* `standard_eq`: the calculator;
* `Lexed`, `lexed_of_source`: the tokens of a text.
-/

namespace ShiftReduce.Calc

/-! ## The declarations -/

/-- What the grammar text declares. -/
def draft : GrammarText.Draft where
  symbols := ["Start", "Expr", "number", "leftParen", "rightParen", "minus", "asterisk", "slash",
    "plus"]
  nonterminalCount := 2
  groups := [
    ⟨.none, [⟨"start", 0, [1]⟩, ⟨"num", 1, [2]⟩, ⟨"paren", 1, [3, 1, 4]⟩]⟩,
    ⟨.right, [⟨"neg", 1, [5, 1]⟩]⟩,
    ⟨.left, [⟨"mul", 1, [1, 6, 1]⟩, ⟨"div", 1, [1, 7, 1]⟩]⟩,
    ⟨.left, [⟨"add", 1, [1, 8, 1]⟩, ⟨"sub", 1, [1, 5, 1]⟩]⟩]

theorem ofText_grammarText : GrammarText.Draft.ofText grammarText = .ok draft := by
  decide +kernel

/-- The symbols of the tokens. -/
def alphabet : Alphabet where
  number := 2
  plus := 8
  minus := 5
  asterisk := 6
  slash := 7
  leftParen := 3
  rightParen := 4

theorem alphabetOf_draft : alphabetOf draft = .ok alphabet := rfl

/-- The grammar that is made of the declarations. -/
structure Standard (g : Grammar Token) : Prop where
  rules_eq : g.cfg.rules = [⟨0, [1]⟩, ⟨1, [2]⟩, ⟨1, [3, 1, 4]⟩, ⟨1, [5, 1]⟩, ⟨1, [1, 6, 1]⟩,
    ⟨1, [1, 7, 1]⟩, ⟨1, [1, 8, 1]⟩, ⟨1, [1, 5, 1]⟩]
  hooks_eq : g.hooks = [none, some foldNumber, some foldParen, some foldNegation,
    some (foldBinary fun m n => checked (m * n)), some (foldBinary divide),
    some (foldBinary fun m n => checked (m + n)), some (foldBinary fun m n => checked (m - n))]
  ranks_eq : g.ranks = [0, 0, 0, 1, 2, 2, 3, 3]
  associativities_eq : g.associativities = [.none, .right, .left, .left]

theorem exists_standard : ∃ g, draft.build hookFor = .ok g ∧ Standard g :=
  ⟨_, rfl, rfl, rfl, rfl, rfl⟩

/-! ## An expression grammar -/

/-- The forms of the productions for expressions. -/
def forms : List Form :=
  [.operand 2, .enclosed 3 4, .signed 5, .joined 6, .joined 7, .joined 8, .joined 5]

theorem form_cases {p : Nat} {f : Form} (h : Form.at? forms p = some f) :
    (p = 1 ∧ f = .operand 2) ∨ (p = 2 ∧ f = .enclosed 3 4) ∨ (p = 3 ∧ f = .signed 5) ∨
      (p = 4 ∧ f = .joined 6) ∨ (p = 5 ∧ f = .joined 7) ∨ (p = 6 ∧ f = .joined 8) ∨
      (p = 7 ∧ f = .joined 5) := by
  cases p with
  | zero => cases h
  | succ i =>
    have hi : i < 7 := (List.getElem?_eq_some_iff.1 h).1
    interval_cases i <;> cases h <;> simp

theorem operand_eq {p a : Nat} (h : Form.at? forms p = some (.operand a)) : p = 1 ∧ a = 2 := by
  simpa using form_cases h

theorem enclosed_eq {p l r : Nat} (h : Form.at? forms p = some (.enclosed l r)) :
    p = 2 ∧ l = 3 ∧ r = 4 := by
  simpa using form_cases h

theorem signed_eq {p o : Nat} (h : Form.at? forms p = some (.signed o)) : p = 3 ∧ o = 5 := by
  simpa using form_cases h

theorem joined_cases {p o : Nat} (h : Form.at? forms p = some (.joined o)) :
    (p = 4 ∧ o = 6) ∨ (p = 5 ∧ o = 7) ∨ (p = 6 ∧ o = 8) ∨ (p = 7 ∧ o = 5) := by
  simpa using form_cases h

namespace Standard

variable {g : Grammar Token}

theorem rank_eq (h : Standard g) (p : Nat) : g.rank p = [0, 0, 0, 1, 2, 2, 3, 3].getD p 0 := by
  rw [Grammar.rank, h.ranks_eq]

theorem associativity_eq (h : Standard g) (k : Nat) :
    g.associativity k = [Associativity.none, .right, .left, .left].getD k .none := by
  rw [Grammar.associativity, h.associativities_eq]

/-- The grammar of the calculator is an expression grammar. -/
theorem expressions (h : Standard g) : g.Expressions 1 forms where
  cfg := {
    rules_eq := h.rules_eq
    expr_ne := by decide
    terminals_ne := by decide
    apart := by decide
    closing_ne := by decide
    exists_operand := by decide }
  settled := by
    intro p o hf
    rw [h.associativity_eq, h.rank_eq]
    rcases joined_cases hf with ⟨rfl, -⟩ | ⟨rfl, -⟩ | ⟨rfl, -⟩ | ⟨rfl, -⟩ <;> decide
  sign_lt := by
    intro p q o o' hf hf'
    obtain ⟨rfl, -⟩ := signed_eq hf
    rw [h.rank_eq, h.rank_eq]
    rcases joined_cases hf' with ⟨rfl, -⟩ | ⟨rfl, -⟩ | ⟨rfl, -⟩ | ⟨rfl, -⟩ <;> decide

end Standard

theorem ofText_eq_ok {text : String} {d : GrammarText.Draft} {t : Alphabet} {g : Grammar Token}
    {p : Parser Token} (hd : GrammarText.Draft.ofText text = .ok d) (ht : alphabetOf d = .ok t)
    (hg : d.build hookFor = .ok g) (hp : Parser.build g true = .ok p) :
    Calculator.ofText text = .ok ⟨p, t⟩ := by
  rw [Calculator.ofText, hd]
  show calculatorOf d = .ok ⟨p, t⟩
  simp only [calculatorOf, ht, hg, hp, Except.mapError, bind, Except.bind, pure, Except.pure]

/-- The calculator has a parser for this grammar that trims, and this alphabet. -/
theorem standard_eq :
    ∃ p : Parser Token, Calculator.standard = .ok ⟨p, alphabet⟩ ∧ Standard p.grammar ∧
      p.trim = true := by
  obtain ⟨g, hg, hstandard⟩ := exists_standard
  obtain ⟨p, hp⟩ := Parser.exists_build_of_expressions hstandard.expressions true
  obtain ⟨rfl, htrim⟩ := Parser.build_eq_ok hp
  exact ⟨p, ofText_eq_ok ofText_grammarText alphabetOf_draft hg hp, hstandard, htrim⟩

/-! ## Tokens -/

/-- The symbol of the tokens with a given value. -/
def Alphabet.symbol? (t : Alphabet) : Value → Option Nat
  | .invalid => none
  | .number _ => some t.number
  | .operator c => t.operator? c

/-- The value of a token. -/
def valueOf (t : Tree Token) : Value := (t.value?.map Token.value).getD .invalid

/-- The token is one that is read from a text: it holds the value that belongs to its symbol. -/
structure Lexed (t : Tree Token) : Prop where
  symbol_eq : t.symbol = alphabet.symbol? (valueOf t)
  symbol_ne : t.symbol ≠ none
  value?_eq : ∃ span, t.value? = some ⟨valueOf t, span⟩

theorem lexed_scalar {symbol : Nat} {value : Value} {span : Option Span}
    (h : alphabet.symbol? value = some symbol) : Lexed (Tree.scalar symbol ⟨value, span⟩) where
  symbol_eq := h.symm
  symbol_ne := by simp [Tree.scalar, Tree.symbol, Tree.tag]
  value?_eq := ⟨span, rfl⟩

theorem lexed_of_literal {digits : List Char} {span : Span} {t : Tree Token}
    (h : literal alphabet digits span = .token t) : Lexed t := by
  unfold literal at h
  split at h
  · cases h
    exact lexed_scalar rfl
  · cases h

theorem lexed_of_single {c : Char} {span : Span} {t : Tree Token}
    (h : single alphabet c span = .token t) : Lexed t := by
  unfold single at h
  split at h
  · next symbol hsymbol =>
    cases h
    exact lexed_scalar hsymbol
  · cases h

theorem lexed_of_mem_pullsFrom {t : Tree Token} {fuel : Nat} {place : Position}
    {text : List Char} (h : .token t ∈ pullsFrom alphabet fuel place text) : Lexed t := by
  induction fuel generalizing place text with
  | zero => cases h
  | succ fuel ih =>
    cases text with
    | nil => cases h
    | cons c cs =>
      rw [pullsFrom] at h
      split at h
      · exact ih h
      · split at h
        · exact ih h
        · split at h
          · rcases List.mem_cons.1 h with hliteral | hmem
            · exact lexed_of_literal hliteral.symm
            · exact ih hmem
          · rcases List.mem_cons.1 h with hsingle | hmem
            · exact lexed_of_single hsingle.symm
            · exact ih hmem

/-- The tokens of a text hold the values that belong to their symbols. -/
theorem lexed_of_source {p : Parser Token} {text : String} {tokens : List (Tree Token)}
    (h : Calculator.source ⟨p, alphabet⟩ text = tokens.map .token) : ∀ t ∈ tokens, Lexed t := by
  intro t ht
  have hmem : Pull.token t ∈ Calculator.source ⟨p, alphabet⟩ text := by
    rw [h]
    exact List.mem_map.2 ⟨t, ht, rfl⟩
  exact lexed_of_mem_pullsFrom hmem

theorem operator?_cases {c : Char} {symbol : Nat} (h : alphabet.operator? c = some symbol) :
    (c = '+' ∧ symbol = 8) ∨ (c = '-' ∧ symbol = 5) ∨ (c = '*' ∧ symbol = 6) ∨
      (c = '/' ∧ symbol = 7) ∨ (c = '(' ∧ symbol = 3) ∨ (c = ')' ∧ symbol = 4) := by
  unfold Alphabet.operator? at h
  split_ifs at h with h₁ h₂ h₃ h₄ h₅ h₆ <;> cases h
  · exact Or.inl ⟨h₁, rfl⟩
  · exact Or.inr (Or.inl ⟨h₂, rfl⟩)
  · exact Or.inr (Or.inr (Or.inl ⟨h₃, rfl⟩))
  · exact Or.inr (Or.inr (Or.inr (Or.inl ⟨h₄, rfl⟩)))
  · exact Or.inr (Or.inr (Or.inr (Or.inr (Or.inl ⟨h₅, rfl⟩))))
  · exact Or.inr (Or.inr (Or.inr (Or.inr (Or.inr ⟨h₆, rfl⟩))))

theorem operator?_inj {c c' : Char} {symbol : Nat} (h : alphabet.operator? c = some symbol)
    (h' : alphabet.operator? c' = some symbol) : c' = c := by
  rcases operator?_cases h with ⟨rfl, rfl⟩ | ⟨rfl, rfl⟩ | ⟨rfl, rfl⟩ | ⟨rfl, rfl⟩ | ⟨rfl, rfl⟩ |
    ⟨rfl, rfl⟩ <;> simpa using operator?_cases h'

namespace Lexed

variable {t : Tree Token}

theorem symbol_of_operator (h : Lexed t) {c : Char} (hc : valueOf t = .operator c) :
    t.symbol = alphabet.operator? c := by
  rw [h.symbol_eq, hc]
  rfl

theorem exists_number (h : Lexed t) (hsymbol : t.symbol = some 2) : ∃ n, valueOf t = .number n := by
  rw [h.symbol_eq] at hsymbol
  cases hvalue : valueOf t with
  | invalid => simp [hvalue, Alphabet.symbol?] at hsymbol
  | number n => exact ⟨n, rfl⟩
  | operator c =>
    rw [hvalue] at hsymbol
    have hcases := operator?_cases hsymbol
    simp at hcases

/-- A token with the symbol of an operator is this operator. -/
theorem value_of_operator (h : Lexed t) {c : Char} {symbol : Nat}
    (hc : alphabet.operator? c = some symbol) (hsymbol : t.symbol = some symbol) :
    valueOf t = .operator c := by
  rw [h.symbol_eq] at hsymbol
  cases hvalue : valueOf t with
  | invalid => simp [hvalue, Alphabet.symbol?] at hsymbol
  | number n =>
    rw [hvalue] at hsymbol
    cases hsymbol
    have hcases := operator?_cases hc
    simp [alphabet] at hcases
  | operator c' =>
    rw [hvalue] at hsymbol
    rw [operator?_inj hc hsymbol]

end Lexed

end ShiftReduce.Calc
