import ShiftReduce.Proofs.Sentences

/-!
# Expression grammars

An expression is an operand, or an expression between two terminals, or an expression after an
operator, or two expressions with an operator between them.  Grammars of this kind are ambiguous;
precedence is there to settle them.

* `Form`: the kinds of right sides, with the terminals that tell them apart;
* `Cfg.Expressions`: the rules of an expression grammar;
* `Cfg.Expressions.productive`, `Cfg.Expressions.start_not_mem`: what holds of all of them;
* `Cfg.Expressions.eq_of_lead?`, `Cfg.Expressions.eq_of_operator?`: productions by their terminals.
-/

namespace ShiftReduce

/-! ## Forms of productions -/

/-- What the right side of a production for expressions looks like. -/
inductive Form where
  /-- A terminal that is an expression by itself. -/
  | operand (symbol : Nat)
  /-- An expression between two terminals. -/
  | enclosed (opening closing : Nat)
  /-- An expression after an operator. -/
  | signed (operator : Nat)
  /-- Two expressions with an operator between them. -/
  | joined (operator : Nat)
deriving DecidableEq, Repr

namespace Form

/-- The right side, in which `expr` is the symbol for expressions. -/
def right (expr : Nat) : Form → List Nat
  | operand a => [a]
  | enclosed l r => [l, expr, r]
  | signed o => [o, expr]
  | joined o => [expr, o, expr]

/-- The terminal that an expression of this form begins with. -/
def lead? : Form → Option Nat
  | operand a => some a
  | enclosed l _ => some l
  | signed o => some o
  | joined _ => none

/-- The operator between two expressions. -/
def operator? : Form → Option Nat
  | joined o => some o
  | _ => none

/-- The terminal that closes an expression. -/
def closing? : Form → Option Nat
  | enclosed _ r => some r
  | _ => none

/-- The terminals of the right side. -/
def terminals : Form → List Nat
  | operand a => [a]
  | enclosed l r => [l, r]
  | signed o => [o]
  | joined o => [o]

/-- Whether this is the form of an operand. -/
def isOperand : Form → Bool
  | operand _ => true
  | _ => false

/-- Two forms neither begin with the same terminal nor have the same operator in between. -/
def Apart (f f' : Form) : Prop :=
  (f.lead? = none ∨ f.lead? ≠ f'.lead?) ∧ (f.operator? = none ∨ f.operator? ≠ f'.operator?)

instance (f f' : Form) : Decidable (f.Apart f') :=
  inferInstanceAs (Decidable ((f.lead? = none ∨ f.lead? ≠ f'.lead?) ∧
    (f.operator? = none ∨ f.operator? ≠ f'.operator?)))

/-- The form of a production; the first production has none. -/
def at? (forms : List Form) : Nat → Option Form
  | 0 => none
  | p + 1 => forms[p]?

theorem mem_of_at? {forms : List Form} {p : Nat} {f : Form} (h : at? forms p = some f) :
    f ∈ forms := by
  cases p with
  | zero => cases h
  | succ p => exact List.mem_of_getElem? h

theorem exists_at?_of_mem {forms : List Form} {f : Form} (h : f ∈ forms) :
    ∃ p, at? forms p = some f := by
  obtain ⟨i, hi⟩ := List.getElem?_of_mem h
  exact ⟨i + 1, hi⟩

theorem mem_right_of_mem_terminals {expr t : Nat} {f : Form} (h : t ∈ f.terminals) :
    t ∈ f.right expr := by
  cases f with
  | operand a => exact h
  | enclosed l r =>
    simp only [terminals, List.mem_cons, List.not_mem_nil, or_false] at h
    rcases h with rfl | rfl
    · simp [right]
    · simp [right]
  | signed o => simp [right, List.mem_singleton.1 h]
  | joined o => simp [right, List.mem_singleton.1 h]

theorem eq_or_mem_terminals_of_mem_right {expr t : Nat} {f : Form} (h : t ∈ f.right expr) :
    t = expr ∨ t ∈ f.terminals := by
  cases f with
  | operand a => exact Or.inr h
  | enclosed l r =>
    simp only [right, List.mem_cons, List.not_mem_nil, or_false] at h
    rcases h with rfl | rfl | rfl
    · simp [terminals]
    · simp
    · simp [terminals]
  | signed o =>
    simp only [right, List.mem_cons, List.not_mem_nil, or_false] at h
    rcases h with rfl | rfl
    · simp [terminals]
    · simp
  | joined o =>
    simp only [right, List.mem_cons, List.not_mem_nil, or_false] at h
    rcases h with rfl | rfl | rfl
    · simp
    · simp [terminals]
    · simp

end Form

/-- The first rule makes `expr` the start, and the others are rules for `expr` of the given forms.
The terminals of the forms keep them apart. -/
structure Cfg.Expressions (g : Cfg) (expr : Nat) (forms : List Form) : Prop where
  rules_eq : g.rules = ⟨0, [expr]⟩ :: forms.map fun f => ⟨expr, f.right expr⟩
  expr_ne : expr ≠ 0
  terminals_ne : ∀ f ∈ forms, ∀ t ∈ f.terminals, t ≠ 0 ∧ t ≠ expr
  apart : forms.Pairwise Form.Apart
  /-- What closes an expression is no operator. -/
  closing_ne : ∀ f ∈ forms, ∀ f' ∈ forms, f.closing? = none ∨ f.closing? ≠ f'.operator?
  exists_operand : ∃ f ∈ forms, f.isOperand = true

namespace Cfg.Expressions

variable {g : Cfg} {expr : Nat} {forms : List Form} {p q : Nat} {f f' : Form}

theorem rule_eq (h : g.Expressions expr forms) (hf : Form.at? forms p = some f) :
    g.rules[p]? = some ⟨expr, f.right expr⟩ := by
  cases p with
  | zero => cases hf
  | succ p =>
    have hget : forms[p]? = some f := hf
    rw [h.rules_eq, List.getElem?_cons_succ, List.getElem?_map, hget]
    rfl

theorem rule_zero (h : g.Expressions expr forms) : g.rules[0]? = some ⟨0, [expr]⟩ := by
  rw [h.rules_eq]
  rfl

/-- A rule is the first one or has a form. -/
theorem rule_cases (h : g.Expressions expr forms) {rule : Rule} (hrule : g.rules[p]? = some rule) :
    (p = 0 ∧ rule = ⟨0, [expr]⟩) ∨
      ∃ f, Form.at? forms p = some f ∧ rule = ⟨expr, f.right expr⟩ := by
  rw [h.rules_eq] at hrule
  cases p with
  | zero =>
    cases hrule
    exact Or.inl ⟨rfl, rfl⟩
  | succ p =>
    rw [List.getElem?_cons_succ, List.getElem?_map, Option.map_eq_some_iff] at hrule
    obtain ⟨f, hf, rfl⟩ := hrule
    exact Or.inr ⟨f, hf, rfl⟩

theorem nextSymbol?_eq (h : g.Expressions expr forms) (hf : Form.at? forms p = some f) (k : Nat) :
    g.nextSymbol? ⟨p, k⟩ = (f.right expr)[k]? := by
  rw [nextSymbol?, @rightOf_eq g ⟨p, k⟩ _ (h.rule_eq hf)]

theorem nextSymbol?_zero (h : g.Expressions expr forms) (k : Nat) :
    g.nextSymbol? ⟨0, k⟩ = [expr][k]? := by
  rw [nextSymbol?, @rightOf_eq g ⟨0, k⟩ _ h.rule_zero]

theorem isNonterminal_expr (h : g.Expressions expr forms) : g.isNonterminal expr = true := by
  obtain ⟨f, hf, -⟩ := h.exists_operand
  obtain ⟨p, hp⟩ := Form.exists_at?_of_mem hf
  exact isNonterminal_left (List.mem_of_getElem? (h.rule_eq hp))

theorem ne_of_mem_terminals (h : g.Expressions expr forms) (hf : Form.at? forms p = some f)
    {t : Nat} (ht : t ∈ f.terminals) : t ≠ 0 ∧ t ≠ expr :=
  h.terminals_ne f (Form.mem_of_at? hf) t ht

theorem operand_ne (h : g.Expressions expr forms) {a : Nat}
    (hf : Form.at? forms p = some (.operand a)) : a ≠ expr :=
  (h.ne_of_mem_terminals hf (by simp [Form.terminals])).2

theorem opening_ne (h : g.Expressions expr forms) {l r : Nat}
    (hf : Form.at? forms p = some (.enclosed l r)) : l ≠ expr :=
  (h.ne_of_mem_terminals hf (by simp [Form.terminals])).2

theorem closing_ne_expr (h : g.Expressions expr forms) {l r : Nat}
    (hf : Form.at? forms p = some (.enclosed l r)) : r ≠ expr :=
  (h.ne_of_mem_terminals hf (by simp [Form.terminals])).2

theorem sign_ne (h : g.Expressions expr forms) {o : Nat}
    (hf : Form.at? forms p = some (.signed o)) : o ≠ expr :=
  (h.ne_of_mem_terminals hf (by simp [Form.terminals])).2

theorem operator_ne (h : g.Expressions expr forms) {o : Nat}
    (hf : Form.at? forms p = some (.joined o)) : o ≠ expr :=
  (h.ne_of_mem_terminals hf (by simp [Form.terminals])).2

theorem isTerminal_of_mem (h : g.Expressions expr forms) (hf : Form.at? forms p = some f) {t : Nat}
    (ht : t ∈ f.terminals) : g.isTerminal t = true := by
  have hright : t ∈ f.right expr := Form.mem_right_of_mem_terminals ht
  have hrange := (g.inRange _ (List.mem_of_getElem? (h.rule_eq hf))).2 t hright
  rcases isTerminal_or_isNonterminal hrange with hterminal | hnonterminal
  · exact hterminal
  · obtain ⟨rule, hrule, rfl⟩ := isNonterminal_iff.1 hnonterminal
    obtain ⟨q, hq⟩ := List.getElem?_of_mem hrule
    obtain ⟨hzero, hexpr⟩ := h.ne_of_mem_terminals hf ht
    rcases h.rule_cases hq with ⟨-, rfl⟩ | ⟨_, -, rfl⟩
    · exact absurd rfl hzero
    · exact absurd rfl hexpr

/-- The start symbol is on no right side. -/
theorem start_not_mem (h : g.Expressions expr forms) : ∀ rule ∈ g.rules, 0 ∉ rule.right := by
  intro rule hrule hmem
  obtain ⟨q, hq⟩ := List.getElem?_of_mem hrule
  rcases h.rule_cases hq with ⟨-, rfl⟩ | ⟨f, hf, rfl⟩
  · exact h.expr_ne (List.mem_singleton.1 hmem).symm
  · rcases Form.eq_or_mem_terminals_of_mem_right hmem with hexpr | hterminal
    · exact h.expr_ne hexpr.symm
    · exact (h.ne_of_mem_terminals hf hterminal).1 rfl

theorem productive (h : g.Expressions expr forms) : g.Productive := by
  obtain ⟨f, hf, hoperand⟩ := h.exists_operand
  obtain ⟨p, hp⟩ := Form.exists_at?_of_mem hf
  cases f with
  | operand a =>
    have hterminal : ∀ t ∈ [a], g.isTerminal t = true := fun t ht => h.isTerminal_of_mem hp ht
    have hexpr : g.Derives [expr] [a] := Derives.rule (List.mem_of_getElem? (h.rule_eq hp))
    have hstart : g.Derives [0] [expr] := Derives.rule (List.mem_of_getElem? h.rule_zero)
    intro symbol hsymbol
    obtain ⟨rule, hrule, rfl⟩ := isNonterminal_iff.1 hsymbol
    obtain ⟨q, hq⟩ := List.getElem?_of_mem hrule
    rcases h.rule_cases hq with ⟨-, rfl⟩ | ⟨_, -, rfl⟩
    · exact ⟨[a], hterminal, hstart.trans hexpr⟩
    · exact ⟨[a], hterminal, hexpr⟩
  | enclosed => cases hoperand
  | signed => cases hoperand
  | joined => cases hoperand

/-- Forms that are not apart are those of the same production. -/
theorem eq_of_not_apart (h : g.Expressions expr forms) (hf : Form.at? forms p = some f)
    (hf' : Form.at? forms q = some f') (hclash : ¬ f.Apart f') (hclash' : ¬ f'.Apart f) :
    p = q := by
  cases p with
  | zero => cases hf
  | succ i =>
    cases q with
    | zero => cases hf'
    | succ j =>
      obtain ⟨hi, rfl⟩ := List.getElem?_eq_some_iff.1 hf
      obtain ⟨hj, rfl⟩ := List.getElem?_eq_some_iff.1 hf'
      have hpairwise := List.pairwise_iff_getElem.1 h.apart
      rcases Nat.lt_trichotomy i j with hlt | rfl | hlt
      · exact absurd (hpairwise i j hi hj hlt) hclash
      · rfl
      · exact absurd (hpairwise j i hj hi hlt) hclash'

theorem eq_of_lead? (h : g.Expressions expr forms) (hf : Form.at? forms p = some f)
    (hf' : Form.at? forms q = some f') {t : Nat} (ht : f.lead? = some t) (ht' : f'.lead? = some t) :
    p = q ∧ f = f' := by
  have hpq : p = q := h.eq_of_not_apart hf hf' (by simp [Form.Apart, ht, ht'])
    (by simp [Form.Apart, ht, ht'])
  rw [hpq, hf'] at hf
  exact ⟨hpq, (Option.some.inj hf).symm⟩

theorem eq_of_operator? (h : g.Expressions expr forms) {o : Nat}
    (hf : Form.at? forms p = some (.joined o)) (hf' : Form.at? forms q = some (.joined o)) :
    p = q :=
  h.eq_of_not_apart hf hf' (by simp [Form.Apart, Form.operator?])
    (by simp [Form.Apart, Form.operator?])

end Cfg.Expressions

end ShiftReduce
