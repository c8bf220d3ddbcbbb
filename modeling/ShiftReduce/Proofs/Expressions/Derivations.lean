import ShiftReduce.Proofs.Derivation
import ShiftReduce.Proofs.Expressions.Basic
import ShiftReduce.Proofs.Precedence

/-!
# Derivations of expressions, and which of them respect precedence

Among the derivations of an ambiguous expression there is one that respects precedence: no operand
of an operator goes after the operator itself.  This is a condition on neighbouring nodes alone.

* `Expression`: the derivations of expressions by the forms of their nodes;
* `Cfg.Expressions.expression_of_isDerivation`, `Cfg.Expressions.isDerivation_of_expression`: they
  are the derivations in the sense of the grammar;
* `Cfg.Joins`, `Cfg.Signs`: the productions of operators;
* `Grammar.LeftFits`, `Grammar.RightFits`: what can be an operand of a production;
* `Grammar.Respects`: derivations in which every operand fits;
* `Grammar.Groups`: those of given tokens.
-/

namespace ShiftReduce

variable {α : Type} {expr : Nat} {forms : List Form}

/-! ## Expressions by their forms -/

/-- The derivation is one of an expression. -/
inductive Expression (forms : List Form) : Derivation α → Prop
  | operand {p a : Nat} {t : Tree α} (hf : Form.at? forms p = some (.operand a))
    (ht : t.symbol = some a) : Expression forms (.node p [.token t])
  | enclosed {p l r : Nat} {t u : Tree α} {d : Derivation α}
    (hf : Form.at? forms p = some (.enclosed l r)) (ht : t.symbol = some l)
    (hu : u.symbol = some r) (hd : Expression forms d) :
    Expression forms (.node p [.token t, d, .token u])
  | signed {p o : Nat} {t : Tree α} {d : Derivation α} (hf : Form.at? forms p = some (.signed o))
    (ht : t.symbol = some o) (hd : Expression forms d) : Expression forms (.node p [.token t, d])
  | joined {p o : Nat} {t : Tree α} {d e : Derivation α}
    (hf : Form.at? forms p = some (.joined o)) (ht : t.symbol = some o) (hd : Expression forms d)
    (he : Expression forms e) : Expression forms (.node p [d, .token t, e])

namespace Cfg.Expressions

variable {g : Cfg} {p : Nat} {f : Form}

theorem isDerivation_token (h : g.Expressions expr forms) (hf : Form.at? forms p = some f)
    {symbol : Nat} (hmem : symbol ∈ f.terminals) {t : Tree α} (ht : t.symbol = some symbol) :
    g.IsDerivation (.token t) symbol :=
  .token ht (h.isTerminal_of_mem hf hmem)

theorem exists_token (h : g.Expressions expr forms) (hf : Form.at? forms p = some f)
    {symbol : Nat} (hmem : symbol ∈ f.terminals) {d : Derivation α}
    (hd : g.IsDerivation d symbol) : ∃ t : Tree α, d = .token t ∧ t.symbol = some symbol :=
  hd.exists_token (h.isTerminal_of_mem hf hmem)

theorem isDerivation_of_expression (h : g.Expressions expr forms) {d : Derivation α}
    (hd : Expression forms d) : g.IsDerivation d expr := by
  induction hd with
  | operand hf ht =>
    have ha := h.isDerivation_token hf (by simp [Form.terminals]) ht
    exact isDerivation_node_iff.2 ⟨_, h.rule_eq hf, rfl, .cons ha .nil⟩
  | enclosed hf ht hu _ ih =>
    have hl := h.isDerivation_token hf (by simp [Form.terminals]) ht
    have hr := h.isDerivation_token hf (by simp [Form.terminals]) hu
    exact isDerivation_node_iff.2 ⟨_, h.rule_eq hf, rfl, .cons hl (.cons ih (.cons hr .nil))⟩
  | signed hf ht _ ih =>
    have ho := h.isDerivation_token hf (by simp [Form.terminals]) ht
    exact isDerivation_node_iff.2 ⟨_, h.rule_eq hf, rfl, .cons ho (.cons ih .nil)⟩
  | joined hf ht _ _ ihd ihe =>
    have ho := h.isDerivation_token hf (by simp [Form.terminals]) ht
    exact isDerivation_node_iff.2 ⟨_, h.rule_eq hf, rfl, .cons ihd (.cons ho (.cons ihe .nil))⟩

theorem expression_of_isDerivation (h : g.Expressions expr forms) {d : Derivation α}
    (hd : g.IsDerivation d expr) : Expression forms d := by
  induction d using Derivation.induct with
  | token t =>
    cases hd with
    | token _ hterminal =>
      have hnonterminal := h.isNonterminal_expr
      rw [(isTerminal_iff.1 hterminal).2] at hnonterminal
      cases hnonterminal
  | node p children ih =>
    obtain ⟨rule, hrule, hleft, hchildren⟩ := isDerivation_node_iff.1 hd
    rcases h.rule_cases hrule with ⟨-, rfl⟩ | ⟨f, hf, rfl⟩
    · exact absurd hleft.symm h.expr_ne
    · cases f with
      | operand a =>
        obtain ⟨d, _, ha, hnil, rfl⟩ := List.forall₂_cons_right_iff.1 hchildren
        cases hnil
        obtain ⟨t, rfl, ht⟩ := h.exists_token hf (by simp [Form.terminals]) ha
        exact .operand hf ht
      | enclosed l r =>
        obtain ⟨d, _, hl, htail, rfl⟩ := List.forall₂_cons_right_iff.1 hchildren
        obtain ⟨e, _, he, hlast, rfl⟩ := List.forall₂_cons_right_iff.1 htail
        obtain ⟨c, _, hr, hnil, rfl⟩ := List.forall₂_cons_right_iff.1 hlast
        cases hnil
        obtain ⟨t, rfl, ht⟩ := h.exists_token hf (by simp [Form.terminals]) hl
        obtain ⟨u, rfl, hu⟩ := h.exists_token hf (by simp [Form.terminals]) hr
        exact .enclosed hf ht hu (ih e (by simp) he)
      | signed o =>
        obtain ⟨d, _, ho, htail, rfl⟩ := List.forall₂_cons_right_iff.1 hchildren
        obtain ⟨e, _, he, hnil, rfl⟩ := List.forall₂_cons_right_iff.1 htail
        cases hnil
        obtain ⟨t, rfl, ht⟩ := h.exists_token hf (by simp [Form.terminals]) ho
        exact .signed hf ht (ih e (by simp) he)
      | joined o =>
        obtain ⟨d, _, hd', htail, rfl⟩ := List.forall₂_cons_right_iff.1 hchildren
        obtain ⟨c, _, ho, hlast, rfl⟩ := List.forall₂_cons_right_iff.1 htail
        obtain ⟨e, _, he, hnil, rfl⟩ := List.forall₂_cons_right_iff.1 hlast
        cases hnil
        obtain ⟨t, rfl, ht⟩ := h.exists_token hf (by simp [Form.terminals]) ho
        exact .joined hf ht (ih d (by simp) hd') (ih e (by simp) he)

/-- The derivations of the start symbol have an expression below the root. -/
theorem isDerivation_start_iff (h : g.Expressions expr forms) {d : Derivation α} :
    g.IsDerivation d 0 ↔ ∃ e, d = .node 0 [e] ∧ Expression forms e := by
  constructor
  · intro hd
    obtain ⟨children, rfl⟩ := hd.exists_children
    obtain ⟨rule, hrule, -, hchildren⟩ := isDerivation_node_iff.1 hd
    rw [h.rule_zero] at hrule
    cases hrule
    obtain ⟨e, _, he, hnil, rfl⟩ := List.forall₂_cons_right_iff.1 hchildren
    cases hnil
    exact ⟨e, rfl, h.expression_of_isDerivation he⟩
  · rintro ⟨e, rfl, he⟩
    exact isDerivation_node_iff.2
      ⟨_, h.rule_zero, rfl, .cons (h.isDerivation_of_expression he) .nil⟩

end Cfg.Expressions

/-! ## Respecting precedence -/

/-- The production has an operator between two expressions. -/
def Cfg.Joins (g : Cfg) (p : Nat) : Prop :=
  ∃ left operator, g.rules[p]? = some ⟨left, [left, operator, left]⟩

/-- The production has an operator before an expression. -/
def Cfg.Signs (g : Cfg) (p : Nat) : Prop :=
  ∃ left operator, g.rules[p]? = some ⟨left, [operator, left]⟩

namespace Cfg.Expressions

variable {g : Cfg} {p o : Nat}

theorem joins (h : g.Expressions expr forms) (hf : Form.at? forms p = some (.joined o)) :
    g.Joins p :=
  ⟨expr, o, h.rule_eq hf⟩

theorem signs (h : g.Expressions expr forms) (hf : Form.at? forms p = some (.signed o)) :
    g.Signs p :=
  ⟨expr, o, h.rule_eq hf⟩

theorem exists_form_of_joins (h : g.Expressions expr forms) (hp : g.Joins p) :
    ∃ o, Form.at? forms p = some (.joined o) := by
  obtain ⟨left, o, hrule⟩ := hp
  rcases h.rule_cases hrule with ⟨-, heq⟩ | ⟨f, hf, heq⟩
  · cases heq
  · obtain ⟨rfl, hright⟩ := Rule.mk.inj heq
    cases f with
    | operand => cases hright
    | enclosed l r =>
      cases hright
      exact absurd rfl (h.opening_ne hf)
    | signed => cases hright
    | joined o => exact ⟨o, hf⟩

theorem exists_form_of_signs (h : g.Expressions expr forms) (hp : g.Signs p) :
    ∃ o, Form.at? forms p = some (.signed o) := by
  obtain ⟨left, o, hrule⟩ := hp
  rcases h.rule_cases hrule with ⟨-, heq⟩ | ⟨f, hf, heq⟩
  · cases heq
  · obtain ⟨rfl, hright⟩ := Rule.mk.inj heq
    cases f with
    | operand => cases hright
    | enclosed => cases hright
    | signed o => exact ⟨o, hf⟩
    | joined => cases hright

theorem not_joins_of_form (h : g.Expressions expr forms) {f : Form}
    (hf : Form.at? forms p = some f) (hnone : f.operator? = none) : ¬ g.Joins p := by
  intro hjoins
  obtain ⟨o, hf'⟩ := h.exists_form_of_joins hjoins
  rw [hf] at hf'
  cases hf'
  cases hnone

theorem not_joins_zero (h : g.Expressions expr forms) : ¬ g.Joins 0 := by
  intro hzero
  obtain ⟨o, hf⟩ := h.exists_form_of_joins hzero
  cases hf

theorem not_signs_zero (h : g.Expressions expr forms) : ¬ g.Signs 0 := by
  intro hzero
  obtain ⟨o, hf⟩ := h.exists_form_of_signs hzero
  cases hf

end Cfg.Expressions

namespace Grammar

variable {g : Grammar α}

/-- The derivation goes before the production when it is its left operand. -/
def LeftFits (g : Grammar α) (d : Derivation α) (p : Nat) : Prop :=
  ∀ q children, d = .node q children → g.cfg.Joins q → g.LeftFirst q p

/-- The derivation goes before the production when it is its right operand. -/
def RightFits (g : Grammar α) (p : Nat) (d : Derivation α) : Prop :=
  ∀ q children, d = .node q children → g.cfg.Joins q → g.RightFirst p q

/-- Operands go before their operators. -/
inductive Respects (g : Grammar α) : Derivation α → Prop
  | token (t : Tree α) : Respects g (.token t)
  | node {p : Nat} {children : List (Derivation α)} (hchildren : ∀ d ∈ children, Respects g d)
    (hleft : g.cfg.Joins p → ∀ d ∈ children.head?, g.LeftFits d p)
    (hright : g.cfg.Joins p ∨ g.cfg.Signs p → ∀ d ∈ children.getLast?, g.RightFits p d) :
    Respects g (.node p children)

theorem respects_node_iff {p : Nat} {children : List (Derivation α)} :
    g.Respects (.node p children) ↔ (∀ d ∈ children, g.Respects d) ∧
      (g.cfg.Joins p → ∀ d ∈ children.head?, g.LeftFits d p) ∧
      (g.cfg.Joins p ∨ g.cfg.Signs p → ∀ d ∈ children.getLast?, g.RightFits p d) := by
  constructor
  · intro h
    cases h with
    | node hchildren hleft hright => exact ⟨hchildren, hleft, hright⟩
  · rintro ⟨hchildren, hleft, hright⟩
    exact .node hchildren hleft hright

theorem leftFits_node_iff {p q : Nat} {children : List (Derivation α)} (hq : g.cfg.Joins q) :
    g.LeftFits (.node q children) p ↔ g.LeftFirst q p := by
  constructor
  · intro h
    exact h q children rfl hq
  · intro h q' children' heq _
    cases heq
    exact h

theorem rightFits_node_iff {p q : Nat} {children : List (Derivation α)} (hq : g.cfg.Joins q) :
    g.RightFits p (.node q children) ↔ g.RightFirst p q := by
  constructor
  · intro h
    exact h q children rfl hq
  · intro h q' children' heq _
    cases heq
    exact h

theorem leftFits_token (t : Tree α) (p : Nat) : g.LeftFits (.token t) p := by
  intro q children heq
  cases heq

theorem rightFits_token (p : Nat) (t : Tree α) : g.RightFits p (.token t) := by
  intro q children heq
  cases heq

theorem leftFits_of_not_joins {p q : Nat} {children : List (Derivation α)}
    (hq : ¬ g.cfg.Joins q) : g.LeftFits (.node q children) p := by
  intro q' children' heq hjoins
  cases heq
  exact absurd hjoins hq

theorem rightFits_of_not_joins {p q : Nat} {children : List (Derivation α)}
    (hq : ¬ g.cfg.Joins q) : g.RightFits p (.node q children) := by
  intro q' children' heq hjoins
  cases heq
  exact absurd hjoins hq

/-- What fits as the left operand of a production fits wherever the production does. -/
theorem LeftFits.rightFits {d : Derivation α} {p q : Nat} (hd : g.LeftFits d q)
    (hq : g.RightFirst p q) : g.RightFits p d := by
  intro r children heq hr
  exact hq.trans_leftFirst (hd r children heq hr)

/-- What fits as the right operand of a production fits wherever the production does. -/
theorem RightFits.leftFits {d : Derivation α} {p q : Nat} (hd : g.RightFits p d)
    (hp : g.LeftFirst p q) : g.LeftFits d q := by
  intro r children heq hr
  exact (hd r children heq hr).leftFirst_trans hp

section Nodes

variable {p : Nat} {t u : Tree α} {d e : Derivation α}

theorem respects_operand : g.Respects (.node p [.token t]) := by
  refine .node ?_ ?_ ?_
  · simpa using Respects.token t
  · simpa using fun _ => leftFits_token t p
  · simpa using fun _ => rightFits_token p t

theorem respects_enclosed (hd : g.Respects d) :
    g.Respects (.node p [.token t, d, .token u]) := by
  refine .node ?_ ?_ ?_
  · simpa using ⟨Respects.token t, hd, Respects.token u⟩
  · simpa using fun _ => leftFits_token t p
  · simpa using fun _ => rightFits_token p u

theorem respects_signed (hd : g.Respects d) (hright : g.RightFits p d) :
    g.Respects (.node p [.token t, d]) := by
  refine .node ?_ ?_ ?_
  · simpa using ⟨Respects.token t, hd⟩
  · simpa using fun _ => leftFits_token t p
  · simpa using fun _ => hright

theorem respects_joined (hd : g.Respects d) (he : g.Respects e) (hleft : g.LeftFits d p)
    (hright : g.RightFits p e) : g.Respects (.node p [d, .token t, e]) := by
  refine .node ?_ ?_ ?_
  · simpa using ⟨hd, Respects.token t, he⟩
  · simpa using fun _ => hleft
  · simpa using fun _ => hright

/-- At the root there is no operator. -/
theorem respects_start_iff (h : g.cfg.Expressions expr forms) :
    g.Respects (.node 0 [d]) ↔ g.Respects d := by
  simp [respects_node_iff, h.not_joins_zero, h.not_signs_zero]

end Nodes

/-- The derivation of an expression has these tokens and respects precedence. -/
structure Groups (g : Grammar α) (forms : List Form) (tokens : List (Tree α))
    (d : Derivation α) : Prop where
  expression : Expression forms d
  respects : g.Respects d
  yield_eq : d.yield = tokens

end Grammar

end ShiftReduce
