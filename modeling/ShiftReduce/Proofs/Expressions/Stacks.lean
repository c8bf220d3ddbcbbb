import ShiftReduce.Proofs.Expressions.Basic

/-!
# The stacks of an expression grammar

Seen from the top, the stack of an expression grammar has an expression, an operand or a closing on
it, or it is open: it ends with an opening, a sign or an operator, and an expression is awaited.
Below an operator there is an expression, and below that the stack is open.  No stack can be read in
two ways, which leaves only one place where actions compete: an expression before an operator.

* `Opened`: the stacks on which an expression is awaited;
* `Holds`, `Cfg.Expressions.holds_of_walk?`: the items that can come up over a stack;
* `Pending`, `Done`, `Continues`: what is completed over a stack, and what goes on with a terminal;
* `Cfg.Expressions.eq_of_done`, `Cfg.Expressions.not_opened_of_done`,
  `Cfg.Expressions.pending_of_competing`: what can compete.
-/

namespace ShiftReduce

variable {expr : Nat} {forms : List Form}

/-! ## Open stacks -/

/-- The stack, the top first, is one on which an expression is awaited. -/
inductive Opened (expr : Nat) (forms : List Form) : List Nat → Prop
  | start : Opened expr forms []
  | opening {u : List Nat} {p l r : Nat} (h : Opened expr forms u)
    (hf : Form.at? forms p = some (.enclosed l r)) : Opened expr forms (l :: u)
  | sign {u : List Nat} {p o : Nat} (h : Opened expr forms u)
    (hf : Form.at? forms p = some (.signed o)) : Opened expr forms (o :: u)
  | operator {u : List Nat} {p o : Nat} (h : Opened expr forms u)
    (hf : Form.at? forms p = some (.joined o)) : Opened expr forms (o :: expr :: u)

namespace Cfg.Expressions

variable {g : Cfg} {p : Nat} {u : List Nat}

/-- No expression is on top of an open stack. -/
theorem not_opened_expr (h : g.Expressions expr forms) : ¬ Opened expr forms (expr :: u) := by
  intro hopened
  generalize hstack : expr :: u = stack at hopened
  cases hopened with
  | start => cases hstack
  | opening _ hf =>
    cases hstack
    exact h.opening_ne hf rfl
  | sign _ hf =>
    cases hstack
    exact h.sign_ne hf rfl
  | operator _ hf =>
    cases hstack
    exact h.operator_ne hf rfl

/-- No operand is on top of an open stack. -/
theorem not_opened_operand (h : g.Expressions expr forms) {a : Nat} (hu : Opened expr forms u)
    (hf : Form.at? forms p = some (.operand a)) : ¬ Opened expr forms (a :: u) := by
  intro hopened
  cases hopened with
  | opening _ hf' => cases (h.eq_of_lead? hf hf' rfl rfl).2
  | sign _ hf' => cases (h.eq_of_lead? hf hf' rfl rfl).2
  | operator => exact h.not_opened_expr hu

/-- No closing is on top of an open stack. -/
theorem not_opened_closing (h : g.Expressions expr forms) {l r : Nat}
    (hf : Form.at? forms p = some (.enclosed l r)) : ¬ Opened expr forms (r :: expr :: u) := by
  intro hopened
  cases hopened with
  | opening hu _ => exact h.not_opened_expr hu
  | sign hu _ => exact h.not_opened_expr hu
  | operator _ hf' =>
    rcases h.closing_ne _ (Form.mem_of_at? hf) _ (Form.mem_of_at? hf') with hnone | hne
    · cases hnone
    · exact hne rfl

end Cfg.Expressions

/-! ## Items over a stack -/

/-- The item comes up over the stack. -/
inductive Holds (expr : Nat) (forms : List Form) : List Nat → Item → Prop
  | start : Holds expr forms [] ⟨0, 0⟩
  | whole : Holds expr forms [expr] ⟨0, 1⟩
  | begins {u : List Nat} {p : Nat} {f : Form} (h : Opened expr forms u)
    (hf : Form.at? forms p = some f) : Holds expr forms u ⟨p, 0⟩
  | operand {u : List Nat} {p a : Nat} (h : Opened expr forms u)
    (hf : Form.at? forms p = some (.operand a)) : Holds expr forms (a :: u) ⟨p, 1⟩
  | opening {u : List Nat} {p l r : Nat} (h : Opened expr forms u)
    (hf : Form.at? forms p = some (.enclosed l r)) : Holds expr forms (l :: u) ⟨p, 1⟩
  | inside {u : List Nat} {p l r : Nat} (h : Opened expr forms u)
    (hf : Form.at? forms p = some (.enclosed l r)) : Holds expr forms (expr :: l :: u) ⟨p, 2⟩
  | closed {u : List Nat} {p l r : Nat} (h : Opened expr forms u)
    (hf : Form.at? forms p = some (.enclosed l r)) : Holds expr forms (r :: expr :: l :: u) ⟨p, 3⟩
  | sign {u : List Nat} {p o : Nat} (h : Opened expr forms u)
    (hf : Form.at? forms p = some (.signed o)) : Holds expr forms (o :: u) ⟨p, 1⟩
  | signed {u : List Nat} {p o : Nat} (h : Opened expr forms u)
    (hf : Form.at? forms p = some (.signed o)) : Holds expr forms (expr :: o :: u) ⟨p, 2⟩
  | left {u : List Nat} {p o : Nat} (h : Opened expr forms u)
    (hf : Form.at? forms p = some (.joined o)) : Holds expr forms (expr :: u) ⟨p, 1⟩
  | operator {u : List Nat} {p o : Nat} (h : Opened expr forms u)
    (hf : Form.at? forms p = some (.joined o)) : Holds expr forms (o :: expr :: u) ⟨p, 2⟩
  | joined {u : List Nat} {p o : Nat} (h : Opened expr forms u)
    (hf : Form.at? forms p = some (.joined o)) :
    Holds expr forms (expr :: o :: expr :: u) ⟨p, 3⟩

namespace Cfg.Expressions

variable {g : Cfg} {σ : List Nat} {item : Item}

/-- When the dot moves over a symbol, the symbol joins the stack. -/
theorem holds_advance (h : g.Expressions expr forms) (hholds : Holds expr forms σ item)
    {symbol : Nat} (hnext : g.nextSymbol? item = some symbol) :
    Holds expr forms (symbol :: σ) item.advance := by
  cases hholds with
  | start =>
    rw [h.nextSymbol?_zero] at hnext
    cases hnext
    exact .whole
  | whole =>
    rw [h.nextSymbol?_zero] at hnext
    cases hnext
  | @begins u p f hu hf =>
    rw [h.nextSymbol?_eq hf] at hnext
    cases f with
    | operand a => cases hnext; exact .operand hu hf
    | enclosed l r => cases hnext; exact .opening hu hf
    | signed o => cases hnext; exact .sign hu hf
    | joined o => cases hnext; exact .left hu hf
  | operand hu hf => rw [h.nextSymbol?_eq hf] at hnext; cases hnext
  | opening hu hf => rw [h.nextSymbol?_eq hf] at hnext; cases hnext; exact .inside hu hf
  | inside hu hf => rw [h.nextSymbol?_eq hf] at hnext; cases hnext; exact .closed hu hf
  | closed hu hf => rw [h.nextSymbol?_eq hf] at hnext; cases hnext
  | sign hu hf => rw [h.nextSymbol?_eq hf] at hnext; cases hnext; exact .signed hu hf
  | signed hu hf => rw [h.nextSymbol?_eq hf] at hnext; cases hnext
  | left hu hf => rw [h.nextSymbol?_eq hf] at hnext; cases hnext; exact .operator hu hf
  | operator hu hf => rw [h.nextSymbol?_eq hf] at hnext; cases hnext; exact .joined hu hf
  | joined hu hf => rw [h.nextSymbol?_eq hf] at hnext; cases hnext

end Cfg.Expressions

/-! ## What comes next -/

/-- The production is to be reduced when an expression comes to lie on the open stack. -/
inductive Pending (expr : Nat) (forms : List Form) : List Nat → Nat → Prop
  | start : Pending expr forms [] 0
  | sign {u : List Nat} {p o : Nat} (h : Opened expr forms u)
    (hf : Form.at? forms p = some (.signed o)) : Pending expr forms (o :: u) p
  | operator {u : List Nat} {p o : Nat} (h : Opened expr forms u)
    (hf : Form.at? forms p = some (.joined o)) : Pending expr forms (o :: expr :: u) p

/-- The right side of the production is on top of the stack. -/
inductive Done (expr : Nat) (forms : List Form) : List Nat → Nat → Prop
  | operand {u : List Nat} {p a : Nat} (h : Opened expr forms u)
    (hf : Form.at? forms p = some (.operand a)) : Done expr forms (a :: u) p
  | closed {u : List Nat} {p l r : Nat} (h : Opened expr forms u)
    (hf : Form.at? forms p = some (.enclosed l r)) : Done expr forms (r :: expr :: l :: u) p
  | whole {u : List Nat} {p : Nat} (h : Pending expr forms u p) : Done expr forms (expr :: u) p

/-- After the expression on top of the stack the production goes on with the terminal. -/
inductive Continues (expr : Nat) (forms : List Form) : List Nat → Nat → Nat → Prop
  | operator {u : List Nat} {p o : Nat} (h : Opened expr forms u)
    (hf : Form.at? forms p = some (.joined o)) : Continues expr forms (expr :: u) o p
  | closing {u : List Nat} {p l r : Nat} (h : Opened expr forms u)
    (hf : Form.at? forms p = some (.enclosed l r)) : Continues expr forms (expr :: l :: u) r p

namespace Cfg.Expressions

variable {g : Cfg} {σ : List Nat} {item : Item}

theorem done_of_isComplete (h : g.Expressions expr forms) (hholds : Holds expr forms σ item)
    (hcomplete : g.isComplete item = true) : Done expr forms σ item.production := by
  have hnone : g.nextSymbol? item = none := by simpa [isComplete] using hcomplete
  cases hholds with
  | start =>
    rw [h.nextSymbol?_zero] at hnone
    cases hnone
  | whole => exact .whole .start
  | @begins u p f hu hf =>
    rw [h.nextSymbol?_eq hf] at hnone
    cases f <;> cases hnone
  | operand hu hf => exact .operand hu hf
  | opening hu hf => rw [h.nextSymbol?_eq hf] at hnone; cases hnone
  | inside hu hf => rw [h.nextSymbol?_eq hf] at hnone; cases hnone
  | closed hu hf => exact .closed hu hf
  | sign hu hf => rw [h.nextSymbol?_eq hf] at hnone; cases hnone
  | signed hu hf => exact .whole (.sign hu hf)
  | left hu hf => rw [h.nextSymbol?_eq hf] at hnone; cases hnone
  | operator hu hf => rw [h.nextSymbol?_eq hf] at hnone; cases hnone
  | joined hu hf => exact .whole (.operator hu hf)

/-- The stack is open, or an item goes on after the expression on top. -/
theorem opened_or_continues (h : g.Expressions expr forms) (hholds : Holds expr forms σ item)
    {symbol : Nat} (hnext : g.nextSymbol? item = some symbol) :
    Opened expr forms σ ∨ Continues expr forms σ symbol item.production := by
  cases hholds with
  | start => exact Or.inl .start
  | whole =>
    rw [h.nextSymbol?_zero] at hnext
    cases hnext
  | begins hu hf => exact Or.inl hu
  | operand hu hf => rw [h.nextSymbol?_eq hf] at hnext; cases hnext
  | opening hu hf => exact Or.inl (.opening hu hf)
  | inside hu hf =>
    rw [h.nextSymbol?_eq hf] at hnext
    cases hnext
    exact Or.inr (.closing hu hf)
  | closed hu hf => rw [h.nextSymbol?_eq hf] at hnext; cases hnext
  | sign hu hf => exact Or.inl (.sign hu hf)
  | signed hu hf => rw [h.nextSymbol?_eq hf] at hnext; cases hnext
  | left hu hf =>
    rw [h.nextSymbol?_eq hf] at hnext
    cases hnext
    exact Or.inr (.operator hu hf)
  | operator hu hf => exact Or.inl (.operator hu hf)
  | joined hu hf => rw [h.nextSymbol?_eq hf] at hnext; cases hnext

/-- Where an item awaits an expression the stack is open. -/
theorem opened_of_awaits (h : g.Expressions expr forms) (hholds : Holds expr forms σ item)
    (hnext : g.nextSymbol? item = some expr) : Opened expr forms σ := by
  rcases h.opened_or_continues hholds hnext with hopened | hcontinues
  · exact hopened
  · generalize hsymbol : expr = symbol at hcontinues
    cases hcontinues with
    | operator _ hf => exact absurd hsymbol.symm (h.operator_ne hf)
    | closing _ hf => exact absurd hsymbol.symm (h.closing_ne_expr hf)

/-- A valid item comes up over its string. -/
theorem holds_of_validItem (h : g.Expressions expr forms) {word : List Nat} {x : LookaheadItem}
    (hvalid : g.ValidItem word x) : Holds expr forms word.reverse x.item := by
  induction hvalid with
  | start => exact .start
  | move _ hnext ih =>
    rw [List.reverse_append]
    exact h.holds_advance ih hnext
  | @expand word x production rule la _ hrule hnext _ ih =>
    rcases h.rule_cases hrule with ⟨-, rfl⟩ | ⟨f, hf, rfl⟩
    · obtain ⟨rule', hrule', hsymbol⟩ := nextSymbol?_eq_some_iff.1 hnext
      exact absurd (List.mem_of_getElem? hsymbol)
        (h.start_not_mem rule' (List.mem_of_getElem? hrule'))
    · exact .begins (h.opened_of_awaits ih hnext) hf

/-- The items of a state come up over every stack that leads there. -/
theorem holds_of_walk? (h : g.Expressions expr forms) {q : Nat}
    (hwalk : g.collection.walk? σ.reverse = some q) (hitem : item ∈ g.collection.state q) :
    Holds expr forms σ item := by
  obtain ⟨la, hvalid⟩ := h.productive.exists_validItem_of_mem_state hwalk hitem
  have hholds := h.holds_of_validItem hvalid
  rwa [List.reverse_reverse] at hholds

/-! ## What competes -/

/-- Nothing is pending for an expression after an opening. -/
theorem not_pending_opening (h : g.Expressions expr forms) {u : List Nat} {p q l r : Nat}
    (hu : Opened expr forms u) (hf : Form.at? forms p = some (.enclosed l r)) :
    ¬ Pending expr forms (l :: u) q := by
  intro hpending
  cases hpending with
  | sign _ hf' => cases (h.eq_of_lead? hf hf' rfl rfl).2
  | operator => exact h.not_opened_expr hu

/-- At most one production is pending. -/
theorem eq_of_pending (h : g.Expressions expr forms) {u : List Nat} {p q : Nat}
    (hp : Pending expr forms u p) (hq : Pending expr forms u q) : q = p := by
  cases hp with
  | start =>
    cases hq
    rfl
  | sign hu hf =>
    cases hq with
    | sign _ hf' => exact (h.eq_of_lead? hf' hf rfl rfl).1
    | operator => exact absurd hu h.not_opened_expr
  | operator hu hf =>
    cases hq with
    | sign hu' _ => exact absurd hu' h.not_opened_expr
    | operator _ hf' => exact h.eq_of_operator? hf' hf

/-- At most one production has its right side on top of the stack. -/
theorem eq_of_done (h : g.Expressions expr forms) {p q : Nat} (hp : Done expr forms σ p)
    (hq : Done expr forms σ q) : q = p := by
  cases hp with
  | operand hu hf =>
    generalize hσ : _ :: _ = σ at hq
    cases hq with
    | operand _ hf' =>
      cases hσ
      exact (h.eq_of_lead? hf' hf rfl rfl).1
    | closed =>
      cases hσ
      exact absurd hu h.not_opened_expr
    | whole =>
      cases hσ
      exact absurd rfl (h.operand_ne hf)
  | closed hu hf =>
    generalize hσ : _ :: _ = σ at hq
    cases hq with
    | operand hu' _ =>
      cases hσ
      exact absurd hu' h.not_opened_expr
    | closed _ hf' =>
      cases hσ
      exact (h.eq_of_lead? hf' hf rfl rfl).1
    | whole =>
      cases hσ
      exact absurd rfl (h.closing_ne_expr hf)
  | whole hp =>
    generalize hσ : _ :: _ = σ at hq
    cases hq with
    | operand _ hf' =>
      cases hσ
      exact absurd rfl (h.operand_ne hf')
    | closed _ hf' =>
      cases hσ
      exact absurd rfl (h.closing_ne_expr hf')
    | whole hq =>
      cases hσ
      exact h.eq_of_pending hp hq

/-- No right side is on top of an open stack. -/
theorem not_opened_of_done (h : g.Expressions expr forms) {p : Nat} (hp : Done expr forms σ p) :
    ¬ Opened expr forms σ := by
  cases hp with
  | operand hu hf => exact h.not_opened_operand hu hf
  | closed _ hf => exact h.not_opened_closing hf
  | whole => exact h.not_opened_expr

/-- What is completed competes only with an operator after the expression on top. -/
theorem pending_of_competing (h : g.Expressions expr forms) {p q t : Nat}
    (hp : Done expr forms σ p) (hq : Continues expr forms σ t q) :
    ∃ u, σ = expr :: u ∧ Pending expr forms u p ∧ Form.at? forms q = some (.joined t) := by
  generalize hσ : σ = σ' at hq
  cases hq with
  | @operator u q o hu hf =>
    cases hp with
    | operand _ hf' =>
      cases hσ
      exact absurd rfl (h.operand_ne hf')
    | closed _ hf' =>
      cases hσ
      exact absurd rfl (h.closing_ne_expr hf')
    | whole hpending =>
      cases hσ
      exact ⟨u, rfl, hpending, hf⟩
  | closing hu hf =>
    cases hp with
    | operand _ hf' =>
      cases hσ
      exact absurd rfl (h.operand_ne hf')
    | closed _ hf' =>
      cases hσ
      exact absurd rfl (h.closing_ne_expr hf')
    | whole hpending =>
      cases hσ
      exact absurd hpending (h.not_pending_opening hu hf)

end Cfg.Expressions

end ShiftReduce
