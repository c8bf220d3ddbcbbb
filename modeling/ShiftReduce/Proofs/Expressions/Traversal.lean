import ShiftReduce.Proofs.Expressions.Derivations
import ShiftReduce.Proofs.Expressions.Table
import ShiftReduce.Proofs.Parser.Crossing

/-!
# Runs over expressions

A run goes through every derivation that respects precedence.  On the way it meets operators on both
sides: one that is pending below the stack, and one that comes after the tokens.  That the root of
the derivation goes before both is enough, since a node that goes before its parent goes before
everything the parent goes before.

* `Parser.crosses_terminal`: the tokens of an expression are shifted;
* `Parser.crosses_of_respects`: a run goes through a derivation that respects precedence;
* `Parser.ends_accepted_of_groups`: it is accepted, and the tree shows the derivation.
-/

namespace ShiftReduce

variable {α ε : Type} {expr : Nat} {forms : List Form}

namespace Parser

variable {p : Parser α} {stack : List (Frame α)} {σ : List Nat} {x : LookaheadItem}
  {rest : List (Tree α)}

/-- The stack of a run is open where an item awaits an expression. -/
theorem opened_of_path (h : p.grammar.Expressions expr forms)
    (hpath : p.grammar.cfg.Path (stack.map Frame.state) σ)
    (hx : x ∈ p.grammar.cfg.lookaheads.state (topState stack))
    (hnext : p.grammar.cfg.nextSymbol? x.item = some expr) : Opened expr forms σ := by
  rw [topState_eq] at hx
  exact h.cfg.opened_of_awaits
    (h.cfg.holds_of_walk? hpath.walk?_eq (Cfg.proper_of_mem hx).1) hnext

/-- A terminal that an item awaits is shifted, unless a tighter production is pending. -/
theorem crosses_terminal (h : p.grammar.Expressions expr forms)
    (hpath : p.grammar.cfg.Path (stack.map Frame.state) σ)
    (hx : x ∈ p.grammar.cfg.lookaheads.state (topState stack)) {symbol : Nat} {t : Tree α}
    (hnext : p.grammar.cfg.nextSymbol? x.item = some symbol)
    (hterminal : p.grammar.cfg.isTerminal symbol = true) (ht : t.symbol = some symbol)
    (hfirst : ∀ u q q', σ = expr :: u → Pending expr forms u q → q ≠ 0 →
      Form.at? forms q' = some (.joined symbol) → p.grammar.RightFirst q q') :
    p.Crosses ε stack symbol (.token t) rest := by
  obtain ⟨target, hgoto⟩ := Cfg.exists_goto? (Cfg.proper_of_mem hx).1 hnext
  refine crosses_token ht hgoto ?_ rest
  rw [topState_eq] at hgoto ⊢
  exact actionFor_eq_shift h hpath hterminal hgoto hfirst

/-- On an open stack nothing is pending for the terminal. -/
theorem crosses_terminal_of_opened (h : p.grammar.Expressions expr forms)
    (hpath : p.grammar.cfg.Path (stack.map Frame.state) σ) (hopened : Opened expr forms σ)
    (hx : x ∈ p.grammar.cfg.lookaheads.state (topState stack)) {symbol : Nat} {t : Tree α}
    (hnext : p.grammar.cfg.nextSymbol? x.item = some symbol)
    (hterminal : p.grammar.cfg.isTerminal symbol = true) (ht : t.symbol = some symbol) :
    p.Crosses ε stack symbol (.token t) rest := by
  refine crosses_terminal h hpath hx hnext hterminal ht ?_
  rintro u q q' rfl
  exact absurd hopened h.cfg.not_opened_expr

/-- The production that is pending on the stack goes after the derivation. -/
def FitsOn (p : Parser α) (expr : Nat) (forms : List Form) (σ : List Nat) (d : Derivation α) :
    Prop :=
  ∀ q, Pending expr forms σ q → q ≠ 0 → p.grammar.RightFits q d

/-- The operator that comes next goes after the derivation. -/
def FitsBefore (p : Parser α) (forms : List Form) (d : Derivation α) (rest : List (Tree α)) :
    Prop :=
  ∀ q o, rest.head?.bind Tree.symbol = some o → Form.at? forms q = some (.joined o) →
    p.grammar.LeftFits d q

/-- From where an item awaits an expression, the run goes through the derivation. -/
def CrossesExpression (p : Parser α) (ε : Type) (expr : Nat) (forms : List Form)
    (d : Derivation α) : Prop :=
  ∀ (stack : List (Frame α)) (σ : List Nat) (x : LookaheadItem) (rest : List (Tree α)),
    p.grammar.cfg.Path (stack.map Frame.state) σ →
    x ∈ p.grammar.cfg.lookaheads.state (topState stack) →
    p.grammar.cfg.nextSymbol? x.item = some expr → p.grammar.cfg.Follows x rest →
    p.FitsOn expr forms σ d → p.FitsBefore forms d rest → p.Crosses ε stack expr d rest

/-- A node is crossed where its children are, if the operator that comes next goes after it. -/
theorem crosses_form (h : p.grammar.Expressions expr forms) (hfree : p.grammar.HookFree)
    (htrim : p.trim = false) {q : Nat} {f : Form} (hf : Form.at? forms q = some f)
    {children : List (Derivation α)}
    (hderived : List.Forall₂ p.grammar.cfg.IsDerivation children (f.right expr))
    (hpath : p.grammar.cfg.Path (stack.map Frame.state) σ)
    (hx : x ∈ p.grammar.cfg.lookaheads.state (topState stack))
    (hnext : p.grammar.cfg.nextSymbol? x.item = some expr) (hfollows : p.grammar.cfg.Follows x rest)
    (hcross : p.CrossesChildren ε q ⟨expr, f.right expr⟩ children stack σ
      (rest.head?.bind Tree.symbol) rest)
    (hfirst : ∀ u o q', (f.right expr).reverse ++ σ = expr :: u →
      rest.head?.bind Tree.symbol = some o → Form.at? forms q' = some (.joined o) →
      p.grammar.LeftFirst q q') :
    p.Crosses ε stack expr (.node q children) rest := by
  have hrule := h.cfg.rule_eq hf
  have hbegin : ⟨⟨q, 0⟩, rest.head?.bind Tree.symbol⟩ ∈
      p.grammar.cfg.lookaheads.state (topState stack) := by
    refine Cfg.mem_lookaheads_of_awaitedWith hx (Cfg.mem_awaitedWith_firstSets.2 ?_)
    exact ⟨expr, hnext, Cfg.mem_beginningsOf.2 ⟨rfl, _, hrule, rfl⟩, hfollows⟩
  obtain ⟨target, hgoto⟩ := Cfg.exists_goto? (Cfg.proper_of_mem hx).1 hnext
  refine crosses_node hfree htrim hrule h.cfg.expr_ne hderived hpath hbegin rfl hgoto hcross ?_
  intro frames hpath' hdone
  rw [topState_eq] at hdone ⊢
  refine actionFor_eq_reduce h hpath' hdone (Cfg.isComplete_end hrule) ?_
  intro u o q' hσ _ hla hf'
  exact hfirst u o q' hσ hla hf'

section Forms

variable {q : Nat} {t : Tree α}

theorem crosses_operand (h : p.grammar.Expressions expr forms) (hfree : p.grammar.HookFree)
    (htrim : p.trim = false) {a : Nat} (hf : Form.at? forms q = some (.operand a))
    (ht : t.symbol = some a) : p.CrossesExpression ε expr forms (.node q [.token t]) := by
  intro stack σ x rest hpath hx hnext hfollows _ _
  have hopened := opened_of_path h hpath hx hnext
  have hterminal := h.cfg.isTerminal_of_mem hf (List.mem_singleton_self a)
  refine crosses_form h hfree htrim hf (.cons (.token ht hterminal) .nil) hpath hx hnext hfollows
    ?_ ?_
  · intro i d symbol frames hd hsymbol hpath' hitem _
    match i with
    | 0 =>
      cases hd
      cases hsymbol
      exact crosses_terminal_of_opened h hpath' hopened hitem (h.cfg.nextSymbol?_eq hf 0)
        hterminal ht
    | _ + 1 => cases hd
  · intro u o q' hσ
    exact absurd (List.cons.inj hσ).1 (h.cfg.operand_ne hf)

theorem crosses_enclosed (h : p.grammar.Expressions expr forms) (hfree : p.grammar.HookFree)
    (htrim : p.trim = false) {l r : Nat} (hf : Form.at? forms q = some (.enclosed l r))
    (ht : t.symbol = some l) {t' : Tree α} (ht' : t'.symbol = some r) {d : Derivation α}
    (hd : Expression forms d) (ih : p.CrossesExpression ε expr forms d) :
    p.CrossesExpression ε expr forms (.node q [.token t, d, .token t']) := by
  intro stack σ x rest hpath hx hnext hfollows _ _
  have hopened := opened_of_path h hpath hx hnext
  have hl := h.cfg.isTerminal_of_mem hf (t := l) (by simp [Form.terminals])
  have hr := h.cfg.isTerminal_of_mem hf (t := r) (by simp [Form.terminals])
  have hnothing : ∀ q', ¬ Pending expr forms (l :: σ) q' := fun q' =>
    h.cfg.not_pending_opening hopened hf
  refine crosses_form h hfree htrim hf (.cons (.token ht hl)
    (.cons (h.cfg.isDerivation_of_expression hd) (.cons (.token ht' hr) .nil)))
    hpath hx hnext hfollows ?_ ?_
  · intro i e symbol frames he hsymbol hpath' hitem hfollows'
    rcases i with _ | _ | _ | _
    · cases he
      cases hsymbol
      exact crosses_terminal_of_opened h hpath' hopened hitem (h.cfg.nextSymbol?_eq hf 0) hl ht
    · cases he
      cases hsymbol
      refine ih _ _ _ _ hpath' hitem (h.cfg.nextSymbol?_eq hf 1) hfollows' ?_ ?_
      · intro q' hpending
        exact absurd hpending (hnothing q')
      · -- what closes an expression is no operator
        intro q' o ho hf'
        have heq : r = o := Option.some.inj (ht'.symm.trans ho)
        rcases h.cfg.closing_ne _ (Form.mem_of_at? hf) _ (Form.mem_of_at? hf') with hnone | hne
        · cases hnone
        · exact absurd (congrArg some heq) hne
    · cases he
      cases hsymbol
      refine crosses_terminal h hpath' hitem (h.cfg.nextSymbol?_eq hf 2) hr ht' ?_
      intro u q' _ hσ hpending
      cases hσ
      exact absurd hpending (hnothing q')
    · cases he
  · intro u o q' hσ
    exact absurd (List.cons.inj hσ).1 (h.cfg.closing_ne_expr hf)

theorem crosses_signed (h : p.grammar.Expressions expr forms) (hfree : p.grammar.HookFree)
    (htrim : p.trim = false) {o : Nat} (hf : Form.at? forms q = some (.signed o))
    (ht : t.symbol = some o) {d : Derivation α} (hd : Expression forms d)
    (hfits : p.grammar.RightFits q d) (ih : p.CrossesExpression ε expr forms d) :
    p.CrossesExpression ε expr forms (.node q [.token t, d]) := by
  intro stack σ x rest hpath hx hnext hfollows _ _
  have hopened := opened_of_path h hpath hx hnext
  have ho := h.cfg.isTerminal_of_mem hf (List.mem_singleton_self o)
  have hsign : ∀ q' o', Form.at? forms q' = some (.joined o') → p.grammar.LeftFirst q q' :=
    fun q' o' hf' => Or.inl (h.sign_lt q q' o o' hf hf')
  refine crosses_form h hfree htrim hf
    (.cons (.token ht ho) (.cons (h.cfg.isDerivation_of_expression hd) .nil))
    hpath hx hnext hfollows ?_ ?_
  · intro i e symbol frames he hsymbol hpath' hitem hfollows'
    match i with
    | 0 =>
      cases he
      cases hsymbol
      exact crosses_terminal_of_opened h hpath' hopened hitem (h.cfg.nextSymbol?_eq hf 0) ho ht
    | 1 =>
      cases he
      cases hsymbol
      refine ih _ _ _ _ hpath' hitem (h.cfg.nextSymbol?_eq hf 1) hfollows' ?_ ?_
      · intro q' hpending _
        rw [h.cfg.eq_of_pending (.sign hopened hf) hpending]
        exact hfits
      · intro q' o' _ hf'
        exact hfits.leftFits (hsign q' o' hf')
    | _ + 2 => cases he
  · intro u o' q' _ _ hf'
    exact hsign q' o' hf'

theorem crosses_joined (h : p.grammar.Expressions expr forms) (hfree : p.grammar.HookFree)
    (htrim : p.trim = false) {o : Nat} (hf : Form.at? forms q = some (.joined o))
    (ht : t.symbol = some o) {d e : Derivation α} (hd : Expression forms d)
    (he : Expression forms e) (hleft : p.grammar.LeftFits d q) (hright : p.grammar.RightFits q e)
    (ihd : p.CrossesExpression ε expr forms d) (ihe : p.CrossesExpression ε expr forms e) :
    p.CrossesExpression ε expr forms (.node q [d, .token t, e]) := by
  intro stack σ x rest hpath hx hnext hfollows hon hbefore
  have hopened := opened_of_path h hpath hx hnext
  have ho := h.cfg.isTerminal_of_mem hf (List.mem_singleton_self o)
  have hjoins := h.cfg.joins hf
  have hbelow : ∀ q', Pending expr forms σ q' → q' ≠ 0 → p.grammar.RightFirst q' q :=
    fun q' hpending hne => (Grammar.rightFits_node_iff hjoins).1 (hon q' hpending hne)
  have habove : ∀ q' o', rest.head?.bind Tree.symbol = some o' →
      Form.at? forms q' = some (.joined o') → p.grammar.LeftFirst q q' :=
    fun q' o' ho' hf' => (Grammar.leftFits_node_iff hjoins).1 (hbefore q' o' ho' hf')
  refine crosses_form h hfree htrim hf (.cons (h.cfg.isDerivation_of_expression hd)
    (.cons (.token ht ho) (.cons (h.cfg.isDerivation_of_expression he) .nil)))
    hpath hx hnext hfollows ?_ ?_
  · intro i c symbol frames hc hsymbol hpath' hitem hfollows'
    rcases i with _ | _ | _ | _
    · cases hc
      cases hsymbol
      refine ihd _ _ _ _ hpath' hitem (h.cfg.nextSymbol?_eq hf 0) hfollows' ?_ ?_
      · intro q' hpending hne
        exact hleft.rightFits (hbelow q' hpending hne)
      · -- the operator after the left operand is the one of this node
        intro q' o' ho' hf'
        have heq : o = o' := Option.some.inj (ht.symm.trans ho')
        rw [h.cfg.eq_of_operator? hf' (heq ▸ hf)]
        exact hleft
    · cases hc
      cases hsymbol
      refine crosses_terminal h hpath' hitem (h.cfg.nextSymbol?_eq hf 1) ho ht ?_
      intro u q' q'' hσ hpending hne hf'
      cases hσ
      rw [h.cfg.eq_of_operator? hf' hf]
      exact hbelow q' hpending hne
    · cases hc
      cases hsymbol
      refine ihe _ _ _ _ hpath' hitem (h.cfg.nextSymbol?_eq hf 2) hfollows' ?_ ?_
      · intro q' hpending _
        rw [h.cfg.eq_of_pending (.operator hopened hf) hpending]
        exact hright
      · intro q' o' ho' hf'
        exact hright.leftFits (habove q' o' ho' hf')
    · cases hc
  · intro u o' q' _ ho' hf'
    exact habove q' o' ho' hf'

end Forms

/-- A run goes through every derivation of an expression that respects precedence. -/
theorem crosses_of_respects (h : p.grammar.Expressions expr forms) (hfree : p.grammar.HookFree)
    (htrim : p.trim = false) {d : Derivation α} (hd : Expression forms d)
    (hrespects : p.grammar.Respects d) : p.CrossesExpression ε expr forms d := by
  induction hd with
  | operand hf ht => exact crosses_operand h hfree htrim hf ht
  | @enclosed q l r t u d hf ht hu hd ih =>
    obtain ⟨hchildren, -, -⟩ := Grammar.respects_node_iff.1 hrespects
    exact crosses_enclosed h hfree htrim hf ht hu hd (ih (hchildren d (by simp)))
  | @signed q o t d hf ht hd ih =>
    obtain ⟨hchildren, -, hright⟩ := Grammar.respects_node_iff.1 hrespects
    exact crosses_signed h hfree htrim hf ht hd (hright (Or.inr (h.cfg.signs hf)) d rfl)
      (ih (hchildren d (by simp)))
  | @joined q o t d e hf ht hd he ihd ihe =>
    obtain ⟨hchildren, hleft, hright⟩ := Grammar.respects_node_iff.1 hrespects
    have hjoins := h.cfg.joins hf
    exact crosses_joined h hfree htrim hf ht hd he (hleft hjoins d rfl)
      (hright (Or.inl hjoins) e rfl) (ihd (hchildren d (by simp))) (ihe (hchildren e (by simp)))

/-! ## Whole runs -/

/-- A run accepts tokens that can be grouped, and returns a tree that shows the groups. -/
theorem ends_accepted_of_groups (h : p.grammar.Expressions expr forms)
    (hfree : p.grammar.HookFree) (htrim : p.trim = false) {tokens : List (Tree α)}
    {d : Derivation α} (hd : p.grammar.Groups forms tokens d) :
    ∃ root : Tree α, p.grammar.cfg.Depicts root (.node 0 [d]) ∧
      p.Ends (start (tokens.map fun t => (.token t : Pull α ε)))
        ⟨.accepted root, ⟨tokens.length, tokens.length, d.nodeCount + 1⟩, []⟩ := by
  obtain ⟨hexpression, hrespects, rfl⟩ := hd
  have hrule := h.cfg.rule_zero
  have hbegin : ⟨⟨0, 0⟩, none⟩ ∈ p.grammar.cfg.lookaheads.state (topState ([] : List (Frame α))) :=
    p.grammar.cfg.start_mem_lookaheads
  have hcross : p.CrossesChildren ε 0 ⟨0, [expr]⟩ [d] [] [] none [] := by
    intro i e symbol frames he hsymbol hpath hitem hfollows
    match i with
    | 0 =>
      cases he
      cases hsymbol
      refine crosses_of_respects h hfree htrim hexpression hrespects _ _ _ _ hpath hitem
        (h.cfg.nextSymbol?_zero 0) hfollows ?_ ?_
      · intro q hpending hne
        generalize hσ : (List.take 0 [expr]).reverse ++ ([] : List Nat) = σ at hpending
        cases hpending with
        | start => exact absurd rfl hne
        | sign => cases hσ
        | operator => cases hσ
      · intro q o ho
        cases ho
    | _ + 1 => cases he
  obtain ⟨frames, hframes, hpath, hdone, hreaches⟩ :=
    exists_frames_of_children hrule (.cons (h.cfg.isDerivation_of_expression hexpression) .nil)
      .start hbegin rfl hcross (Nat.le_refl [d].length)
  have hlength : frames.length = [expr].length := by simpa using hframes.length_eq
  rw [List.append_nil] at hpath hdone
  have haction : p.actionFor (topState frames) (([] : List (Tree α)).head?.bind Tree.symbol) =
      .reduce 0 := by
    rw [topState_eq] at hdone ⊢
    refine actionFor_eq_reduce h hpath hdone (Cfg.isComplete_end hrule) ?_
    intro u o q _ _ hla
    cases hla
  have hstep : ∀ s r, p.step (Config.on frames [] s r : Config α ε) =
      p.reduceStep (Config.on frames [] s r) 0 := by
    intro s r
    unfold step
    rw [Config.state_on, Config.lookahead_on, haction]
  refine ⟨p.reduce 0 ⟨0, [expr]⟩ (frames.map Frame.tree).reverse, ?_, ?_⟩
  · rw [reduce_eq hfree htrim]
    exact .node _ hrule hframes
  · rw [start_map_token]
    have hgoes := hreaches 0 0
    rw [List.drop_length, List.take_length] at hgoes
    simp only [Derivation.yieldAll, Derivation.nodeCountAll, List.append_nil, Nat.zero_add,
      Nat.add_zero] at hgoes
    refine hgoes.ends (.next ?_)
    rw [hstep, reduceStep_accept hrule hlength]
    exact .halt

end Parser

end ShiftReduce
