import ShiftReduce.Proofs.Parser.Alike
import ShiftReduce.Proofs.Parser.Completeness
import ShiftReduce.Proofs.Parser.Weight
import ShiftReduce.Proofs.Sentences

/-!
# Reductions of what vanishes

Under a lookahead that may follow, a run goes through a derivation of nothing by reductions alone.
So a symbol that vanishes is put on the stack, and an item that awaits only what vanishes is
completed and reduced.  And where an item awaits what begins with the lookahead, the reductions come
to an end: whatever stands before the lookahead vanishes, and then it is shifted.

* `Cfg.Starts`: the terminals a string begins with, symbol by symbol;
* `Parser.Reaches.changes`: steps that shift nothing restack the states;
* `Parser.exists_goto_of_vanishes`: a symbol that vanishes is put on the stack;
* `Parser.exists_reduced`: an item that awaits only what vanishes is reduced;
* `Parser.settles_of_starts`: before a lookahead that is awaited the stack settles.
-/

namespace ShiftReduce

/-! ## What a string starts with -/

namespace Cfg

variable {g : Cfg}

theorem vanishes_cons_iff {s : Nat} {u : List Nat} :
    g.Vanishes (s :: u) ↔ g.Vanishes [s] ∧ g.Vanishes u := by
  simp only [← vanishes_firstSets, FirstSets.vanishes_cons, Bool.and_eq_true]
  simp [FirstSets.vanishes]

/-- The string starts with the terminal after some symbols that vanish, or what its next symbol is
expanded to does. -/
inductive Starts (g : Cfg) : List Nat → Nat → Prop
  | here {t : Nat} (ht : g.isTerminal t = true) (u : List Nat) : Starts g (t :: u) t
  | expand {rule : Rule} (hrule : rule ∈ g.rules) {t : Nat} (h : Starts g rule.right t)
    (u : List Nat) : Starts g (rule.left :: u) t
  | skip {s t : Nat} {u : List Nat} (hs : g.Vanishes [s]) (h : Starts g u t) : Starts g (s :: u) t

theorem Starts.begins {u : List Nat} {t : Nat} (h : g.Starts u t) : g.Begins u t := by
  induction h with
  | here ht u => exact ⟨ht, u, Derives.refl _⟩
  | expand hrule _ u ih =>
    have hleft := (ih.of_derives (Derives.rule hrule)).append_left u
    exact hleft
  | skip hs _ ih => exact ih.append_right hs

theorem Starts.of_append {u v : List Nat} {t : Nat} (h : g.Starts (u ++ v) t) :
    g.Starts u t ∨ g.Vanishes u ∧ g.Starts v t := by
  induction u with
  | nil => exact Or.inr ⟨Derives.refl [], h⟩
  | cons s u ih =>
    cases h with
    | here ht => exact Or.inl (.here ht u)
    | expand hrule h => exact Or.inl (.expand hrule h u)
    | skip hs h =>
      rcases ih h with hu | ⟨hu, hv⟩
      · exact Or.inl (.skip hs hu)
      · exact Or.inr ⟨vanishes_cons_iff.2 ⟨hs, hu⟩, hv⟩

theorem Starts.of_produces {u v : List Nat} {t : Nat} (huv : g.Produces u v) (h : g.Starts v t) :
    g.Starts u t := by
  cases huv with
  | @expand rule hrule before after =>
    induction before with
    | nil =>
      rcases Starts.of_append (u := rule.right) h with hright | ⟨hright, hafter⟩
      · exact .expand hrule hright after
      · exact .skip ((Derives.rule hrule).trans hright) hafter
    | cons s before ih =>
      cases h with
      | here ht => exact .here ht _
      | expand hrule' h => exact .expand hrule' h _
      | skip hs h => exact .skip hs (ih h)

/-- What a string begins with it starts with. -/
theorem Begins.starts {u : List Nat} {t : Nat} (h : g.Begins u t) : g.Starts u t := by
  obtain ⟨ht, rest, hderives⟩ := h
  induction hderives using Relation.ReflTransGen.head_induction_on with
  | refl => exact .here ht rest
  | head hstep _ ih => exact ih.of_produces hstep

end Cfg

namespace Parser

variable {α ε : Type} {p : Parser α}

/-! ## Steps that shift nothing -/

/-- Steps after which nothing less is left of the source are reductions. -/
theorem Reaches.changes {c d : Config α ε} (h : p.Reaches c d)
    (hpulls : c.window.pulls ≤ d.window.pulls) :
    Changes (p.restack c.lookahead) (statesOf c) (statesOf d) := by
  suffices hboth : d.window.pulls ≤ c.window.pulls ∧ (c.window.pulls ≤ d.window.pulls →
      Changes (p.restack c.lookahead) (statesOf c) (statesOf d)) from hboth.2 hpulls
  clear hpulls
  induction h using Relation.ReflTransGen.head_induction_on with
  | refl => exact ⟨Nat.le_refl _, fun _ => .refl⟩
  | @head c e hstep _ ih =>
    cases hτ : p.restack c.lookahead (statesOf c) with
    | some τ =>
      obtain ⟨e', hstep', rfl, hwindow⟩ := step_of_restack_eq_some hτ
      cases hstep.symm.trans hstep'
      have hla : e.lookahead = c.lookahead := congrArg Window.lookahead hwindow
      rw [hwindow, hla] at ih
      exact ⟨ih.1, fun hle => (ih.2 hle).head hτ⟩
    | none =>
      rcases step_of_restack_eq_none hτ with ⟨o, hhalt⟩ | ⟨symbol, target, hla, -, hshift⟩
      · rw [hhalt] at hstep
        cases hstep
      · rw [hshift] at hstep
        have hfewer := (statesOf_of_shiftStep hla hstep).2
        have hle := ih.1
        exact ⟨by omega, fun hno => by omega⟩

/-- A stack with these states; its trees do not matter. -/
def framesOn (states : List Nat) : List (Frame α) := states.map fun q => ⟨q, Tree.endOfInput⟩

@[simp]
theorem map_state_framesOn (states : List Nat) :
    (framesOn states : List (Frame α)).map Frame.state = states := by
  simp [framesOn, Function.comp_def]

@[simp]
theorem topState_framesOn (states : List Nat) :
    topState (framesOn states : List (Frame α)) = states.headD 0 := by
  rw [topState_eq, map_state_framesOn]

/-- Tokens with the lookahead in sight. -/
def tokensFor (la : Lookahead) : List (Tree α) := la.toList.map Tree.empty

theorem head?_tokensFor (la : Lookahead) :
    (tokensFor la : List (Tree α)).head?.bind Tree.symbol = la := by
  cases la <;> rfl

/-- Steps of the parser without hooks and trimming on such a stack, with no token to go through. -/
theorem Reaches.changes_on {states : List Nat} {frames : List (Frame α)} {la : Lookahead}
    {s r s' r' : Nat}
    (h : p.bare.Reaches (Config.on (framesOn states) ([] ++ tokensFor la) s r : Config α ε)
      (Config.on (frames ++ framesOn states) (tokensFor la) s' r')) :
    Changes (p.restack la) states (frames.map Frame.state ++ states) := by
  have hbare : p.bare.restack la = p.restack la := rfl
  have hchanges := h.changes (Nat.le_refl _)
  rw [List.nil_append, Config.lookahead_on, head?_tokensFor] at hchanges
  simpa only [hbare, statesOf, Config.on, List.map_append, map_state_framesOn] using hchanges

/-! ## Derivations of nothing -/

section Decided

variable (hdecided : p.grammar.Decided) (hstart : ∀ rule ∈ p.grammar.cfg.rules, 0 ∉ rule.right)

include hdecided hstart

/-- An item that awaits what vanishes under the lookahead is completed. -/
theorem exists_completed {la : Lookahead} {states : List Nat} {production k : Nat} {rule : Rule}
    (hrule : p.grammar.cfg.rules[production]? = some rule)
    (hx : ⟨⟨production, k⟩, la⟩ ∈ p.grammar.cfg.lookaheads.state (states.headD 0))
    (hvanish : p.grammar.cfg.Vanishes (rule.right.drop k)) :
    ∃ pushed : List Nat, pushed.length = (rule.right.drop k).length ∧
      ⟨⟨production, rule.right.length⟩, la⟩ ∈
        p.grammar.cfg.lookaheads.state ((pushed ++ states).headD 0) ∧
      Changes (p.restack la) states (pushed ++ states) := by
  have hforest : ∃ ds : List (Derivation α),
      List.Forall₂ p.grammar.cfg.IsDerivation ds (rule.right.drop k) ∧
        Derivation.yieldAll ds = [] := hvanish.exists_forest (by simp) rfl
  obtain ⟨ds, hds, hyield⟩ := hforest
  have htraverses : ∀ d ∈ ds, p.bare.Traverses Unit d := fun d _ =>
    traverses (p := p.bare) hdecided p.grammar.hookFree_bare rfl hstart d
  rw [← head?_tokensFor (α := α) la, ← topState_framesOn (α := α)] at hx
  obtain ⟨frames, hframes, hdone, hreaches⟩ :=
    traverses_children (p := p.bare) htraverses hrule hds 0 0 hx
  rw [hyield] at hreaches
  refine ⟨frames.map Frame.state, ?_, ?_, ?_⟩
  · rw [← hds.length_eq, ← hframes.length_eq]
    simp
  · rwa [head?_tokensFor, topState_eq, List.map_append, map_state_framesOn] at hdone
  · exact hreaches.changes_on

/-- A symbol that vanishes is put on the stack when the lookahead may follow it. -/
theorem exists_goto_of_vanishes {la : Lookahead} {states : List Nat} {x : LookaheadItem}
    {symbol : Nat} (hx : x ∈ p.grammar.cfg.lookaheads.state (states.headD 0))
    (hnext : p.grammar.cfg.nextSymbol? x.item = some symbol)
    (hvanish : p.grammar.cfg.Vanishes [symbol])
    (hfollows : (∃ t, p.grammar.cfg.Begins (p.grammar.cfg.afterNext x.item) t ∧ la = some t) ∨
      (p.grammar.cfg.Vanishes (p.grammar.cfg.afterNext x.item) ∧ la = x.lookahead)) :
    ∃ target, p.grammar.cfg.collection.goto? (states.headD 0) symbol = some target ∧
      Changes (p.restack la) states (target :: states) := by
  have hyields : p.grammar.cfg.Yields (α := α) [symbol] [] := ⟨[], rfl, by simp, hvanish⟩
  obtain ⟨d, hd, hyield⟩ := hyields.exists_derivation
  rw [← topState_framesOn (α := α)] at hx
  obtain ⟨frame, hgoto, -, hreaches⟩ :=
    traverses (p := p.bare) (ε := Unit) hdecided p.grammar.hookFree_bare rfl hstart d symbol x
      (framesOn states) (tokensFor la) 0 0 hd hx hnext
      (by rwa [Cfg.Follows, head?_tokensFor])
  rw [hyield] at hreaches
  rw [topState_framesOn] at hgoto
  have hchanges : Changes (p.restack la) states ([frame].map Frame.state ++ states) :=
    hreaches.changes_on
  exact ⟨frame.state, hgoto, hchanges⟩

/-- A completed item is reduced under its lookahead, and unless the run accepts, the left side comes
on the stack in place of the right side. -/
theorem restack_of_completed {la : Lookahead} {states symbols : List Nat}
    (h : p.grammar.cfg.Path states symbols) {production : Nat} {rule : Rule}
    (hrule : p.grammar.cfg.rules[production]? = some rule)
    (hdone : ⟨⟨production, rule.right.length⟩, la⟩ ∈
      p.grammar.cfg.lookaheads.state (states.headD 0)) :
    (production = 0 ∧ p.restack la states = none) ∨
      production ≠ 0 ∧ ∃ target,
        p.grammar.cfg.collection.goto? ((states.drop rule.right.length).headD 0) rule.left =
          some target ∧
        p.restack la states = some (target :: states.drop rule.right.length) := by
  have haction := actionFor_reduce hdecided hrule hdone
  have hitem := (Cfg.proper_of_mem hdone).1
  rcases h.exists_below hrule hitem with ⟨hzero, hnil⟩ | ⟨target, hgoto⟩
  · refine Or.inl ⟨hzero, ?_⟩
    subst hzero
    have haccept : (rule.left == 0 && (states.drop rule.right.length).isEmpty) = true := by
      simp [Cfg.left_eq_zero hrule, hnil]
    simp only [restack, haction, hrule, haccept, if_true, ite_self]
  · obtain ⟨item, -, hnext⟩ := Cfg.exists_next_of_goto? hgoto
    have hleft : rule.left ≠ 0 := Cfg.ne_zero_of_nextSymbol? hstart hnext
    have htable := (p.goto?_table (Cfg.isNonterminal_left (List.mem_of_getElem? hrule))).trans hgoto
    refine Or.inr ⟨?_, target, hgoto, restack_eq_some_iff.2 ⟨production, rule, target, haction,
      hrule, (h.pop hrule hitem).1, by simp [hleft], htable, rfl⟩⟩
    rintro rfl
    exact hleft (Cfg.left_eq_zero hrule)

/-- An item that awaits only what vanishes under the lookahead is completed and reduced. -/
theorem exists_reduced {la : Lookahead} {states symbols : List Nat}
    (h : p.grammar.cfg.Path states symbols) {production k : Nat} {rule : Rule}
    (hrule : p.grammar.cfg.rules[production]? = some rule)
    (hx : ⟨⟨production, k⟩, la⟩ ∈ p.grammar.cfg.lookaheads.state (states.headD 0))
    (hvanish : p.grammar.cfg.Vanishes (rule.right.drop k)) :
    (production = 0 ∧ Settles (p.restack la) states) ∨
      production ≠ 0 ∧ ∃ states', p.grammar.cfg.Path states' (rule.left :: symbols.drop k) ∧
        Relation.TransGen (fun σ τ => p.restack la σ = some τ) states states' := by
  obtain ⟨pushed, hlength, hdone, hchanges⟩ := exists_completed hdecided hstart hrule hx hvanish
  obtain ⟨symbols', hpath⟩ := path_of_changes h hchanges
  have hdrop : (pushed ++ states).drop rule.right.length = states.drop k := by
    obtain ⟨rule', hrule', hle⟩ :=
      Cfg.mem_allItems.1 (Cfg.state_subset_allItems (Cfg.proper_of_mem hx).1)
    rw [hrule] at hrule'
    cases hrule'
    rw [List.length_drop] at hlength
    have hk : rule.right.length = pushed.length + k := by
      have hle' : k ≤ rule.right.length := hle
      omega
    rw [hk, List.drop_length_add_append]
  rcases restack_of_completed hdecided hstart hpath hrule hdone with
    ⟨hzero, hnone⟩ | ⟨hne, target, hgoto, hsome⟩
  · exact Or.inl ⟨hzero, .of_changes hchanges ⟨0, .here hnone⟩⟩
  · rw [hdrop] at hgoto hsome
    exact Or.inr ⟨hne, _, .enter (h.drop k) hgoto, .tail' hchanges hsome⟩

/-- Where an item awaits what starts with the lookahead, the reductions come to an end. -/
theorem settles_of_starts (hanchored : p.grammar.cfg.Anchored) {u : List Nat} {t : Nat}
    (hu : p.grammar.cfg.Starts u t) {states symbols : List Nat}
    (h : p.grammar.cfg.Path states symbols) {item : Item}
    (hitem : item ∈ p.grammar.cfg.collection.state (states.headD 0))
    (hahead : p.grammar.cfg.ahead item = u) : Settles (p.restack (some t)) states := by
  induction hu generalizing states symbols item with
  | here ht u =>
    -- The lookahead is awaited, and then the only thing to do is to shift it.
    obtain ⟨hnext, -⟩ := Cfg.nextSymbol?_of_drop_eq_cons hahead
    obtain ⟨target, hgoto⟩ := Cfg.exists_goto? hitem hnext
    have haction := actionFor_shift hdecided ht hgoto
    exact ⟨0, .here (by simp only [restack, haction])⟩
  | @expand rule hrule t _ u ih =>
    obtain ⟨hnext, -⟩ := Cfg.nextSymbol?_of_drop_eq_cons hahead
    obtain ⟨production, hproduction⟩ := List.getElem?_of_mem hrule
    have hbegun : ⟨production, 0⟩ ∈ p.grammar.cfg.awaited item :=
      Cfg.mem_awaited.2 ⟨rule.left, hnext, Cfg.mem_beginningsOf.2 ⟨rfl, rule, hproduction, rfl⟩⟩
    refine ih h (Cfg.mem_state_of_awaited hitem hbegun) ?_
    rw [Cfg.ahead_eq hproduction, List.drop_zero]
  | @skip s t u hs hu ih =>
    -- The item has some lookahead, and what is after the symbol starts with the one in sight.
    obtain ⟨hnext, hafter⟩ := Cfg.nextSymbol?_of_drop_eq_cons hahead
    obtain ⟨la, hvalid⟩ := hanchored.exists_validItem_of_mem_state h.walk?_eq hitem
    have hx := hvalid.mem_lookaheads h.walk?_eq
    have hbegins : p.grammar.cfg.Begins (p.grammar.cfg.afterNext item) t := hafter ▸ hu.begins
    obtain ⟨target, hgoto, hchanges⟩ := exists_goto_of_vanishes hdecided hstart hx hnext hs
      (Or.inl ⟨t, hbegins, rfl⟩)
    refine .of_changes hchanges (ih (.enter h hgoto) (Cfg.advance_mem_state hgoto hitem hnext) ?_)
    rw [Cfg.ahead_advance, hafter]

end Decided

end Parser

end ShiftReduce
