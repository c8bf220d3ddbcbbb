import ShiftReduce.Proofs.Expressions.Stacks
import ShiftReduce.Proofs.Parser.Soundness
import ShiftReduce.Proofs.Precedence

/-!
# The table of an expression grammar

In the table of an expression grammar the only actions that compete are the reduction of an
expression and the shift of an operator after it.  Precedence decides between them, provided that
the groups of operators have an associativity.

* `Grammar.Expressions`: expression grammars with precedence;
* `Grammar.Expressions.conflicts_eq_nil`: their tables have no conflicts;
* `Parser.actionFor_eq_shift`, `Parser.actionFor_eq_reduce`: what their parsers do.
-/

namespace ShiftReduce

variable {α : Type} {expr : Nat} {forms : List Form}

/-- An expression grammar in which every group with an operator between expressions has an
associativity, and signs are tighter than such operators. -/
structure Grammar.Expressions (g : Grammar α) (expr : Nat) (forms : List Form) : Prop where
  cfg : g.cfg.Expressions expr forms
  settled : ∀ p o, Form.at? forms p = some (.joined o) → g.associativity (g.rank p) ≠ .none
  sign_lt : ∀ p q o o', Form.at? forms p = some (.signed o) →
    Form.at? forms q = some (.joined o') → g.rank p < g.rank q

namespace Grammar.Expressions

variable {g : Grammar α} {σ : List Nat} {q p t : Nat} {la : Lookahead}

theorem done_of_completed (h : g.Expressions expr forms)
    (hwalk : g.cfg.collection.walk? σ.reverse = some q) (hp : g.Completed q la p) :
    Done expr forms σ p := by
  obtain ⟨x, hx, -, hcomplete, rfl⟩ := hp
  exact h.cfg.done_of_isComplete (h.cfg.holds_of_walk? hwalk (Cfg.proper_of_mem hx).1) hcomplete

theorem opened_or_continues_of_awaits (h : g.Expressions expr forms)
    (hwalk : g.cfg.collection.walk? σ.reverse = some q) (hp : g.Awaits q t p) :
    Opened expr forms σ ∨ Continues expr forms σ t p := by
  obtain ⟨item, hitem, hnext, rfl⟩ := hp
  exact h.cfg.opened_or_continues (h.cfg.holds_of_walk? hwalk hitem) hnext

/-- A completed production and one that awaits a terminal meet at an expression before an
operator. -/
theorem pending_of_completed_of_awaits (h : g.Expressions expr forms)
    (hwalk : g.cfg.collection.walk? σ.reverse = some q) {p' : Nat}
    (hp : g.Completed q (some t) p) (hp' : g.Awaits q t p') :
    ∃ u, σ = expr :: u ∧ Pending expr forms u p ∧ p ≠ 0 ∧
      Form.at? forms p' = some (.joined t) := by
  have hdone := h.done_of_completed hwalk hp
  have hne : p ≠ 0 := by
    rintro rfl
    obtain ⟨x, hx, hla, -, hzero⟩ := hp
    rw [Cfg.lookahead_eq_none_of_start h.cfg.start_not_mem hx hzero] at hla
    cases hla
  rcases h.opened_or_continues_of_awaits hwalk hp' with hopened | hcontinues
  · exact absurd hopened (h.cfg.not_opened_of_done hdone)
  · obtain ⟨u, hσ, hpending, hf⟩ := h.cfg.pending_of_competing hdone hcontinues
    exact ⟨u, hσ, hpending, hne, hf⟩

theorem eq_of_completed (h : g.Expressions expr forms) {p' : Nat} (hp : g.Completed q la p)
    (hp' : g.Completed q la p') : p' = p := by
  obtain ⟨x, hx, -⟩ := id hp
  obtain ⟨word, hwalk⟩ :=
    Cfg.exists_walk? (Collection.lt_size_of_mem_state (Cfg.proper_of_mem hx).1)
  rw [← List.reverse_reverse word] at hwalk
  exact h.cfg.eq_of_done (h.done_of_completed hwalk hp) (h.done_of_completed hwalk hp')

/-- The table of an expression grammar has no conflicts. -/
theorem conflicts_eq_nil (h : g.Expressions expr forms) :
    g.automaton.table.conflicts = [] := by
  apply conflicts_eq_nil_of_settled
  · intro q la p p' hp hp'
    exact h.eq_of_completed hp hp'
  · intro q t p p' hp hp'
    obtain ⟨x, hx, -⟩ := id hp
    obtain ⟨word, hwalk⟩ :=
      Cfg.exists_walk? (Collection.lt_size_of_mem_state (Cfg.proper_of_mem hx).1)
    rw [← List.reverse_reverse word] at hwalk
    obtain ⟨u, -, -, -, hf⟩ := h.pending_of_completed_of_awaits hwalk hp hp'
    exact leftFirst_or_rightFirst (h.settled p' t hf)

end Grammar.Expressions

namespace Parser

variable {p : Parser α} {states σ : List Nat}

/-- There is a parser for every expression grammar. -/
theorem exists_build_of_expressions {g : Grammar α} (h : g.Expressions expr forms) (trim : Bool) :
    ∃ p : Parser α, Parser.build g trim = .ok p := by
  refine ⟨⟨g, g.automaton.table, trim, rfl, h.conflicts_eq_nil⟩, ?_⟩
  exact build_eq ⟨g, g.automaton.table, trim, rfl, h.conflicts_eq_nil⟩

/-- A terminal that can be shifted is shifted, unless it is an operator after an expression that a
tighter production is pending for. -/
theorem actionFor_eq_shift (h : p.grammar.Expressions expr forms)
    (hpath : p.grammar.cfg.Path states σ) {t target : Nat}
    (hterminal : p.grammar.cfg.isTerminal t = true)
    (hgoto : p.grammar.cfg.collection.goto? (states.headD 0) t = some target)
    (hfirst : ∀ u q q', σ = expr :: u → Pending expr forms u q → q ≠ 0 →
      Form.at? forms q' = some (.joined t) → p.grammar.RightFirst q q') :
    p.actionFor (states.headD 0) (some t) = .shift target := by
  have haction : p.grammar.automaton.table.action (states.headD 0) (some t) = .shift target := by
    refine Grammar.action_eq_shift hgoto (fun q q' hq hq' => h.eq_of_completed hq hq') ?_
    intro q q' hq hq'
    obtain ⟨u, hσ, hpending, hne, hf⟩ :=
      h.pending_of_completed_of_awaits hpath.walk?_eq hq hq'
    exact hfirst u q q' hσ hpending hne hf
  rw [← haction, ← p.table_eq]
  exact if_pos hterminal

/-- A completed production is reduced, unless it is pending for an expression before a tighter
operator. -/
theorem actionFor_eq_reduce (h : p.grammar.Expressions expr forms)
    (hpath : p.grammar.cfg.Path states σ) {x : LookaheadItem}
    (hx : x ∈ p.grammar.cfg.lookaheads.state (states.headD 0))
    (hcomplete : p.grammar.cfg.isComplete x.item = true)
    (hfirst : ∀ u t q', σ = expr :: u → Pending expr forms u x.item.production →
      x.lookahead = some t → Form.at? forms q' = some (.joined t) →
      p.grammar.LeftFirst x.item.production q') :
    p.actionFor (states.headD 0) x.lookahead = .reduce x.item.production := by
  have hcompleted : p.grammar.Completed (states.headD 0) x.lookahead x.item.production :=
    ⟨x, hx, rfl, hcomplete, rfl⟩
  have haction : p.grammar.automaton.table.action (states.headD 0) x.lookahead =
      .reduce x.item.production := by
    refine Grammar.action_eq_reduce hcompleted (fun q' hq' => h.eq_of_completed hcompleted hq') ?_
    intro t q' hla hq'
    rw [hla] at hcompleted
    obtain ⟨u, hσ, hpending, -, hf⟩ :=
      h.pending_of_completed_of_awaits hpath.walk?_eq hcompleted hq'
    exact hfirst u t q' hσ hpending hla hf
  rw [← haction, ← p.table_eq]
  cases hla : x.lookahead with
  | none => rfl
  | some t => exact if_pos ((Cfg.proper_of_mem hx).2 t hla)

end Parser

end ShiftReduce
