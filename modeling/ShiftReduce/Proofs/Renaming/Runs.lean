import ShiftReduce.Proofs.Parser.Rewriting
import ShiftReduce.Proofs.Renaming.Trees

/-!
# Renamed parsers go through the same runs

A step goes by the state, the symbol in sight and the table, and in renamed grammars all of these
are the same but for names.  So the parsers of renamed grammars without hooks, over a source and the
renumbered source, go through configurations that are the same but for names, do the same but for
names, and end at the same place.

* `Parser.Renamed`: parsers of renamed grammars;
* `Config.Renamed`, `Outcome.Renamed`, `Step.Renamed`: what comes up in their runs;
* `Parser.Renamed.step`: one step;
* `Parser.Renamed.run`, `Parser.Renamed.trail`: many steps;
* `Parser.Renamed.parse`, `Parser.Renamed.actions_eq`: whole runs.
-/

namespace ShiftReduce

variable {α ε : Type} {σ π ρ : Equiv.Perm Nat}

/-! ## Windows -/

/-- The window over the source with other tokens in it. -/
def Window.map (f : Tree α → Tree α) (w : Window α ε) : Window α ε where
  rest := w.rest.map (Pull.map f)
  current := w.current.map f
  exhausted := w.exhausted

theorem Window.advance_map {f : Tree α → Tree α} (hend : f Tree.endOfInput = Tree.endOfInput)
    (w : Window α ε) : (w.map f).advance = (w.advance.1.map f, w.advance.2) := by
  obtain ⟨rest, current, exhausted⟩ := w
  cases exhausted with
  | true => simp [Window.advance, Window.map, hend]
  | false =>
    rcases rest with _ | ⟨_ | _ | _, rest⟩
    · simp [Window.advance, Window.map, hend]
    · simp [Window.advance, Window.map, Pull.map]
    · simp [Window.advance, Window.map, Pull.map]
    · simp [Window.advance, Window.map, Pull.map, hend]

/-! ## What comes up in a run -/

/-- The frames are the same but for names. -/
structure Frame.Renamed (σ π ρ : Nat → Nat) (f f' : Frame α) : Prop where
  state_eq : f'.state = ρ f.state
  tree : f.tree.Renamed σ π ρ f'.tree

/-- The configurations are the same but for names. -/
structure Config.Renamed (σ π ρ : Nat → Nat) (c c' : Config α ε) : Prop where
  window_eq : c'.window = c.window.map (Tree.renumber σ)
  stats_eq : c'.stats = c.stats
  stack : List.Forall₂ (Frame.Renamed σ π ρ) c.stack c'.stack

/-- The verdicts are the same but for names. -/
inductive Verdict.Renamed (σ π ρ : Nat → Nat) : Verdict α ε → Verdict α ε → Prop
  | accepted {root root' : Tree α} (h : root.Renamed σ π ρ root') :
    Renamed σ π ρ (.accepted root) (.accepted root')
  | rejected {token token' : Tree α} (h : token.Renamed σ π ρ token') :
    Renamed σ π ρ (.rejected token) (.rejected token')
  | faulted (error : ε) : Renamed σ π ρ (.faulted error) (.faulted error)
  | stuck : Renamed σ π ρ .stuck .stuck
  | unfinished : Renamed σ π ρ .unfinished .unfinished

/-- The outcomes are the same but for names, after the same counts. -/
structure Outcome.Renamed (σ π ρ : Nat → Nat) (o o' : Outcome α ε) : Prop where
  verdict : Verdict.Renamed σ π ρ o.verdict o'.verdict
  stats_eq : o'.stats = o.stats
  unread_eq : o'.unread = o.unread.map (Pull.map (Tree.renumber σ))

/-- The steps lead to what is the same but for names. -/
inductive Step.Renamed (σ π ρ : Nat → Nat) : Step α ε → Step α ε → Prop
  | next {c c' : Config α ε} (h : Config.Renamed σ π ρ c c') : Renamed σ π ρ (.next c) (.next c')
  | halt {o o' : Outcome α ε} (h : Outcome.Renamed σ π ρ o o') : Renamed σ π ρ (.halt o) (.halt o')

/-- Stacks that are the same but for names have led to the same state, and both are empty or neither
is. -/
theorem Frame.Renamed.topState_eq {stack stack' : List (Frame α)} (hzero : ρ 0 = 0)
    (h : List.Forall₂ (Frame.Renamed σ π ρ) stack stack') :
    topState stack' = ρ (topState stack) ∧ stack'.isEmpty = stack.isEmpty := by
  cases h with
  | nil => exact ⟨hzero.symm, rfl⟩
  | cons hframe _ => exact ⟨hframe.state_eq, rfl⟩

namespace Config.Renamed

variable {c c' : Config α ε}

theorem state_eq (h : Config.Renamed σ π ρ c c') (hzero : ρ 0 = 0) : c'.state = ρ c.state :=
  (Frame.Renamed.topState_eq hzero h.stack).1

theorem lookahead_eq (h : Config.Renamed σ π ρ c c') : c'.lookahead = c.lookahead.map σ := by
  rw [Config.lookahead, h.window_eq, Config.lookahead, Window.lookahead, Window.lookahead,
    Window.map]
  cases c.window.current with
  | none => rfl
  | some t => exact t.symbol_renumber

theorem token_eq (h : Config.Renamed σ π ρ c c') : c'.token = c.token.renumber σ := by
  rw [Config.token, h.window_eq, Config.token, Window.map]
  cases c.window.current with
  | none => exact Tree.renumber_endOfInput.symm
  | some t => rfl

theorem halt (h : Config.Renamed σ π ρ c c') {v v' : Verdict α ε}
    (hv : Verdict.Renamed σ π ρ v v') :
    Step.Renamed σ π ρ (c.halt v) (c'.halt v') :=
  .halt ⟨hv, h.stats_eq, congrArg Window.rest h.window_eq⟩

theorem advance (h : Config.Renamed σ π ρ c c') : Step.Renamed σ π ρ c.advance c'.advance := by
  have hwindow := Window.advance_map (Tree.renumber_endOfInput (σ := σ)) c.window
  unfold Config.advance
  rw [h.window_eq, hwindow, h.stats_eq]
  generalize c.window.advance = result
  rcases result with ⟨window, error | _ | _⟩
  · exact .halt ⟨.faulted error, rfl, rfl⟩
  · exact .next ⟨rfl, rfl, h.stack⟩
  · exact .next ⟨rfl, rfl, h.stack⟩

end Config.Renamed

theorem Parser.renamed_start (σ π ρ : Equiv.Perm Nat) (source : List (Pull α ε)) :
    Step.Renamed σ π ρ (Parser.start source)
      (Parser.start (source.map (Pull.map (Tree.renumber σ)))) :=
  Config.Renamed.advance ⟨rfl, rfl, .nil⟩

/-! ## Parsers -/

/-- The parsers are those of renamed grammars without hooks, and both trim or neither does. -/
structure Parser.Renamed (σ π ρ : Equiv.Perm Nat) (p p' : Parser α) : Prop where
  grammar : p.grammar.Renamed σ π p'.grammar
  cfg : p.grammar.cfg.Isomorphic σ π ρ p'.grammar.cfg
  hookFree : p.grammar.HookFree
  hookFree' : p'.grammar.HookFree
  trim_eq : p'.trim = p.trim

namespace Parser.Renamed

variable {p p' : Parser α} {c c' : Config α ε}

theorem table_action_eq (h : p.Renamed σ π ρ p') (q : Nat) (la : Lookahead) :
    p'.table.action (ρ q) (la.map σ) = (p.table.action q la).rename σ π ρ := by
  rw [p.table_eq, p'.table_eq, h.grammar.action_eq h.cfg]

theorem table_goto?_eq (h : p.Renamed σ π ρ p') (q symbol : Nat) :
    p'.table.goto? (ρ q) (σ symbol) = (p.table.goto? q symbol).map ρ := by
  rw [p.table_eq, p'.table_eq, h.grammar.goto?_eq h.cfg]

/-- The parsers read the same from their tables but for names. -/
theorem actionFor_eq (h : p.Renamed σ π ρ p') (q : Nat) (la : Lookahead) :
    p'.actionFor (ρ q) (la.map σ) = (p.actionFor q la).rename σ π ρ := by
  have haction := h.table_action_eq q la
  cases la with
  | none => exact haction
  | some symbol =>
    rw [Option.map_some] at haction
    rw [Option.map_some, actionFor, actionFor, h.cfg.isTerminal_eq, haction]
    split <;> rfl

theorem actionFor_config_eq (h : p.Renamed σ π ρ p') (hc : Config.Renamed σ π ρ c c') :
    p'.actionFor c'.state c'.lookahead = (p.actionFor c.state c.lookahead).rename σ π ρ := by
  rw [hc.state_eq h.cfg.state_zero, hc.lookahead_eq, h.actionFor_eq]

theorem isUnit_rename (h : p.Renamed σ π ρ p') (rule : Rule) :
    isUnit p'.grammar.cfg (rule.rename σ) = isUnit p.grammar.cfg rule := by
  obtain ⟨left, right⟩ := rule
  rcases right with _ | ⟨only, _ | ⟨second, rest⟩⟩
  · rfl
  · exact h.cfg.isNonterminal_eq only
  · rfl

/-- The trees of a reduction are the same but for names. -/
theorem reduce (h : p.Renamed σ π ρ p') (production : Nat) (rule : Rule) {ts ts' : List (Tree α)}
    (hts : List.Forall₂ (Tree.Renamed σ π ρ) ts ts') :
    (p.reduce production rule ts).Renamed σ π ρ
      (p'.reduce (π production) (rule.rename σ) ts') := by
  have hreduction := Tree.Renamed.reduction hts h.cfg.state_zero rule.left production
  unfold Parser.reduce
  rw [replacement?_eq_none h.hookFree, replacement?_eq_none h.hookFree']
  cases hts with
  | nil => exact hreduction
  | @cons only only' rest rest' honly hrest =>
    cases hrest with
    | nil =>
      dsimp only
      rw [h.trim_eq, h.isUnit_rename]
      split
      · exact honly.relabel h.cfg.state_zero rule.left
      · exact hreduction
    | cons _ _ => exact hreduction

theorem shiftStep (hc : Config.Renamed σ π ρ c c') (target : Nat) :
    Step.Renamed σ π ρ (Parser.shiftStep c target) (Parser.shiftStep c' (ρ target)) := by
  refine Config.Renamed.advance ⟨?_, ?_, .cons ⟨rfl, ?_⟩ hc.stack⟩
  · simp only [hc.window_eq]
    rfl
  · simp only [hc.stats_eq]
  · rw [hc.token_eq]
    exact Tree.Renamed.stamp_token c.token target

theorem reduceStep (h : p.Renamed σ π ρ p') (hc : Config.Renamed σ π ρ c c') (production : Nat) :
    Step.Renamed σ π ρ (p.reduceStep c production) (p'.reduceStep c' (π production)) := by
  unfold Parser.reduceStep
  rw [h.cfg.rules_eq]
  cases p.grammar.cfg.rules[production]? with
  | none => exact hc.halt .stuck
  | some rule =>
    have hlength := hc.stack.length_eq
    have hcount : (rule.rename σ).right.length = rule.right.length := List.length_map σ
    have hbelow := List.forall₂_drop rule.right.length hc.stack
    obtain ⟨htop, hempty⟩ := Frame.Renamed.topState_eq h.cfg.state_zero hbelow
    have hchildren : List.Forall₂ (Tree.Renamed σ π ρ)
        ((c.stack.take rule.right.length).map Frame.tree).reverse
        ((c'.stack.take rule.right.length).map Frame.tree).reverse := by
      rw [List.forall₂_reverse_iff, List.forall₂_map_left_iff, List.forall₂_map_right_iff]
      exact (List.forall₂_take _ hc.stack).imp fun _ _ hframe => hframe.tree
    have htree := h.reduce production rule hchildren
    have hleft : ((rule.rename σ).left == 0) = (rule.left == 0) := by
      rw [Bool.eq_iff_iff, beq_iff_eq, beq_iff_eq, Rule.rename, ← h.cfg.symbol_zero,
        σ.injective.eq_iff, h.cfg.symbol_zero]
    have hgoto := h.table_goto?_eq (topState (c.stack.drop rule.right.length)) rule.left
    dsimp only [Option.map_some]
    rw [hcount, ← hlength, hempty, hleft, htop]
    split
    · exact hc.halt .stuck
    · split
      · exact .halt ⟨.accepted htree, by simp [hc.stats_eq], congrArg Window.rest hc.window_eq⟩
      · rw [show (rule.rename σ).left = σ rule.left from rfl, hgoto]
        cases p.table.goto? (topState (c.stack.drop rule.right.length)) rule.left with
        | none => exact .halt ⟨.stuck, by simp [hc.stats_eq], congrArg Window.rest hc.window_eq⟩
        | some target =>
          exact .next ⟨hc.window_eq, by simp [hc.stats_eq],
            .cons ⟨rfl, htree.stamp target⟩ hbelow⟩

/-- A step leads to the same but for names. -/
theorem step (h : p.Renamed σ π ρ p') (hc : Config.Renamed σ π ρ c c') :
    Step.Renamed σ π ρ (p.step c) (p'.step c') := by
  unfold Parser.step
  rw [h.actionFor_config_eq hc]
  cases p.actionFor c.state c.lookahead with
  | shift target => exact shiftStep hc target
  | reduce production => exact h.reduceStep hc production
  | error la =>
    refine hc.halt (.rejected ?_)
    rw [hc.token_eq]
    exact Tree.Renamed.of_marked c.token (by decide)
  | shiftReduce la => exact hc.halt .stuck
  | reduceReduce la => exact hc.halt .stuck

/-! ## Runs -/

theorem run (h : p.Renamed σ π ρ p') (fuel : Nat) (hc : Config.Renamed σ π ρ c c') :
    Outcome.Renamed σ π ρ (p.run fuel c) (p'.run fuel c') := by
  induction fuel generalizing c c' with
  | zero => exact ⟨.unfinished, hc.stats_eq, congrArg Window.rest hc.window_eq⟩
  | succ fuel ih =>
    have hstep := h.step hc
    rw [Parser.run, Parser.run]
    generalize p.step c = s at hstep
    generalize p'.step c' = s' at hstep
    cases hstep with
    | next hc => exact ih hc
    | halt ho => exact ho

theorem trail (h : p.Renamed σ π ρ p') (fuel : Nat) (hc : Config.Renamed σ π ρ c c') :
    List.Forall₂ (Config.Renamed σ π ρ) (p.trail fuel c) (p'.trail fuel c') := by
  induction fuel generalizing c c' with
  | zero => exact .nil
  | succ fuel ih =>
    have hstep := h.step hc
    rw [Parser.trail, Parser.trail]
    generalize p.step c = s at hstep
    generalize p'.step c' = s' at hstep
    cases hstep with
    | next hnext => exact .cons hc (ih hnext)
    | halt _ => exact .cons hc .nil

/-- Renamed parsers allow their runs the same number of steps. -/
theorem budget_eq (h : p.Renamed σ π ρ p') (length : Nat) : p'.budget length = p.budget length := by
  have hstates : p'.table.stateCount = p.table.stateCount := by
    rw [p.stateCount_eq, p'.stateCount_eq, h.cfg.size_eq]
  simp only [budget, hstates, h.cfg.symbolCount_eq]

/-- Whole runs end alike. -/
theorem parse (h : p.Renamed σ π ρ p') (source : List (Pull α ε)) :
    Outcome.Renamed σ π ρ (p.parse source)
      (p'.parse (source.map (Pull.map (Tree.renumber σ)))) := by
  have hstart := renamed_start σ π ρ source
  unfold Parser.parse
  rw [List.length_map, h.budget_eq]
  generalize start source = s at hstart
  generalize start (source.map (Pull.map (Tree.renumber σ))) = s' at hstart
  cases hstart with
  | next hc => exact h.run _ hc
  | halt ho => exact ho

/-- Whole runs do the same. -/
theorem actions_eq (h : p.Renamed σ π ρ p') (source : List (Pull α ε)) :
    p'.actions (source.map (Pull.map (Tree.renumber σ))) =
      (p.actions source).map (Action.rename σ π ρ) := by
  have hstart := renamed_start σ π ρ source
  unfold actions
  rw [List.length_map, h.budget_eq]
  generalize start source = s at hstart
  generalize start (source.map (Pull.map (Tree.renumber σ))) = s' at hstart
  cases hstart with
  | halt _ => rfl
  | @next c c' hc =>
    dsimp only
    have htrail := h.trail (p.budget source.length) hc
    generalize p.trail (p.budget source.length) c = configs at htrail
    generalize p'.trail (p.budget source.length) c' = configs' at htrail
    induction htrail with
    | nil => rfl
    | cons hconfig _ ih =>
      rw [List.map_cons, List.map_cons, List.map_cons, h.actionFor_config_eq hconfig, ih]

end Parser.Renamed

end ShiftReduce
