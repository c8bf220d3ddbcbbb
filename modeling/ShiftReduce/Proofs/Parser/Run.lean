import ShiftReduce.Proofs.Table

/-!
# Runs and the stacks they go through

A run goes from configuration to configuration until a step halts.  Whatever it does, the states on
its stack have been entered one from the other by transitions.  This is all that is needed to see
that a reduction always finds its right side on the stack: an item whose dot has moved over so many
symbols can only be in a state that was entered over them.

* `Parser.Reachable`, `Parser.Ends`: the configurations of a run, and how it ends;
* `Cfg.Path`: states entered one from the other, the last one first;
* `Cfg.Path.pop`, `Cfg.Path.exists_below`: what lies on the stack below an item;
* `Parser.Reduces`, `Parser.reduces_of_path`: a reduction on a stack of this kind;
* `Parser.step_cases`: what a step does to any configuration;
* `Parser.Move`, `Parser.move_of_over`: what it leads to when the stack is of this kind;
* `Parser.step_cases_of_over`: the same, along with what the table says;
* `Parser.over_of_reachable`: and in a run it always is.
-/

namespace ShiftReduce

/-! ## Runs -/

namespace Parser

variable {α ε : Type} {p : Parser α}

/-- The configuration comes up in the run over a source. -/
inductive Reachable (p : Parser α) (source : List (Pull α ε)) : Config α ε → Prop
  | start {c : Config α ε} (h : Parser.start source = .next c) : Reachable p source c
  | step {c d : Config α ε} (hc : Reachable p source c) (h : p.step c = .next d) :
    Reachable p source d

/-- However many steps it takes, the run from here ends with this outcome. -/
inductive Ends (p : Parser α) : Step α ε → Outcome α ε → Prop
  | halt {o : Outcome α ε} : Ends p (.halt o) o
  | next {c : Config α ε} {o : Outcome α ε} (h : Ends p (p.step c) o) : Ends p (.next c) o

/-- A run that is not cut off has ended. -/
theorem ends_of_run {fuel : Nat} {c : Config α ε} {o : Outcome α ε} (h : p.run fuel c = o)
    (ho : ∀ stats unread, o ≠ ⟨.unfinished, stats, unread⟩) : p.Ends (.next c) o := by
  induction fuel generalizing c with
  | zero => exact absurd h.symm (ho _ _)
  | succ fuel ih =>
    rw [run] at h
    refine .next ?_
    split at h
    · next outcome hstep =>
      rw [hstep, h]
      exact .halt
    · next d hstep =>
      rw [hstep]
      exact ih h

theorem ends_of_parse {source : List (Pull α ε)} {o : Outcome α ε} (h : p.parse source = o)
    (ho : ∀ stats unread, o ≠ ⟨.unfinished, stats, unread⟩) : p.Ends (start source) o := by
  unfold parse at h
  split at h
  · next outcome hstart =>
    rw [hstart, h]
    exact .halt
  · next c hstart =>
    rw [hstart]
    exact ends_of_run h ho

theorem Ends.exists_last_of_reachable {source : List (Pull α ε)} {s : Step α ε}
    {o : Outcome α ε} (h : p.Ends s o) (hs : ∀ c, s = .next c → p.Reachable source c) :
    s = .halt o ∨ ∃ c, p.Reachable source c ∧ p.step c = .halt o := by
  induction h with
  | halt => exact Or.inl rfl
  | @next c o _ ih =>
    have hc : p.Reachable source c := hs c rfl
    rcases ih (fun d hd => hc.step hd) with hhalt | hlast
    · exact Or.inr ⟨c, hc, hhalt⟩
    · exact Or.inr hlast

/-- A run that ends does so in a step from one of its configurations, unless it never began. -/
theorem Ends.exists_last {source : List (Pull α ε)} {o : Outcome α ε}
    (h : p.Ends (start source) o) :
    start source = .halt o ∨ ∃ c, p.Reachable source c ∧ p.step c = .halt o :=
  h.exists_last_of_reachable fun _ hc => .start hc

/-- A run that ends does so from any of its configurations. -/
theorem Reachable.ends {source : List (Pull α ε)} {c : Config α ε} (hc : p.Reachable source c)
    {o : Outcome α ε} (h : p.Ends (Parser.start source) o) : p.Ends (.next c) o := by
  induction hc with
  | start hstart => rwa [hstart] at h
  | step _ hstep ih =>
    cases ih with
    | next hnext => rwa [hstep] at hnext

end Parser

/-! ## Paths -/

namespace Cfg

variable {g : Cfg}

/-- The states, the last one first, have been entered one from the other over the symbols. -/
inductive Path (g : Cfg) : List Nat → List Nat → Prop
  | start : Path g [] []
  | enter {states symbols : List Nat} {symbol target : Nat} (h : Path g states symbols)
    (hgoto : g.collection.goto? (states.headD 0) symbol = some target) :
    Path g (target :: states) (symbol :: symbols)

namespace Path

variable {states symbols : List Nat}

theorem length_eq (h : g.Path states symbols) : states.length = symbols.length := by
  induction h with
  | start => rfl
  | enter _ _ ih => simp [ih]

theorem head_lt (h : g.Path states symbols) : states.headD 0 < g.collection.states.size := by
  cases h with
  | start => exact g.size_collection_pos
  | enter _ hgoto => exact (goto?_lt hgoto).2.2

/-- The start state is at the bottom only. -/
theorem eq_nil_of_head_eq (h : g.Path states symbols) (hzero : states.headD 0 = 0) :
    states = [] := by
  cases h with
  | start => rfl
  | enter _ hgoto =>
    rw [List.headD_cons] at hzero
    rw [hzero] at hgoto
    exact absurd hgoto goto?_ne_zero

theorem drop (h : g.Path states symbols) (n : Nat) :
    g.Path (states.drop n) (symbols.drop n) := by
  induction h generalizing n with
  | start => simpa using Path.start
  | enter h hgoto ih =>
    cases n with
    | zero => exact .enter h hgoto
    | succ n => simpa using ih n

/-- Below an item whose dot has moved over so many symbols lie these symbols, and below them a state
in which the dot had not moved yet. -/
theorem pop (h : g.Path states symbols) {production k : Nat} {rule : Rule}
    (hrule : g.rules[production]? = some rule)
    (hitem : ⟨production, k⟩ ∈ g.collection.state (states.headD 0)) :
    k ≤ states.length ∧ symbols.take k = (rule.right.take k).reverse ∧
      ⟨production, 0⟩ ∈ g.collection.state ((states.drop k).headD 0) := by
  induction k generalizing states symbols with
  | zero => exact ⟨Nat.zero_le _, by simp, by simpa using hitem⟩
  | succ k ih =>
    cases h with
    | start =>
      -- No dot has moved in the start state.
      rcases eq_or_awaited_of_leads (mem_state_zero.1 hitem) with heq | ⟨i, -, hawaited⟩
      · exact absurd (congrArg Item.position heq) (Nat.succ_ne_zero k)
      · exact absurd (position_eq_zero_of_mem_awaited hawaited) (Nat.succ_ne_zero k)
    | @enter states symbols symbol target h hgoto =>
      obtain ⟨i, hi, hnext, hadvance⟩ := exists_mem_of_advanced hgoto hitem (Nat.succ_pos k)
      have hi' : i = ⟨production, k⟩ := by
        obtain ⟨production', k'⟩ := i
        simp only [Item.advance, Item.mk.injEq, Nat.succ.injEq] at hadvance
        rw [hadvance.1, hadvance.2]
      rw [hi'] at hi hnext
      obtain ⟨hle, htake, hmem⟩ := ih h hi
      obtain ⟨rule', hrule', hsymbol⟩ := nextSymbol?_eq_some_iff.1 hnext
      rw [hrule] at hrule'
      cases hrule'
      refine ⟨Nat.succ_le_succ hle, ?_, hmem⟩
      rw [List.take_succ_cons, htake, List.take_add_one, hsymbol]
      simp

/-- What is below an item of the start production is nothing, and below any other item there is a
transition over the left side. -/
theorem exists_below (h : g.Path states symbols) {production k : Nat} {rule : Rule}
    (hrule : g.rules[production]? = some rule)
    (hitem : ⟨production, k⟩ ∈ g.collection.state (states.headD 0)) :
    (production = 0 ∧ states.drop k = []) ∨
      ∃ target, g.collection.goto? ((states.drop k).headD 0) rule.left = some target := by
  obtain ⟨-, -, hbegin⟩ := h.pop hrule hitem
  rcases mem_or_awaited hbegin with ⟨hzero, hstart⟩ | hmoved | ⟨i, hi, hawaited⟩
  · exact Or.inl ⟨congrArg Item.production hstart, (h.drop k).eq_nil_of_head_eq hzero⟩
  · exact absurd hmoved (Nat.lt_irrefl 0)
  · obtain ⟨symbol, hnext, hbeginning⟩ := mem_awaited.1 hawaited
    obtain ⟨-, rule', hrule', hleft⟩ := mem_beginningsOf.1 hbeginning
    rw [hrule] at hrule'
    cases hrule'
    rw [← hleft] at hnext
    exact Or.inr (exists_goto? hi hnext)

end Path

end Cfg

/-! ## Steps -/

theorem topState_eq {α : Type} (stack : List (Frame α)) :
    topState stack = (stack.map Frame.state).headD 0 := by
  cases stack <;> rfl

namespace Config

variable {α ε : Type}

/-- The token in sight stands for the symbol in sight. -/
@[simp]
theorem symbol_token (c : Config α ε) : c.token.symbol = c.lookahead := by
  unfold token lookahead Window.lookahead
  cases c.window.current <;> rfl

/-- Pulling a token leaves the stack and the other counters as they are. -/
theorem advance_eq_next {c d : Config α ε} (h : c.advance = .next d) :
    d.stack = c.stack ∧ d.stats.shifts = c.stats.shifts ∧
      d.stats.reductions = c.stats.reductions ∧
      ∃ pulled, c.window.advance = (d.window, .ok pulled) := by
  unfold Config.advance at h
  split at h
  · next window hwindow =>
    cases h
    exact ⟨rfl, rfl, rfl, true, hwindow⟩
  · next window hwindow =>
    cases h
    exact ⟨rfl, rfl, rfl, false, hwindow⟩
  · cases h

/-- Pulling a token can only fail where the source does. -/
theorem advance_eq_halt {c : Config α ε} {o : Outcome α ε} (h : c.advance = .halt o) :
    ∃ error, o.verdict = .faulted error := by
  unfold Config.advance at h
  split at h
  · cases h
  · cases h
  · next window error hwindow =>
    cases h
    exact ⟨error, rfl⟩

/-- The transitions between the states on a stack go over these symbols, the last one first. -/
def Over (g : Cfg) (c : Config α ε) (symbols : List Nat) : Prop :=
  g.Path (c.stack.map Frame.state) symbols

theorem Over.state_lt {g : Cfg} {c : Config α ε} {symbols : List Nat} (h : c.Over g symbols) :
    c.state < g.collection.states.size := by
  rw [Config.state, topState_eq]
  exact h.head_lt

/-- What lies below some frames. -/
theorem Over.below {g : Cfg} {c : Config α ε} {symbols : List Nat} (h : c.Over g symbols)
    (n : Nat) : g.Path ((c.stack.drop n).map Frame.state) (symbols.drop n) := by
  rw [List.map_drop]
  exact h.drop n

end Config

namespace Parser

variable {α ε : Type} {p : Parser α} {c : Config α ε}

/-! ## Shifts -/

/-- After a shift the stack has one more frame. -/
theorem shiftStep_eq_next {c d : Config α ε} {target : Nat} (h : shiftStep c target = .next d) :
    d.stack = ⟨target, stamp target c.token⟩ :: c.stack ∧
      d.stats.shifts = c.stats.shifts + 1 ∧ d.stats.reductions = c.stats.reductions ∧
      ∃ pulled, c.window.taken.advance = (d.window, .ok pulled) :=
  Config.advance_eq_next h

theorem over_of_shiftStep {g : Cfg} {symbols : List Nat} (h : c.Over g symbols)
    {symbol target : Nat} (hgoto : g.collection.goto? c.state symbol = some target)
    {d : Config α ε} (hstep : shiftStep c target = .next d) : d.Over g (symbol :: symbols) := by
  obtain ⟨hstack, -⟩ := shiftStep_eq_next hstep
  rw [Config.state, topState_eq] at hgoto
  unfold Config.Over
  rw [hstack]
  exact .enter h hgoto

/-! ## Reductions -/

/-- The production can be reduced: its right side lies on the stack, and what is below is nothing
after the start production, or else has a transition over the left side. -/
structure Reduces (p : Parser α) (c : Config α ε) (symbols : List Nat) (production : Nat)
    (rule : Rule) : Prop where
  rule_eq : p.grammar.cfg.rules[production]? = some rule
  length_le : rule.right.length ≤ c.stack.length
  right_eq : symbols.take rule.right.length = rule.right.reverse
  below : (production = 0 ∧ c.stack.drop rule.right.length = []) ∨
    ∃ target, p.grammar.cfg.collection.goto? (topState (c.stack.drop rule.right.length)) rule.left =
      some target

/-- A completed item of the current state can be reduced. -/
theorem reduces_of_path {symbols : List Nat} (h : c.Over p.grammar.cfg symbols) {item : Item}
    (hitem : item ∈ p.grammar.cfg.collection.state c.state)
    (hcomplete : p.grammar.cfg.isComplete item = true) :
    ∃ rule, p.Reduces c symbols item.production rule := by
  have hall := Cfg.state_subset_allItems hitem
  obtain ⟨rule, hrule, -⟩ := Cfg.mem_allItems.1 hall
  have hposition := Cfg.position_eq_of_isComplete hall hrule hcomplete
  have hend : ⟨item.production, rule.right.length⟩ ∈
      p.grammar.cfg.collection.state ((c.stack.map Frame.state).headD 0) := by
    rw [← topState_eq, ← hposition]
    exact hitem
  obtain ⟨hle, htake, -⟩ := Cfg.Path.pop h hrule hend
  refine ⟨rule, hrule, by simpa using hle, by simpa using htake, ?_⟩
  have hbelow := Cfg.Path.exists_below h hrule hend
  rw [← List.map_drop, ← topState_eq] at hbelow
  exact hbelow.imp_left fun hstart => ⟨hstart.1, List.map_eq_nil_iff.1 hstart.2⟩

namespace Reduces

variable {symbols : List Nat} {production : Nat} {rule : Rule}

/-- The trees on the stack that stand for the right side, from left to right. -/
def childrenOf (c : Config α ε) (rule : Rule) : List (Tree α) :=
  ((c.stack.take rule.right.length).map Frame.tree).reverse

/-- The configuration after a reduction that leads to the state `target`. -/
def after (p : Parser α) (c : Config α ε) (production : Nat) (rule : Rule) (target : Nat) :
    Config α ε where
  window := c.window
  stack := ⟨target, stamp target (p.reduce production rule (childrenOf c rule))⟩ ::
    c.stack.drop rule.right.length
  stats := { c.stats with reductions := c.stats.reductions + 1 }

/-- What a reduction does: it accepts, or it goes on with the left side on the stack. -/
theorem reduceStep_cases (h : p.Reduces c symbols production rule) :
    (production = 0 ∧ c.stack.drop rule.right.length = [] ∧
      p.reduceStep c production = .halt
        ⟨.accepted (p.reduce production rule (childrenOf c rule)),
          { c.stats with reductions := c.stats.reductions + 1 }, c.window.rest⟩) ∨
    ∃ target,
      p.grammar.cfg.collection.goto? (topState (c.stack.drop rule.right.length)) rule.left =
        some target ∧
      p.reduceStep c production = .next (after p c production rule target) := by
  have hmem : rule ∈ p.grammar.cfg.rules := List.mem_of_getElem? h.rule_eq
  have hleft := Cfg.isNonterminal_left hmem
  have hlength : ¬ c.stack.length < rule.right.length := Nat.not_lt.2 h.length_le
  by_cases haccept : rule.left = 0 ∧ c.stack.drop rule.right.length = []
  · have hzero : production = 0 := Cfg.eq_zero_of_left_eq_zero h.rule_eq haccept.1
    refine Or.inl ⟨hzero, haccept.2, ?_⟩
    simp [reduceStep, h.rule_eq, hlength, haccept.1, haccept.2, Config.halt, childrenOf]
  · rcases h.below with ⟨hzero, hbelow⟩ | ⟨target, hgoto⟩
    · rw [hzero] at h
      exact absurd ⟨Cfg.left_eq_zero h.rule_eq, hbelow⟩ haccept
    · refine Or.inr ⟨target, hgoto, ?_⟩
      have hno : (rule.left == 0 && (c.stack.drop rule.right.length).isEmpty) = false := by
        rw [Bool.eq_false_iff]
        simpa using haccept
      have htable := (p.goto?_table hleft).trans hgoto
      simp only [reduceStep, h.rule_eq, if_neg hlength, hno, htable]
      rfl

/-- After a reduction the left side is on the stack in place of the right side. -/
theorem over_after (h : c.Over p.grammar.cfg symbols) {target : Nat}
    (hgoto : p.grammar.cfg.collection.goto? (topState (c.stack.drop rule.right.length)) rule.left =
      some target) :
    (after p c production rule target).Over p.grammar.cfg
      (rule.left :: symbols.drop rule.right.length) := by
  rw [topState_eq] at hgoto
  exact .enter (h.below rule.right.length) hgoto

end Reduces

/-! ## Steps -/

/-- A step rejects the token in sight, or shifts it, or reduces a completed item. -/
theorem step_cases (p : Parser α) (c : Config α ε) :
    (p.actionFor c.state c.lookahead = .error c.lookahead ∧
      p.step c = c.halt (.rejected (c.token.withState Tree.errorState))) ∨
    (∃ symbol target, c.lookahead = some symbol ∧ p.grammar.cfg.isTerminal symbol = true ∧
      p.grammar.cfg.collection.goto? c.state symbol = some target ∧
      p.actionFor c.state c.lookahead = .shift target ∧ p.step c = shiftStep c target) ∨
    ∃ x ∈ p.grammar.cfg.lookaheads.state c.state, x.lookahead = c.lookahead ∧
      p.grammar.cfg.isComplete x.item = true ∧
      p.actionFor c.state c.lookahead = .reduce x.item.production ∧
      p.step c = p.reduceStep c x.item.production := by
  unfold step
  rcases p.actionFor_cases c.state c.lookahead with
    herror | ⟨symbol, target, hla, hterminal, hgoto, hshift⟩ | ⟨x, hx, hla, hcomplete, hreduce⟩
  · exact Or.inl ⟨herror, by rw [herror]⟩
  · exact Or.inr (Or.inl ⟨symbol, target, hla, hterminal, hgoto, hshift, by rw [hshift]⟩)
  · exact Or.inr (Or.inr ⟨x, hx, hla, hcomplete, hreduce, by rw [hreduce]⟩)

/-- What a step leads to when the stack leads over these symbols. -/
inductive Move (p : Parser α) (c : Config α ε) (symbols : List Nat) : Step α ε → Prop
  /-- No action applies to the token in sight. -/
  | reject : Move p c symbols (c.halt (.rejected (c.token.withState Tree.errorState)))
  /-- The token in sight is shifted. -/
  | shift {symbol target : Nat} (hla : c.lookahead = some symbol)
    (hterminal : p.grammar.cfg.isTerminal symbol = true)
    (hgoto : p.grammar.cfg.collection.goto? c.state symbol = some target) :
    Move p c symbols (shiftStep c target)
  /-- The start production is reduced before what is in sight, and nothing is below. -/
  | accept {x : LookaheadItem} {rule : Rule}
    (hx : x ∈ p.grammar.cfg.lookaheads.state c.state) (hla : x.lookahead = c.lookahead)
    (hzero : x.item.production = 0) (hr : p.Reduces c symbols 0 rule)
    (hbelow : c.stack.drop rule.right.length = []) :
    Move p c symbols (.halt ⟨.accepted (p.reduce 0 rule (Reduces.childrenOf c rule)),
      { c.stats with reductions := c.stats.reductions + 1 }, c.window.rest⟩)
  /-- A production is reduced, and the run goes on. -/
  | reduce {production target : Nat} {rule : Rule} (hr : p.Reduces c symbols production rule)
    (hgoto : p.grammar.cfg.collection.goto? (topState (c.stack.drop rule.right.length)) rule.left =
      some target) :
    Move p c symbols (.next (Reduces.after p c production rule target))

theorem move_of_over {symbols : List Nat} (h : c.Over p.grammar.cfg symbols) :
    p.Move c symbols (p.step c) := by
  rcases p.step_cases c with
    ⟨-, hstep⟩ | ⟨symbol, target, hla, hterminal, hgoto, -, hstep⟩ |
      ⟨x, hx, hla, hcomplete, -, hstep⟩
  · rw [hstep]
    exact .reject
  · rw [hstep]
    exact .shift hla hterminal hgoto
  · obtain ⟨rule, hr⟩ := reduces_of_path h (Cfg.proper_of_mem hx).1 hcomplete
    rw [hstep]
    rcases hr.reduceStep_cases with ⟨hzero, hbelow, haccept⟩ | ⟨target, hgoto, hnext⟩
    · rw [haccept]
      rw [hzero] at hr ⊢
      exact .accept hx hla hzero hr hbelow
    · rw [hnext]
      exact .reduce hr hgoto

/-- What a step does, along with the table's entry, when the stack leads over these symbols. -/
theorem step_cases_of_over {symbols : List Nat} (h : c.Over p.grammar.cfg symbols) :
    (p.actionFor c.state c.lookahead = .error c.lookahead ∧
      p.step c = c.halt (.rejected (c.token.withState Tree.errorState))) ∨
    (∃ symbol target, c.lookahead = some symbol ∧ p.grammar.cfg.isTerminal symbol = true ∧
      p.grammar.cfg.collection.goto? c.state symbol = some target ∧
      p.actionFor c.state c.lookahead = .shift target ∧ p.step c = shiftStep c target) ∨
    ∃ production rule, p.actionFor c.state c.lookahead = .reduce production ∧
      p.Reduces c symbols production rule ∧
      ((production = 0 ∧ c.stack.drop rule.right.length = [] ∧
        p.step c = .halt ⟨.accepted (p.reduce production rule (Reduces.childrenOf c rule)),
          { c.stats with reductions := c.stats.reductions + 1 }, c.window.rest⟩) ∨
      ∃ target,
        p.grammar.cfg.collection.goto? (topState (c.stack.drop rule.right.length)) rule.left =
          some target ∧
        p.step c = .next (Reduces.after p c production rule target)) := by
  rcases p.step_cases c with herror | hshift | ⟨x, hx, -, hcomplete, haction, hstep⟩
  · exact Or.inl herror
  · exact Or.inr (Or.inl hshift)
  · obtain ⟨rule, hr⟩ := reduces_of_path h (Cfg.proper_of_mem hx).1 hcomplete
    refine Or.inr (Or.inr ⟨x.item.production, rule, haction, hr, ?_⟩)
    rw [hstep]
    exact hr.reduceStep_cases

/-! ## The invariant of every run -/

/-- Whatever a step does, the states on the stack stay entered one from the other. -/
theorem over_of_step {d : Config α ε} {symbols : List Nat} (hc : c.Over p.grammar.cfg symbols)
    (h : p.step c = .next d) : ∃ symbols', d.Over p.grammar.cfg symbols' := by
  have hmove := move_of_over hc
  generalize p.step c = s at h hmove
  cases hmove with
  | reject => cases h
  | shift _ _ hgoto => exact ⟨_, over_of_shiftStep hc hgoto h⟩
  | accept => cases h
  | reduce _ hgoto =>
    cases h
    exact ⟨_, Reduces.over_after hc hgoto⟩

theorem over_of_start {source : List (Pull α ε)} (h : Parser.start source = .next c) (g : Cfg) :
    c.Over g [] := by
  obtain ⟨hstack, -⟩ := Config.advance_eq_next h
  unfold Config.Over
  rw [hstack]
  exact .start

theorem over_of_reachable {source : List (Pull α ε)} (h : p.Reachable source c) :
    ∃ symbols, c.Over p.grammar.cfg symbols := by
  induction h with
  | start h => exact ⟨[], over_of_start h _⟩
  | step _ h ih =>
    obtain ⟨symbols, hsymbols⟩ := ih
    exact over_of_step hsymbols h

/-- A run that accepts does so in a step from one of its configurations. -/
theorem Ends.exists_accept {source : List (Pull α ε)} {root : Tree α} {stats : Stats}
    {unread : List (Pull α ε)}
    (h : p.Ends (start source) ⟨.accepted root, stats, unread⟩) :
    ∃ c, p.Reachable source c ∧ p.step c = .halt ⟨.accepted root, stats, unread⟩ := by
  rcases h.exists_last with hhalt | hlast
  · obtain ⟨error, hfaulted⟩ := Config.advance_eq_halt hhalt
    cases hfaulted
  · exact hlast

end Parser

end ShiftReduce
