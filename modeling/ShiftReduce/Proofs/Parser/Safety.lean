import Mathlib.Data.List.Chain
import ShiftReduce.Proofs.Parser.Run

/-!
# A run never gets stuck

Whatever the hooks put on the stack and whatever the source answers, a run only ever looks up what
is there: every reduction finds enough on the stack and a transition below, no entry it reads is a
conflict, and no row or column lies outside of the table.

* `Config.values`, `Config.states`: the stack as a list of values and a list of the states below
  them;
* `Parser.Safe`: what can be said of a configuration;
* `Parser.safe_of_reachable`: every configuration of every run is safe;
* `Verdict.Final`, `Parser.Ends.final`: how a run can end.
-/

namespace ShiftReduce

/-- A run was carried through: it accepted, or rejected a token, or its source failed. -/
inductive Verdict.Final {α ε : Type} : Verdict α ε → Prop
  | accepted (root : Tree α) : Final (.accepted root)
  | rejected (token : Tree α) : Final (.rejected token)
  | faulted (error : ε) : Final (.faulted error)

/-! ## Stacks -/

/-- The states that the frames of a stack were put on, from the bottom. -/
def statesBelow {α : Type} : List (Frame α) → List Nat
  | [] => []
  | _ :: rest => statesBelow rest ++ [topState rest]

namespace Config

variable {α ε : Type}

/-- The trees on the stack, from the bottom. -/
def values (c : Config α ε) : List (Tree α) := (c.stack.map Frame.tree).reverse

/-- The states that these trees were put on, from the bottom. -/
def states (c : Config α ε) : List Nat := statesBelow c.stack

end Config

theorem length_statesBelow {α : Type} (stack : List (Frame α)) :
    (statesBelow stack).length = stack.length := by
  induction stack with
  | nil => rfl
  | cons frame rest ih => simp [statesBelow, ih]

/-- A path of transitions from the start, read off a stack. -/
theorem isChain_statesBelow {α : Type} {g : Cfg} {stack : List (Frame α)} {symbols : List Nat}
    (h : g.Path (stack.map Frame.state) symbols) :
    (statesBelow stack ++ [topState stack]).head? = some 0 ∧
      (statesBelow stack ++ [topState stack]).IsChain fun q r =>
        ∃ symbol, g.collection.goto? q symbol = some r := by
  induction stack generalizing symbols with
  | nil => exact ⟨rfl, by simp [statesBelow]⟩
  | cons frame rest ih =>
    rw [List.map_cons] at h
    cases h with
    | @enter _ symbols symbol _ h hgoto =>
      obtain ⟨hhead, hchain⟩ := ih h
      rw [← topState_eq] at hgoto
      refine ⟨?_, ?_⟩
      · simpa [statesBelow] using hhead
      · rw [statesBelow, List.isChain_append]
        refine ⟨hchain, by simp, ?_⟩
        intro q hq r hr
        simp only [List.getLast?_append, List.getLast?_singleton, Option.some_or, Option.mem_def,
          Option.some.injEq] at hq
        simp only [List.head?_cons, Option.mem_def, Option.some.injEq] at hr
        rw [← hq, ← hr]
        exact ⟨symbol, hgoto⟩

namespace Parser

variable {α ε : Type} {p : Parser α}

/-! ## Safe configurations -/

/-- The cell of a state and a lookahead lies inside of the table. -/
def InTable (p : Parser α) (q : Nat) (la : Lookahead) : Prop :=
  q < p.table.stateCount ∧ column la < (p.table.row q).length

/-- A step from the configuration only looks up what is there. -/
structure Safe (p : Parser α) (c : Config α ε) : Prop where
  /-- Every value has a state below it. -/
  lengths : c.values.length = c.states.length
  /-- The states and the current one lead from the start to here by transitions. -/
  start : (c.states ++ [c.state]).head? = some 0
  path : (c.states ++ [c.state]).IsChain fun q r =>
    ∃ symbol, p.grammar.automaton.collection.goto? q symbol = some r
  /-- A reduction finds its production and enough values, and unless it accepts it finds a
  transition from the state below. -/
  reduces : ∀ production, p.actionFor c.state c.lookahead = .reduce production →
    ∃ rule, p.grammar.cfg.rules[production]? = some rule ∧
      rule.right.length ≤ c.values.length ∧
      p.InTable (topState (c.stack.drop rule.right.length)) (some rule.left) ∧
      ((production = 0 ∧ c.values.length - rule.right.length = 0) ∨
        (p.table.goto? (topState (c.stack.drop rule.right.length)) rule.left).isSome = true)
  /-- The entry that is read is inside of the table. -/
  inTable : (∀ symbol, c.lookahead = some symbol → p.grammar.cfg.isTerminal symbol = true) →
    p.InTable c.state c.lookahead
  /-- It is no conflict. -/
  noConflict : (p.actionFor c.state c.lookahead).conflict? = none
  /-- So the step is not stuck. -/
  notStuck : ∀ stats unread, p.step c ≠ .halt ⟨.stuck, stats, unread⟩

theorem inTable_of_lt {q : Nat} {la : Lookahead} (hq : q < p.grammar.cfg.collection.states.size)
    (hla : column la ≤ p.grammar.cfg.symbolCount) : p.InTable q la := by
  have hrows : p.table.rows = (p.grammar.tableOf p.grammar.cfg.collection
      p.grammar.cfg.lookaheads).rows := by
    rw [p.table_eq, p.grammar.table_automaton]
  constructor
  · simpa [Table.stateCount, hrows, Grammar.tableOf] using hq
  · rw [Table.row, hrows, Grammar.tableOf, Grammar.getD_map_range, if_pos hq]
    simpa using Nat.lt_succ_of_le hla

/-- No entry that a parser reads is a conflict. -/
theorem conflict?_actionFor (p : Parser α) (q : Nat) (la : Lookahead) :
    (p.actionFor q la).conflict? = none := by
  rcases p.actionFor_cases q la with
    herror | ⟨_, _, -, -, -, hshift⟩ | ⟨_, -, -, -, hreduce⟩
  · rw [herror]
    rfl
  · rw [hshift]
    rfl
  · rw [hreduce]
    rfl

variable {c : Config α ε} {symbols : List Nat}

/-- What the table says to reduce can be reduced. -/
theorem reduces_of_actionFor (h : c.Over p.grammar.cfg symbols) {production : Nat}
    (haction : p.actionFor c.state c.lookahead = .reduce production) :
    ∃ rule, p.Reduces c symbols production rule := by
  obtain ⟨rule, hrule, hdone⟩ := p.mem_lookaheads_of_reduce haction
  exact reduces_of_path h (Cfg.proper_of_mem hdone).1 (Cfg.isComplete_end hrule)

theorem not_stuck_of_over (h : c.Over p.grammar.cfg symbols) (stats : Stats)
    (unread : List (Pull α ε)) : p.step c ≠ .halt ⟨.stuck, stats, unread⟩ := by
  intro hstuck
  have hmove := move_of_over h
  generalize p.step c = s at hstuck hmove
  cases hmove with
  | reject => cases hstuck
  | shift =>
    obtain ⟨error, hfaulted⟩ := Config.advance_eq_halt hstuck
    cases hfaulted
  | accept => cases hstuck
  | reduce => cases hstuck

/-- A run that ends is carried through. -/
theorem Ends.final {source : List (Pull α ε)} {o : Outcome α ε}
    (h : p.Ends (Parser.start source) o) : o.verdict.Final := by
  have hfaulted : (∃ error, o.verdict = .faulted error) → o.verdict.Final := by
    rintro ⟨error, hverdict⟩
    rw [hverdict]
    exact .faulted error
  rcases h.exists_last with hhalt | ⟨c, hc, hstep⟩
  · exact hfaulted (Config.advance_eq_halt hhalt)
  · obtain ⟨symbols, hover⟩ := over_of_reachable hc
    have hmove := move_of_over hover
    generalize p.step c = s at hstep hmove
    cases hmove with
    | reject =>
      cases hstep
      exact .rejected _
    | shift => exact hfaulted (Config.advance_eq_halt hstep)
    | accept =>
      cases hstep
      exact .accepted _
    | reduce => cases hstep

theorem safe_of_over (h : c.Over p.grammar.cfg symbols) : p.Safe c where
  lengths := by simp [Config.values, Config.states, length_statesBelow]
  start := (isChain_statesBelow h).1
  path := by
    rw [p.grammar.collection_automaton]
    exact (isChain_statesBelow h).2
  reduces := by
    intro production haction
    obtain ⟨rule, hrule⟩ := reduces_of_actionFor h haction
    have hmem : rule ∈ p.grammar.cfg.rules := List.mem_of_getElem? hrule.rule_eq
    refine ⟨rule, hrule.rule_eq, by simpa [Config.values] using hrule.length_le, ?_, ?_⟩
    · refine inTable_of_lt ?_ (p.grammar.cfg.inRange rule hmem).1
      rw [topState_eq]
      exact (h.below rule.right.length).head_lt
    · rcases hrule.below with ⟨hzero, hnil⟩ | ⟨target, hgoto⟩
      · refine Or.inl ⟨hzero, ?_⟩
        have hlength := congrArg List.length hnil
        simpa [Config.values] using hlength
      · refine Or.inr ?_
        rw [p.goto?_table (Cfg.isNonterminal_left hmem), hgoto]
        rfl
  inTable := by
    intro hterminal
    refine inTable_of_lt h.state_lt ?_
    cases hla : c.lookahead with
    | none => exact Nat.zero_le _
    | some symbol => exact (Cfg.isTerminal_iff.1 (hterminal symbol hla)).1
  noConflict := p.conflict?_actionFor _ _
  notStuck := not_stuck_of_over h

/-- Every configuration that comes up in a run is safe, whatever the hooks of the grammar return and
whatever the source answers. -/
theorem safe_of_reachable (p : Parser α) {source : List (Pull α ε)} {c : Config α ε}
    (h : p.Reachable source c) : p.Safe c := by
  obtain ⟨symbols, hsymbols⟩ := over_of_reachable h
  exact safe_of_over hsymbols

/-- The grammar of any number of terminals has a parser. -/
def anyNumber : Parser Nat where
  grammar := Grammar.anyNumber
  table := Grammar.anyNumber.automaton.table
  trim := false
  table_eq := rfl
  conflictFree := by decide +kernel

/-- After one terminal the vanishing rule has been reduced on top of it. -/
theorem safe_of_reachable_anyNumber :
    ∃ c : Config Nat String, anyNumber.Reachable [.token (Tree.scalar 2 7)] c ∧
      c.states = [0, 2] ∧ c.state = 3 ∧ anyNumber.Safe c := by
  have hreachable : ∃ c : Config Nat String,
      anyNumber.Reachable [.token (Tree.scalar 2 7)] c ∧ c.states = [0, 2] ∧ c.state = 3 :=
    ⟨_, .step (.step (.start rfl) rfl) rfl, by decide +kernel, by decide +kernel⟩
  obtain ⟨c, hc, hstates, hstate⟩ := hreachable
  exact ⟨c, hc, hstates, hstate, safe_of_reachable anyNumber hc⟩

end Parser

end ShiftReduce
