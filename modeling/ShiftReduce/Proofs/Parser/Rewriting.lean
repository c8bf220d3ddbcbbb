import ShiftReduce.Proofs.Parser.Alike

/-!
# Rewriting folds the plain tree

A run with hooks and trimming does not build other trees on other ways.  It goes through the very
configurations of the run without them, with every tree on the stack rewritten from the bottom up:
tokens stay what they are, and a reduction is made again by the parser from the rewritten children.
So nothing that hooks return can change what is shifted, reduced, pulled or rejected, and the root
is what the rewriting makes of the plain root.

* `Parser.rewrite`, `Parser.rewriteAll`: a plain tree rewritten from the bottom up;
* `Parser.Tracked`: the states on a stack are those entered over the symbols of its trees;
* `Parser.rewriteConfig`, `Parser.rewriteOutcome`: configurations and outcomes rewritten;
* `Parser.step_rewriteConfig`, `Parser.run_rewriteConfig`: one step, and many;
* `Parser.parse_eq_rewrite`: a whole run is the plain run rewritten;
* `Parser.hooks_never_steer`: runs that differ in hooks and trimming only.
-/

namespace ShiftReduce

/-- A recorded state is not changed by recording it again. -/
theorem stamp_stamp {α : Type} (q : Nat) (t : Tree α) : stamp q (stamp q t) = stamp q t := by
  by_cases hstate : t.state < 0
  · simp only [stamp, if_pos hstate]
  · have hq : ¬ (q : Int) < 0 := Int.not_lt.2 (Int.natCast_nonneg q)
    simp only [stamp, if_neg hstate, Tree.state_withState, if_neg hq, Tree.withState_withState]

@[simp]
theorem symbol_stamp {α : Type} (q : Nat) (t : Tree α) : (stamp q t).symbol = t.symbol := by
  unfold stamp
  split
  · rfl
  · exact t.symbol_withState q

namespace Parser

variable {α ε : Type} {p : Parser α}

/-! ## Rewriting a tree -/

/-- The state that is entered from `q` over a symbol. -/
def entered (p : Parser α) (q : Nat) (la : Lookahead) : Nat :=
  (la.bind fun symbol => p.grammar.cfg.collection.goto? q symbol).getD 0

theorem entered_eq {q symbol target : Nat}
    (h : p.grammar.cfg.collection.goto? q symbol = some target) :
    p.entered q (some symbol) = target := by
  rw [entered, Option.bind_some, h]
  rfl

mutual

/-- What hooks and trimming make of a tree that was built without them on top of the state `q`.  A
reduction, which stands for a nonterminal, is made again of the rewritten children; a token stays
what it is. -/
def rewrite (p : Parser α) (q : Nat) : Tree α → Tree α
  | .node tag production children =>
    match tag.symbol.any p.grammar.cfg.isNonterminal, p.grammar.cfg.rules[production]? with
    | true, some rule => p.reduce production rule (p.rewriteAll q children)
    | _, _ => .node tag production children
  | .blank tag => .blank tag
  | .leaf tag value => .leaf tag value
  | .wrap tag inner => .wrap tag inner

/-- The trees rewritten, the first one on top of the state `q` and each other one on top of the
state that is entered over the symbol before it.  Each of them records the state entered over its
own. -/
def rewriteAll (p : Parser α) (q : Nat) : List (Tree α) → List (Tree α)
  | [] => []
  | t :: ts =>
    stamp (p.entered q t.symbol) (p.rewrite q t) :: p.rewriteAll (p.entered q t.symbol) ts

end

/-- A token stays what it is. -/
theorem rewrite_of_isTerminal {t : Tree α} {symbol : Nat} (ht : t.symbol = some symbol)
    (hterminal : p.grammar.cfg.isTerminal symbol = true) (q : Nat) : p.rewrite q t = t := by
  have hno : t.symbol.any p.grammar.cfg.isNonterminal = false := by
    rw [ht]
    exact (Cfg.isTerminal_iff.1 hterminal).2
  cases t with
  | node tag production children =>
    have htag : tag.symbol.any p.grammar.cfg.isNonterminal = false := hno
    rw [rewrite, htag]
  | blank => rw [rewrite]
  | leaf => rw [rewrite]
  | wrap => rw [rewrite]

/-- A reduction is made again, whatever state it has. -/
theorem rewrite_reduction {production : Nat} {rule : Rule}
    (hrule : p.grammar.cfg.rules[production]? = some rule) (q : Nat) (children : List (Tree α)) :
    p.rewrite q (Tree.reduction rule.left production children) =
      p.reduce production rule (p.rewriteAll q children) := by
  have hleft := Cfg.isNonterminal_left (List.mem_of_getElem? hrule)
  simp [Tree.reduction, rewrite, hrule, hleft]

theorem rewrite_stamp_reduction {production : Nat} {rule : Rule}
    (hrule : p.grammar.cfg.rules[production]? = some rule) (q target : Nat)
    (children : List (Tree α)) :
    p.rewrite q (stamp target (Tree.reduction rule.left production children)) =
      p.reduce production rule (p.rewriteAll q children) := by
  have hleft := Cfg.isNonterminal_left (List.mem_of_getElem? hrule)
  unfold stamp
  split
  · exact rewrite_reduction hrule q children
  · simp [Tree.withState, Tree.withTag, Tree.tag, Tree.reduction, rewrite, hrule, hleft]

theorem rewriteAll_append (q : Nat) (ts us : List (Tree α)) :
    p.rewriteAll q (ts ++ us) = p.rewriteAll q ts ++
      p.rewriteAll (ts.foldl (fun q t => p.entered q t.symbol) q) us := by
  induction ts generalizing q with
  | nil => simp [rewriteAll]
  | cons t ts ih => simp [rewriteAll, ih]

/-! ## Rewriting a stack -/

/-- Every frame has the state that is entered from the one below it over the symbol of its tree. -/
def Tracked (p : Parser α) : List (Frame α) → Prop
  | [] => True
  | frame :: rest => frame.state = p.entered (topState rest) frame.tree.symbol ∧ p.Tracked rest

theorem Tracked.drop {stack : List (Frame α)} (h : p.Tracked stack) (n : Nat) :
    p.Tracked (stack.drop n) := by
  induction stack generalizing n with
  | nil => simpa using h
  | cons frame rest ih =>
    cases n with
    | zero => exact h
    | succ n => exact ih h.2 n

/-- Every tree on the stack is rewritten on top of the state below it. -/
def rewriteStack (p : Parser α) : List (Frame α) → List (Frame α)
  | [] => []
  | frame :: rest =>
    ⟨frame.state, stamp frame.state (p.rewrite (topState rest) frame.tree)⟩ :: p.rewriteStack rest

@[simp]
theorem length_rewriteStack (stack : List (Frame α)) :
    (p.rewriteStack stack).length = stack.length := by
  induction stack with
  | nil => rfl
  | cons frame rest ih => simp [rewriteStack, ih]

theorem isEmpty_rewriteStack (stack : List (Frame α)) :
    (p.rewriteStack stack).isEmpty = stack.isEmpty := by
  cases stack <;> rfl

@[simp]
theorem topState_rewriteStack (stack : List (Frame α)) :
    topState (p.rewriteStack stack) = topState stack := by
  cases stack <;> rfl

theorem drop_rewriteStack (stack : List (Frame α)) (n : Nat) :
    (p.rewriteStack stack).drop n = p.rewriteStack (stack.drop n) := by
  induction stack generalizing n with
  | nil => simp [rewriteStack]
  | cons frame rest ih =>
    cases n with
    | zero => rfl
    | succ n => simpa [rewriteStack] using ih n

/-- The topmost trees of a stack, from left to right. -/
def topTrees (stack : List (Frame α)) (n : Nat) : List (Tree α) :=
  ((stack.take n).map Frame.tree).reverse

theorem topTrees_cons (frame : Frame α) (rest : List (Frame α)) (n : Nat) :
    topTrees (frame :: rest) (n + 1) = topTrees rest n ++ [frame.tree] := by
  simp [topTrees]

/-- The symbols of the topmost trees lead from the state below them to the state on top. -/
theorem Tracked.foldl_topTrees {stack : List (Frame α)} (h : p.Tracked stack) {n : Nat}
    (hn : n ≤ stack.length) :
    (topTrees stack n).foldl (fun q t => p.entered q t.symbol) (topState (stack.drop n)) =
      topState stack := by
  induction n generalizing stack with
  | zero => rfl
  | succ n ih =>
    cases stack with
    | nil => cases hn
    | cons frame rest =>
      rw [topTrees_cons, List.drop_succ_cons, List.foldl_append,
        ih h.2 (Nat.le_of_succ_le_succ hn)]
      exact h.1.symm

/-- The topmost trees of a rewritten stack are the topmost trees rewritten. -/
theorem Tracked.topTrees_rewriteStack {stack : List (Frame α)} (h : p.Tracked stack) {n : Nat}
    (hn : n ≤ stack.length) :
    topTrees (p.rewriteStack stack) n =
      p.rewriteAll (topState (stack.drop n)) (topTrees stack n) := by
  induction n generalizing stack with
  | zero => simp [topTrees, rewriteAll]
  | succ n ih =>
    cases stack with
    | nil => cases hn
    | cons frame rest =>
      have hle : n ≤ rest.length := Nat.le_of_succ_le_succ hn
      rw [rewriteStack, topTrees_cons, topTrees_cons, List.drop_succ_cons, rewriteAll_append,
        ih h.2 hle, h.2.foldl_topTrees hle, rewriteAll, rewriteAll, ← h.1]

/-! ## Steps -/

/-- The configuration with its stack rewritten. -/
def rewriteConfig (p : Parser α) (c : Config α ε) : Config α ε :=
  { c with stack := p.rewriteStack c.stack }

/-- The verdict with its tree rewritten. -/
def rewriteVerdict (p : Parser α) : Verdict α ε → Verdict α ε
  | .accepted root => .accepted (p.rewrite 0 root)
  | verdict => verdict

/-- The outcome with its tree rewritten. -/
def rewriteOutcome (p : Parser α) (o : Outcome α ε) : Outcome α ε :=
  { o with verdict := p.rewriteVerdict o.verdict }

/-- What the step leads to, rewritten. -/
def rewriteStep (p : Parser α) : Step α ε → Step α ε
  | .next c => .next (p.rewriteConfig c)
  | .halt o => .halt (p.rewriteOutcome o)

variable {c : Config α ε}

theorem advance_rewriteConfig (p : Parser α) (c : Config α ε) :
    (p.rewriteConfig c).advance = p.rewriteStep c.advance := by
  have hwindow : (p.rewriteConfig c).window = c.window := rfl
  unfold Config.advance
  rw [hwindow]
  split <;> rfl

theorem state_rewriteConfig (p : Parser α) (c : Config α ε) :
    (p.rewriteConfig c).state = c.state :=
  topState_rewriteStack c.stack

/-- A shift puts the token on the rewritten stack as it does on the plain one. -/
theorem shiftStep_rewriteConfig {symbol : Nat} (hla : c.lookahead = some symbol)
    (hterminal : p.grammar.cfg.isTerminal symbol = true) (target : Nat) :
    shiftStep (p.rewriteConfig c) target = p.rewriteStep (shiftStep c target) := by
  unfold shiftStep
  rw [← advance_rewriteConfig]
  have hplain : p.rewrite (topState c.stack) (stamp target c.token) = stamp target c.token :=
    rewrite_of_isTerminal (by rw [symbol_stamp, Config.symbol_token, hla]) hterminal _
  have hframe : p.rewriteStack (⟨target, stamp target c.token⟩ :: c.stack) =
      ⟨target, stamp target c.token⟩ :: p.rewriteStack c.stack := by
    rw [rewriteStack, hplain, stamp_stamp]
  simp only [rewriteConfig, hframe]
  rfl

/-- A reduction makes of the rewritten stack what it makes of the plain one, rewritten. -/
theorem reduceStep_rewriteConfig (hc : p.Tracked c.stack) (production : Nat) :
    p.reduceStep (p.rewriteConfig c) production =
      p.rewriteStep (p.bare.reduceStep c production) := by
  have hrules : p.bare.grammar.cfg.rules[production]? = p.grammar.cfg.rules[production]? := rfl
  have hstack : (p.rewriteConfig c).stack = p.rewriteStack c.stack := rfl
  unfold reduceStep
  rw [hrules, hstack]
  cases hrule : p.grammar.cfg.rules[production]? with
  | none => rfl
  | some rule =>
    dsimp only
    rw [length_rewriteStack]
    split
    · rfl
    · next hlength =>
      have htrees := hc.topTrees_rewriteStack (Nat.not_lt.1 hlength)
      unfold topTrees at htrees
      rw [drop_rewriteStack, topState_rewriteStack, isEmpty_rewriteStack, htrees,
        reduce_eq p.grammar.hookFree_bare (p := p.bare) rfl]
      have htable : p.bare.table = p.table := rfl
      rw [htable]
      split
      · next haccept =>
        have hnil : c.stack.drop rule.right.length = [] :=
          List.isEmpty_iff.1 (Bool.and_eq_true_iff.1 haccept).2
        have hroot := rewrite_reduction hrule 0
          ((c.stack.take rule.right.length).map Frame.tree).reverse
        rw [hnil]
        simp only [rewriteStep, rewriteOutcome, rewriteVerdict, Config.halt, hroot]
        rfl
      · split
        · rfl
        · next target _ =>
          have hframe := rewrite_stamp_reduction hrule
            (topState (c.stack.drop rule.right.length)) target
            ((c.stack.take rule.right.length).map Frame.tree).reverse
          simp only [rewriteStep, rewriteConfig, rewriteStack, hframe]

/-- A plain step leaves the states as they are entered. -/
theorem Tracked.of_step {symbols : List Nat} (hc : p.Tracked c.stack)
    (hover : c.Over p.grammar.cfg symbols) {d : Config α ε} (hstep : p.bare.step c = .next d) :
    p.Tracked d.stack := by
  rcases step_cases_of_over (p := p.bare) hover with
    ⟨-, herror⟩ | ⟨symbol, target, hla, -, hgoto, -, hshift⟩ |
      ⟨production, rule, -, hr, ⟨-, -, haccept⟩ | ⟨target, hgoto, hreduce⟩⟩
  · rw [herror] at hstep
    cases hstep
  · rw [hshift] at hstep
    obtain ⟨hstack, -⟩ := shiftStep_eq_next hstep
    rw [hstack]
    refine ⟨?_, hc⟩
    rw [symbol_stamp, Config.symbol_token, hla]
    exact (entered_eq hgoto).symm
  · rw [haccept] at hstep
    cases hstep
  · rw [hreduce] at hstep
    cases hstep
    refine ⟨?_, hc.drop _⟩
    rw [symbol_stamp, reduce_eq p.grammar.hookFree_bare (p := p.bare) rfl]
    exact (entered_eq hgoto).symm

theorem tracked_of_reachable {source : List (Pull α ε)} (h : p.bare.Reachable source c) :
    p.Tracked c.stack := by
  induction h with
  | start hstart =>
    obtain ⟨hstack, -⟩ := Config.advance_eq_next hstart
    rw [hstack]
    trivial
  | step hc hstep ih =>
    obtain ⟨symbols, hover⟩ := over_of_reachable hc
    exact ih.of_step hover hstep

theorem actionFor_bare (p : Parser α) (q : Nat) (la : Lookahead) :
    p.bare.actionFor q la = p.actionFor q la :=
  (p.alike_bare.actionFor_eq q la).symm

/-- A step on rewritten trees is the plain step rewritten. -/
theorem step_rewriteConfig (hc : p.Tracked c.stack) :
    p.step (p.rewriteConfig c) = p.rewriteStep (p.bare.step c) := by
  have hlookahead : (p.rewriteConfig c).lookahead = c.lookahead := rfl
  have haction : p.actionFor (p.rewriteConfig c).state (p.rewriteConfig c).lookahead =
      p.bare.actionFor c.state c.lookahead := by
    rw [state_rewriteConfig, hlookahead, actionFor_bare]
  rcases p.bare.step_cases c with ⟨herror, hstep⟩ |
    ⟨symbol, target, hla, hterminal, -, hshift, hstep⟩ | ⟨x, -, -, -, hreduce, hstep⟩
  · rw [hstep, step, haction, herror]
    rfl
  · rw [hstep, step, haction, hshift]
    exact shiftStep_rewriteConfig (p := p) hla hterminal target
  · rw [hstep, step, haction, hreduce]
    exact reduceStep_rewriteConfig (p := p) hc _

/-! ## Runs -/

/-- So are many steps. -/
theorem run_rewriteConfig {source : List (Pull α ε)} (fuel : Nat)
    (hc : p.bare.Reachable source c) :
    p.run fuel (p.rewriteConfig c) = p.rewriteOutcome (p.bare.run fuel c) := by
  induction fuel generalizing c with
  | zero => rfl
  | succ fuel ih =>
    rw [run, run, step_rewriteConfig (tracked_of_reachable hc)]
    cases hstep : p.bare.step c with
    | halt o => rfl
    | next d => exact ih (hc.step hstep)

/-- The configurations that a run goes through are those of the plain run, rewritten. -/
theorem trail_rewriteConfig {source : List (Pull α ε)} (fuel : Nat)
    (hc : p.bare.Reachable source c) :
    p.trail fuel (p.rewriteConfig c) = (p.bare.trail fuel c).map p.rewriteConfig := by
  induction fuel generalizing c with
  | zero => rfl
  | succ fuel ih =>
    rw [trail, trail, step_rewriteConfig (tracked_of_reachable hc)]
    cases hstep : p.bare.step c with
    | halt o => rfl
    | next d =>
      rw [List.map_cons, ← ih (hc.step hstep)]
      rfl

/-- What the table says to do at each configuration of the run over a source, as far as `parse`
goes: up to its end if the run has one. -/
def actions (p : Parser α) (source : List (Pull α ε)) : List Action :=
  match start source with
  | .halt _ => []
  | .next c =>
    (p.trail (p.budget source.length) c).map fun c => p.actionFor c.state c.lookahead

/-- A run starts with nothing to rewrite. -/
theorem rewriteConfig_of_start {source : List (Pull α ε)} (h : start source = .next c) :
    p.rewriteConfig c = c := by
  obtain ⟨hstack, -⟩ := Config.advance_eq_next h
  obtain ⟨window, stack, stats⟩ := c
  cases hstack
  rfl

/-- A whole run is the plain run rewritten. -/
theorem parse_eq_rewrite (p : Parser α) (source : List (Pull α ε)) :
    p.parse source = p.rewriteOutcome (p.bare.parse source) := by
  unfold parse
  cases hstart : start source with
  | halt o =>
    obtain ⟨error, hfaulted⟩ := Config.advance_eq_halt hstart
    obtain ⟨verdict, stats, unread⟩ := o
    cases hfaulted
    rfl
  | next c =>
    have hrun := run_rewriteConfig (p := p) (p.budget source.length) (.start hstart)
    rwa [rewriteConfig_of_start hstart] at hrun

/-- It does what the plain run does. -/
theorem actions_eq_bare (p : Parser α) (source : List (Pull α ε)) :
    p.actions source = p.bare.actions source := by
  unfold actions
  cases hstart : start source with
  | halt o => rfl
  | next c =>
    have htrail := trail_rewriteConfig (p := p) (p.budget source.length) (.start hstart)
    rw [rewriteConfig_of_start hstart] at htrail
    have hbudget : p.bare.budget source.length = p.budget source.length := rfl
    simp only [hbudget, htrail, List.map_map]
    refine List.map_congr_left fun d _ => ?_
    show p.actionFor (p.rewriteConfig d).state d.lookahead = p.bare.actionFor d.state d.lookahead
    rw [state_rewriteConfig, actionFor_bare]

/-- Parsers whose grammars differ in their hooks only are the same without them. -/
theorem bare_eq_bare {p p' : Parser α} (h : p.grammar.bare = p'.grammar.bare) :
    p.bare = p'.bare := by
  have hp : Parser.build p.grammar.bare false = .ok p.bare := p.bare.build_eq
  have hp' : Parser.build p'.grammar.bare false = .ok p'.bare := p'.bare.build_eq
  rw [h, hp'] at hp
  exact (Except.ok.inj hp).symm

/-- If two grammars differ in their hooks only, their parsers, trimming or not, go through the same
actions over every source, with the same counters and pulls and the same kind of end.  The roots
that they accept are the two rewritings of the tree that is accepted without hooks and trimming. -/
theorem hooks_never_steer {g g' : Grammar α} (hsame : g.bare = g'.bare) {p p' : Parser α}
    {trim trim' : Bool} (hp : Parser.build g trim = .ok p) (hp' : Parser.build g' trim' = .ok p')
    {source : List (Pull α ε)} {o : Outcome α ε} (h : p.parse source = o)
    (ho : ∀ stats unread, o ≠ ⟨.unfinished, stats, unread⟩) :
    ∃ (plain : Parser α) (o' : Outcome α ε), Parser.build g.bare false = .ok plain ∧
      p'.parse source = o' ∧ p'.actions source = p.actions source ∧
      p.actions source = plain.actions source ∧ o'.stats = o.stats ∧ o'.unread = o.unread ∧
      ((∃ t, plain.parse source = ⟨.accepted t, o.stats, o.unread⟩ ∧
          o.verdict = .accepted (p.rewrite 0 t) ∧ o'.verdict = .accepted (p'.rewrite 0 t)) ∨
        (∃ token, o.verdict = .rejected token ∧ o'.verdict = .rejected token) ∨
        ∃ error, o.verdict = .faulted error ∧ o'.verdict = .faulted error) := by
  obtain ⟨rfl, -⟩ := build_eq_ok hp
  obtain ⟨rfl, -⟩ := build_eq_ok hp'
  have hplain := bare_eq_bare hsame
  have hfinal := (ends_of_parse h ho).final
  rw [p.parse_eq_rewrite] at h
  refine ⟨p.bare, p'.rewriteOutcome (p.bare.parse source), p.bare.build_eq, ?_, ?_,
    p.actions_eq_bare source, ?_⟩
  · rw [p'.parse_eq_rewrite, hplain]
  · rw [p'.actions_eq_bare, p.actions_eq_bare, hplain]
  · rw [← h] at hfinal ⊢
    refine ⟨rfl, rfl, ?_⟩
    generalize p.bare.parse source = plain at hfinal ⊢
    obtain ⟨verdict, stats, unread⟩ := plain
    cases verdict with
    | accepted t => exact Or.inl ⟨t, rfl, rfl, rfl⟩
    | rejected token => exact Or.inr (Or.inl ⟨token, rfl, rfl⟩)
    | faulted error => exact Or.inr (Or.inr ⟨error, rfl, rfl⟩)
    | stuck => cases hfinal
    | unfinished => cases hfinal

end Parser

/-! ## Hooks that leave the end of the input behind -/

/-- The grammar of `Cfg.anyNumber`, with a hook that puts the end of the input in place of every
list with an item in it. -/
def Grammar.vanished : Grammar Nat :=
  { Grammar.anyNumber with
    hooks := [none, some fun _ _ => some Tree.endOfInput, none]
    hooks_length := rfl }

/-- Nothing is left of the items in the tree, but they have been shifted and reduced all the same.
-/
theorem Parser.hooks_never_steer_vanished :
    ∃ (p plain : Parser Nat) (o' : Outcome Nat String),
      Parser.build Grammar.vanished true = .ok p ∧
      Parser.build Grammar.vanished.bare false = .ok plain ∧
      p.parse ([Tree.scalar 2 7, Tree.scalar 2 8].map .token) =
        (⟨.accepted (Tree.endOfInput.relabel 0), ⟨2, 2, 4⟩, []⟩ : Outcome Nat String) ∧
      anyNumber.parse ([Tree.scalar 2 7, Tree.scalar 2 8].map .token) = o' ∧
      o'.stats = ⟨2, 2, 4⟩ ∧
      ∃ t, plain.parse ([Tree.scalar 2 7, Tree.scalar 2 8].map .token) =
          (⟨.accepted t, ⟨2, 2, 4⟩, []⟩ : Outcome Nat String) ∧
        Tree.endOfInput.relabel 0 = p.rewrite 0 t ∧
        o'.verdict = .accepted (anyNumber.rewrite 0 t) := by
  have hruns : ∃ p : Parser Nat, Parser.build Grammar.vanished true = .ok p ∧
      p.parse ([Tree.scalar 2 7, Tree.scalar 2 8].map .token) =
        (⟨.accepted (Tree.endOfInput.relabel 0), ⟨2, 2, 4⟩, []⟩ : Outcome Nat String) :=
    ⟨_, rfl, rfl⟩
  obtain ⟨p, hp, hparse⟩ := hruns
  have hsame : Grammar.vanished.bare = Grammar.anyNumber.bare := rfl
  obtain ⟨plain, o', hplain, hparse', -, -, hstats, -, hends⟩ :=
    hooks_never_steer hsame hp anyNumber.build_eq hparse fun _ _ => by simp
  refine ⟨p, plain, o', hp, hplain, hparse, hparse', hstats, ?_⟩
  rcases hends with ⟨t, ht, hroot, hroot'⟩ | ⟨token, htoken, -⟩ | ⟨error, herror, -⟩
  · exact ⟨t, ht, Verdict.accepted.inj hroot, hroot'⟩
  · cases htoken
  · cases herror

end ShiftReduce
