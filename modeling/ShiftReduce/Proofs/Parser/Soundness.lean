import ShiftReduce.Proofs.Derivation
import ShiftReduce.Proofs.Parser.Safety

/-!
# What is accepted has been derived

Without hooks and trimming, the trees on the stack show derivations of the symbols that lead from
state to state, and these derivations yield the tokens shifted so far.  A reduction by the start
production with nothing below therefore returns a derivation tree of what was shifted.

The start production is completed before the end of the input only, provided that the start symbol
is on no right side.  So nothing is left of the input then.

* `leading`, `Window.Sees`: the tokens of a source, and where a window stands among them;
* `Parser.Parsed`: the invariant;
* `Parser.Parsed.accept`: what an accepting run returns;
* `Cfg.lookahead_eq_none_of_start`: what follows the start production;
* `Parser.accepted_is_derivation`: all of this about a whole run.
-/

namespace ShiftReduce

/-! ## Sources -/

section Sources

variable {α ε : Type}

/-- The tokens that a source answers with before anything else. -/
def leading : List (Pull α ε) → List (Tree α)
  | .token t :: rest => t :: leading rest
  | _ => []

@[simp]
theorem leading_map_token (tokens : List (Tree α)) :
    leading (tokens.map fun t => (Pull.token t : Pull α ε)) = tokens := by
  induction tokens with
  | nil => rfl
  | cons t ts ih => simp [leading, ih]

namespace Window

/-- The window stands at the first of these tokens, or at the end of the input after them. -/
def Sees (w : Window α ε) : List (Tree α) → Prop
  | [] => w.current = some Tree.endOfInput ∧ w.exhausted = true
  | t :: ts => w.current = some t ∧ w.exhausted = false ∧ leading w.rest = ts

theorem sees_of_advance {w w' : Window α ε} {pulled : Bool} (hw : w.exhausted = false)
    (h : w.advance = (w', .ok pulled)) : w'.Sees (leading w.rest) := by
  unfold Window.advance at h
  rw [hw, if_neg Bool.false_ne_true] at h
  split at h
  · next t rest hrest =>
    cases h
    rw [hrest]
    exact ⟨rfl, rfl, rfl⟩
  · cases h
  · next rest hrest =>
    cases h
    rw [hrest]
    exact ⟨rfl, rfl⟩
  · next hrest =>
    cases h
    rw [hrest]
    exact ⟨rfl, rfl⟩

/-- The symbol in sight is the one of the first token. -/
theorem Sees.lookahead_eq {w : Window α ε} {tokens : List (Tree α)} (h : w.Sees tokens) :
    w.lookahead = tokens.head?.bind Tree.symbol := by
  cases tokens with
  | nil => rw [Window.lookahead, h.1]; rfl
  | cons t ts => rw [Window.lookahead, h.1]; rfl

end Window

end Sources

/-! ## Trees without hooks and trimming -/

/-- No production has a hook. -/
def Grammar.HookFree {α : Type} (g : Grammar α) : Prop := ∀ hook ∈ g.hooks, hook = none

namespace Parser

variable {α ε : Type} {p : Parser α}

theorem build_eq_ok {g : Grammar α} {trim : Bool} (h : Parser.build g trim = .ok p) :
    p.grammar = g ∧ p.trim = trim := by
  unfold Parser.build at h
  dsimp only at h
  split at h
  · cases h
    exact ⟨rfl, rfl⟩
  · cases h

/-- Every parser is the one that is built of its grammar. -/
theorem build_eq (p : Parser α) : Parser.build p.grammar p.trim = .ok p := by
  obtain ⟨grammar, table, trim, rfl, hfree⟩ := p
  exact dif_pos hfree

theorem replacement?_eq_none (hfree : p.grammar.HookFree) (production : Nat)
    (children : List (Tree α)) : p.grammar.replacement? production children = none := by
  have hhook : p.grammar.hook? production = none := by
    unfold Grammar.hook?
    cases hget : p.grammar.hooks[production]? with
    | none => rfl
    | some hook =>
      rw [hfree hook (List.mem_of_getElem? hget)]
      rfl
  simp [Grammar.replacement?, hhook]

theorem reduce_eq (hfree : p.grammar.HookFree) (htrim : p.trim = false) (production : Nat)
    (rule : Rule) (children : List (Tree α)) :
    p.reduce production rule children = Tree.reduction rule.left production children := by
  unfold Parser.reduce
  rw [replacement?_eq_none hfree]
  rcases children with _ | ⟨only, _ | ⟨second, rest⟩⟩
  · rfl
  · simp [htrim]
  · rfl

/-! ## The invariant -/

/-- The stack shows derivations of the symbols it leads over, which yield what has been shifted; the
window stands at the rest of the tokens. -/
structure Parsed (p : Parser α) (tokens : List (Tree α)) (c : Config α ε)
    (ds : List (Derivation α)) (symbols : List Nat) (rest : List (Tree α)) : Prop where
  path : c.Over p.grammar.cfg symbols
  derived : List.Forall₂ p.grammar.cfg.IsDerivation ds symbols
  depicted : List.Forall₂ p.grammar.cfg.Depicts (c.stack.map Frame.tree) ds
  sees : c.window.Sees rest
  tokens_eq : tokens = Derivation.yieldAll ds.reverse ++ rest
  shifts_eq : c.stats.shifts = (Derivation.yieldAll ds.reverse).length
  reductions_eq : c.stats.reductions = Derivation.nodeCountAll ds.reverse

theorem parsed_of_start {source : List (Pull α ε)} {c : Config α ε}
    (h : Parser.start source = .next c) : p.Parsed (leading source) c [] [] (leading source) := by
  obtain ⟨hstack, hshifts, hreductions, pulled, hwindow⟩ := Config.advance_eq_next h
  refine ⟨over_of_start h _, .nil, ?_, Window.sees_of_advance rfl hwindow, rfl, hshifts,
    hreductions⟩
  rw [hstack]
  exact .nil

variable {tokens : List (Tree α)} {c : Config α ε} {ds : List (Derivation α)}
  {symbols : List Nat} {rest : List (Tree α)}

/-- A shift adds the token in sight as it is. -/
theorem Parsed.shift (h : p.Parsed tokens c ds symbols rest) {symbol target : Nat}
    (hla : c.lookahead = some symbol) (hterminal : p.grammar.cfg.isTerminal symbol = true)
    (hgoto : p.grammar.cfg.collection.goto? c.state symbol = some target) {d : Config α ε}
    (hstep : shiftStep c target = .next d) :
    ∃ t ts, rest = t :: ts ∧ p.Parsed tokens d (.token t :: ds) (symbol :: symbols) ts := by
  obtain ⟨hstack, hshifts, hreductions, pulled, hwindow⟩ := shiftStep_eq_next hstep
  have hsight : rest.head?.bind Tree.symbol = some symbol := by
    rw [← h.sees.lookahead_eq]
    exact hla
  cases rest with
  | nil => cases hsight
  | cons t ts =>
    obtain ⟨hcurrent, hexhausted, hleading⟩ := h.sees
    have htoken : c.token = t := by
      rw [Config.token, hcurrent]
      rfl
    refine ⟨t, ts, rfl, over_of_shiftStep h.path hgoto hstep,
      .cons (.token hsight hterminal) h.derived, ?_, ?_, ?_, ?_, ?_⟩
    · rw [hstack, List.map_cons, htoken]
      exact .cons ((Cfg.depicts_token t).stamp target) h.depicted
    · have htaken : c.window.taken.exhausted = false := hexhausted
      rw [← hleading]
      show d.window.Sees (leading c.window.taken.rest)
      exact Window.sees_of_advance htaken hwindow
    · rw [h.tokens_eq]
      simp [Derivation.yieldAll, Derivation.yield]
    · rw [hshifts, h.shifts_eq]
      simp [Derivation.yieldAll, Derivation.yield]
    · rw [hreductions, h.reductions_eq]
      simp [Derivation.nodeCountAll, Derivation.nodeCount]

/-- The derivation that a reduction makes of those on top. -/
def reduced (ds : List (Derivation α)) (production : Nat) (rule : Rule) : Derivation α :=
  .node production (ds.take rule.right.length).reverse

/-- What a reduction builds shows the derivation that it makes. -/
theorem Parsed.reduced (hfree : p.grammar.HookFree) (htrim : p.trim = false)
    (h : p.Parsed tokens c ds symbols rest) {production : Nat} {rule : Rule}
    (hr : p.Reduces c symbols production rule) :
    p.grammar.cfg.IsDerivation (Parser.reduced ds production rule) rule.left ∧
      p.grammar.cfg.Depicts (p.reduce production rule (Reduces.childrenOf c rule))
        (Parser.reduced ds production rule) := by
  constructor
  · refine .node hr.rule_eq ?_
    have htake := List.forall₂_take rule.right.length h.derived
    rw [hr.right_eq] at htake
    rw [← List.forall₂_reverse_iff, List.reverse_reverse]
    exact htake
  · rw [reduce_eq hfree htrim]
    refine .node _ hr.rule_eq ?_
    have htake := List.forall₂_take rule.right.length h.depicted
    rw [Reduces.childrenOf, List.map_take]
    exact List.forall₂_reverse_iff.2 htake

theorem yieldAll_reverse_eq (ds : List (Derivation α)) (n : Nat) :
    Derivation.yieldAll ds.reverse =
      Derivation.yieldAll (ds.drop n).reverse ++ Derivation.yieldAll (ds.take n).reverse := by
  rw [← Derivation.yieldAll_append, ← List.reverse_append, List.take_append_drop]

theorem nodeCountAll_reverse_eq (ds : List (Derivation α)) (n : Nat) :
    Derivation.nodeCountAll ds.reverse =
      Derivation.nodeCountAll (ds.drop n).reverse +
        Derivation.nodeCountAll (ds.take n).reverse := by
  rw [← Derivation.nodeCountAll_append, ← List.reverse_append, List.take_append_drop]

theorem Parsed.reduce (hfree : p.grammar.HookFree) (htrim : p.trim = false)
    (h : p.Parsed tokens c ds symbols rest) {production : Nat} {rule : Rule}
    (hr : p.Reduces c symbols production rule) {target : Nat}
    (hgoto : p.grammar.cfg.collection.goto? (topState (c.stack.drop rule.right.length)) rule.left =
      some target) :
    p.Parsed tokens (Reduces.after p c production rule target)
      (Parser.reduced ds production rule :: ds.drop rule.right.length)
      (rule.left :: symbols.drop rule.right.length) rest := by
  obtain ⟨hderived, hdepicted⟩ := h.reduced hfree htrim hr
  have hyield := yieldAll_reverse_eq ds rule.right.length
  have hcount := nodeCountAll_reverse_eq ds rule.right.length
  refine ⟨Reduces.over_after h.path hgoto,
    .cons hderived (List.forall₂_drop _ h.derived), ?_, h.sees, ?_, ?_, ?_⟩
  · have hdrop := List.forall₂_drop rule.right.length h.depicted
    rw [← List.map_drop] at hdrop
    exact .cons (hdepicted.stamp target) hdrop
  · rw [h.tokens_eq, hyield]
    simp [Derivation.yieldAll, Derivation.yield, Parser.reduced]
  · have hshifts : (Reduces.after p c production rule target).stats.shifts = c.stats.shifts := rfl
    rw [hshifts, h.shifts_eq, hyield]
    simp [Derivation.yieldAll, Derivation.yield, Parser.reduced]
  · have hreductions : (Reduces.after p c production rule target).stats.reductions =
        c.stats.reductions + 1 := rfl
    rw [hreductions, h.reductions_eq, hcount]
    simp [Derivation.nodeCountAll, Derivation.nodeCount, Parser.reduced]
    omega

/-- What an accepting run returns shows a derivation of what it shifted, and at that moment a
completed start production stands before what is in sight. -/
theorem Parsed.accept (hfree : p.grammar.HookFree) (htrim : p.trim = false)
    (h : p.Parsed tokens c ds symbols rest) {root : Tree α} {stats : Stats}
    {unread : List (Pull α ε)} (hstep : p.step c = .halt ⟨.accepted root, stats, unread⟩) :
    ∃ children, p.grammar.cfg.IsDerivation (.node 0 children) 0 ∧
      p.grammar.cfg.Depicts root (.node 0 children) ∧
      tokens = (Derivation.node 0 children).yield ++ rest ∧
      stats.shifts = (Derivation.node 0 children).yield.length ∧
      stats.reductions = (Derivation.node 0 children).nodeCount ∧
      ∃ x ∈ p.grammar.cfg.lookaheads.state c.state,
        x.lookahead = c.lookahead ∧ x.item.production = 0 := by
  have hmove := move_of_over h.path
  generalize p.step c = s at hstep hmove
  cases hmove with
  | reject => cases hstep
  | shift =>
    obtain ⟨error, hfaulted⟩ := Config.advance_eq_halt hstep
    cases hfaulted
  | reduce => cases hstep
  | @accept x rule hx hla hzero hr hbelow =>
    cases hstep
    obtain ⟨hderived, hdepicted⟩ := h.reduced hfree htrim hr
    -- Nothing is below, so the derivations on top are all there are.
    have hall : ds.take rule.right.length = ds := by
      have hlength : c.stack.length = ds.length := by simpa using h.depicted.length_eq
      rw [List.drop_eq_nil_iff, hlength] at hbelow
      exact List.take_of_length_le hbelow
    rw [Parser.reduced, hall] at hderived hdepicted
    rw [Cfg.left_eq_zero hr.rule_eq] at hderived
    exact ⟨ds.reverse, hderived, hdepicted, h.tokens_eq, h.shifts_eq,
      by simp [Derivation.nodeCount, h.reductions_eq], x, hx, hla, hzero⟩

theorem exists_parsed_of_reachable (hfree : p.grammar.HookFree) (htrim : p.trim = false)
    {source : List (Pull α ε)} {c : Config α ε} (h : p.Reachable source c) :
    ∃ ds symbols rest, p.Parsed (leading source) c ds symbols rest := by
  induction h with
  | start h => exact ⟨[], [], _, parsed_of_start h⟩
  | @step c d _ h ih =>
    obtain ⟨ds, symbols, rest, hparsed⟩ := ih
    have hmove := move_of_over hparsed.path
    generalize p.step c = s at h hmove
    cases hmove with
    | reject => cases h
    | shift hla hterminal hgoto =>
      obtain ⟨t, ts, -, hd⟩ := hparsed.shift hla hterminal hgoto h
      exact ⟨_, _, _, hd⟩
    | accept => cases h
    | reduce hr hgoto =>
      cases h
      exact ⟨_, _, _, hparsed.reduce hfree htrim hr hgoto⟩

end Parser

/-! ## What follows the start production -/

/-- If the start symbol is on no right side, only the end of the input follows its production. -/
theorem Cfg.lookahead_eq_none_of_start {g : Cfg} (h : ∀ rule ∈ g.rules, 0 ∉ rule.right) {q : Nat}
    {x : LookaheadItem} (hx : x ∈ g.lookaheads.state q) (hzero : x.item.production = 0) :
    x.lookahead = none := by
  have hawaited : ∀ x y : LookaheadItem, y ∈ g.awaitedWith g.firstSets x →
      y.item.production ≠ 0 := by
    intro x y hy hproduction
    obtain ⟨symbol, hnext, hbegin, -⟩ := mem_awaitedWith_firstSets.1 hy
    obtain ⟨-, rule, hrule, hleft⟩ := mem_beginningsOf.1 hbegin
    rw [hproduction] at hrule
    obtain ⟨rule', hrule', hsymbol⟩ := nextSymbol?_eq_some_iff.1 hnext
    rw [← hleft, left_eq_zero hrule] at hsymbol
    exact h rule' (List.mem_of_getElem? hrule') (List.mem_of_getElem? hsymbol)
  have hcomes : ∀ q x, g.Comes q x → x.item.production = 0 → x.lookahead = none := by
    intro q x hx
    exact hx.induct (P := fun x => x.item.production = 0 → x.lookahead = none)
      (fun _ _ _ => rfl) fun x y _ hy hproduction => absurd hproduction (hawaited x y hy)
  refine @lookaheads_induct g (fun _ x => x.item.production = 0 → x.lookahead = none) ?_ q x hx
    hzero
  constructor
  · intro q x hx q' y hputs hproduction
    rcases hputs with ⟨-, rfl, -⟩ | ⟨hne, rfl, -⟩
    · exact hcomes q y hx hproduction
    · exact absurd (hcomes q x hx hproduction) hne
  · intro q x _ y hy hproduction
    exact absurd hproduction (hawaited x y hy)
  · intro q x hx _ symbol target _ _ hproduction
    exact hx hproduction

/-! ## Whole runs -/

namespace Parser

variable {α ε : Type}

/-- If a run without hooks and trimming accepts, the root shows a derivation tree that begins with
the first production; its tokens are the ones shifted, the first ones of the source, and its nodes
are as many as reductions were made.  If the start symbol is on no right side and no token stands
for the end of the input, these are all tokens of the source. -/
theorem accepted_is_derivation {g : Grammar α} (hfree : g.HookFree) {p : Parser α}
    (hp : Parser.build g false = .ok p) {source : List (Pull α ε)} {root : Tree α} {stats : Stats}
    {unread : List (Pull α ε)} (h : p.parse source = ⟨.accepted root, stats, unread⟩) :
    ∃ children : List (Derivation α),
      g.cfg.IsDerivation (.node 0 children) 0 ∧ g.cfg.Depicts root (.node 0 children) ∧
      (Derivation.node 0 children).yield = (leading source).take stats.shifts ∧
      (Derivation.node 0 children).yield.length = stats.shifts ∧
      (Derivation.node 0 children).nodeCount = stats.reductions ∧
      ((∀ rule ∈ g.cfg.rules, 0 ∉ rule.right) → (∀ t ∈ leading source, t.symbol ≠ none) →
        (Derivation.node 0 children).yield = leading source) := by
  obtain ⟨rfl, htrim⟩ := build_eq_ok hp
  have hends : p.Ends (start source) ⟨.accepted root, stats, unread⟩ :=
    ends_of_parse h fun _ _ => by simp
  rcases hends.exists_last with hhalt | ⟨c, hc, hstep⟩
  · obtain ⟨error, hfaulted⟩ := Config.advance_eq_halt hhalt
    cases hfaulted
  · obtain ⟨ds, symbols, rest, hparsed⟩ := exists_parsed_of_reachable hfree htrim hc
    obtain ⟨children, hderived, hdepicted, htokens, hshifts, hreductions, x, hx, hla, hzero⟩ :=
      hparsed.accept hfree htrim hstep
    refine ⟨children, hderived, hdepicted, ?_, hshifts.symm, hreductions.symm, ?_⟩
    · rw [htokens, hshifts, List.take_left]
    · intro hstart hend
      have hnone := Cfg.lookahead_eq_none_of_start hstart hx hzero
      rw [hla] at hnone
      have hsees := hparsed.sees.lookahead_eq
      cases rest with
      | nil => rw [htokens, List.append_nil]
      | cons t ts =>
        refine absurd ?_ (hend t (by simp [htokens]))
        rw [← hnone]
        exact hsees.symm

/-- Two terminals are accepted, and they are what the derivation yields. -/
theorem accepted_is_derivation_anyNumber :
    ∃ (root : Tree Nat) (stats : Stats),
      anyNumber.parse [Pull.token (Tree.scalar 2 7), .token (Tree.scalar 2 8)] =
        (⟨.accepted root, stats, []⟩ : Outcome Nat String) ∧
      ∃ children : List (Derivation Nat),
        Grammar.anyNumber.cfg.Depicts root (.node 0 children) ∧
        (Derivation.node 0 children).yield = [Tree.scalar 2 7, Tree.scalar 2 8] := by
  have hbuild : Parser.build Grammar.anyNumber false = .ok anyNumber := anyNumber.build_eq
  have hparse : ∃ (root : Tree Nat) (stats : Stats),
      anyNumber.parse [Pull.token (Tree.scalar 2 7), .token (Tree.scalar 2 8)] =
        (⟨.accepted root, stats, []⟩ : Outcome Nat String) := ⟨_, _, rfl⟩
  obtain ⟨root, stats, hparse⟩ := hparse
  obtain ⟨children, -, hdepicts, -, -, -, hyield⟩ :=
    accepted_is_derivation (by unfold Grammar.HookFree; decide) hbuild hparse
  refine ⟨root, stats, hparse, children, hdepicts, hyield (by decide) ?_⟩
  intro t ht
  simp only [leading, List.mem_cons, List.not_mem_nil, or_false] at ht
  rcases ht with rfl | rfl
  · exact Option.some_ne_none 2
  · exact Option.some_ne_none 2

end Parser

end ShiftReduce
