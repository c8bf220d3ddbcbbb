import ShiftReduce.Proofs.Parser.Budget
import ShiftReduce.Proofs.Parser.Soundness

/-!
# What is derived is accepted

When no cell of the table has several candidates, the run over the tokens of a derivation follows
the derivation.  Over a token it shifts.  Over a node it finds the beginning of the production in
the current state, under the lookahead that comes after the node; it goes through the children one
after the other, the dot moving along; and then the production is complete under that lookahead, so
that it is reduced.  No lookahead has been lost on the way because the lookahead sets are closed and
members have successors.

* `Config.on`: the configuration over a plain list of tokens;
* `Cfg.Follows`: what comes next may follow an item's next symbol;
* `Parser.Traverses`, `Parser.traverses`: the run goes through a derivation;
* `Parser.traverses_children`: and through the children of a node;
* `Parser.ends_accepted`: the run over a whole derivation;
* `Parser.derivation_is_accepted`: all of this about the parser of a grammar.
-/

namespace ShiftReduce

/-! ## Configurations over lists of tokens -/

section Lists

variable {α ε : Type}

/-- The window at the first of these tokens, with nothing else to come. -/
def windowOn : List (Tree α) → Window α ε
  | [] => ⟨[], some Tree.endOfInput, true⟩
  | t :: ts => ⟨ts.map .token, some t, false⟩

theorem lookahead_windowOn (tokens : List (Tree α)) :
    (windowOn tokens : Window α ε).lookahead = tokens.head?.bind Tree.symbol := by
  cases tokens <;> rfl

/-- The configuration with this stack and these tokens ahead, after so many shifts and
reductions. -/
def Config.on (stack : List (Frame α)) (tokens : List (Tree α)) (shifts reductions : Nat) :
    Config α ε :=
  ⟨windowOn tokens, stack, ⟨shifts + min 1 tokens.length, shifts, reductions⟩⟩

@[simp]
theorem Config.state_on (stack : List (Frame α)) (tokens : List (Tree α)) (s r : Nat) :
    (Config.on stack tokens s r : Config α ε).state = topState stack := rfl

@[simp]
theorem Config.lookahead_on (stack : List (Frame α)) (tokens : List (Tree α)) (s r : Nat) :
    (Config.on stack tokens s r : Config α ε).lookahead = tokens.head?.bind Tree.symbol :=
  lookahead_windowOn tokens

theorem Parser.start_map_token (tokens : List (Tree α)) :
    Parser.start (tokens.map fun t => (.token t : Pull α ε)) = .next (Config.on [] tokens 0 0) := by
  cases tokens with
  | nil => rfl
  | cons t ts => rfl

theorem Parser.shiftStep_on (stack : List (Frame α)) (t : Tree α) (ts : List (Tree α))
    (s r target : Nat) :
    Parser.shiftStep (Config.on stack (t :: ts) s r : Config α ε) target =
      .next (Config.on (⟨target, stamp target t⟩ :: stack) ts (s + 1) r) := by
  cases ts with
  | nil => rfl
  | cons u us => rfl

end Lists

/-- What comes next may follow the next symbol of the item: it begins what is after that symbol in
the rule, or this can vanish and it follows the rule. -/
def Cfg.Follows {α : Type} (g : Cfg) (x : LookaheadItem) (rest : List (Tree α)) : Prop :=
  (∃ t, g.Begins (g.afterNext x.item) t ∧ rest.head?.bind Tree.symbol = some t) ∨
    (g.Vanishes (g.afterNext x.item) ∧ rest.head?.bind Tree.symbol = x.lookahead)

/-- The first of the tokens that are derived from what is after a symbol may follow it. -/
theorem Cfg.follows_of_yields {α : Type} {g : Cfg} {x : LookaheadItem}
    {tokens rest : List (Tree α)} (h : g.Yields (g.afterNext x.item) tokens)
    (hrest : rest.head?.bind Tree.symbol = x.lookahead) : g.Follows x (tokens ++ rest) := by
  obtain ⟨word, hword, hterminal, hderives⟩ := h
  cases tokens with
  | nil =>
    have hnil : word = [] := by simpa using hword.symm
    rw [hnil] at hderives
    exact Or.inr ⟨hderives, hrest⟩
  | cons t ts =>
    cases word with
    | nil => simp at hword
    | cons symbol word =>
      have hsymbol : t.symbol = some symbol := by simpa using (List.cons.inj hword).1
      exact Or.inl ⟨symbol, ⟨hterminal symbol List.mem_cons_self, word, hderives⟩, by
        simpa using hsymbol⟩

namespace Parser

variable {α ε : Type} {p : Parser α}

/-! ## What the table says where nothing competes -/

/-- Any number of steps. -/
def Reaches (p : Parser α) : Config α ε → Config α ε → Prop :=
  Relation.ReflTransGen fun c d => p.step c = .next d

theorem Reaches.ends {c d : Config α ε} {o : Outcome α ε} (h : p.Reaches c d)
    (hd : p.Ends (.next d) o) : p.Ends (.next c) o := by
  induction h using Relation.ReflTransGen.head_induction_on with
  | refl => exact hd
  | head hstep _ ih => exact .next (hstep ▸ ih)

/-- Where nothing competes the parser does what a candidate says, if it can read the lookahead. -/
theorem actionFor_eq (h : p.grammar.Decided) {q : Nat} {la : Lookahead} {c : Candidate}
    (hq : q < p.grammar.cfg.collection.states.size)
    (hla : ∀ symbol, la = some symbol → p.grammar.cfg.isTerminal symbol = true)
    (hc : c ∈ p.grammar.candidates p.grammar.cfg.collection p.grammar.cfg.lookaheads q la) :
    p.actionFor q la = c.action := by
  have hcolumn : column la ≤ p.grammar.cfg.symbolCount := by
    cases la with
    | none => exact Nat.zero_le _
    | some symbol => exact (Cfg.isTerminal_iff.1 (hla symbol rfl)).1
  rw [← h.action_eq hq hcolumn hc, ← p.table_eq]
  cases la with
  | none => rfl
  | some symbol => simp [actionFor, hla symbol rfl]

/-- A terminal that has a transition is shifted. -/
theorem actionFor_shift (h : p.grammar.Decided) {q symbol target : Nat}
    (hterminal : p.grammar.cfg.isTerminal symbol = true)
    (hgoto : p.grammar.cfg.collection.goto? q symbol = some target) :
    p.actionFor q (some symbol) = .shift target := by
  obtain ⟨rank, hrank⟩ := Grammar.exists_shiftCandidate? hgoto
  refine actionFor_eq h (c := ⟨.shift target, rank⟩) (Cfg.goto?_lt hgoto).1 ?_ ?_
  · intro symbol' hsymbol'
    cases hsymbol'
    exact hterminal
  · exact List.mem_append_left _ (by simp [hrank])

/-- A completed item is reduced before the lookahead that it stands under. -/
theorem actionFor_reduce (h : p.grammar.Decided) {production : Nat} {rule : Rule}
    (hrule : p.grammar.cfg.rules[production]? = some rule) {q : Nat} {la : Lookahead}
    (hdone : ⟨⟨production, rule.right.length⟩, la⟩ ∈ p.grammar.cfg.lookaheads.state q) :
    p.actionFor q la = .reduce production := by
  have hproper := Cfg.proper_of_mem hdone
  obtain ⟨candidate, hcandidate, haction⟩ :=
    Grammar.reduce_mem_candidates hdone (Cfg.isComplete_end hrule)
  rw [← haction]
  exact actionFor_eq h (Collection.lt_size_of_mem_state hproper.1) hproper.2 hcandidate

theorem step_shift (h : p.grammar.Decided) {stack : List (Frame α)} {t : Tree α}
    {ts : List (Tree α)} {s r symbol target : Nat} (hsymbol : t.symbol = some symbol)
    (hterminal : p.grammar.cfg.isTerminal symbol = true)
    (hgoto : p.grammar.cfg.collection.goto? (topState stack) symbol = some target) :
    p.step (Config.on stack (t :: ts) s r : Config α ε) =
      .next (Config.on (⟨target, stamp target t⟩ :: stack) ts (s + 1) r) := by
  have hla : (Config.on stack (t :: ts) s r : Config α ε).lookahead = some symbol := by
    simpa using hsymbol
  unfold step
  rw [hla, Config.state_on, actionFor_shift h hterminal hgoto]
  exact shiftStep_on stack t ts s r target

theorem step_reduce (h : p.grammar.Decided) {production : Nat} {rule : Rule}
    (hrule : p.grammar.cfg.rules[production]? = some rule) {stack : List (Frame α)}
    {rest : List (Tree α)} (s r : Nat)
    (hdone : ⟨⟨production, rule.right.length⟩, rest.head?.bind Tree.symbol⟩ ∈
      p.grammar.cfg.lookaheads.state (topState stack)) :
    p.step (Config.on stack rest s r : Config α ε) =
      p.reduceStep (Config.on stack rest s r) production := by
  unfold step
  rw [Config.state_on, Config.lookahead_on, actionFor_reduce h hrule hdone]

/-- A reduction with the right side on top of the stack. -/
theorem reduceStep_on {production target s r : Nat} {rule : Rule} {frames stack : List (Frame α)}
    {rest : List (Tree α)} (hrule : p.grammar.cfg.rules[production]? = some rule)
    (hlength : frames.length = rule.right.length) (hleft : rule.left ≠ 0)
    (hgoto : p.grammar.cfg.collection.goto? (topState stack) rule.left = some target) :
    p.reduceStep (Config.on (frames ++ stack) rest s r : Config α ε) production =
      .next (Config.on (⟨target, stamp target
        (p.reduce production rule (frames.map Frame.tree).reverse)⟩ :: stack) rest s (r + 1)) := by
  have htable := (p.goto?_table (Cfg.isNonterminal_left (List.mem_of_getElem? hrule))).trans hgoto
  have hdrop : (frames ++ stack).drop rule.right.length = stack := by simp [← hlength]
  have htake : (frames ++ stack).take rule.right.length = frames := by simp [← hlength]
  have henough : ¬ (frames ++ stack).length < rule.right.length := by
    rw [List.length_append]
    omega
  have hno : (rule.left == 0 && stack.isEmpty) = false := by simp [hleft]
  simp only [reduceStep, hrule, Config.on, if_neg henough, hdrop, htake, hno, htable]
  rfl

/-- A reduction by the start production of all that is on the stack. -/
theorem reduceStep_accept {s r : Nat} {rule : Rule} {frames : List (Frame α)}
    {rest : List (Tree α)} (hrule : p.grammar.cfg.rules[0]? = some rule)
    (hlength : frames.length = rule.right.length) :
    p.reduceStep (Config.on frames rest s r : Config α ε) 0 =
      .halt ⟨.accepted (p.reduce 0 rule (frames.map Frame.tree).reverse),
        ⟨s + min 1 rest.length, s, r + 1⟩, (windowOn rest : Window α ε).rest⟩ := by
  have hleft : rule.left = 0 := Cfg.left_eq_zero hrule
  simp [reduceStep, hrule, Config.on, ← hlength, hleft, Config.halt]

/-! ## Going through a derivation -/

/-- Wherever an item awaits the symbol of the derivation, and something comes after it that may
follow, the run goes through the derivation and leaves a tree that shows it. -/
def Traverses (p : Parser α) (ε : Type) (d : Derivation α) : Prop :=
  ∀ (symbol : Nat) (x : LookaheadItem) (stack : List (Frame α)) (rest : List (Tree α))
    (s r : Nat), p.grammar.cfg.IsDerivation d symbol →
    x ∈ p.grammar.cfg.lookaheads.state (topState stack) →
    p.grammar.cfg.nextSymbol? x.item = some symbol → p.grammar.cfg.Follows x rest →
    ∃ frame : Frame α,
      p.grammar.cfg.collection.goto? (topState stack) symbol = some frame.state ∧
      p.grammar.cfg.Depicts frame.tree d ∧
      p.Reaches (Config.on stack (d.yield ++ rest) s r : Config α ε)
        (Config.on (frame :: stack) rest (s + d.yield.length) (r + d.nodeCount))

theorem traverses_token (h : p.grammar.Decided) (t : Tree α) : p.Traverses ε (.token t) := by
  intro symbol x stack rest s r hd hx hnext _
  cases hd with
  | token hsymbol hterminal =>
    obtain ⟨target, hgoto⟩ := Cfg.exists_goto? (Cfg.proper_of_mem hx).1 hnext
    refine ⟨⟨target, stamp target t⟩, hgoto, (Cfg.depicts_token t).stamp target, ?_⟩
    exact Relation.ReflTransGen.single (step_shift h hsymbol hterminal hgoto)

/-- From where the dot of an item stands the run goes through what is left of the right side, and
the item is completed under the same lookahead. -/
theorem traverses_children {ds : List (Derivation α)} (hds : ∀ d ∈ ds, p.Traverses ε d)
    {production k : Nat} {rule : Rule} (hrule : p.grammar.cfg.rules[production]? = some rule)
    (hderived : List.Forall₂ p.grammar.cfg.IsDerivation ds (rule.right.drop k))
    {stack : List (Frame α)} {rest : List (Tree α)} (s r : Nat)
    (hitem : ⟨⟨production, k⟩, rest.head?.bind Tree.symbol⟩ ∈
      p.grammar.cfg.lookaheads.state (topState stack)) :
    ∃ frames : List (Frame α),
      List.Forall₂ p.grammar.cfg.Depicts (frames.map Frame.tree).reverse ds ∧
      ⟨⟨production, rule.right.length⟩, rest.head?.bind Tree.symbol⟩ ∈
        p.grammar.cfg.lookaheads.state (topState (frames ++ stack)) ∧
      p.Reaches (Config.on stack (Derivation.yieldAll ds ++ rest) s r : Config α ε)
        (Config.on (frames ++ stack) rest (s + (Derivation.yieldAll ds).length)
          (r + Derivation.nodeCountAll ds)) := by
  induction ds generalizing k stack s r with
  | nil =>
    have hnil : (p.grammar.cfg.rightOf ⟨production, k⟩).drop k = [] := by
      rw [@Cfg.rightOf_eq _ ⟨production, k⟩ rule hrule]
      exact List.forall₂_nil_left_iff.1 hderived
    have hk : k = rule.right.length :=
      Cfg.position_eq_of_isComplete (Cfg.state_subset_allItems (Cfg.proper_of_mem hitem).1) hrule
        (Cfg.isComplete_of_drop_eq_nil hnil)
    exact ⟨[], .nil, hk ▸ hitem, Relation.ReflTransGen.refl⟩
  | cons d ds ih =>
    obtain ⟨symbol, symbols, hd, hrest, hdrop⟩ := List.forall₂_cons_left_iff.1 hderived
    have hright : p.grammar.cfg.rightOf ⟨production, k⟩ = rule.right := Cfg.rightOf_eq hrule
    rw [← hright] at hdrop
    obtain ⟨hnext, hafter⟩ := @Cfg.nextSymbol?_of_drop_eq_cons _ ⟨production, k⟩ _ _ hdrop
    have hfollows : p.grammar.cfg.Follows ⟨⟨production, k⟩, rest.head?.bind Tree.symbol⟩
        (Derivation.yieldAll ds ++ rest) := by
      refine Cfg.follows_of_yields ?_ rfl
      rw [hafter]
      exact Cfg.yields_all hrest
    obtain ⟨frame, hgoto, hdepicts, hreaches⟩ :=
      hds d List.mem_cons_self symbol _ stack _ s r hd hitem hnext hfollows
    have hmoved : ⟨⟨production, k + 1⟩, rest.head?.bind Tree.symbol⟩ ∈
        p.grammar.cfg.lookaheads.state (topState (frame :: stack)) :=
      Cfg.advance_mem_lookaheads hitem hnext hgoto
    have hrest' : List.Forall₂ p.grammar.cfg.IsDerivation ds (rule.right.drop (k + 1)) := by
      rw [Cfg.afterNext, hright] at hafter
      rw [hafter]
      exact hrest
    obtain ⟨frames, hframes, hdone, hreaches'⟩ :=
      ih (fun e he => hds e (List.mem_cons_of_mem _ he)) hrest' (s + d.yield.length)
        (r + d.nodeCount) hmoved
    refine ⟨frames ++ [frame], ?_, ?_, ?_⟩
    · rw [List.map_append, List.reverse_append]
      exact .cons hdepicts hframes
    · rw [List.append_assoc]
      exact hdone
    · rw [List.append_assoc, List.singleton_append, Derivation.yieldAll, Derivation.nodeCountAll,
        List.append_assoc, List.length_append, ← Nat.add_assoc, ← Nat.add_assoc]
      exact hreaches.trans hreaches'

theorem traverses_node (h : p.grammar.Decided) (hfree : p.grammar.HookFree)
    (htrim : p.trim = false) (hstart : ∀ rule ∈ p.grammar.cfg.rules, 0 ∉ rule.right)
    {production : Nat} {children : List (Derivation α)}
    (hchildren : ∀ d ∈ children, p.Traverses ε d) :
    p.Traverses ε (.node production children) := by
  intro symbol x stack rest s r hd hx hnext hfollows
  obtain ⟨rule, hrule, rfl, hderived⟩ := Cfg.isDerivation_node_iff.1 hd
  have hbegin : ⟨⟨production, 0⟩, rest.head?.bind Tree.symbol⟩ ∈
      p.grammar.cfg.lookaheads.state (topState stack) := by
    refine Cfg.mem_lookaheads_of_awaitedWith hx (Cfg.mem_awaitedWith_firstSets.2 ?_)
    exact ⟨rule.left, hnext, Cfg.mem_beginningsOf.2 ⟨rfl, rule, hrule, rfl⟩, hfollows⟩
  obtain ⟨frames, hframes, hdone, hreaches⟩ :=
    traverses_children hchildren hrule (k := 0) hderived s r hbegin
  obtain ⟨target, hgoto⟩ := Cfg.exists_goto? (Cfg.proper_of_mem hx).1 hnext
  have hleft : rule.left ≠ 0 := Cfg.ne_zero_of_nextSymbol? hstart hnext
  have hlength : frames.length = rule.right.length := by
    rw [← hderived.length_eq, ← hframes.length_eq]
    simp
  refine ⟨⟨target, stamp target (p.reduce production rule (frames.map Frame.tree).reverse)⟩,
    hgoto, ?_, hreaches.tail ?_⟩
  · rw [reduce_eq hfree htrim]
    exact (Cfg.Depicts.node _ hrule hframes).stamp target
  · rw [step_reduce h hrule _ _ hdone]
    exact reduceStep_on hrule hlength hleft hgoto

theorem traverses (h : p.grammar.Decided) (hfree : p.grammar.HookFree) (htrim : p.trim = false)
    (hstart : ∀ rule ∈ p.grammar.cfg.rules, 0 ∉ rule.right) (d : Derivation α) :
    p.Traverses ε d := by
  induction d using Derivation.induct with
  | token t => exact traverses_token h t
  | node production children ih => exact traverses_node h hfree htrim hstart ih

/-! ## Whole runs -/

/-- The run over the tokens of a derivation accepts and returns a tree that shows it. -/
theorem ends_accepted (h : p.grammar.Decided) (hfree : p.grammar.HookFree) (htrim : p.trim = false)
    (hstart : ∀ rule ∈ p.grammar.cfg.rules, 0 ∉ rule.right) {children : List (Derivation α)}
    (hd : p.grammar.cfg.IsDerivation (.node 0 children) 0) :
    ∃ root : Tree α, p.grammar.cfg.Depicts root (.node 0 children) ∧
      p.Ends (start ((Derivation.node 0 children).yield.map fun t => (.token t : Pull α ε)))
        ⟨.accepted root, ⟨(Derivation.node 0 children).yield.length,
          (Derivation.node 0 children).yield.length,
          (Derivation.node 0 children).nodeCount⟩, []⟩ := by
  obtain ⟨rule, hrule, -, hderived⟩ := Cfg.isDerivation_node_iff.1 hd
  have hbegin : ⟨⟨0, 0⟩, ([] : List (Tree α)).head?.bind Tree.symbol⟩ ∈
      p.grammar.cfg.lookaheads.state (topState ([] : List (Frame α))) :=
    p.grammar.cfg.start_mem_lookaheads
  have htraverses : ∀ d ∈ children, p.Traverses ε d := fun d _ =>
    traverses h hfree htrim hstart d
  obtain ⟨frames, hframes, hdone, hreaches⟩ :=
    traverses_children htraverses hrule (k := 0) hderived 0 0 hbegin
  have hlength : frames.length = rule.right.length := by
    rw [← hderived.length_eq, ← hframes.length_eq]
    simp
  rw [List.append_nil, List.append_nil, Nat.zero_add, Nat.zero_add] at hreaches
  rw [List.append_nil] at hdone
  refine ⟨p.reduce 0 rule (frames.map Frame.tree).reverse, ?_, ?_⟩
  · rw [reduce_eq hfree htrim]
    exact .node _ hrule hframes
  · rw [start_map_token]
    refine hreaches.ends (.next ?_)
    rw [step_reduce h hrule _ _ hdone, reduceStep_accept hrule hlength]
    exact .halt

/-- Where nothing competes there is a parser. -/
theorem exists_build_eq_ok {g : Grammar α} (h : g.Decided) (trim : Bool) :
    ∃ p : Parser α, Parser.build g trim = .ok p := by
  refine ⟨⟨g, g.automaton.table, trim, rfl, h.conflicts_eq_nil⟩, ?_⟩
  exact build_eq ⟨g, g.automaton.table, trim, rfl, h.conflicts_eq_nil⟩

/-- If no cell has several candidates and the start symbol is on no right side, the parser without
hooks and trimming accepts the tokens of every derivation of the start symbol and returns the
derivation, with states added to it.  No tokens have two derivations. -/
theorem derivation_is_accepted {g : Grammar α} (hfree : g.HookFree)
    (hstart : ∀ rule ∈ g.cfg.rules, 0 ∉ rule.right) (hdecided : g.Decided) (ε : Type) :
    ∃ p : Parser α, Parser.build g false = .ok p ∧
      (∀ d : Derivation α, g.cfg.IsDerivation d 0 →
        ∃ root : Tree α, g.cfg.Depicts root d ∧
          p.parse (d.yield.map fun t => (.token t : Pull α ε)) =
            ⟨.accepted root, ⟨d.yield.length, d.yield.length, d.nodeCount⟩, []⟩) ∧
      ∀ d e : Derivation α, g.cfg.IsDerivation d 0 → g.cfg.IsDerivation e 0 →
        d.yield = e.yield → d = e := by
  obtain ⟨p, hp⟩ := exists_build_eq_ok hdecided false
  obtain ⟨rfl, htrim⟩ := build_eq_ok hp
  have haccepted : ∀ d : Derivation α, p.grammar.cfg.IsDerivation d 0 →
      ∃ root : Tree α, p.grammar.cfg.Depicts root d ∧
        p.parse (d.yield.map fun t => (.token t : Pull α ε)) =
          ⟨.accepted root, ⟨d.yield.length, d.yield.length, d.nodeCount⟩, []⟩ := by
    intro d hd
    obtain ⟨children, rfl⟩ := hd.exists_children
    obtain ⟨root, hdepicts, hends⟩ := ends_accepted hdecided hfree htrim hstart hd
    exact ⟨root, hdepicts, parse_eq_of_ends hends⟩
  refine ⟨p, hp, haccepted, ?_⟩
  intro d e hd he hyield
  obtain ⟨root, hdepicts, hparse⟩ := haccepted d hd
  obtain ⟨root', hdepicts', hparse'⟩ := haccepted e he
  rw [← hyield, hparse] at hparse'
  obtain rfl : root = root' := Verdict.accepted.inj (Outcome.mk.inj hparse').1
  exact hdepicts.eq_of_yield_eq hdepicts' hd he hyield

/-- Two terminals are derived, so they are accepted. -/
theorem derivation_is_accepted_anyNumber :
    ∃ (p : Parser Nat) (d : Derivation Nat) (root : Tree Nat),
      Parser.build Grammar.anyNumber false = .ok p ∧
      d.yield = [Tree.scalar 2 7, Tree.scalar 2 8] ∧
      Grammar.anyNumber.cfg.Depicts root d ∧
      p.parse [Pull.token (Tree.scalar 2 7), .token (Tree.scalar 2 8)] =
        (⟨.accepted root, ⟨2, 2, 4⟩, []⟩ : Outcome Nat String) := by
  have hnone : Grammar.anyNumber.cfg.IsDerivation (α := Nat) (.node 2 []) 1 :=
    Cfg.isDerivation_node_iff.2 ⟨_, rfl, rfl, .nil⟩
  have hitem : ∀ n : Nat, Grammar.anyNumber.cfg.IsDerivation (.token (Tree.scalar 2 n)) 2 :=
    fun n => .token rfl (by decide)
  have hmore : ∀ (n : Nat) (d : Derivation Nat), Grammar.anyNumber.cfg.IsDerivation d 1 →
      Grammar.anyNumber.cfg.IsDerivation (.node 1 [.token (Tree.scalar 2 n), d]) 1 :=
    fun n d hd => Cfg.isDerivation_node_iff.2 ⟨_, rfl, rfl, .cons (hitem n) (.cons hd .nil)⟩
  have hroot := Cfg.isDerivation_node_iff.2
    ⟨_, (rfl : Grammar.anyNumber.cfg.rules[0]? = some ⟨0, [1]⟩), rfl,
      .cons (hmore 7 _ (hmore 8 _ hnone)) .nil⟩
  obtain ⟨p, hp, haccepted, -⟩ := derivation_is_accepted (g := Grammar.anyNumber)
    (by unfold Grammar.HookFree; decide) (by decide) (by decide +kernel) String
  obtain ⟨root, hdepicts, hparse⟩ := haccepted _ hroot
  exact ⟨p, _, root, hp, rfl, hdepicts, hparse⟩

end Parser

end ShiftReduce
