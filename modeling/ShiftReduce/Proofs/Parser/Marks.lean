import ShiftReduce.Proofs.Parser.Soundness

/-!
# Marks reach the root

A tree is marked when it, or anything below it, has a negative state.  States that are recorded on
the stack, relabellings and reductions keep the marks of what they are given and add none.  If every
hook that replaces marked children gives a marked tree, then the trees on the stack lose no mark
either, and the only way to a new one is a token that comes in marked or a hook that returns a
marked tree.  The tree of an accepting run is therefore marked just when one of these has happened.

* `Tree.isError_stamp`, `Tree.isError_relabel`, `Tree.isError_reduction`: when trees are marked;
* `Grammar.KeepsMarks`: hooks that lose no mark;
* `Parser.Shifts`, `Parser.Replaces`: what happens in a run;
* `Parser.marked_next_iff`, `Parser.marked_root_iff`: one step;
* `Parser.root_isError_iff`: a whole run.
-/

namespace ShiftReduce

/-! ## Marked trees -/

namespace Tree

variable {α : Type}

theorem isError_withState_errorState (t : Tree α) : (t.withState errorState).isError = true := by
  cases t <;> simp [withState, withTag, isError, errorState]

/-- A state that is recorded changes no mark. -/
theorem isError_stamp (q : Nat) (t : Tree α) : (stamp q t).isError = t.isError := by
  unfold stamp
  split
  · rfl
  · next hstate =>
    have hq : ¬ (q : Int) < 0 := Int.not_lt.2 (Int.natCast_nonneg q)
    -- neither the old state nor the new one is a mark, so that only what is below counts
    cases t
    all_goals
      simp only [Tree.state, tag] at hstate
      simp [withState, withTag, isError, hq, hstate]

theorem isError_relabel (t : Tree α) (symbol : Nat) :
    (t.relabel symbol).isError = t.isError := by
  unfold relabel
  cases herror : t.isError with
  | true => cases t <;> simp [withTag, isError, errorState]
  | false => cases t <;> simp_all [withTag, isError]

/-- A reduction is marked when one of its children is. -/
theorem isError_reduction (symbol production : Nat) (ts : List (Tree α)) :
    (reduction symbol production ts).isError = anyError ts := by
  unfold reduction
  cases herror : anyError ts with
  | true => simp [isError, errorState]
  | false => simp [isError, herror]

theorem anyError_iff {ts : List (Tree α)} : anyError ts = true ↔ ∃ t ∈ ts, t.isError = true := by
  induction ts with
  | nil => simp [anyError]
  | cons t ts ih => simp [anyError, ih]

end Tree

/-! ## Hooks that keep marks -/

namespace Grammar

variable {α : Type}

/-- No hook replaces marked children with a tree that is not marked. -/
def KeepsMarks (g : Grammar α) : Prop :=
  ∀ production children t, g.replacement? production children = some t →
    (∃ child ∈ children, child.isError = true) → t.isError = true

end Grammar

namespace Parser

variable {α ε : Type} {p : Parser α} {c : Config α ε} {symbols : List Nat}

/-- The tree for a reduction is marked when a child is, or when it comes marked from a hook. -/
theorem isError_reduce_iff (h : p.grammar.KeepsMarks) (production : Nat) (rule : Rule)
    (children : List (Tree α)) :
    (p.reduce production rule children).isError = true ↔
      (∃ child ∈ children, child.isError = true) ∨
        ∃ t, p.grammar.replacement? production children = some t ∧ t.isError = true := by
  unfold reduce
  cases hhook : p.grammar.replacement? production children with
  | some t =>
    constructor
    · exact fun ht => Or.inr ⟨t, rfl, ht⟩
    · rintro (hchild | ⟨u, hu, hmark⟩)
      · exact h production children t hhook hchild
      · cases hu
        exact hmark
  | none =>
    have hplain : ∀ ts : List (Tree α), (Tree.reduction rule.left production ts).isError = true ↔
        ∃ child ∈ ts, child.isError = true := by
      intro ts
      rw [Tree.isError_reduction, Tree.anyError_iff]
    have hnone : ¬ ∃ t : Tree α, none = some t ∧ t.isError = true := fun ⟨_, ht, _⟩ => nomatch ht
    rw [or_iff_left hnone]
    split
    · next t ht => cases ht
    · split
      · next only =>
        split
        · simp [Tree.isError_relabel]
        · exact hplain [only]
      · exact hplain _

/-! ## What happens in a run -/

/-- The run over the source shifts the token. -/
def Shifts (p : Parser α) (source : List (Pull α ε)) (t : Tree α) : Prop :=
  ∃ c : Config α ε, p.Reachable source c ∧
    (∃ target, p.actionFor c.state c.lookahead = .shift target) ∧ c.token = t

/-- In the run over the source a hook replaces the children of a reduction with the tree. -/
def Replaces (p : Parser α) (source : List (Pull α ε)) (t : Tree α) : Prop :=
  ∃ (c : Config α ε) (production : Nat) (rule : Rule), p.Reachable source c ∧
    p.actionFor c.state c.lookahead = .reduce production ∧
    p.grammar.cfg.rules[production]? = some rule ∧
    p.grammar.replacement? production (Reduces.childrenOf c rule) = some t

/-- Some tree on the stack is marked. -/
def Marked (c : Config α ε) : Prop := ∃ frame ∈ c.stack, frame.tree.isError = true

/-- A mark comes in at the configuration, with a token or from a hook. -/
inductive Raises (p : Parser α) (c : Config α ε) : Prop
  | token {target : Nat} (haction : p.actionFor c.state c.lookahead = .shift target)
    (hmark : c.token.isError = true)
  | hook {production : Nat} {rule : Rule} {t : Tree α}
    (haction : p.actionFor c.state c.lookahead = .reduce production)
    (hrule : p.grammar.cfg.rules[production]? = some rule)
    (hhook : p.grammar.replacement? production (Reduces.childrenOf c rule) = some t)
    (hmark : t.isError = true)

theorem exists_raises_iff {source : List (Pull α ε)} :
    (∃ c : Config α ε, p.Reachable source c ∧ p.Raises c) ↔
      (∃ t, p.Shifts source t ∧ t.isError = true) ∨
        ∃ t, p.Replaces source t ∧ t.isError = true := by
  constructor
  · rintro ⟨c, hc, ⟨haction, hmark⟩ | ⟨haction, hrule, hhook, hmark⟩⟩
    · exact Or.inl ⟨c.token, ⟨c, hc, ⟨_, haction⟩, rfl⟩, hmark⟩
    · exact Or.inr ⟨_, ⟨c, _, _, hc, haction, hrule, hhook⟩, hmark⟩
  · rintro (⟨t, ⟨c, hc, ⟨target, haction⟩, rfl⟩, hmark⟩ |
      ⟨t, ⟨c, production, rule, hc, haction, hrule, hhook⟩, hmark⟩)
    · exact ⟨c, hc, .token haction hmark⟩
    · exact ⟨c, hc, .hook haction hrule hhook hmark⟩

theorem raises_shift_iff {target : Nat}
    (haction : p.actionFor c.state c.lookahead = .shift target) :
    p.Raises c ↔ c.token.isError = true := by
  constructor
  · rintro (⟨-, hmark⟩ | ⟨hreduce, -, -, -⟩)
    · exact hmark
    · rw [haction] at hreduce
      cases hreduce
  · exact .token haction

theorem raises_reduce_iff {production : Nat} {rule : Rule}
    (haction : p.actionFor c.state c.lookahead = .reduce production)
    (hrule : p.grammar.cfg.rules[production]? = some rule) :
    p.Raises c ↔ ∃ t, p.grammar.replacement? production (Reduces.childrenOf c rule) = some t ∧
      t.isError = true := by
  constructor
  · rintro (⟨hshift, -⟩ | ⟨hreduce, hrule', hhook, hmark⟩)
    · rw [haction] at hshift
      cases hshift
    · rw [haction] at hreduce
      cases hreduce
      rw [hrule] at hrule'
      cases hrule'
      exact ⟨_, hhook, hmark⟩
  · rintro ⟨t, hhook, hmark⟩
    exact .hook haction hrule hhook hmark

/-- The marks on the stack are those of the children of a reduction and those below. -/
theorem marked_iff_childrenOf (c : Config α ε) (rule : Rule) :
    Marked c ↔ (∃ child ∈ Reduces.childrenOf c rule, child.isError = true) ∨
      ∃ frame ∈ c.stack.drop rule.right.length, frame.tree.isError = true := by
  unfold Marked Reduces.childrenOf
  conv_lhs => rw [← List.take_append_drop rule.right.length c.stack]
  simp only [List.mem_append, or_and_right, exists_or, List.mem_reverse, List.mem_map,
    exists_exists_and_eq_and]

/-! ## Steps and runs -/

/-- A step keeps the marks on the stack, and adds what comes in. -/
theorem marked_next_iff (h : p.grammar.KeepsMarks) (hc : c.Over p.grammar.cfg symbols)
    {d : Config α ε} (hstep : p.step c = .next d) : Marked d ↔ Marked c ∨ p.Raises c := by
  rcases step_cases_of_over hc with ⟨-, herror⟩ | ⟨symbol, target, -, -, -, haction, hshift⟩ |
    ⟨production, rule, haction, hr, ⟨-, -, haccept⟩ | ⟨target, -, hreduce⟩⟩
  · rw [herror] at hstep
    cases hstep
  · rw [hshift] at hstep
    obtain ⟨hstack, -⟩ := shiftStep_eq_next hstep
    rw [raises_shift_iff haction]
    simp only [Marked, hstack, List.mem_cons, exists_eq_or_imp, Tree.isError_stamp]
    exact Or.comm
  · rw [haccept] at hstep
    cases hstep
  · rw [hreduce] at hstep
    cases hstep
    rw [raises_reduce_iff haction hr.rule_eq, marked_iff_childrenOf c rule, or_right_comm,
      ← isError_reduce_iff h production rule]
    simp only [Marked, Reduces.after, List.mem_cons, exists_eq_or_imp, Tree.isError_stamp]

/-- The tree that a step accepts has the marks on the stack, and what comes in. -/
theorem marked_root_iff (h : p.grammar.KeepsMarks) (hc : c.Over p.grammar.cfg symbols)
    {root : Tree α} {stats : Stats} {unread : List (Pull α ε)}
    (hstep : p.step c = .halt ⟨.accepted root, stats, unread⟩) :
    root.isError = true ↔ Marked c ∨ p.Raises c := by
  rcases step_cases_of_over hc with ⟨-, herror⟩ | ⟨symbol, target, -, -, -, -, hshift⟩ |
    ⟨production, rule, haction, hr, ⟨-, hbelow, haccept⟩ | ⟨target, -, hreduce⟩⟩
  · rw [herror] at hstep
    cases hstep
  · rw [hshift] at hstep
    obtain ⟨error, hfaulted⟩ := Config.advance_eq_halt hstep
    cases hfaulted
  · rw [haccept] at hstep
    cases hstep
    rw [raises_reduce_iff haction hr.rule_eq, marked_iff_childrenOf c rule, hbelow,
      isError_reduce_iff h production rule]
    simp
  · rw [hreduce] at hstep
    cases hstep

/-- There is a mark on the stack only if one has come in before. -/
theorem exists_raises_of_marked (h : p.grammar.KeepsMarks) {source : List (Pull α ε)}
    (hc : p.Reachable source c) (hmarked : Marked c) :
    ∃ d : Config α ε, p.Reachable source d ∧ p.Raises d := by
  induction hc with
  | start hstart =>
    obtain ⟨hstack, -⟩ := Config.advance_eq_next hstart
    obtain ⟨frame, hframe, -⟩ := hmarked
    rw [hstack] at hframe
    cases hframe
  | @step c d hc hstep ih =>
    obtain ⟨symbols, hover⟩ := over_of_reachable hc
    rcases (marked_next_iff h hover hstep).1 hmarked with hbefore | hraises
    · exact ih hbefore
    · exact ⟨c, hc, hraises⟩

/-- Once there is a mark, there is one up to the root. -/
theorem Ends.isError_root (h : p.grammar.KeepsMarks) {s : Step α ε} {o : Outcome α ε}
    (ho : p.Ends s o) {c : Config α ε} (hs : s = .next c) (hc : c.Over p.grammar.cfg symbols)
    {root : Tree α} (hroot : o.verdict = .accepted root) (hmark : Marked c ∨ p.Raises c) :
    root.isError = true := by
  induction ho generalizing c symbols with
  | halt => cases hs
  | @next c' o hends ih =>
    cases hs
    cases hstep : p.step c' with
    | halt o' =>
      rw [hstep] at hends
      cases hends
      obtain ⟨verdict, stats, unread⟩ := o
      cases hroot
      exact (marked_root_iff h hc hstep).2 hmark
    | next d =>
      obtain ⟨symbols', hd⟩ := over_of_step hc hstep
      exact ih hstep hd hroot (Or.inl ((marked_next_iff h hc hstep).2 hmark))

/-- If no hook loses a mark, the tree of an accepting run is marked just when a token that was
shifted is, or a tree that a hook gave. -/
theorem root_isError_iff {g : Grammar α} (hmarks : g.KeepsMarks) {trim : Bool}
    (hp : Parser.build g trim = .ok p) {source : List (Pull α ε)} {root : Tree α} {stats : Stats}
    {unread : List (Pull α ε)} (h : p.parse source = ⟨.accepted root, stats, unread⟩) :
    root.isError = true ↔
      (∃ t, p.Shifts source t ∧ t.isError = true) ∨
        ∃ t, p.Replaces source t ∧ t.isError = true := by
  obtain ⟨rfl, -⟩ := build_eq_ok hp
  have hends := ends_of_parse h fun _ _ => by simp
  rw [← exists_raises_iff]
  constructor
  · intro hroot
    obtain ⟨c, hc, hstep⟩ := hends.exists_accept
    obtain ⟨symbols, hover⟩ := over_of_reachable hc
    rcases (marked_root_iff hmarks hover hstep).1 hroot with hmarked | hraises
    · exact exists_raises_of_marked hmarks hc hmarked
    · exact ⟨c, hc, hraises⟩
  · rintro ⟨c, hc, hraises⟩
    obtain ⟨symbols, hover⟩ := over_of_reachable hc
    exact (hc.ends hends).isError_root hmarks rfl hover rfl (Or.inr hraises)

end Parser

/-! ## A value that is refused -/

/-- Marks a reduction of `anyNumber` when its first child is the value `0`.  Nothing is replaced
where a child is marked. -/
def refuseZero : Hook Nat := fun left children =>
  if Tree.anyError children then none
  else if children.head?.bind Tree.value? = some 0 then
    some ((Tree.reduction left 1 children).withState Tree.errorState)
  else none

/-- The grammar of `Cfg.anyNumber` for numbers other than `0`. -/
def Grammar.nonzero : Grammar Nat :=
  { Grammar.anyNumber with
    hooks := [none, some refuseZero, none]
    hooks_length := rfl }

theorem Grammar.keepsMarks_nonzero : nonzero.KeepsMarks := by
  have hhooks : ∀ production (hook : Hook Nat), nonzero.hook? production = some hook →
      hook = refuseZero := by
    intro production hook hhook
    rcases production with _ | _ | _ | _
    · cases hhook
    · exact (Option.some.inj hhook).symm
    · cases hhook
    · cases hhook
  rintro production children t hreplacement hchild
  simp only [replacement?, Option.bind_eq_bind, Option.bind_eq_some_iff] at hreplacement
  obtain ⟨hook, hhook, rule, -, ht⟩ := hreplacement
  rw [hhooks production hook hhook, refuseZero, if_pos (Tree.anyError_iff.2 hchild)] at ht
  cases ht

/-- The value in the middle is refused deep in the tree, and the mark is found at the root. -/
theorem Parser.root_isError_iff_nonzero :
    ∃ (p : Parser Nat) (root : Tree Nat), Parser.build Grammar.nonzero true = .ok p ∧
      p.parse ([Tree.scalar 2 7, Tree.scalar 2 0, Tree.scalar 2 5].map .token) =
        (⟨.accepted root, ⟨3, 3, 5⟩, []⟩ : Outcome Nat String) ∧
      root.isError = true ∧
      ((∃ t, p.Shifts (([Tree.scalar 2 7, Tree.scalar 2 0, Tree.scalar 2 5].map .token :
          List (Pull Nat String))) t ∧ t.isError = true) ∨
        ∃ t, p.Replaces (([Tree.scalar 2 7, Tree.scalar 2 0, Tree.scalar 2 5].map .token :
          List (Pull Nat String))) t ∧ t.isError = true) := by
  have hruns : ∃ (p : Parser Nat) (root : Tree Nat), Parser.build Grammar.nonzero true = .ok p ∧
      p.parse ([Tree.scalar 2 7, Tree.scalar 2 0, Tree.scalar 2 5].map .token) =
        (⟨.accepted root, ⟨3, 3, 5⟩, []⟩ : Outcome Nat String) ∧ root.isError = true :=
    ⟨_, _, rfl, rfl, rfl⟩
  obtain ⟨p, root, hp, hparse, hroot⟩ := hruns
  exact ⟨p, root, hp, hparse, hroot,
    (root_isError_iff Grammar.keepsMarks_nonzero hp hparse).1 hroot⟩

end ShiftReduce
