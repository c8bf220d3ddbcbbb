import ShiftReduce.Proofs.Parser.Completeness

/-!
# Following a derivation, one child after the other

When a table settles conflicts, whether a run follows a derivation depends on where the derivation
stands and on what comes after it.  So each part is followed from a given stack and before given
tokens: a token by a shift, and a node through its children, one after the other, and then by a
reduction.

* `Parser.Crosses`: from this stack the run goes through the derivation;
* `Parser.crosses_token`: the table says to shift the token;
* `Parser.exists_frames_of_children`: the children, each from the stack that those before it leave;
* `Parser.crosses_node`: the table says to reduce what the children leave.
-/

namespace ShiftReduce.Parser

variable {α ε : Type} {p : Parser α}

/-- From the stack the run goes through the derivation of the symbol, which comes before the given
tokens, and leaves a tree that shows it. -/
def Crosses (p : Parser α) (ε : Type) (stack : List (Frame α)) (symbol : Nat) (d : Derivation α)
    (rest : List (Tree α)) : Prop :=
  ∃ frame : Frame α, p.grammar.cfg.collection.goto? (topState stack) symbol = some frame.state ∧
    p.grammar.cfg.Depicts frame.tree d ∧
    ∀ s r, p.Reaches (Config.on stack (d.yield ++ rest) s r : Config α ε)
      (Config.on (frame :: stack) rest (s + d.yield.length) (r + d.nodeCount))

/-- A token is crossed where the table says to shift it. -/
theorem crosses_token {stack : List (Frame α)} {symbol target : Nat} {t : Tree α}
    (hsymbol : t.symbol = some symbol)
    (hgoto : p.grammar.cfg.collection.goto? (topState stack) symbol = some target)
    (haction : p.actionFor (topState stack) (some symbol) = .shift target)
    (rest : List (Tree α)) : p.Crosses ε stack symbol (.token t) rest := by
  refine ⟨⟨target, stamp target t⟩, hgoto, (Cfg.depicts_token t).stamp target, fun s r => ?_⟩
  refine Relation.ReflTransGen.single ?_
  have hla : (Config.on stack (t :: rest) s r : Config α ε).lookahead = some symbol := by
    simpa using hsymbol
  show p.step (Config.on stack (t :: rest) s r : Config α ε) = _
  unfold step
  rw [hla, Config.state_on, haction]
  exact shiftStep_on stack t rest s r target

section Children

variable {production : Nat} {rule : Rule} {ds : List (Derivation α)} {stack : List (Frame α)}
  {σ : List Nat} {la : Lookahead} {rest : List (Tree α)}

/-- Every child is crossed, from a stack with those before it on top, and before those after it. -/
def CrossesChildren (p : Parser α) (ε : Type) (production : Nat) (rule : Rule)
    (ds : List (Derivation α)) (stack : List (Frame α)) (σ : List Nat) (la : Lookahead)
    (rest : List (Tree α)) : Prop :=
  ∀ (i : Nat) (d : Derivation α) (symbol : Nat) (frames : List (Frame α)), ds[i]? = some d →
    rule.right[i]? = some symbol →
    p.grammar.cfg.Path ((frames ++ stack).map Frame.state) ((rule.right.take i).reverse ++ σ) →
    ⟨⟨production, i⟩, la⟩ ∈ p.grammar.cfg.lookaheads.state (topState (frames ++ stack)) →
    p.grammar.cfg.Follows ⟨⟨production, i⟩, la⟩ (Derivation.yieldAll (ds.drop (i + 1)) ++ rest) →
    p.Crosses ε (frames ++ stack) symbol d (Derivation.yieldAll (ds.drop (i + 1)) ++ rest)

/-- The run goes through the first children, and the dot of the item moves along. -/
theorem exists_frames_of_children (hrule : p.grammar.cfg.rules[production]? = some rule)
    (hderived : List.Forall₂ p.grammar.cfg.IsDerivation ds rule.right)
    (hpath : p.grammar.cfg.Path (stack.map Frame.state) σ)
    (hitem : ⟨⟨production, 0⟩, la⟩ ∈ p.grammar.cfg.lookaheads.state (topState stack))
    (hla : rest.head?.bind Tree.symbol = la)
    (hcross : p.CrossesChildren ε production rule ds stack σ la rest) {n : Nat}
    (hn : n ≤ ds.length) :
    ∃ frames : List (Frame α),
      List.Forall₂ p.grammar.cfg.Depicts (frames.map Frame.tree).reverse (ds.take n) ∧
      p.grammar.cfg.Path ((frames ++ stack).map Frame.state) ((rule.right.take n).reverse ++ σ) ∧
      ⟨⟨production, n⟩, la⟩ ∈ p.grammar.cfg.lookaheads.state (topState (frames ++ stack)) ∧
      ∀ s r, p.Reaches (Config.on stack (Derivation.yieldAll ds ++ rest) s r : Config α ε)
        (Config.on (frames ++ stack) (Derivation.yieldAll (ds.drop n) ++ rest)
          (s + (Derivation.yieldAll (ds.take n)).length)
          (r + Derivation.nodeCountAll (ds.take n))) := by
  induction n with
  | zero =>
    refine ⟨[], .nil, by simpa using hpath, hitem, fun s r => ?_⟩
    exact Relation.ReflTransGen.refl
  | succ n ih =>
    obtain ⟨frames, hframes, hpath', hitem', hreaches⟩ := ih (Nat.le_of_succ_le hn)
    have hlt : n < rule.right.length := hderived.length_eq ▸ hn
    have hd : ds[n]? = some ds[n] := List.getElem?_eq_getElem hn
    have hsymbol : rule.right[n]? = some rule.right[n] := List.getElem?_eq_getElem hlt
    have hnext : p.grammar.cfg.nextSymbol? ⟨production, n⟩ = some rule.right[n] :=
      Cfg.nextSymbol?_eq_some_iff.2 ⟨rule, hrule, hsymbol⟩
    have hfollows : p.grammar.cfg.Follows ⟨⟨production, n⟩, la⟩
        (Derivation.yieldAll (ds.drop (n + 1)) ++ rest) := by
      refine Cfg.follows_of_yields ?_ hla
      rw [Cfg.afterNext, @Cfg.rightOf_eq _ ⟨production, n⟩ rule hrule]
      exact Cfg.yields_all (List.forall₂_drop (n + 1) hderived)
    obtain ⟨frame, hgoto, hdepicts, hgoes⟩ := hcross n _ _ frames hd hsymbol hpath' hitem' hfollows
    refine ⟨frame :: frames, ?_, ?_, ?_, fun s r => ?_⟩
    · rw [List.map_cons, List.reverse_cons, List.take_add_one, hd]
      exact List.rel_append hframes (.cons hdepicts .nil)
    · rw [List.take_add_one, hsymbol, List.reverse_append]
      rw [topState_eq] at hgoto
      exact .enter hpath' hgoto
    · exact Cfg.advance_mem_lookaheads hitem' hnext hgoto
    · have hstep := hgoes (s + (Derivation.yieldAll (ds.take n)).length)
        (r + Derivation.nodeCountAll (ds.take n))
      rw [← List.append_assoc, ← Derivation.yieldAll, ← List.drop_eq_getElem_cons hn] at hstep
      rw [List.take_add_one, hd, Option.toList_some, Derivation.yieldAll_append,
        Derivation.nodeCountAll_append]
      simp only [Derivation.yieldAll, Derivation.nodeCountAll, List.append_nil, List.length_append,
        Nat.add_zero, ← Nat.add_assoc]
      exact (hreaches s r).trans hstep

/-- A node is crossed where its children are, and where the table says to reduce what they leave. -/
theorem crosses_node (hfree : p.grammar.HookFree) (htrim : p.trim = false)
    (hrule : p.grammar.cfg.rules[production]? = some rule) (hleft : rule.left ≠ 0)
    (hderived : List.Forall₂ p.grammar.cfg.IsDerivation ds rule.right)
    (hpath : p.grammar.cfg.Path (stack.map Frame.state) σ)
    (hitem : ⟨⟨production, 0⟩, la⟩ ∈ p.grammar.cfg.lookaheads.state (topState stack))
    (hla : rest.head?.bind Tree.symbol = la) {target : Nat}
    (hgoto : p.grammar.cfg.collection.goto? (topState stack) rule.left = some target)
    (hcross : p.CrossesChildren ε production rule ds stack σ la rest)
    (hreduce : ∀ frames : List (Frame α),
      p.grammar.cfg.Path ((frames ++ stack).map Frame.state) (rule.right.reverse ++ σ) →
      ⟨⟨production, rule.right.length⟩, la⟩ ∈
        p.grammar.cfg.lookaheads.state (topState (frames ++ stack)) →
      p.actionFor (topState (frames ++ stack)) la = .reduce production) :
    p.Crosses ε stack rule.left (.node production ds) rest := by
  obtain ⟨frames, hframes, hpath', hdone, hreaches⟩ :=
    exists_frames_of_children hrule hderived hpath hitem hla hcross (Nat.le_refl ds.length)
  rw [List.take_length] at hframes
  rw [hderived.length_eq, List.take_length] at hpath'
  rw [hderived.length_eq] at hdone
  have hlength : frames.length = rule.right.length := by
    rw [← hderived.length_eq, ← hframes.length_eq]
    simp
  refine ⟨⟨target, stamp target (p.reduce production rule (frames.map Frame.tree).reverse)⟩,
    hgoto, ?_, fun s r => ?_⟩
  · rw [reduce_eq hfree htrim]
    exact (Cfg.Depicts.node _ hrule hframes).stamp target
  · have hgoes := hreaches s r
    rw [List.drop_length, List.take_length] at hgoes
    refine hgoes.tail ?_
    show p.step (Config.on (frames ++ stack) rest _ _ : Config α ε) = _
    unfold step
    rw [Config.state_on, Config.lookahead_on, hla, hreduce frames hpath' hdone]
    exact reduceStep_on hrule hlength hleft hgoto

end Children

end ShiftReduce.Parser
