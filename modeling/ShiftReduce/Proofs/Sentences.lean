import ShiftReduce.Proofs.Lookaheads.Canonical
import ShiftReduce.Proofs.Derivation
import ShiftReduce.Proofs.Parser.Run

/-!
# Sentences and their beginnings

What is derived by rewriting has a derivation tree, whatever tokens stand for its terminals.  And
whatever a stack leads over is the beginning of something that the start symbol derives, so that in
a productive grammar it is the beginning of a sentence.

* `Cfg.Yields.exists_derivation`: a derivation tree for given tokens of a sentence;
* `Cfg.Path.walk?_eq`, `Cfg.exists_path_of_walk?`: a stack leads to the state of its symbols;
* `Cfg.Productive.exists_more`: what a stack shows goes on to a sentence.
-/

namespace ShiftReduce.Cfg

variable {α : Type} {g : Cfg}

/-! ## Derivation trees for sentences -/

/-- Tokens for the terminals of a string are derivations of its symbols. -/
theorem forall₂_token {word : List Nat} {tokens : List (Tree α)}
    (hterminal : ∀ t ∈ word, g.isTerminal t = true)
    (hword : tokens.map Tree.symbol = word.map some) :
    List.Forall₂ g.IsDerivation (tokens.map .token) word ∧
      Derivation.yieldAll (tokens.map .token) = tokens := by
  induction tokens generalizing word with
  | nil =>
    have hnil : word = [] := by simpa using hword.symm
    rw [hnil]
    exact ⟨.nil, rfl⟩
  | cons t tokens ih =>
    cases word with
    | nil => simp at hword
    | cons symbol word =>
      obtain ⟨hsymbol, hrest⟩ := List.cons.inj hword
      obtain ⟨hderived, hyield⟩ := ih (fun s hs => hterminal s (List.mem_cons_of_mem _ hs)) hrest
      exact ⟨.cons (.token hsymbol (hterminal symbol List.mem_cons_self)) hderived, by
        simp [hyield]⟩

/-- Derivations of what a rewriting step leads to make derivations of what it comes from. -/
theorem Produces.exists_forest {u v : List Nat} (h : g.Produces u v) {ds : List (Derivation α)}
    (hds : List.Forall₂ g.IsDerivation ds v) :
    ∃ es : List (Derivation α), List.Forall₂ g.IsDerivation es u ∧
      Derivation.yieldAll es = Derivation.yieldAll ds := by
  cases h with
  | @expand rule hrule before after =>
    obtain ⟨production, hget⟩ := List.getElem?_of_mem hrule
    have hbefore := List.forall₂_take_append ds before _ hds
    have hrest := List.forall₂_drop_append ds before _ hds
    have hright := List.forall₂_take_append _ rule.right after hrest
    have hafter := List.forall₂_drop_append _ rule.right after hrest
    refine ⟨ds.take before.length ++
      .node production ((ds.drop before.length).take rule.right.length) ::
        (ds.drop before.length).drop rule.right.length, ?_, ?_⟩
    · exact List.rel_append hbefore (.cons (.node hget hright) hafter)
    · rw [Derivation.yieldAll_append, Derivation.yieldAll, Derivation.yield,
        ← Derivation.yieldAll_append, List.take_append_drop, ← Derivation.yieldAll_append,
        List.take_append_drop]

theorem Derives.exists_forest {u word : List Nat} (h : g.Derives u word)
    (hterminal : ∀ t ∈ word, g.isTerminal t = true) {tokens : List (Tree α)}
    (hword : tokens.map Tree.symbol = word.map some) :
    ∃ ds : List (Derivation α), List.Forall₂ g.IsDerivation ds u ∧
      Derivation.yieldAll ds = tokens := by
  induction h using Relation.ReflTransGen.head_induction_on with
  | refl => exact ⟨tokens.map .token, forall₂_token hterminal hword⟩
  | head hstep _ ih =>
    obtain ⟨ds, hds, hyield⟩ := ih
    obtain ⟨es, hes, hsame⟩ := hstep.exists_forest hds
    exact ⟨es, hes, hsame.trans hyield⟩

/-- Tokens that are derived from a symbol have a derivation tree. -/
theorem Yields.exists_derivation {symbol : Nat} {tokens : List (Tree α)}
    (h : g.Yields [symbol] tokens) :
    ∃ d : Derivation α, g.IsDerivation d symbol ∧ d.yield = tokens := by
  obtain ⟨word, hword, hterminal, hderives⟩ := h
  obtain ⟨ds, hds, hyield⟩ := hderives.exists_forest hterminal hword
  obtain ⟨d, rest, hd, hrest, rfl⟩ := List.forall₂_cons_right_iff.1 hds
  rw [List.forall₂_nil_right_iff.1 hrest] at hyield
  exact ⟨d, hd, by simpa [Derivation.yieldAll] using hyield⟩

/-! ## Beginnings of sentences -/

/-- The states of a path lead to where its symbols lead. -/
theorem Path.walk?_eq {states symbols : List Nat} (h : g.Path states symbols) :
    g.collection.walk? symbols.reverse = some (states.headD 0) := by
  induction h with
  | start => exact Collection.walk?_nil
  | enter _ hgoto ih =>
    rw [List.reverse_cons, Collection.walk?_concat, ih, Option.bind_some, hgoto]
    rfl

/-- Whatever leads to a state is what some path leads over. -/
theorem exists_path_of_walk? {word : List Nat} {q : Nat} (h : g.collection.walk? word = some q) :
    ∃ states, g.Path states word.reverse := by
  induction word using List.reverseRecOn generalizing q with
  | nil => exact ⟨[], .start⟩
  | append_singleton word symbol ih =>
    rw [Collection.walk?_concat, Option.bind_eq_some_iff] at h
    obtain ⟨r, hwalk, hgoto⟩ := h
    obtain ⟨states, hpath⟩ := ih hwalk
    have hr := hpath.walk?_eq
    rw [List.reverse_reverse, hwalk] at hr
    cases hr
    rw [List.reverse_append]
    exact ⟨q :: states, .enter hpath hgoto⟩

/-- There is no other path over the same symbols. -/
theorem Path.unique {states states' symbols : List Nat} (h : g.Path states symbols)
    (h' : g.Path states' symbols) : states = states' := by
  induction h generalizing states' with
  | start =>
    cases h'
    rfl
  | enter _ hgoto ih =>
    cases h' with
    | enter h' hgoto' =>
      obtain rfl := ih h'
      rw [hgoto] at hgoto'
      cases hgoto'
      rfl

/-- In a productive grammar, tokens derived from what a path leads over are the beginning of a
sentence. -/
theorem Productive.exists_more (hprod : g.Productive) {states symbols : List Nat}
    (h : g.Path states symbols) {tokens : List (Tree α)}
    (htokens : g.Yields symbols.reverse tokens) :
    ∃ more : List (Tree α), g.Yields [0] (tokens ++ more) := by
  have hwalk := h.walk?_eq
  obtain ⟨item, hitem⟩ := exists_mem_state_of_walk? hwalk
  obtain ⟨la, hvalid⟩ := hprod.exists_validItem_of_mem_state hwalk hitem
  obtain ⟨after, hafter, hderives⟩ := hvalid.derives
  have hrange : ∀ s ∈ g.ahead item ++ after, s < g.symbolCount := by
    intro s hs
    rcases List.mem_append.1 hs with hs | hs
    · obtain ⟨rule, hrule, -⟩ := mem_allItems.1 (state_subset_allItems hitem)
      rw [ahead, rightOf_eq hrule] at hs
      exact (g.inRange rule (List.mem_of_getElem? hrule)).2 s (List.mem_of_mem_drop hs)
    · exact hafter s hs
  obtain ⟨rest, hrest, hgoes⟩ := hprod.string hrange
  obtain ⟨word, hword, hterminal, hbegin⟩ := htokens
  refine ⟨rest.map Tree.empty, word ++ rest, ?_, ?_, hderives.trans (hbegin.append hgoes)⟩
  · simp [hword, Function.comp_def, Tree.empty, Tree.symbol, Tree.tag]
  · intro t ht
    rcases List.mem_append.1 ht with ht | ht
    · exact hterminal t ht
    · exact hrest t ht

end ShiftReduce.Cfg
