import Mathlib.Data.List.Forall2
import ShiftReduce.Parser.Config
import ShiftReduce.Proofs.Derives

/-!
# Derivation trees

A derivation tree says how a symbol is expanded into tokens: a node for each production that is
used, and a token for each terminal.  A token is a tree of its own kind, with a state and possibly
with content that looks like a reduction, so derivation trees are kept apart from the trees that a
parser builds, and a relation says that one shows the other.

* `Derivation`, with `Derivation.induct` for proofs over all its nodes;
* `Tree.induct`: the same for trees;
* `Derivation.yield`, `Derivation.nodeCount`: the tokens in order, and the number of nodes;
* `Cfg.IsDerivation`: the nodes follow the rules of a grammar;
* `Cfg.IsDerivation.yields`: what a derivation yields is derived in the sense of rewriting;
* `Cfg.Depicts`: a parse tree shows a derivation, with states added to it;
* `Cfg.Depicts.eq_of_yield_eq`: a tree shows at most one derivation of given tokens.
-/

namespace ShiftReduce

/-- How a symbol is expanded: not at all, or by a production whose right side is expanded too. -/
inductive Derivation (α : Type) where
  | token (t : Tree α)
  | node (production : Nat) (children : List (Derivation α))

namespace Derivation

variable {α : Type}

/-- What holds of tokens, and of nodes when it holds of their children, holds of all derivations. -/
theorem induct {P : Derivation α → Prop} (token : ∀ t, P (.token t))
    (node : ∀ production children, (∀ d ∈ children, P d) → P (.node production children))
    (d : Derivation α) : P d := by
  refine @Derivation.rec α P (fun ds => ∀ d ∈ ds, P d) token node (by simp) ?_ d
  intro head tail hhead htail d hd
  rcases List.mem_cons.1 hd with rfl | hd
  · exact hhead
  · exact htail d hd

mutual

/-- The tokens from left to right. -/
def yield : Derivation α → List (Tree α)
  | token t => [t]
  | node _ children => yieldAll children

/-- The tokens of several derivations, one after the other. -/
def yieldAll : List (Derivation α) → List (Tree α)
  | [] => []
  | d :: ds => d.yield ++ yieldAll ds

end

mutual

/-- The number of nodes. -/
def nodeCount : Derivation α → Nat
  | token _ => 0
  | node _ children => nodeCountAll children + 1

/-- The number of nodes of several derivations. -/
def nodeCountAll : List (Derivation α) → Nat
  | [] => 0
  | d :: ds => d.nodeCount + nodeCountAll ds

end

@[simp]
theorem yield_token (t : Tree α) : (token t).yield = [t] := by
  rw [yield]

@[simp]
theorem yield_node (production : Nat) (ds : List (Derivation α)) :
    (node production ds).yield = yieldAll ds := by
  rw [yield]

@[simp]
theorem yieldAll_nil : yieldAll ([] : List (Derivation α)) = [] := by
  rw [yieldAll]

@[simp]
theorem yieldAll_cons (d : Derivation α) (ds : List (Derivation α)) :
    yieldAll (d :: ds) = d.yield ++ yieldAll ds := by
  rw [yieldAll]

@[simp]
theorem yieldAll_append (ds es : List (Derivation α)) :
    yieldAll (ds ++ es) = yieldAll ds ++ yieldAll es := by
  induction ds with
  | nil => simp [yieldAll]
  | cons d ds ih => simp [yieldAll, ih]

@[simp]
theorem nodeCountAll_append (ds es : List (Derivation α)) :
    nodeCountAll (ds ++ es) = nodeCountAll ds + nodeCountAll es := by
  induction ds with
  | nil => simp [nodeCountAll]
  | cons d ds ih => simp [nodeCountAll, ih, Nat.add_assoc]

end Derivation

/-- The derivation follows the rules of the grammar, beginning with the given symbol and ending with
terminals. -/
inductive Cfg.IsDerivation {α : Type} (g : Cfg) : Derivation α → Nat → Prop
  | token {t : Tree α} {symbol : Nat} (hsymbol : t.symbol = some symbol)
    (hterminal : g.isTerminal symbol = true) : IsDerivation g (.token t) symbol
  | node {production : Nat} {rule : Rule} {children : List (Derivation α)}
    (hrule : g.rules[production]? = some rule)
    (hchildren : List.Forall₂ (IsDerivation g) children rule.right) :
    IsDerivation g (.node production children) rule.left

/-- The tree shows the derivation: at every node the production and its left side, and at every
token the token itself but for its state. -/
inductive Cfg.Depicts {α : Type} (g : Cfg) : Tree α → Derivation α → Prop
  | token (t : Tree α) (state : Int) : Depicts g (t.withState state) (.token t)
  | node {production : Nat} {rule : Rule} {trees : List (Tree α)}
    {children : List (Derivation α)} (state : Int)
    (hrule : g.rules[production]? = some rule)
    (hchildren : List.Forall₂ (Depicts g) trees children) :
    Depicts g (.node ⟨some rule.left, state⟩ production trees) (.node production children)

namespace Tree

variable {α : Type}

/-- What holds of tokens of every kind, and of reductions when it holds of their children, holds of
all trees. -/
theorem induct {P : Tree α → Prop} (blank : ∀ tag, P (.blank tag))
    (leaf : ∀ tag value, P (.leaf tag value)) (wrap : ∀ tag inner, P inner → P (.wrap tag inner))
    (node : ∀ tag production children, (∀ t ∈ children, P t) → P (.node tag production children))
    (t : Tree α) : P t := by
  refine @Tree.rec α P (fun ts => ∀ t ∈ ts, P t) blank leaf wrap node (by simp) ?_ t
  intro head tail hhead htail t ht
  rcases List.mem_cons.1 ht with rfl | ht
  · exact hhead
  · exact htail t ht

@[simp]
theorem withTag_withTag (t : Tree α) (tag tag' : Tag) :
    (t.withTag tag).withTag tag' = t.withTag tag' := by
  cases t <;> rfl

theorem withState_withState (t : Tree α) (s s' : Int) :
    (t.withState s).withState s' = t.withState s' := by
  cases t <;> rfl

@[simp]
theorem withState_state (t : Tree α) : t.withState t.state = t := by
  cases t <;> rfl

end Tree

namespace Cfg

variable {α : Type} {g : Cfg}

/-- The state of a tree does not matter. -/
theorem Depicts.withState {tree : Tree α} {d : Derivation α} (h : g.Depicts tree d) (s : Int) :
    g.Depicts (tree.withState s) d := by
  cases h with
  | token t state =>
    rw [Tree.withState_withState]
    exact .token t s
  | node state hrule hchildren => exact .node s hrule hchildren

theorem Depicts.stamp {tree : Tree α} {d : Derivation α} (h : g.Depicts tree d) (q : Nat) :
    g.Depicts (stamp q tree) d := by
  unfold ShiftReduce.stamp
  split
  · exact h
  · exact h.withState q

theorem Depicts.of_stamp {tree : Tree α} {d : Derivation α} {q : Nat}
    (h : g.Depicts (ShiftReduce.stamp q tree) d) : g.Depicts tree d := by
  have hback := h.withState tree.state
  have heq : (ShiftReduce.stamp q tree).withState tree.state = tree := by
    unfold ShiftReduce.stamp
    split
    · exact Tree.withState_state tree
    · rw [Tree.withState_withState, Tree.withState_state]
  rwa [heq] at hback

theorem depicts_token (t : Tree α) : g.Depicts t (.token t) := by
  have h : g.Depicts (t.withState t.state) (.token t) := .token t t.state
  rwa [Tree.withState_state] at h

/-! ## Yields are derived -/

/-- What a derivation yields is derived from its symbol. -/
def Yields (g : Cfg) (u : List Nat) (tokens : List (Tree α)) : Prop :=
  ∃ word : List Nat, tokens.map Tree.symbol = word.map some ∧
    (∀ t ∈ word, g.isTerminal t = true) ∧ g.Derives u word

theorem Yields.append {u v : List Nat} {ts us : List (Tree α)} (hu : g.Yields u ts)
    (hv : g.Yields v us) : g.Yields (u ++ v) (ts ++ us) := by
  obtain ⟨word, hword, hterminal, hderives⟩ := hu
  obtain ⟨word', hword', hterminal', hderives'⟩ := hv
  refine ⟨word ++ word', by simp [hword, hword'], ?_, hderives.append hderives'⟩
  intro t ht
  rcases List.mem_append.1 ht with ht | ht
  · exact hterminal t ht
  · exact hterminal' t ht

theorem yields_forest {ds : List (Derivation α)} {symbols : List Nat}
    (h : List.Forall₂ g.IsDerivation ds symbols)
    (hds : ∀ d ∈ ds, ∀ symbol, g.IsDerivation d symbol → g.Yields [symbol] d.yield) :
    g.Yields symbols (Derivation.yieldAll ds) := by
  induction h with
  | nil => exact ⟨[], rfl, by simp, Derives.refl []⟩
  | @cons d symbol ds symbols hd _ ih =>
    have hfirst := hds d List.mem_cons_self symbol hd
    exact hfirst.append (ih fun e he => hds e (List.mem_cons_of_mem _ he))

theorem IsDerivation.yields {d : Derivation α} {symbol : Nat} (h : g.IsDerivation d symbol) :
    g.Yields [symbol] d.yield := by
  induction d using Derivation.induct generalizing symbol with
  | token t =>
    cases h with
    | token hsymbol hterminal =>
      exact ⟨[symbol], by simp [Derivation.yield, hsymbol], by simpa using hterminal,
        Derives.refl _⟩
  | node production children ih =>
    cases h with
    | node hrule hchildren =>
      obtain ⟨word, hword, hterminal, hderives⟩ :=
        yields_forest hchildren fun d hd symbol hsymbol => ih d hd hsymbol
      exact ⟨word, hword, hterminal, (Derives.rule (List.mem_of_getElem? hrule)).trans hderives⟩

theorem yields_all {ds : List (Derivation α)} {symbols : List Nat}
    (h : List.Forall₂ g.IsDerivation ds symbols) : g.Yields symbols (Derivation.yieldAll ds) :=
  yields_forest h fun _ _ _ hd => hd.yields

/-! ## A tree shows one derivation -/

theorem depicts_token_iff {tree t : Tree α} :
    g.Depicts tree (.token t) ↔ ∃ state, tree = t.withState state := by
  constructor
  · intro h
    cases h with
    | token _ state => exact ⟨state, rfl⟩
  · rintro ⟨state, rfl⟩
    exact .token t state

theorem depicts_node_iff {tree : Tree α} {production : Nat} {children : List (Derivation α)} :
    g.Depicts tree (.node production children) ↔
      ∃ rule trees state, tree = .node ⟨some rule.left, state⟩ production trees ∧
        g.rules[production]? = some rule ∧ List.Forall₂ g.Depicts trees children := by
  constructor
  · intro h
    cases h with
    | node state hrule hchildren => exact ⟨_, _, state, rfl, hrule, hchildren⟩
  · rintro ⟨rule, trees, state, rfl, hrule, hchildren⟩
    exact .node state hrule hchildren

theorem isDerivation_node_iff {production symbol : Nat} {children : List (Derivation α)} :
    g.IsDerivation (.node production children) symbol ↔
      ∃ rule, g.rules[production]? = some rule ∧ rule.left = symbol ∧
        List.Forall₂ g.IsDerivation children rule.right := by
  constructor
  · intro h
    cases h with
    | node hrule hchildren => exact ⟨_, hrule, rfl, hchildren⟩
  · rintro ⟨rule, hrule, rfl, hchildren⟩
    exact .node hrule hchildren

/-- A derivation of the start symbol uses the first production at the root. -/
theorem IsDerivation.exists_children {d : Derivation α} (h : g.IsDerivation d 0) :
    ∃ children, d = .node 0 children := by
  cases d with
  | token t =>
    cases h with
    | token _ hterminal =>
      obtain ⟨rule, hrule, hleft⟩ := g.rule_zero
      exact absurd hleft (left_ne_of_isTerminal hterminal (List.mem_of_getElem? hrule))
  | node production children =>
    obtain ⟨rule, hrule, hleft, -⟩ := isDerivation_node_iff.1 h
    rw [eq_zero_of_left_eq_zero hrule hleft]
    exact ⟨children, rfl⟩

/-- A derivation of a terminal is a token. -/
theorem IsDerivation.exists_token {d : Derivation α} {symbol : Nat} (h : g.IsDerivation d symbol)
    (hterminal : g.isTerminal symbol = true) :
    ∃ t : Tree α, d = .token t ∧ t.symbol = some symbol := by
  cases d with
  | token t =>
    cases h with
    | token hsymbol _ => exact ⟨t, rfl, hsymbol⟩
  | node production children =>
    obtain ⟨rule, hrule, hleft, -⟩ := isDerivation_node_iff.1 h
    exact absurd hleft (left_ne_of_isTerminal hterminal (List.mem_of_getElem? hrule))

/-- A tree that shows a derivation has its symbol. -/
theorem Depicts.symbol_eq {tree : Tree α} {d : Derivation α} {symbol : Nat}
    (h : g.Depicts tree d) (hd : g.IsDerivation d symbol) : tree.symbol = some symbol := by
  cases hd with
  | token hsymbol hterminal =>
    obtain ⟨state, rfl⟩ := depicts_token_iff.1 h
    rw [Tree.symbol_withState, hsymbol]
  | node hrule _ =>
    obtain ⟨rule', trees, state, rfl, hrule', -⟩ := depicts_node_iff.1 h
    rw [hrule] at hrule'
    cases hrule'
    rfl

/-- Two derivations that one tree shows agree but for the states of tokens. -/
def Agree (d e : Derivation α) : Prop :=
  d.yield.length = e.yield.length ∧ (d.yield = e.yield → d = e)

theorem eq_of_agree {ds es : List (Derivation α)} (h : List.Forall₂ Agree ds es) :
    (Derivation.yieldAll ds).length = (Derivation.yieldAll es).length ∧
      (Derivation.yieldAll ds = Derivation.yieldAll es → ds = es) := by
  induction h with
  | nil => exact ⟨rfl, fun _ => rfl⟩
  | @cons d e ds es hde _ ih =>
    refine ⟨by simp [Derivation.yieldAll, hde.1, ih.1], ?_⟩
    intro heq
    obtain ⟨hhead, htail⟩ := List.append_inj heq hde.1
    rw [hde.2 hhead, ih.2 htail]

theorem forall₂_agree {trees : List (Tree α)} {ds es : List (Derivation α)} {symbols : List Nat}
    (hds : List.Forall₂ g.Depicts trees ds) (hes : List.Forall₂ g.Depicts trees es)
    (hds' : List.Forall₂ g.IsDerivation ds symbols)
    (hes' : List.Forall₂ g.IsDerivation es symbols)
    (h : ∀ d ∈ ds, ∀ tree e symbol, g.Depicts tree d → g.Depicts tree e →
      g.IsDerivation d symbol → g.IsDerivation e symbol → Agree d e) :
    List.Forall₂ Agree ds es := by
  induction hds generalizing es symbols with
  | nil =>
    cases hes
    exact .nil
  | @cons tree d trees ds hd _ ih =>
    obtain ⟨e, es, he, hrest, rfl⟩ := List.forall₂_cons_left_iff.1 hes
    obtain ⟨symbol, symbols, hd', hdrest, rfl⟩ := List.forall₂_cons_left_iff.1 hds'
    obtain ⟨he', herest⟩ := List.forall₂_cons.1 hes'
    exact .cons (h d List.mem_cons_self tree e symbol hd he hd' he')
      (ih hrest hdrest herest fun f hf => h f (List.mem_cons_of_mem _ hf))

theorem Depicts.agree {tree : Tree α} {d e : Derivation α} {symbol : Nat}
    (hd : g.Depicts tree d) (he : g.Depicts tree e) (hd' : g.IsDerivation d symbol)
    (he' : g.IsDerivation e symbol) : Agree d e := by
  induction d using Derivation.induct generalizing tree e symbol with
  | token t =>
    cases hd' with
    | token hsymbol hterminal =>
      cases he' with
      | token => exact ⟨rfl, fun h => by simpa [Derivation.yield] using h⟩
      | node hrule _ =>
        exact absurd rfl (left_ne_of_isTerminal hterminal (List.mem_of_getElem? hrule))
  | node production children ih =>
    obtain ⟨rule, hrule, hleft, hchildren⟩ := isDerivation_node_iff.1 hd'
    cases e with
    | token t =>
      cases he' with
      | token hsymbol hterminal =>
        exact absurd hleft (left_ne_of_isTerminal hterminal (List.mem_of_getElem? hrule))
    | node production' children' =>
      obtain ⟨_, trees, state, rfl, -, htrees⟩ := depicts_node_iff.1 hd
      obtain ⟨_, trees', state', heq, -, htrees'⟩ := depicts_node_iff.1 he
      obtain ⟨-, rfl, rfl⟩ := Tree.node.inj heq
      obtain ⟨rule', hrule', -, hchildren'⟩ := isDerivation_node_iff.1 he'
      rw [hrule] at hrule'
      cases hrule'
      have hagree := eq_of_agree (forall₂_agree htrees htrees' hchildren hchildren'
        fun d hd tree e symbol => ih d hd)
      exact ⟨hagree.1, fun hyield => by rw [hagree.2 hyield]⟩

/-- A tree shows at most one derivation of given tokens. -/
theorem Depicts.eq_of_yield_eq {tree : Tree α} {d e : Derivation α} {symbol : Nat}
    (hd : g.Depicts tree d) (he : g.Depicts tree e) (hd' : g.IsDerivation d symbol)
    (he' : g.IsDerivation e symbol) (h : d.yield = e.yield) : d = e :=
  (hd.agree he hd' he').2 h

end Cfg

end ShiftReduce
