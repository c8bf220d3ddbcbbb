import Mathlib.Logic.Equiv.Defs
import ShiftReduce.Proofs.SubsetConstruction

/-!
# Renamed grammars

Two grammars are the same but for names when a permutation of the symbols and one of the productions
lead from the rules of the first to the rules of the second.  The start symbol keeps its name, and
so does its production.  Whatever is said about a grammar in terms of its rules carries over, and as
the permutations have inverses it carries over in both directions: it is enough to show one.

* `Rule.rename`, `Item.rename`, `LookaheadItem.rename`: names replaced by others;
* `Cfg.Renamed`, `Cfg.Renamed.symm`: grammars that are the same but for names;
* `Cfg.Renamed.derives`, `Cfg.Renamed.vanishes`, `Cfg.Renamed.begins`: strings;
* `Cfg.Renamed.nextSymbol?_rename`, `Cfg.Renamed.awaitedWith`: items;
* `Cfg.Renamed.valid`: what is valid for a string.
-/

namespace ShiftReduce

/-! ## Names replaced by others -/

/-- The rule with other names for its symbols. -/
def Rule.rename (σ : Nat → Nat) (rule : Rule) : Rule := ⟨σ rule.left, rule.right.map σ⟩

/-- The item with another name for its production. -/
def Item.rename (π : Nat → Nat) (item : Item) : Item :=
  { item with production := π item.production }

/-- The item with lookahead with other names for its production and its lookahead. -/
def LookaheadItem.rename (σ π : Nat → Nat) (x : LookaheadItem) : LookaheadItem :=
  ⟨x.item.rename π, x.lookahead.map σ⟩

variable {σ π : Equiv.Perm Nat}

@[simp]
theorem Rule.rename_symm_rename (rule : Rule) : (rule.rename σ).rename σ.symm = rule := by
  simp [Rule.rename, Function.comp_def]

@[simp]
theorem Item.production_rename (π : Nat → Nat) (item : Item) :
    (item.rename π).production = π item.production := rfl

@[simp]
theorem Item.rename_symm_rename (item : Item) : (item.rename π).rename π.symm = item := by
  simp [Item.rename]

@[simp]
theorem Item.rename_rename_symm (item : Item) : (item.rename π.symm).rename π = item := by
  simp [Item.rename]

@[simp]
theorem Item.rename_advance (item : Item) : item.advance.rename π = (item.rename π).advance := rfl

@[simp]
theorem LookaheadItem.rename_symm_rename (x : LookaheadItem) :
    (x.rename σ π).rename σ.symm π.symm = x := by
  simp [LookaheadItem.rename, Function.comp_def]

@[simp]
theorem LookaheadItem.rename_rename_symm (x : LookaheadItem) :
    (x.rename σ.symm π.symm).rename σ π = x := by
  simp [LookaheadItem.rename, Function.comp_def]

/-! ## Grammars -/

namespace Cfg

variable {g g' : Cfg}

/-- The second grammar is the first one with other names for symbols and productions. -/
structure Renamed (σ π : Equiv.Perm Nat) (g g' : Cfg) : Prop where
  symbol_zero : σ 0 = 0
  symbolCount_eq : g'.symbolCount = g.symbolCount
  symbol_lt_iff : ∀ s, σ s < g.symbolCount ↔ s < g.symbolCount
  rules_eq : ∀ i, g'.rules[π i]? = (g.rules[i]?).map (Rule.rename σ)

namespace Renamed

theorem symm (h : Renamed σ π g g') : Renamed σ.symm π.symm g' g where
  symbol_zero := by rw [Equiv.symm_apply_eq, h.symbol_zero]
  symbolCount_eq := h.symbolCount_eq.symm
  symbol_lt_iff s := by
    have hlt := h.symbol_lt_iff (σ.symm s)
    rw [Equiv.apply_symm_apply] at hlt
    rw [h.symbolCount_eq, hlt]
  rules_eq i := by
    have hrule := h.rules_eq (π.symm i)
    rw [Equiv.apply_symm_apply] at hrule
    rw [hrule]
    cases g.rules[π.symm i]? with
    | none => rfl
    | some rule => simp

theorem exists_rule (h : Renamed σ π g g') {i : Nat} {rule : Rule}
    (hrule : g.rules[i]? = some rule) :
    g'.rules[π i]? = some (rule.rename σ) := by
  rw [h.rules_eq, hrule, Option.map_some]

theorem rename_mem_rules (h : Renamed σ π g g') {rule : Rule} (hrule : rule ∈ g.rules) :
    rule.rename σ ∈ g'.rules := by
  obtain ⟨i, hi⟩ := List.getElem?_of_mem hrule
  exact List.mem_of_getElem? (h.exists_rule hi)

/-- The production of the start symbol keeps its name. -/
theorem production_zero (h : Renamed σ π g g') : π 0 = 0 := by
  obtain ⟨rule, hrule, hleft⟩ := g.rule_zero
  refine eq_zero_of_left_eq_zero (h.exists_rule hrule) ?_
  rw [Rule.rename, hleft, h.symbol_zero]

/-! ## Symbols and strings -/

theorem isNonterminal_of (h : Renamed σ π g g') {s : Nat} (hs : g.isNonterminal s = true) :
    g'.isNonterminal (σ s) = true := by
  obtain ⟨rule, hrule, rfl⟩ := isNonterminal_iff.1 hs
  exact isNonterminal_left (h.rename_mem_rules hrule)

theorem isNonterminal_eq (h : Renamed σ π g g') (s : Nat) :
    g'.isNonterminal (σ s) = g.isNonterminal s := by
  rw [Bool.eq_iff_iff]
  constructor
  · intro hs
    simpa using h.symm.isNonterminal_of hs
  · exact h.isNonterminal_of

theorem isTerminal_eq (h : Renamed σ π g g') (s : Nat) : g'.isTerminal (σ s) = g.isTerminal s := by
  rw [isTerminal, isTerminal, h.isNonterminal_eq, h.symbolCount_eq, decide_eq_decide.2
    (h.symbol_lt_iff s)]

theorem produces (h : Renamed σ π g g') {u v : List Nat} (huv : g.Produces u v) :
    g'.Produces (u.map σ) (v.map σ) := by
  cases huv with
  | expand hrule before after =>
    have hstep := Produces.expand (h.rename_mem_rules hrule) (before.map σ) (after.map σ)
    simpa [Rule.rename] using hstep

theorem derives (h : Renamed σ π g g') {u v : List Nat} (huv : g.Derives u v) :
    g'.Derives (u.map σ) (v.map σ) := by
  induction huv with
  | refl => exact Derives.refl _
  | tail _ hstep ih => exact ih.tail (h.produces hstep)

theorem vanishes (h : Renamed σ π g g') {u : List Nat} (hu : g.Vanishes u) :
    g'.Vanishes (u.map σ) :=
  h.derives hu

theorem begins (h : Renamed σ π g g') {u : List Nat} {t : Nat} (hu : g.Begins u t) :
    g'.Begins (u.map σ) (σ t) := by
  obtain ⟨ht, rest, hderives⟩ := hu
  exact ⟨by rw [h.isTerminal_eq, ht], rest.map σ, h.derives hderives⟩

/-! ## Items -/

theorem rightOf_rename (h : Renamed σ π g g') (item : Item) :
    g'.rightOf (item.rename π) = (g.rightOf item).map σ := by
  rw [rightOf, rightOf, Item.rename, h.rules_eq]
  cases g.rules[item.production]? <;> rfl

theorem nextSymbol?_rename (h : Renamed σ π g g') (item : Item) :
    g'.nextSymbol? (item.rename π) = (g.nextSymbol? item).map σ := by
  rw [nextSymbol?, h.rightOf_rename, List.getElem?_map]
  rfl

theorem nextSymbol?_rename_eq_some (h : Renamed σ π g g') {item : Item} {symbol : Nat}
    (hnext : g.nextSymbol? item = some symbol) :
    g'.nextSymbol? (item.rename π) = some (σ symbol) := by
  rw [h.nextSymbol?_rename, hnext, Option.map_some]

theorem isComplete_rename (h : Renamed σ π g g') (item : Item) :
    g'.isComplete (item.rename π) = g.isComplete item := by
  rw [isComplete, isComplete, h.nextSymbol?_rename, Option.isNone_map]

theorem afterNext_rename (h : Renamed σ π g g') (item : Item) :
    g'.afterNext (item.rename π) = (g.afterNext item).map σ := by
  rw [afterNext, h.rightOf_rename, ← List.map_drop]
  rfl

theorem beginningsOf (h : Renamed σ π g g') {symbol : Nat} {item : Item}
    (hitem : item ∈ g.beginningsOf symbol) : item.rename π ∈ g'.beginningsOf (σ symbol) := by
  obtain ⟨hzero, rule, hrule, rfl⟩ := mem_beginningsOf.1 hitem
  exact mem_beginningsOf.2 ⟨hzero, rule.rename σ, h.exists_rule hrule, rfl⟩

/-- What an item with lookahead awaits carries over. -/
theorem awaitedWith (h : Renamed σ π g g') {x y : LookaheadItem}
    (hy : y ∈ g.awaitedWith g.firstSets x) :
    y.rename σ π ∈ g'.awaitedWith g'.firstSets (x.rename σ π) := by
  obtain ⟨symbol, hnext, hbegin, hla⟩ := mem_awaitedWith_firstSets.1 hy
  refine mem_awaitedWith_firstSets.2
    ⟨σ symbol, h.nextSymbol?_rename_eq_some hnext, h.beginningsOf hbegin, ?_⟩
  rw [show (x.rename σ π).item = x.item.rename π from rfl, h.afterNext_rename]
  rcases hla with ⟨t, ht, hla⟩ | ⟨hvanish, hla⟩
  · exact Or.inl ⟨σ t, h.begins ht, congrArg (Option.map σ) hla⟩
  · exact Or.inr ⟨h.vanishes hvanish, congrArg (Option.map σ) hla⟩

/-- So does what is valid for a string. -/
theorem valid (h : Renamed σ π g g') {word : List Nat} {item : Item} (hvalid : g.Valid word item) :
    g'.Valid (word.map σ) (item.rename π) := by
  induction hvalid with
  | start =>
    have hstart : (⟨0, 0⟩ : Item).rename π = ⟨0, 0⟩ := by rw [Item.rename, h.production_zero]
    rw [hstart]
    exact .start
  | move _ hnext ih =>
    rw [List.map_append, List.map_singleton, Item.rename_advance]
    exact ih.move (h.nextSymbol?_rename_eq_some hnext)
  | expand _ hrule hnext ih =>
    exact ih.expand (h.exists_rule hrule) (h.nextSymbol?_rename_eq_some hnext)

theorem valid_iff (h : Renamed σ π g g') {word : List Nat} {item : Item} :
    g'.Valid (word.map σ) (item.rename π) ↔ g.Valid word item := by
  constructor
  · intro hvalid
    simpa using h.symm.valid hvalid
  · exact h.valid

end Renamed

end Cfg

end ShiftReduce
