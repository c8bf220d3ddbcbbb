import Mathlib.Logic.Relation
import ShiftReduce.Grammar

/-!
# Derivations of strings

A rule rewrites one occurrence of its left side.  Strings of symbols derive what they become by any
number of such steps.  From this come the three notions that lookaheads are about: the terminals a
string can begin with, whether it can vanish, and whether every symbol leads to terminals at all.

* `Cfg.Derives`, with `Cfg.Derives.append` to derive side by side;
* `Cfg.Begins`, `Cfg.Vanishes`: FIRST and nullability of a string, by derivations;
* `Cfg.Productive`: every nonterminal derives a string of terminals;
* `Cfg.Anchored`: every nonterminal that occurs vanishes or begins with a terminal;
* `Cfg.mem_rulesOf`, `Cfg.isNonterminal_iff`: rules by their left sides;
* `Grammar.anyNumber`: a grammar with a symbol that can vanish.
-/

namespace ShiftReduce

namespace Cfg

variable {g : Cfg}

/-! ## Rules by their left sides -/

theorem mem_rulesOf {symbol p : Nat} :
    p ∈ g.rulesOf symbol ↔ ∃ rule, g.rules[p]? = some rule ∧ rule.left = symbol := by
  simp only [rulesOf, List.mem_map, List.mem_filter, decide_eq_true_eq, Prod.exists]
  constructor
  · rintro ⟨rule, i, ⟨hmem, hleft⟩, rfl⟩
    exact ⟨rule, List.mk_mem_zipIdx_iff_getElem?.1 hmem, hleft⟩
  · rintro ⟨rule, hrule, hleft⟩
    exact ⟨rule, p, ⟨List.mk_mem_zipIdx_iff_getElem?.2 hrule, hleft⟩, rfl⟩

theorem isNonterminal_iff {symbol : Nat} :
    g.isNonterminal symbol = true ↔ ∃ rule ∈ g.rules, rule.left = symbol := by
  simp [isNonterminal]

theorem isNonterminal_left {rule : Rule} (h : rule ∈ g.rules) :
    g.isNonterminal rule.left = true :=
  isNonterminal_iff.2 ⟨rule, h, rfl⟩

theorem isTerminal_iff {symbol : Nat} :
    g.isTerminal symbol = true ↔ symbol < g.symbolCount ∧ g.isNonterminal symbol = false := by
  simp [isTerminal]

theorem left_ne_of_isTerminal {symbol : Nat} (h : g.isTerminal symbol = true) {rule : Rule}
    (hrule : rule ∈ g.rules) : rule.left ≠ symbol := by
  rintro rfl
  have := isNonterminal_left hrule
  rw [(isTerminal_iff.1 h).2] at this
  cases this

/-- A symbol of the grammar that is no terminal has a rule. -/
theorem isTerminal_or_isNonterminal {symbol : Nat} (h : symbol < g.symbolCount) :
    g.isTerminal symbol = true ∨ g.isNonterminal symbol = true := by
  cases hn : g.isNonterminal symbol with
  | true => exact Or.inr rfl
  | false => exact Or.inl (isTerminal_iff.2 ⟨h, hn⟩)

/-- The first rule is the only one that expands the start symbol. -/
theorem rule_zero : ∃ rule, g.rules[0]? = some rule ∧ rule.left = 0 := by
  obtain ⟨right, rest, hrules, -⟩ := g.startFirst
  exact ⟨⟨0, right⟩, by rw [hrules, List.getElem?_cons_zero], rfl⟩

theorem eq_zero_of_left_eq_zero {p : Nat} {rule : Rule} (h : g.rules[p]? = some rule)
    (hleft : rule.left = 0) : p = 0 := by
  obtain ⟨right, rest, hrules, hrest⟩ := g.startFirst
  cases p with
  | zero => rfl
  | succ p =>
    rw [hrules, List.getElem?_cons_succ] at h
    exact absurd hleft (hrest rule (List.mem_of_getElem? h))

theorem left_eq_zero {rule : Rule} (h : g.rules[0]? = some rule) : rule.left = 0 := by
  obtain ⟨first, hfirst, hleft⟩ := g.rule_zero
  rw [hfirst] at h
  cases h
  exact hleft

/-! ## Strings -/

/-- One occurrence of the left side of a rule is rewritten. -/
inductive Produces (g : Cfg) : List Nat → List Nat → Prop
  | expand {rule : Rule} (h : rule ∈ g.rules) (before after : List Nat) :
    Produces g (before ++ rule.left :: after) (before ++ (rule.right ++ after))

/-- Any number of occurrences is rewritten, one after the other. -/
def Derives (g : Cfg) : List Nat → List Nat → Prop := Relation.ReflTransGen g.Produces

theorem Derives.refl (u : List Nat) : g.Derives u u := Relation.ReflTransGen.refl

theorem Derives.trans {u v w : List Nat} (huv : g.Derives u v) (hvw : g.Derives v w) :
    g.Derives u w :=
  Relation.ReflTransGen.trans huv hvw

theorem Produces.context {u v : List Nat} (h : g.Produces u v) (before after : List Nat) :
    g.Produces (before ++ (u ++ after)) (before ++ (v ++ after)) := by
  cases h with
  | expand hrule l r =>
    have := Produces.expand hrule (before ++ l) (r ++ after)
    simpa only [List.append_assoc, List.cons_append] using this

theorem Derives.context {u v : List Nat} (h : g.Derives u v) (before after : List Nat) :
    g.Derives (before ++ (u ++ after)) (before ++ (v ++ after)) := by
  induction h with
  | refl => exact Derives.refl _
  | tail _ hstep ih => exact ih.tail (hstep.context before after)

/-- Two strings derive side by side. -/
theorem Derives.append {u u' v v' : List Nat} (hu : g.Derives u u') (hv : g.Derives v v') :
    g.Derives (u ++ v) (u' ++ v') := by
  have h₁ : g.Derives (u ++ v) (u' ++ v) := hu.context [] v
  have h₂ : g.Derives (u' ++ v) (u' ++ v') := by simpa using hv.context u' []
  exact h₁.trans h₂

/-- The left side of a rule derives its right side. -/
theorem Derives.rule {rule : Rule} (h : rule ∈ g.rules) : g.Derives [rule.left] rule.right := by
  refine Relation.ReflTransGen.single ?_
  simpa using Produces.expand h [] []

/-! ## What a string begins with, and whether it vanishes -/

/-- The terminal `t` begins something that `u` derives. -/
def Begins (g : Cfg) (u : List Nat) (t : Nat) : Prop :=
  g.isTerminal t = true ∧ ∃ rest, g.Derives u (t :: rest)

/-- The string `u` derives the empty string. -/
def Vanishes (g : Cfg) (u : List Nat) : Prop := g.Derives u []

theorem Begins.of_derives {u v : List Nat} {t : Nat} (huv : g.Derives u v) (h : g.Begins v t) :
    g.Begins u t := by
  obtain ⟨ht, rest, hrest⟩ := h
  exact ⟨ht, rest, huv.trans hrest⟩

theorem Begins.append_left {u : List Nat} {t : Nat} (h : g.Begins u t) (v : List Nat) :
    g.Begins (u ++ v) t := by
  obtain ⟨ht, rest, hrest⟩ := h
  exact ⟨ht, rest ++ v, hrest.append (Derives.refl v)⟩

theorem Begins.append_right {u v : List Nat} {t : Nat} (hu : g.Vanishes u) (h : g.Begins v t) :
    g.Begins (u ++ v) t :=
  h.of_derives (hu.append (Derives.refl v))

theorem Vanishes.append {u v : List Nat} (hu : g.Vanishes u) (hv : g.Vanishes v) :
    g.Vanishes (u ++ v) :=
  Derives.append hu hv

/-! ## Productive grammars -/

/-- Every nonterminal derives a string of terminals. -/
def Productive (g : Cfg) : Prop :=
  ∀ symbol, g.isNonterminal symbol = true →
    ∃ word : List Nat, (∀ t ∈ word, g.isTerminal t = true) ∧ g.Derives [symbol] word

/-- In a productive grammar every string of symbols derives a string of terminals. -/
theorem Productive.string (h : g.Productive) {u : List Nat} (hu : ∀ s ∈ u, s < g.symbolCount) :
    ∃ word : List Nat, (∀ t ∈ word, g.isTerminal t = true) ∧ g.Derives u word := by
  induction u with
  | nil => exact ⟨[], by simp, Derives.refl []⟩
  | cons s u ih =>
    obtain ⟨rest, hrest, hu'⟩ := ih fun x hx => hu x (List.mem_cons_of_mem _ hx)
    rcases isTerminal_or_isNonterminal (hu s List.mem_cons_self) with hs | hs
    · refine ⟨s :: rest, ?_, Derives.append (Derives.refl [s]) hu'⟩
      intro t ht
      rcases List.mem_cons.1 ht with rfl | ht
      · exact hs
      · exact hrest t ht
    · obtain ⟨word, hword, hs'⟩ := h s hs
      refine ⟨word ++ rest, ?_, Derives.append hs' hu'⟩
      intro t ht
      rcases List.mem_append.1 ht with ht | ht
      · exact hword t ht
      · exact hrest t ht

/-! ## Anchored grammars -/

/-- The symbol occurs in something that the start symbol derives. -/
def Occurs (g : Cfg) (symbol : Nat) : Prop :=
  ∃ before after : List Nat, g.Derives [0] (before ++ symbol :: after)

/-- Every nonterminal that occurs vanishes or begins with a terminal. -/
def Anchored (g : Cfg) : Prop :=
  ∀ symbol, g.isNonterminal symbol = true → g.Occurs symbol →
    g.Vanishes [symbol] ∨ ∃ t, g.Begins [symbol] t

/-- In an anchored grammar a string of symbols vanishes or begins with a terminal. -/
theorem Anchored.vanishes_or_begins (h : g.Anchored) {u : List Nat}
    (hu : ∀ s ∈ u, s < g.symbolCount ∧ g.Occurs s) : g.Vanishes u ∨ ∃ t, g.Begins u t := by
  induction u with
  | nil => exact Or.inl (Derives.refl [])
  | cons s u ih =>
    obtain ⟨hs, hoccurs⟩ := hu s List.mem_cons_self
    have hsymbol : g.Vanishes [s] ∨ ∃ t, g.Begins [s] t := by
      rcases isTerminal_or_isNonterminal hs with hterminal | hnonterminal
      · exact Or.inr ⟨s, hterminal, [], Derives.refl [s]⟩
      · exact h s hnonterminal hoccurs
    rcases hsymbol with hvanish | ⟨t, ht⟩
    · rcases ih fun x hx => hu x (List.mem_cons_of_mem _ hx) with hrest | ⟨t, ht⟩
      · exact Or.inl (hvanish.append hrest)
      · exact Or.inr ⟨t, ht.append_right hvanish⟩
    · exact Or.inr ⟨t, ht.append_left u⟩

/-- Whatever derives a string of terminals vanishes or begins with the first of them. -/
theorem Productive.anchored (h : g.Productive) : g.Anchored := by
  intro symbol hsymbol _
  obtain ⟨word, hword, hderives⟩ := h symbol hsymbol
  cases word with
  | nil => exact Or.inl hderives
  | cons t word => exact Or.inr ⟨t, hword t List.mem_cons_self, word, hderives⟩

/-! ## Any number of terminals -/

/-- The nonterminal `1` stands for any number of terminals `2`. -/
def anyNumber : Cfg where
  symbolCount := 3
  rules := [⟨0, [1]⟩, ⟨1, [2, 1]⟩, ⟨1, []⟩]
  inRange := by decide
  startFirst := ⟨[1], [⟨1, [2, 1]⟩, ⟨1, []⟩], rfl, by decide⟩

theorem productive_anyNumber : anyNumber.Productive := by
  have hone : anyNumber.Derives [1] [] := @Derives.rule anyNumber ⟨1, []⟩ (by decide)
  have hzero : anyNumber.Derives [0] [1] := @Derives.rule anyNumber ⟨0, [1]⟩ (by decide)
  intro symbol hsymbol
  obtain ⟨rule, hrule, rfl⟩ := isNonterminal_iff.1 hsymbol
  refine ⟨[], by simp, ?_⟩
  simp only [anyNumber, List.mem_cons, List.not_mem_nil, or_false] at hrule
  rcases hrule with rfl | rfl | rfl
  · exact hzero.trans hone
  · exact hone
  · exact hone

end Cfg

/-- The grammar of `Cfg.anyNumber`, with neither precedence nor hooks. -/
def Grammar.anyNumber : Grammar Nat where
  symbols := ⟨["start", "items", "item"], by decide⟩
  cfg := Cfg.anyNumber
  hooks := [none, none, none]
  ranks := [0, 0, 0]
  associativities := [.none]
  symbolCount_eq := rfl
  hooks_length := rfl
  ranks_length := rfl
  ranks_lt := by decide

end ShiftReduce
