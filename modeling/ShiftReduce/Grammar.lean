import ShiftReduce.Cfg
import ShiftReduce.Tree.Basic

/-!
# Grammars

A grammar adds to the bare rules what a parser needs besides: names for the symbols, the
precedence of each production, and hooks that replace trees as they are built.  Productions are
declared in groups.  All productions of a group have the group's rank, the first group binds
tightest, and the associativity of a group settles ties inside it.

* `Production`, `Group`: declarations;
* `Grammar.build`: checks and flattens declarations;
* `Grammar.rank`, `Grammar.associativity`, `Grammar.hook?`, `Grammar.replacement?`: what is known
  of a production or a group;
* `Grammar.showRule`: a production in symbol names.
-/

namespace ShiftReduce

/-- How a tie between equally ranked actions is settled. -/
inductive Associativity where
  /-- It is not. -/
  | none
  /-- In favour of the reduction. -/
  | left
  /-- In favour of the shift. -/
  | right
deriving DecidableEq, Repr

/-- The name of an associativity. -/
def Associativity.name : Associativity → String
  | none => "none"
  | left => "left"
  | right => "right"

/-- A hook is given the left symbol and the children of a reduction; it may give the tree that
takes the place of the usual one. -/
abbrev Hook (α : Type) := Nat → List (Tree α) → Option (Tree α)

/-- A declared production. -/
structure Production (α : Type) where
  left : Nat
  right : List Nat
  hook : Option (Hook α) := none

/-- Productions of the same rank. -/
structure Group (α : Type) where
  associativity : Associativity
  productions : List (Production α)

/-- A grammar with names, precedence and hooks. -/
structure Grammar (α : Type) where
  symbols : SymbolTable
  cfg : Cfg
  /-- The hook of each production. -/
  hooks : List (Option (Hook α))
  /-- The group of each production. -/
  ranks : List Nat
  /-- The associativity of each group. -/
  associativities : List Associativity
  /-- Every symbol has a name. -/
  symbolCount_eq : cfg.symbolCount = symbols.size
  hooks_length : hooks.length = cfg.rules.length
  ranks_length : ranks.length = cfg.rules.length
  /-- Every production belongs to a group. -/
  ranks_lt : ∀ r ∈ ranks, r < associativities.length

namespace Grammar

variable {α : Type}

/-! ## From declarations to a grammar -/

/-- The declared productions in order, each with the index of its group. -/
def ranked (groups : List (Group α)) : List (Production α × Nat) :=
  groups.zipIdx.flatMap fun group => group.1.productions.map (·, group.2)

theorem rank_lt_of_mem_ranked {groups : List (Group α)} {p : Production α × Nat}
    (h : p ∈ ranked groups) : p.2 < groups.length := by
  simp only [ranked, List.mem_flatMap, List.mem_map] at h
  obtain ⟨group, hgroup, production, -, rfl⟩ := h
  have := List.snd_lt_of_mem_zipIdx hgroup
  simpa using this

/-- The rules of the declared productions. -/
def rulesIn (groups : List (Group α)) : List Rule :=
  (ranked groups).map fun p => ⟨p.1.left, p.1.right⟩

/-- Makes a grammar of names and groups.  A repeated name is reported before anything that is
wrong with a production. -/
def build (names : List String) (groups : List (Group α)) : Except GrammarError (Grammar α) :=
  match Numbering.empty.extend names with
  | .error name => .error (.duplicateSymbol name)
  | .ok symbols =>
    match h : Cfg.ofRules symbols.size (rulesIn groups) with
    | .error error => .error error
    | .ok cfg =>
      have hcfg := Cfg.ofRules_eq_ok h
      .ok {
        symbols := symbols
        cfg := cfg
        hooks := (ranked groups).map fun p => p.1.hook
        ranks := (ranked groups).map Prod.snd
        associativities := groups.map Group.associativity
        symbolCount_eq := hcfg.1
        hooks_length := by simp [hcfg.2, rulesIn]
        ranks_length := by simp [hcfg.2, rulesIn]
        ranks_lt := by
          intro r hr
          obtain ⟨p, hp, rfl⟩ := List.mem_map.1 hr
          simpa using rank_lt_of_mem_ranked hp }

/-! ## Productions and groups -/

/-- The group of a production; a lower one binds tighter. -/
def rank (g : Grammar α) (production : Nat) : Nat := g.ranks.getD production 0

/-- The associativity of a group. -/
def associativity (g : Grammar α) (group : Nat) : Associativity :=
  g.associativities.getD group .none

/-- The hook of a production. -/
def hook? (g : Grammar α) (production : Nat) : Option (Hook α) := (g.hooks[production]?).join

/-- The tree that a production's hook gives for `children`. -/
def replacement? (g : Grammar α) (production : Nat) (children : List (Tree α)) :
    Option (Tree α) := do
  let hook ← g.hook? production
  let rule ← g.cfg.rules[production]?
  hook rule.left children

/-! ## Text -/

/-- The name of a symbol. -/
def nameOf (g : Grammar α) (symbol : Nat) : String := SymbolTable.name g.symbols symbol

/-- The name of a lookahead. -/
def lookaheadName (g : Grammar α) (la : Lookahead) : String :=
  SymbolTable.lookaheadName g.symbols la

/-- A rule in symbol names, the left side before an arrow. -/
def showRule (g : Grammar α) (rule : Rule) : String :=
  " ".intercalate ([g.nameOf rule.left, "->"] ++ rule.right.map g.nameOf)

/-- A production in symbol names. -/
def showProduction (g : Grammar α) (production : Nat) : String :=
  ((g.cfg.rules[production]?).map g.showRule).getD ""

/-- A production as a record of its fields, with symbols by number. -/
def productionRecord (rule : Rule) (hooked : Bool) : String :=
  let right := ", ".intercalate (rule.right.map toString)
  s!"Production \x7b left: {rule.left}, right: [{right}], rewrite: {hooked} \x7d"

end Grammar

end ShiftReduce
