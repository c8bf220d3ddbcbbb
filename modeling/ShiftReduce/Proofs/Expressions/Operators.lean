import ShiftReduce.Proofs.Declarations
import ShiftReduce.Proofs.Expressions.Runs

/-!
# Tables of operators

The usual way to declare operators is a table: atoms first, and then one group after another with
the operators of a level.  The grammar of a table is an expression grammar, so what holds of those
says what a table means.  The parser accepts atoms with operators between them, and groups them by
level, the earlier levels first, and within a level from the side that the level says.

* `OperatorTable`: atoms and levels of operators, and `OperatorTable.groups`, their declarations;
* `OperatorTable.Alternates`: an atom, and then any number of operators, each before an atom;
* `OperatorTable.expressions`: the grammar of a table is an expression grammar;
* `OperatorTable.exists_expression_iff`: its expressions alternate;
* `OperatorTable.precedence_shapes_trees`: what the parser of a table accepts and returns.
-/

namespace ShiftReduce

/-- Operators of the same level, with their hooks. -/
structure OperatorLevel (α : Type) where
  associativity : Associativity
  operators : List (Nat × Option (Hook α))
  associativity_ne : associativity ≠ .none

/-- A table of binary operators over one kind of atoms. -/
structure OperatorTable (α : Type) where
  names : List String
  /-- The symbol for expressions. -/
  expr : Nat
  atom : Nat
  /-- The associativity of the group that has the start and the atoms. -/
  associativity : Associativity
  startHook : Option (Hook α)
  atomHook : Option (Hook α)
  levels : List (OperatorLevel α)
  names_nodup : names.Nodup
  expr_lt : expr < names.length
  expr_ne : expr ≠ 0
  atom_lt : atom < names.length
  atom_ne : atom ≠ 0 ∧ atom ≠ expr
  /-- No operator is in two productions. -/
  operators_nodup : (levels.flatMap fun level => level.operators.map Prod.fst).Nodup
  operators_lt : ∀ level ∈ levels, ∀ o ∈ level.operators, o.1 < names.length
  operators_ne : ∀ level ∈ levels, ∀ o ∈ level.operators, o.1 ≠ 0 ∧ o.1 ≠ expr

variable {α : Type}

/-- The declarations of a level. -/
def OperatorLevel.group (expr : Nat) (level : OperatorLevel α) : Group α where
  associativity := level.associativity
  productions := level.operators.map fun o => ⟨expr, [expr, o.1, expr], o.2⟩

namespace OperatorTable

variable (table : OperatorTable α)

/-- The declarations: a group for the start and the atoms, and one for each level. -/
def groups : List (Group α) :=
  ⟨table.associativity,
    [⟨0, [table.expr], table.startHook⟩, ⟨table.expr, [table.atom], table.atomHook⟩]⟩ ::
  table.levels.map (OperatorLevel.group table.expr)

/-- The operators of all levels. -/
def operators : List Nat := table.levels.flatMap fun level => level.operators.map Prod.fst

/-- The forms of the productions for expressions. -/
def forms : List Form := .operand table.atom :: table.operators.map .joined

/-- An atom, and then any number of operators, each before an atom. -/
inductive Alternates : List (Option Nat) → Prop
  | atom : Alternates [some table.atom]
  | more {word : List (Option Nat)} {o : Nat} (ho : o ∈ table.operators)
    (h : Alternates word) : Alternates (some table.atom :: some o :: word)

/-! ## The grammar of a table -/

theorem rulesIn_groups : Grammar.rulesIn table.groups =
    ⟨0, [table.expr]⟩ :: table.forms.map fun f => ⟨table.expr, f.right table.expr⟩ := by
  rw [Grammar.rulesIn_eq]
  simp [groups, forms, operators, OperatorLevel.group, Form.right, List.map_flatMap,
    List.flatMap_map, Function.comp_def]

theorem mem_operators {o : Nat} :
    o ∈ table.operators ↔ ∃ level ∈ table.levels, ∃ hook, (o, hook) ∈ level.operators := by
  simp [operators]

theorem operator_ne {o : Nat} (ho : o ∈ table.operators) : o ≠ 0 ∧ o ≠ table.expr := by
  obtain ⟨level, hlevel, hook, hmem⟩ := table.mem_operators.1 ho
  exact table.operators_ne level hlevel _ hmem

theorem operator_lt {o : Nat} (ho : o ∈ table.operators) : o < table.names.length := by
  obtain ⟨level, hlevel, hook, hmem⟩ := table.mem_operators.1 ho
  exact table.operators_lt level hlevel _ hmem

/-- The declarations of a table are without fault. -/
theorem exists_build : ∃ g, Grammar.build table.names table.groups = .ok g := by
  refine Grammar.exists_build_eq_ok table.names_nodup ?_ table.rulesIn_groups ?_
  · rw [table.rulesIn_groups]
    intro rule hrule
    have hexpr := table.expr_lt
    simp only [forms, List.map_cons, List.map_map, List.mem_cons, List.mem_map] at hrule
    rcases hrule with rfl | rfl | ⟨o, ho, rfl⟩
    · simpa using ⟨Nat.zero_lt_of_lt hexpr, hexpr⟩
    · simpa [Form.right] using ⟨hexpr, table.atom_lt⟩
    · simpa [Form.right] using ⟨hexpr, table.operator_lt ho, hexpr⟩
  · intro rule hrule
    obtain ⟨f, -, rfl⟩ := List.mem_map.1 hrule
    exact table.expr_ne

variable {table} {g : Grammar α}

theorem cfg_expressions (hg : g.Declared table.groups) :
    g.cfg.Expressions table.expr table.forms where
  rules_eq := by rw [hg.rules_eq, table.rulesIn_groups]
  expr_ne := table.expr_ne
  terminals_ne := by
    intro f hf t ht
    simp only [forms, List.mem_cons, List.mem_map] at hf
    rcases hf with rfl | ⟨o, ho, rfl⟩
    · rw [List.mem_singleton.1 ht]
      exact table.atom_ne
    · rw [List.mem_singleton.1 ht]
      exact table.operator_ne ho
  apart := by
    refine List.pairwise_cons.2 ⟨?_, List.pairwise_map.2 ?_⟩
    · intro f hf
      obtain ⟨o, -, rfl⟩ := List.mem_map.1 hf
      simp [Form.Apart, Form.lead?, Form.operator?]
    · refine table.operators_nodup.imp ?_
      intro o o' hne
      simpa [Form.Apart, Form.lead?, Form.operator?] using hne
  closing_ne := by
    intro f hf _ _
    simp only [forms, List.mem_cons, List.mem_map] at hf
    rcases hf with rfl | ⟨o, -, rfl⟩
    · exact Or.inl rfl
    · exact Or.inl rfl
  exists_operand := ⟨.operand table.atom, List.mem_cons_self, rfl⟩

/-- The rank and the associativity of an operator are those of its level. -/
theorem exists_level (hg : g.Declared table.groups) {p o : Nat}
    (hrule : g.cfg.rules[p]? = some ⟨table.expr, [table.expr, o, table.expr]⟩) :
    ∃ k level, table.levels[k]? = some level ∧ o ∈ level.operators.map Prod.fst ∧
      g.rank p = k + 1 ∧ g.associativity (k + 1) = level.associativity := by
  rw [hg.rules_eq, Grammar.rulesIn, List.getElem?_map, Option.map_eq_some_iff] at hrule
  obtain ⟨⟨production, rank⟩, hranked, heq⟩ := hrule
  obtain ⟨-, hright⟩ := Rule.mk.inj heq
  obtain ⟨-, hrank, group, hgroup, hmem, hassociativity⟩ := hg.of_ranked hranked
  cases rank with
  | zero =>
    cases hgroup
    simp only [List.mem_cons, List.not_mem_nil, or_false] at hmem
    rcases hmem with rfl | rfl
    · simp at hright
    · simp at hright
  | succ k =>
    rw [groups, List.getElem?_cons_succ, List.getElem?_map, Option.map_eq_some_iff] at hgroup
    obtain ⟨level, hlevel, rfl⟩ := hgroup
    obtain ⟨o', ho', rfl⟩ := List.mem_map.1 hmem
    obtain rfl : o'.1 = o := by simpa using hright
    exact ⟨k, level, hlevel, List.mem_map.2 ⟨o', ho', rfl⟩, hrank, hassociativity⟩

/-- The grammar of a table is an expression grammar. -/
theorem expressions (hg : g.Declared table.groups) : g.Expressions table.expr table.forms where
  cfg := cfg_expressions hg
  settled := by
    intro p o hf
    obtain ⟨k, level, -, -, hrank, hassociativity⟩ :=
      exists_level hg ((cfg_expressions hg).rule_eq hf)
    rw [hrank, hassociativity]
    exact level.associativity_ne
  sign_lt := by
    intro p q o o' hf
    have hmem := Form.mem_of_at? hf
    simp [forms] at hmem

/-! ## Its expressions -/

theorem Alternates.append {u v : List (Option Nat)} {o : Nat} (hu : table.Alternates u)
    (ho : o ∈ table.operators) (hv : table.Alternates v) : table.Alternates (u ++ some o :: v) := by
  induction hu with
  | atom => exact .more ho hv
  | more ho' _ ih => exact .more ho' ih

theorem exists_at?_of_mem_operators {o : Nat} (ho : o ∈ table.operators) :
    ∃ p, Form.at? table.forms p = some (.joined o) :=
  Form.exists_at?_of_mem (List.mem_cons_of_mem _ (List.mem_map.2 ⟨o, ho, rfl⟩))

theorem alternates_of_expression {d : Derivation α} (hd : Expression table.forms d) :
    table.Alternates (d.yield.map Tree.symbol) := by
  induction hd with
  | operand hf ht =>
    have hmem := Form.mem_of_at? hf
    simp only [forms, List.mem_cons, List.mem_map, reduceCtorEq, and_false, exists_false, or_false,
      Form.operand.injEq] at hmem
    simpa [ht, hmem] using Alternates.atom
  | enclosed hf =>
    have hmem := Form.mem_of_at? hf
    simp [forms] at hmem
  | signed hf =>
    have hmem := Form.mem_of_at? hf
    simp [forms] at hmem
  | joined hf ht _ _ ihd ihe =>
    have hmem := Form.mem_of_at? hf
    simp only [forms, List.mem_cons, reduceCtorEq, false_or, List.mem_map, Form.joined.injEq,
      exists_eq_right] at hmem
    simpa [ht] using ihd.append hmem ihe

theorem exists_expression_of_alternates {word : List (Option Nat)} (h : table.Alternates word)
    {tokens : List (Tree α)} (htokens : tokens.map Tree.symbol = word) :
    ∃ d, Expression table.forms d ∧ d.yield = tokens := by
  have hatom : Form.at? table.forms 1 = some (.operand table.atom) := rfl
  induction h generalizing tokens with
  | atom =>
    obtain ⟨t, rfl, ht⟩ := List.map_eq_singleton_iff.1 htokens
    exact ⟨.node 1 [.token t], .operand hatom ht, rfl⟩
  | more ho _ ih =>
    obtain ⟨t, ts, rfl, ht, hts⟩ := List.map_eq_cons_iff.1 htokens
    obtain ⟨u, us, rfl, hu, hus⟩ := List.map_eq_cons_iff.1 hts
    obtain ⟨d, hd, rfl⟩ := ih hus
    obtain ⟨p, hp⟩ := exists_at?_of_mem_operators ho
    refine ⟨.node p [.node 1 [.token t], .token u, d], .joined hp hu (.operand hatom ht) hd, ?_⟩
    simp

/-- The tokens of expressions are those that alternate. -/
theorem exists_expression_iff {tokens : List (Tree α)} :
    (∃ d, Expression table.forms d ∧ d.yield = tokens) ↔
      table.Alternates (tokens.map Tree.symbol) := by
  constructor
  · rintro ⟨d, hd, rfl⟩
    exact alternates_of_expression hd
  · intro h
    exact exists_expression_of_alternates h rfl

/-- A table makes a grammar with the ranks and the associativities of its levels, and there is a
parser for it.  The parser accepts the tokens that alternate.  The tree that it returns without
hooks and trimming shows a derivation in which every operand of an operator goes before the
operator, by level or by the associativity of their level.  The tokens have no other derivation of
this kind. -/
theorem precedence_shapes_trees (table : OperatorTable α) (ε : Type) :
    ∃ g, Grammar.build table.names table.groups = .ok g ∧
      (∀ p o, g.cfg.rules[p]? = some ⟨table.expr, [table.expr, o, table.expr]⟩ →
        ∃ k level, table.levels[k]? = some level ∧ o ∈ level.operators.map Prod.fst ∧
          g.rank p = k + 1 ∧ g.associativity (k + 1) = level.associativity) ∧
      ∀ trim, ∃ p, Parser.build g trim = .ok p ∧
        ∀ tokens : List (Tree α), (∀ t ∈ tokens, t.symbol ≠ none) →
          ((∃ root stats unread, p.parse (tokens.map .token) =
              (⟨.accepted root, stats, unread⟩ : Outcome α ε)) ↔
            table.Alternates (tokens.map Tree.symbol)) ∧
          (g.HookFree → trim = false → ∀ root stats unread, p.parse (tokens.map .token) =
              (⟨.accepted root, stats, unread⟩ : Outcome α ε) →
            ∃ d, g.cfg.Depicts root d ∧ g.cfg.IsDerivation d 0 ∧ d.yield = tokens ∧
              g.Respects d ∧ ∀ e, g.cfg.IsDerivation e 0 → e.yield = tokens → g.Respects e →
                e = d) := by
  obtain ⟨g, hg⟩ := table.exists_build
  have hdeclared := Grammar.declared_of_build hg
  have h := expressions hdeclared
  refine ⟨g, hg, fun p o => exists_level hdeclared, fun trim => ?_⟩
  obtain ⟨p, hp⟩ := Parser.exists_build_of_expressions h trim
  obtain ⟨rfl, rfl⟩ := Parser.build_eq_ok hp
  refine ⟨p, hp, fun tokens hend => ⟨?_, ?_⟩⟩
  · rw [Parser.exists_accepted_iff_expression h hend]
    exact exists_expression_iff
  · intro hfree htrim root stats unread hparse
    exact Parser.exists_respects_of_accepted h hfree htrim hend hparse

/-- Powers from the right, and differences from the left. -/
def powers : OperatorTable Nat where
  names := ["Start", "Expr", "number", "^", "-"]
  expr := 1
  atom := 2
  associativity := .none
  startHook := none
  atomHook := none
  levels := [⟨.right, [(3, none)], by decide⟩, ⟨.left, [(4, none)], by decide⟩]
  names_nodup := by decide
  expr_lt := by decide
  expr_ne := by decide
  atom_lt := by decide
  atom_ne := by decide
  operators_nodup := by decide
  operators_lt := by simp
  operators_ne := by simp

/-- A difference with a power in it is accepted and grouped. -/
theorem precedence_shapes_trees_powers :
    ∃ (tokens : List (Tree Nat)) (g : Grammar Nat) (p : Parser Nat) (root : Tree Nat)
      (d : Derivation Nat), tokens.map Tree.symbol = [some 2, some 4, some 2, some 3, some 2] ∧
      Grammar.build powers.names powers.groups = .ok g ∧ Parser.build g false = .ok p ∧
      (∃ stats unread, p.parse (tokens.map .token) =
        (⟨.accepted root, stats, unread⟩ : Outcome Nat String)) ∧
      g.cfg.Depicts root d ∧ d.yield = tokens ∧ g.Respects d := by
  obtain ⟨g, hg, -, hparsers⟩ := precedence_shapes_trees powers String
  obtain ⟨p, hp, hruns⟩ := hparsers false
  have hend : ∀ t ∈ [Tree.scalar 2 8, Tree.scalar 4 0, Tree.scalar 2 2, Tree.scalar 3 0,
      Tree.scalar 2 3], t.symbol ≠ none := by
    simp [Tree.scalar, Tree.symbol, Tree.tag]
  obtain ⟨haccepted, hshown⟩ := hruns _ hend
  have halternates : powers.Alternates [some 2, some 4, some 2, some 3, some 2] :=
    .more (by decide) (.more (by decide) .atom)
  obtain ⟨root, stats, unread, hparse⟩ := haccepted.2 halternates
  have hfree : g.HookFree := by
    rw [Grammar.HookFree, (Grammar.declared_of_build hg).hooks_eq]
    decide
  obtain ⟨d, hroot, -, hyield, hrespects, -⟩ := hshown hfree rfl root stats unread hparse
  exact ⟨_, g, p, root, d, rfl, hg, hp, ⟨stats, unread, hparse⟩, hroot, hyield, hrespects⟩

end OperatorTable

end ShiftReduce
