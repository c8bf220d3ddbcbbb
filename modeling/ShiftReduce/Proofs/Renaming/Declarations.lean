import Mathlib.Data.Finset.Card
import ShiftReduce.Proofs.Contested
import ShiftReduce.Proofs.Renaming.Runs

/-!
# The order of declarations inside a group

The order in which the productions of a group are declared gives numbers to productions, items and
states, and so do the numbers of symbols.  It has no say in anything else.  Declarations that are
rearranged inside their groups, with the first production staying first, and with their symbols
renumbered throughout, make a grammar that is the same but for names.  Its automaton has as many
states and as many conflicts of each kind, and its parsers go through the same runs.

* `Group.Rearranged`, `Grammar.Rearranged`: other declarations of the same;
* `exists_perm_of_perm`: a list in another order as a permutation of its indices;
* `Grammar.Rearranged.exists_renamed`: they make a renamed grammar;
* `Grammar.order_in_groups_is_irrelevant`: what follows for automata and parsers.
-/

namespace ShiftReduce

variable {α : Type} {σ : Equiv.Perm Nat}

/-! ## Rearranged declarations -/

/-- The production with other names for its symbols. -/
def Production.rename (σ : Nat → Nat) (p : Production α) : Production α :=
  { p with left := σ p.left, right := p.right.map σ }

/-- The second group holds the productions of the first one, in any order and with other names for
their symbols. -/
structure Group.Rearranged (σ : Equiv.Perm Nat) (group group' : Group α) : Prop where
  associativity_eq : group'.associativity = group.associativity
  productions : group'.productions.Perm (group.productions.map (Production.rename σ))

/-- The second declarations are the first ones with their symbols renumbered and with the
productions of each group in any order, except that the first production stays first. -/
structure Grammar.Rearranged (σ : Equiv.Perm Nat) (names names' : List String)
    (groups groups' : List (Group α)) : Prop where
  symbol_zero : σ 0 = 0
  names_eq : ∀ symbol, names'[σ symbol]? = names[symbol]?
  each : List.Forall₂ (Group.Rearranged σ) groups groups'
  first_eq : (groups'.flatMap Group.productions).head? =
    ((groups.flatMap Group.productions).head?).map (Production.rename σ)

/-! ## Permutations of indices -/

/-- The permutation of the indices of a list when one more member comes first. -/
def shiftedPerm (e : Equiv.Perm Nat) : Equiv.Perm Nat where
  toFun
    | 0 => 0
    | i + 1 => e i + 1
  invFun
    | 0 => 0
    | i + 1 => e.symm i + 1
  left_inv i := by cases i <;> simp
  right_inv i := by cases i <;> simp

/-- A list in another order is given by a permutation of its indices. -/
theorem exists_perm_of_perm {β : Type} {l l' : List β} (h : l.Perm l') :
    ∃ e : Equiv.Perm Nat, ∀ i, l'[e i]? = l[i]? := by
  induction h with
  | nil => exact ⟨Equiv.refl _, fun _ => rfl⟩
  | cons a _ ih =>
    obtain ⟨e, he⟩ := ih
    refine ⟨shiftedPerm e, fun i => ?_⟩
    cases i with
    | zero => rfl
    | succ i => exact he i
  | swap a b l =>
    refine ⟨Equiv.swap 0 1, fun i => ?_⟩
    rcases i with _ | _ | i
    · rw [Equiv.swap_apply_left]
      rfl
    · rw [Equiv.swap_apply_right]
      rfl
    · rw [Equiv.swap_apply_of_ne_of_ne (by omega) (by omega)]
      rfl
  | trans _ _ ih ih' =>
    obtain ⟨e, he⟩ := ih
    obtain ⟨e', he'⟩ := ih'
    exact ⟨e.trans e', fun i => by rw [Equiv.trans_apply, he', he]⟩

/-- A permutation that takes the numbers below one bound to those below another leaves no room
between the bounds. -/
theorem eq_of_perm_lt_iff {m n : Nat} (e : Equiv.Perm Nat) (h : ∀ i, e i < m ↔ i < n) : m = n := by
  have hrange : (Finset.range n).map e.toEmbedding = Finset.range m := by
    ext i
    rw [Finset.mem_map_equiv, Finset.mem_range, Finset.mem_range, ← h, Equiv.apply_symm_apply]
  rw [← Finset.card_range m, ← hrange, Finset.card_map, Finset.card_range]

/-! ## Names -/

namespace Grammar

variable {g : Grammar α} {names names' : List String} {groups groups' : List (Group α)}

/-- The symbols of a grammar are its names, which are all different. -/
theorem names_of_build (h : build names groups = .ok g) :
    names.Nodup ∧ g.cfg.symbolCount = names.length := by
  have hentries := entries_of_build h
  refine ⟨hentries ▸ g.symbols.nodup, ?_⟩
  rw [g.symbolCount_eq, Numbering.size, hentries]

namespace Rearranged

theorem lt_length_iff (h : Rearranged σ names names' groups groups') (symbol : Nat) :
    σ symbol < names'.length ↔ symbol < names.length := by
  rw [← not_iff_not, Nat.not_lt, Nat.not_lt, ← List.getElem?_eq_none_iff, h.names_eq,
    List.getElem?_eq_none_iff]

theorem length_eq (h : Rearranged σ names names' groups groups') : names'.length = names.length :=
  eq_of_perm_lt_iff σ h.lt_length_iff

theorem nodup_names (h : Rearranged σ names names' groups groups') (hnames : names.Nodup) :
    names'.Nodup := by
  rw [List.nodup_iff_getElem?_ne_getElem?]
  intro i j hij hj heq
  have hnames_eq : ∀ k, names'[k]? = names[σ.symm k]? := fun k => by
    rw [← h.names_eq, Equiv.apply_symm_apply]
  rw [hnames_eq, hnames_eq] at heq
  have hi : σ.symm i < names.length := by
    rw [← h.lt_length_iff, Equiv.apply_symm_apply]
    omega
  have hsame := σ.symm.injective ((List.getElem?_inj hi hnames).1 heq)
  omega

/-! ## Productions -/

/-- Every production stays in its group. -/
theorem ranked_perm (h : Rearranged σ names names' groups groups') :
    (ranked groups').Perm ((ranked groups).map fun p => (p.1.rename σ, p.2)) := by
  have hfrom : ∀ k, ((groups'.zipIdx k).flatMap fun group =>
      group.1.productions.map (·, group.2)).Perm
      (((groups.zipIdx k).flatMap fun group => group.1.productions.map (·, group.2)).map
        fun p => (p.1.rename σ, p.2)) := by
    have hgroups := h.each
    clear h
    induction hgroups with
    | nil => exact fun _ => .refl _
    | cons hgroup _ ih =>
      intro k
      rw [List.zipIdx_cons, List.zipIdx_cons, List.flatMap_cons, List.flatMap_cons,
        List.map_append]
      refine List.Perm.append ?_ (ih (k + 1))
      simpa [Function.comp_def] using hgroup.productions.map (·, k)
  exact hfrom 0

theorem rulesIn_perm (h : Rearranged σ names names' groups groups') :
    (rulesIn groups').Perm ((rulesIn groups).map (Rule.rename σ)) := by
  have hrules := h.ranked_perm.map fun p => (⟨p.1.left, p.1.right⟩ : Rule)
  simpa [rulesIn, Rule.rename, Production.rename, Function.comp_def] using hrules

theorem associativities_eq (h : Rearranged σ names names' groups groups') :
    groups'.map Group.associativity = groups.map Group.associativity := by
  have hgroups := h.each
  clear h
  induction hgroups with
  | nil => rfl
  | cons hgroup _ ih => rw [List.map_cons, List.map_cons, hgroup.associativity_eq, ih]

/-- The first rule stays first. -/
theorem head?_rulesIn (h : Rearranged σ names names' groups groups') :
    (rulesIn groups').head? = ((rulesIn groups).head?).map (Rule.rename σ) := by
  rw [rulesIn_eq, rulesIn_eq, List.head?_map, List.head?_map, h.first_eq, Option.map_map,
    Option.map_map]
  rfl

/-- Rearranged declarations make a grammar if the first ones do. -/
theorem exists_build_eq_ok (h : Rearranged σ names names' groups groups')
    (hg : build names groups = .ok g) : ∃ g', build names' groups' = .ok g' := by
  obtain ⟨hnodup, hcount⟩ := names_of_build hg
  obtain ⟨right, rest, hrules, hrest⟩ := g.cfg.startFirst
  have hrange := g.cfg.inRange
  rw [(declared_of_build hg).rules_eq] at hrules hrange
  rw [hcount] at hrange
  have hperm := h.rulesIn_perm
  have hhead := h.head?_rulesIn
  rw [hrules, List.head?_cons, Option.map_some, List.head?_eq_some_iff] at hhead
  obtain ⟨rest', hrules'⟩ := hhead
  rw [show (⟨0, right⟩ : Rule).rename σ = ⟨0, right.map σ⟩ by rw [Rule.rename, h.symbol_zero]]
    at hrules'
  refine Grammar.exists_build_eq_ok (h.nodup_names hnodup) ?_ hrules' ?_
  · intro rule hrule
    obtain ⟨rule, hmem, rfl⟩ := List.mem_map.1 (hperm.mem_iff.1 hrule)
    obtain ⟨hleft, hright⟩ := hrange rule hmem
    refine ⟨(h.lt_length_iff rule.left).2 hleft, fun s hs => ?_⟩
    obtain ⟨r, hr, rfl⟩ := List.mem_map.1 hs
    exact (h.lt_length_iff r).2 (hright r hr)
  · intro rule hrule
    rw [hrules, hrules', List.map_cons, Rule.rename, h.symbol_zero] at hperm
    obtain ⟨rule, hmem, rfl⟩ := List.mem_map.1 (hperm.cons_inv.mem_iff.1 hrule)
    intro hzero
    rw [Rule.rename, ← h.symbol_zero] at hzero
    exact hrest rule hmem (σ.injective hzero)

/-- The grammar that rearranged declarations make is the same but for names. -/
theorem exists_renamed (h : Rearranged σ names names' groups groups')
    (hg : build names groups = .ok g) :
    ∃ (g' : Grammar α) (π : Equiv.Perm Nat), build names' groups' = .ok g' ∧ Renamed σ π g g' := by
  obtain ⟨g', hg'⟩ := h.exists_build_eq_ok hg
  obtain ⟨π, hπ⟩ := exists_perm_of_perm h.ranked_perm.symm
  obtain ⟨-, hcount⟩ := names_of_build hg
  obtain ⟨-, hcount'⟩ := names_of_build hg'
  have hdeclared := declared_of_build hg
  have hdeclared' := declared_of_build hg'
  simp only [List.getElem?_map] at hπ
  refine ⟨g', π, hg', ⟨h.symbol_zero, ?_, ?_, ?_⟩, ?_, ?_⟩
  · rw [hcount, hcount', h.length_eq]
  · intro s
    have hlt := h.lt_length_iff s
    rwa [h.length_eq, ← hcount] at hlt
  · intro i
    rw [hdeclared.rules_eq, hdeclared'.rules_eq, rulesIn, rulesIn, List.getElem?_map, hπ,
      List.getElem?_map, Option.map_map, Option.map_map]
    rfl
  · intro i
    rw [rank, rank, hdeclared.ranks_eq, hdeclared'.ranks_eq, List.getD_eq_getElem?_getD,
      List.getD_eq_getElem?_getD, List.getElem?_map, hπ, List.getElem?_map, Option.map_map]
    rfl
  · rw [hdeclared.associativities_eq, hdeclared'.associativities_eq, h.associativities_eq]

/-- Hooks stay with their productions. -/
theorem hookFree (h : Rearranged σ names names' groups groups') {g' : Grammar α}
    (hg : build names groups = .ok g) (hg' : build names' groups' = .ok g') (hfree : g.HookFree) :
    g'.HookFree := by
  intro hook hmem
  rw [(declared_of_build hg').hooks_eq] at hmem
  obtain ⟨p', hp', rfl⟩ := List.mem_map.1 hmem
  obtain ⟨p, hp, rfl⟩ := List.mem_map.1 (h.ranked_perm.mem_iff.1 hp')
  refine hfree p.1.hook ?_
  rw [(declared_of_build hg).hooks_eq]
  exact List.mem_map_of_mem hp

end Rearranged

/-! ## What follows -/

/-- Parsers are built of both of two renamed grammars or of neither. -/
theorem Renamed.build_iff {g' : Grammar α} {π ρ : Equiv.Perm Nat} (h : Renamed σ π g g')
    (hcfg : g.cfg.Isomorphic σ π ρ g'.cfg) (trim : Bool) :
    (∃ p, Parser.build g trim = .ok p) ↔ ∃ p', Parser.build g' trim = .ok p' := by
  have hbuild : ∀ f : Grammar α,
      (∃ p, Parser.build f trim = .ok p) ↔ f.automaton.table.conflicts = [] := by
    intro f
    constructor
    · rintro ⟨p, hp⟩
      obtain ⟨rfl, -⟩ := Parser.build_eq_ok hp
      exact p.table_eq ▸ p.conflictFree
    · intro hfree
      exact ⟨⟨f, f.automaton.table, trim, rfl, hfree⟩,
        Parser.build_eq ⟨f, f.automaton.table, trim, rfl, hfree⟩⟩
  rw [hbuild, hbuild, ← List.length_eq_zero_iff, ← List.length_eq_zero_iff,
    (h.conflicts_perm hcfg).length_eq, List.length_map]

/-- Declarations that are rearranged inside their groups make a grammar with as many states and as
many conflicts of each kind.  Parsers are built of both grammars or of neither.  Over a source and
the renumbered source they do the same, have the same counts, and end alike: all of this but for the
names of symbols, productions and states. -/
theorem order_in_groups_is_irrelevant (h : Rearranged σ names names' groups groups')
    (hg : build names groups = .ok g) (hfree : g.HookFree) :
    ∃ (g' : Grammar α) (π ρ : Equiv.Perm Nat), build names' groups' = .ok g' ∧
      π 0 = 0 ∧ ρ 0 = 0 ∧
      (∀ i, g'.cfg.rules[π i]? = (g.cfg.rules[i]?).map (Rule.rename σ)) ∧
      (∀ i, g'.rank (π i) = g.rank i) ∧
      (∀ q, ρ q < g'.automaton.stateCount ↔ q < g.automaton.stateCount) ∧
      g'.automaton.stateCount = g.automaton.stateCount ∧
      (∀ kind, g'.automaton.table.conflicts.countP (fun c => decide (c.kind = kind)) =
        g.automaton.table.conflicts.countP fun c => decide (c.kind = kind)) ∧
      ∀ trim, ((∃ p, Parser.build g trim = .ok p) ↔ ∃ p', Parser.build g' trim = .ok p') ∧
        ∀ p p', Parser.build g trim = .ok p → Parser.build g' trim = .ok p' →
          ∀ (ε : Type) (source : List (Pull α ε)),
            p'.actions (source.map (Pull.map (Tree.renumber σ))) =
              (p.actions source).map (Action.rename σ π ρ) ∧
            Outcome.Renamed σ π ρ (p.parse source)
              (p'.parse (source.map (Pull.map (Tree.renumber σ)))) := by
  obtain ⟨g', π, hg', hrenamed⟩ := h.exists_renamed hg
  obtain ⟨ρ, hcfg⟩ := hrenamed.cfg.exists_isomorphic
  refine ⟨g', π, ρ, hg', hcfg.production_zero, hcfg.state_zero, hcfg.rules_eq, hrenamed.rank_eq,
    ?_, ?_, ?_, ?_⟩
  · simpa only [Automaton.stateCount, collection_automaton] using hcfg.state_lt_iff
  · simpa only [Automaton.stateCount, collection_automaton] using hcfg.size_eq
  · intro kind
    rw [(hrenamed.conflicts_perm hcfg).countP_eq, List.countP_map]
    rfl
  · intro trim
    refine ⟨hrenamed.build_iff hcfg trim, fun p p' hp hp' ε source => ?_⟩
    obtain ⟨rfl, htrim⟩ := Parser.build_eq_ok hp
    obtain ⟨rfl, htrim'⟩ := Parser.build_eq_ok hp'
    have hparsers : p.Renamed σ π ρ p' :=
      ⟨hrenamed, hcfg, hfree, h.hookFree hg hg' hfree, htrim'.trans htrim.symm⟩
    exact ⟨hparsers.actions_eq source, hparsers.parse source⟩

/-- The productions of `sumsToLeft` in another order, with the symbols for a sum and for a number
exchanged. -/
def sumsReordered : List (Group Nat) :=
  [⟨.left, [{ left := 0, right := [2] }, { left := 2, right := [1] },
    { left := 2, right := [2, 3, 2] }]⟩]

/-- The sum of three numbers is parsed to the left in both orders. -/
theorem order_in_groups_is_irrelevant_sums :
    ∃ (g g' : Grammar Nat) (p p' : Parser Nat) (π ρ : Equiv.Perm Nat) (root root' : Tree Nat),
      build ["start", "sum", "number", "+"] sumsToLeft = .ok g ∧
      build ["start", "number", "sum", "+"] sumsReordered = .ok g' ∧
      g'.automaton.stateCount = g.automaton.stateCount ∧
      Parser.build g false = .ok p ∧ Parser.build g' false = .ok p' ∧
      p.parse ([Tree.scalar 2 7, Tree.empty 3, Tree.scalar 2 8, Tree.empty 3,
          Tree.scalar 2 9].map .token) =
        (⟨.accepted root, ⟨5, 5, 6⟩, []⟩ : Outcome Nat String) ∧
      p'.parse ([Tree.scalar 1 7, Tree.empty 3, Tree.scalar 1 8, Tree.empty 3,
          Tree.scalar 1 9].map .token) =
        (⟨.accepted root', ⟨5, 5, 6⟩, []⟩ : Outcome Nat String) ∧
      root.Renamed (Equiv.swap 1 2) π ρ root' := by
  have hrearranged : Rearranged (Equiv.swap 1 2) ["start", "sum", "number", "+"]
      ["start", "number", "sum", "+"] sumsToLeft sumsReordered := by
    refine ⟨rfl, ?_, .cons ⟨rfl, .cons _ (.swap _ _ _)⟩ .nil, rfl⟩
    intro symbol
    rcases symbol with _ | _ | _ | symbol
    · rfl
    · rfl
    · rfl
    · rw [Equiv.swap_apply_of_ne_of_ne (by omega) (by omega)]
      rfl
  have hruns : ∃ (g : Grammar Nat) (p : Parser Nat) (root : Tree Nat),
      build ["start", "sum", "number", "+"] sumsToLeft = .ok g ∧ g.HookFree ∧
      Parser.build g false = .ok p ∧
      p.parse ([Tree.scalar 2 7, Tree.empty 3, Tree.scalar 2 8, Tree.empty 3,
          Tree.scalar 2 9].map .token) =
        (⟨.accepted root, ⟨5, 5, 6⟩, []⟩ : Outcome Nat String) :=
    ⟨_, _, _, rfl, by unfold HookFree; decide, rfl, rfl⟩
  obtain ⟨g, p, root, hg, hfree, hp, hparse⟩ := hruns
  obtain ⟨g', π, ρ, hg', -, -, -, -, -, hstates, -, htrim⟩ :=
    order_in_groups_is_irrelevant hrearranged hg hfree
  obtain ⟨hboth, hsame⟩ := htrim false
  obtain ⟨p', hp'⟩ := hboth.1 ⟨p, hp⟩
  obtain ⟨-, houtcome⟩ := hsame p p' hp hp' String
    ([Tree.scalar 2 7, Tree.empty 3, Tree.scalar 2 8, Tree.empty 3, Tree.scalar 2 9].map .token)
  rw [hparse] at houtcome
  generalize hparse' : p'.parse _ = o' at houtcome
  obtain ⟨verdict, stats, unread⟩ := o'
  obtain ⟨hverdict, hstats, hunread⟩ := houtcome
  cases hstats
  cases hunread
  cases hverdict with
  | @accepted _ root' hroot =>
    exact ⟨g, g', p, p', π, ρ, root, root', hg, hg', hstates, hp, hp', hparse, hparse', hroot⟩

end Grammar

end ShiftReduce
