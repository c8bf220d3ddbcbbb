import ShiftReduce.Proofs.Cells
import ShiftReduce.Proofs.Renaming.Automata

/-!
# Renamed grammars have the same tables

The candidates of a cell come in the order of the lookahead set, and that order is not the same in
renamed grammars.  But the choice does not depend on it, so the entries of the tables are the same
but for names, and so are their conflicts.

* `Action.rename`, `Candidate.rename`, `Conflict.rename`: names replaced by others;
* `Grammar.choose_rename`: the choice goes by ranks and not by names;
* `Grammar.Renamed`: grammars that are the same but for names, with their precedence;
* `Grammar.Renamed.candidates_perm`, `Grammar.Renamed.action_eq`: cells;
* `Grammar.Renamed.conflicts_perm`: conflicts.
-/

namespace ShiftReduce

/-! ## Names replaced by others -/

/-- The action with other names for symbols, productions and states. -/
def Action.rename (σ π ρ : Nat → Nat) : Action → Action
  | error la => error (la.map σ)
  | shiftReduce la => shiftReduce (la.map σ)
  | reduceReduce la => reduceReduce (la.map σ)
  | reduce production => reduce (π production)
  | shift state => shift (ρ state)

/-- The candidate with other names for its action. -/
def Candidate.rename (σ π ρ : Nat → Nat) (c : Candidate) : Candidate :=
  { c with action := c.action.rename σ π ρ }

/-- The conflict with other names for its state and its lookahead. -/
def Conflict.rename (σ ρ : Nat → Nat) (c : Conflict) : Conflict :=
  { c with state := ρ c.state, lookahead := c.lookahead.map σ }

section

variable {σ π ρ : Nat → Nat}

@[simp]
theorem Action.isReduce_rename (a : Action) : (a.rename σ π ρ).isReduce = a.isReduce := by
  cases a <;> rfl

@[simp]
theorem Action.isShift_rename (a : Action) : (a.rename σ π ρ).isShift = a.isShift := by
  cases a <;> rfl

theorem Action.conflict?_rename (a : Action) :
    (a.rename σ π ρ).conflict? = a.conflict?.map fun c => (c.1, c.2.map σ) := by
  cases a <;> rfl

theorem Grammar.settleTie_rename (associativity : Associativity) (tied : List Action)
    (la : Lookahead) :
    settleTie associativity (tied.map (Action.rename σ π ρ)) (la.map σ) =
      (settleTie associativity tied la).rename σ π ρ := by
  have hreduces : (tied.map (Action.rename σ π ρ)).filter Action.isReduce =
      (tied.filter Action.isReduce).map (Action.rename σ π ρ) := by
    simp [List.filter_map, Function.comp_def]
  have hfind : (tied.map (Action.rename σ π ρ)).find? Action.isShift =
      (tied.find? Action.isShift).map (Action.rename σ π ρ) := by
    rw [List.find?_map]
    congr 2
    exact funext Action.isShift_rename
  unfold settleTie
  rw [hreduces, hfind]
  generalize tied.filter Action.isReduce = reduces
  generalize tied.find? Action.isShift = shift
  cases associativity <;> rcases reduces with _ | ⟨reduce, _ | ⟨second, rest⟩⟩ <;> cases shift <;>
    rfl

/-- The choice goes by ranks, not by names. -/
theorem Grammar.choose_rename {α : Type} {g g' : Grammar α}
    (h : g'.associativities = g.associativities) (candidates : List Candidate) (la : Lookahead) :
    g'.choose (candidates.map (Candidate.rename σ π ρ)) (la.map σ) =
      (g.choose candidates la).rename σ π ρ := by
  have hranks : (candidates.map (Candidate.rename σ π ρ)).map Candidate.rank =
      candidates.map Candidate.rank := by
    simp [Candidate.rename, Function.comp_def]
  have htied : ∀ tightest,
      ((candidates.map (Candidate.rename σ π ρ)).filter fun c => c.rank == tightest).map
          Candidate.action =
        ((candidates.filter fun c => c.rank == tightest).map Candidate.action).map
          (Action.rename σ π ρ) := by
    intro tightest
    simp [List.filter_map, Candidate.rename, Function.comp_def]
  unfold choose
  rw [hranks]
  cases (candidates.map Candidate.rank).min? with
  | none => rfl
  | some tightest =>
    have hassociativity : g'.associativity tightest = g.associativity tightest := by
      rw [associativity, associativity, h]
    dsimp only
    rw [htied, hassociativity]
    generalize (candidates.filter fun c => c.rank == tightest).map Candidate.action = tied
    have hsettle := settleTie_rename (σ := σ) (π := π) (ρ := ρ) (g.associativity tightest) tied la
    rcases tied with _ | ⟨only, _ | ⟨second, rest⟩⟩
    · exact hsettle
    · rfl
    · exact hsettle

end

/-! ## Tables of renamed grammars -/

namespace Grammar

variable {α : Type} {g g' : Grammar α}

/-- The second grammar is the first one with other names for symbols and productions, which keep
their precedence. -/
structure Renamed (σ π : Equiv.Perm Nat) (g g' : Grammar α) : Prop where
  cfg : g.cfg.Renamed σ π g'.cfg
  rank_eq : ∀ production, g'.rank (π production) = g.rank production
  associativities_eq : g'.associativities = g.associativities

namespace Renamed

variable {σ π ρ : Equiv.Perm Nat}

/-- Transitions have the same ranks. -/
theorem gotoRank?_eq (h : Renamed σ π g g') {q q' : Nat} (hmatches : g.cfg.Matches π g'.cfg q q')
    (symbol : Nat) :
    g'.gotoRank? (g'.cfg.collection.state q') (σ symbol) =
      g.gotoRank? (g.cfg.collection.state q) symbol := by
  refine Option.ext fun rank => ?_
  rw [gotoRank?_eq_some_iff, gotoRank?_eq_some_iff]
  have hranks : ∀ r, (∃ item ∈ g'.cfg.collection.state q',
        g'.cfg.nextSymbol? item = some (σ symbol) ∧ r = g'.rank item.production) ↔
      ∃ item ∈ g.cfg.collection.state q,
        g.cfg.nextSymbol? item = some symbol ∧ r = g.rank item.production := by
    intro r
    constructor
    · rintro ⟨item, hitem, hnext, rfl⟩
      have hnext' := h.cfg.symm.nextSymbol?_rename_eq_some hnext
      rw [Equiv.symm_apply_apply] at hnext'
      refine ⟨item.rename π.symm, (hmatches.symm.mem_iff item).2 hitem, hnext', ?_⟩
      rw [← h.rank_eq, Item.production_rename, Equiv.apply_symm_apply]
    · rintro ⟨item, hitem, hnext, rfl⟩
      exact ⟨item.rename π, (hmatches.mem_iff item).2 hitem,
        h.cfg.nextSymbol?_rename_eq_some hnext, (h.rank_eq _).symm⟩
  simp only [hranks]

theorem shiftCandidate?_eq (h : Renamed σ π g g') (hcfg : g.cfg.Isomorphic σ π ρ g'.cfg) (q : Nat)
    (la : Lookahead) :
    g'.shiftCandidate? g'.cfg.collection (ρ q) (la.map σ) =
      (g.shiftCandidate? g.cfg.collection q la).map (Candidate.rename σ π ρ) := by
  cases la with
  | none => rfl
  | some symbol =>
    cases hgoto : g.cfg.collection.goto? q symbol with
    | none => simp [shiftCandidate?, hcfg.goto?_eq, hgoto]
    | some target =>
      have hmatches := hcfg.matches_of_lt q (Cfg.goto?_lt hgoto).1
      obtain ⟨rank, hrank⟩ := Option.ne_none_iff_exists'.1 (gotoRank?_ne_none hgoto)
      simp [shiftCandidate?, hcfg.goto?_eq, hgoto, h.gotoRank?_eq hmatches, hrank, Candidate.rename,
        Action.rename]

theorem reduceCandidates_map (h : Renamed σ π g g') (set : List LookaheadItem) (la : Lookahead) :
    g'.reduceCandidates (set.map (LookaheadItem.rename σ π)) (la.map σ) =
      (g.reduceCandidates set la).map (Candidate.rename σ π ρ) := by
  have hla : ∀ la' : Lookahead, la'.map σ = la.map σ ↔ la' = la := fun la' =>
    (Option.map_injective σ.injective).eq_iff
  simp only [reduceCandidates, List.filter_map, List.map_map, Function.comp_def,
    LookaheadItem.rename, h.cfg.isComplete_rename, hla, Candidate.rename, Action.rename,
    Item.production_rename, h.rank_eq]

/-- The candidates of a cell are the same but for names and order. -/
theorem candidates_perm (h : Renamed σ π g g') (hcfg : g.cfg.Isomorphic σ π ρ g'.cfg) (q : Nat)
    (la : Lookahead) :
    (g'.candidates g'.cfg.collection g'.cfg.lookaheads (ρ q) (la.map σ)).Perm
      ((g.candidates g.cfg.collection g.cfg.lookaheads q la).map (Candidate.rename σ π ρ)) := by
  rw [candidates, candidates, List.map_append, h.shiftCandidate?_eq hcfg, Option.toList_map,
    ← h.reduceCandidates_map]
  refine List.Perm.append_left _ ?_
  exact ((hcfg.lookaheads_perm q).filter _).map _

/-- The entries of the tables are the same but for names. -/
theorem action_eq (h : Renamed σ π g g') (hcfg : g.cfg.Isomorphic σ π ρ g'.cfg) (q : Nat)
    (la : Lookahead) :
    g'.automaton.table.action (ρ q) (la.map σ) =
      (g.automaton.table.action q la).rename σ π ρ := by
  have hcolumn : column (la.map σ) ≤ g'.cfg.symbolCount ↔ column la ≤ g.cfg.symbolCount := by
    rw [hcfg.symbolCount_eq]
    cases la with
    | none => rfl
    | some symbol => exact hcfg.symbol_lt_iff symbol
  rw [action_automaton, action_automaton]
  by_cases hcell : q < g.cfg.collection.states.size ∧ column la ≤ g.cfg.symbolCount
  · rw [if_pos hcell, if_pos ⟨(hcfg.state_lt_iff q).2 hcell.1, hcolumn.2 hcell.2⟩,
      choose_perm (h.candidates_perm hcfg q la) (g'.oneShift_candidates _ _ _ _),
      choose_rename h.associativities_eq]
  · rw [if_neg hcell, if_neg fun hcell' =>
      hcell ⟨(hcfg.state_lt_iff q).1 hcell'.1, hcolumn.1 hcell'.2⟩]
    rfl

theorem goto?_eq (h : Renamed σ π g g') (hcfg : g.cfg.Isomorphic σ π ρ g'.cfg) (q symbol : Nat) :
    g'.automaton.table.goto? (ρ q) (σ symbol) = (g.automaton.table.goto? q symbol).map ρ := by
  have haction := h.action_eq hcfg q (some symbol)
  rw [Option.map_some] at haction
  unfold Table.goto?
  rw [haction]
  cases g.automaton.table.action q (some symbol) <;> rfl

/-- The conflicts are the same but for names and order. -/
theorem conflicts_perm (h : Renamed σ π g g') (hcfg : g.cfg.Isomorphic σ π ρ g'.cfg) :
    g'.automaton.table.conflicts.Perm
      (g.automaton.table.conflicts.map (Conflict.rename σ ρ)) := by
  have hback : ∀ c : Conflict, (c.rename σ.symm ρ.symm).rename σ ρ = c := fun c => by
    simp [Conflict.rename, Function.comp_def]
  have hforth : ∀ c : Conflict, (c.rename σ ρ).rename σ.symm ρ.symm = c := fun c => by
    simp [Conflict.rename, Function.comp_def]
  have hinjective : Function.Injective (Conflict.rename σ ρ) := fun c d hcd => by
    rw [← hforth c, hcd, hforth]
  rw [List.perm_ext_iff_of_nodup g'.labelled_automaton.nodup_conflicts
    (g.labelled_automaton.nodup_conflicts.map hinjective)]
  intro d
  obtain ⟨c, rfl⟩ : ∃ c, d = Conflict.rename σ ρ c := ⟨_, (hback d).symm⟩
  rw [List.mem_map_of_injective hinjective, g.labelled_automaton.mem_conflicts,
    g'.labelled_automaton.mem_conflicts]
  simp only [Conflict.rename, h.action_eq hcfg, Action.conflict?_rename]
  have hpair : Function.Injective fun c : ConflictKind × Lookahead => (c.1, c.2.map σ) := by
    rintro ⟨kind, la⟩ ⟨kind', la'⟩ heq
    simp only [Prod.mk.injEq] at heq
    exact Prod.ext heq.1 (Option.map_injective σ.injective heq.2)
  exact (Option.map_injective hpair).eq_iff (b := some (c.kind, c.lookahead))

end Renamed

end Grammar

end ShiftReduce
