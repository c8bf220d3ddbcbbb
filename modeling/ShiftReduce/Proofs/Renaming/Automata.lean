import Mathlib.Logic.Equiv.Fintype
import ShiftReduce.Proofs.Renaming.Grammars

/-!
# Renamed grammars have the same automata

The states of a collection are numbered in the order of their discovery, which goes by the numbers
of symbols and productions, so that renamed grammars number their states differently.  But a state
is the set of valid items of the strings that lead there, and these carry over.  States that hold
the same items but for names match, and whatever the states are used for carries over from one to
the other: transitions, kernels, and the members of lookahead sets.

* `Cfg.Matches`, `Cfg.Renamed.matches_of_walk?`: states that hold the same items but for names;
* `Cfg.Renamed.exists_goto?`, `Cfg.Renamed.comes`, `Cfg.Renamed.mem_lookaheads`: what carries over;
* `Cfg.Isomorphic`: a permutation of the states that leads from each to the one that it matches;
* `Cfg.Renamed.exists_isomorphic`: there is one;
* `Cfg.Isomorphic.goto?_eq`, `Cfg.Isomorphic.lookaheads_perm`: the automata in terms of it.
-/

namespace ShiftReduce

namespace Cfg

variable {σ π : Equiv.Perm Nat} {g g' : Cfg}

/-! ## States that match -/

/-- The states hold the same items but for names. -/
structure Matches (π : Equiv.Perm Nat) (g g' : Cfg) (q q' : Nat) : Prop where
  lt : q < g.collection.states.size
  lt' : q' < g'.collection.states.size
  mem_iff : ∀ item, item.rename π ∈ g'.collection.state q' ↔ item ∈ g.collection.state q

namespace Matches

variable {q q' : Nat}

theorem symm (h : Matches π g g' q q') : Matches π.symm g' g q' q where
  lt := h.lt'
  lt' := h.lt
  mem_iff item := by rw [← h.mem_iff, Item.rename_rename_symm]

/-- A state matches one state only. -/
theorem unique {p : Nat} (h : Matches π g g' q q') (hp : Matches π g g' q p) : q' = p := by
  refine eq_of_state_eq h.lt' hp.lt' fun item => ?_
  have hitem := (h.mem_iff (item.rename π.symm)).trans (hp.mem_iff (item.rename π.symm)).symm
  rwa [Item.rename_rename_symm] at hitem

theorem unique_left {p : Nat} (h : Matches π g g' q q') (hp : Matches π g g' p q') : q = p :=
  h.symm.unique hp.symm

end Matches

namespace Renamed

variable {q q' : Nat}

/-- A string and the renamed string lead to states that match. -/
theorem matches_of_walk? (h : Renamed σ π g g') {word : List Nat}
    (hwalk : g.collection.walk? word = some q)
    (hwalk' : g'.collection.walk? (word.map σ) = some q') : Matches π g g' q q' where
  lt := by
    obtain ⟨item, hitem⟩ := exists_mem_state_of_walk? hwalk
    exact Collection.lt_size_of_mem_state hitem
  lt' := by
    obtain ⟨item, hitem⟩ := exists_mem_state_of_walk? hwalk'
    exact Collection.lt_size_of_mem_state hitem
  mem_iff item := by rw [mem_state_iff_valid hwalk', mem_state_iff_valid hwalk, h.valid_iff]

theorem exists_walk? (h : Renamed σ π g g') {word : List Nat}
    (hwalk : g.collection.walk? word = some q) :
    ∃ q', g'.collection.walk? (word.map σ) = some q' ∧ Matches π g g' q q' := by
  obtain ⟨item, hvalid⟩ := walk?_ne_none_iff_valid.1 ⟨q, hwalk⟩
  obtain ⟨q', hwalk'⟩ := walk?_ne_none_iff_valid.2 ⟨item.rename π, h.valid hvalid⟩
  exact ⟨q', hwalk', h.matches_of_walk? hwalk hwalk'⟩

/-- Every state matches one. -/
theorem exists_matches (h : Renamed σ π g g') (hq : q < g.collection.states.size) :
    ∃ q', Matches π g g' q q' := by
  obtain ⟨word, hwalk⟩ := Cfg.exists_walk? hq
  obtain ⟨q', -, hmatches⟩ := h.exists_walk? hwalk
  exact ⟨q', hmatches⟩

theorem matches_zero (h : Renamed σ π g g') : Matches π g g' 0 0 := by
  have hstart : g'.collection.walk? (List.map σ []) = some 0 := Collection.walk?_nil
  exact h.matches_of_walk? Collection.walk?_nil hstart

theorem eq_zero_iff (h : Renamed σ π g g') (hmatches : Matches π g g' q q') : q' = 0 ↔ q = 0 := by
  constructor
  · rintro rfl
    exact hmatches.unique_left h.matches_zero
  · rintro rfl
    exact hmatches.unique h.matches_zero

/-- Transitions from states that match lead to states that match. -/
theorem exists_goto? (h : Renamed σ π g g') (hmatches : Matches π g g' q q') {symbol target : Nat}
    (hgoto : g.collection.goto? q symbol = some target) :
    ∃ target', g'.collection.goto? q' (σ symbol) = some target' ∧
      Matches π g g' target target' := by
  obtain ⟨word, hwalk⟩ := Cfg.exists_walk? hmatches.lt
  have hmore : g.collection.walk? (word ++ [symbol]) = some target := by
    rw [Collection.walk?_concat, hwalk, Option.bind_some, hgoto]
  obtain ⟨target', hmore', htarget⟩ := h.exists_walk? hmore
  rw [List.map_append, List.map_singleton, Collection.walk?_concat,
    Option.bind_eq_some_iff] at hmore'
  obtain ⟨p, hwalk', hgoto'⟩ := hmore'
  obtain rfl := hmatches.unique (h.matches_of_walk? hwalk hwalk')
  exact ⟨target', hgoto', htarget⟩

theorem rename_mem_kernel (h : Renamed σ π g g') (hmatches : Matches π g g' q q') {k : Item}
    (hk : k ∈ g.collection.kernel q) : k.rename π ∈ g'.collection.kernel q' := by
  obtain ⟨hmem, hkernel⟩ := List.mem_filter.1 hk
  refine List.mem_filter.2 ⟨(hmatches.mem_iff k).2 hmem, ?_⟩
  simp only [Collection.isKernel, Bool.or_eq_true, decide_eq_true_eq, Bool.and_eq_true,
    beq_iff_eq] at hkernel ⊢
  rcases hkernel with hpos | ⟨hq, hproduction⟩
  · exact Or.inl hpos
  · refine Or.inr ⟨(h.eq_zero_iff hmatches).2 hq, ?_⟩
    rw [Item.rename, hproduction, h.production_zero]

/-! ## Lookahead sets -/

/-- What comes up in a state comes up in the one that it matches. -/
theorem comes (h : Renamed σ π g g') (hmatches : Matches π g g' q q') {x : LookaheadItem}
    (hx : g.Comes q x) : g'.Comes q' (x.rename σ π) := by
  refine hx.induct (P := fun x => g'.Comes q' (x.rename σ π)) ?_ ?_
  · intro k hk
    exact comes_of_mem_kernel (h.rename_mem_kernel hmatches hk)
  · intro x y hx hy
    exact hx.awaited (h.awaitedWith hy)

/-- The members of a set are members of the set of any state that matches. -/
theorem kept (h : Renamed σ π g g') : g.Kept fun q x =>
    ∀ q', Matches π g g' q q' → x.rename σ π ∈ g'.lookaheads.state q' where
  put q x hcomes q₁ y hputs q₁' hmatches₁ := by
    obtain ⟨q', hmatches⟩ := h.exists_matches hcomes.lt
    refine mem_lookaheads_of_puts (h.comes hmatches hcomes) hmatches₁.lt' ?_
    rcases hputs with ⟨rfl, rfl, hor⟩ | ⟨hne, rfl, hgoto⟩
    · refine Or.inl ⟨hmatches₁.unique hmatches, rfl, ?_⟩
      refine hor.imp (fun hne => ?_) fun hzero => ?_
      · simpa [LookaheadItem.rename] using hne
      · exact (h.eq_zero_iff hmatches).2 hzero
    · obtain ⟨symbol, hnext, hgoto⟩ := bind_goto?_eq_some_iff.1 hgoto
      obtain ⟨target', hgoto', htarget⟩ := h.exists_goto? hmatches hgoto
      obtain rfl := htarget.unique hmatches₁
      refine Or.inr ⟨by simpa [LookaheadItem.rename] using hne, rfl, ?_⟩
      exact bind_goto?_eq_some_iff.2 ⟨σ symbol, h.nextSymbol?_rename_eq_some hnext, hgoto'⟩
  close q x hx y hy q' hmatches := mem_lookaheads_of_awaitedWith (hx q' hmatches) (h.awaitedWith hy)
  pass q x hx hcomes symbol target hnext hgoto target' htarget := by
    obtain ⟨q', hmatches⟩ := h.exists_matches hcomes.lt
    obtain ⟨target'', hgoto', htarget'⟩ := h.exists_goto? hmatches hgoto
    obtain rfl := htarget.unique htarget'
    exact advance_mem_lookaheads (hx q' hmatches) (h.nextSymbol?_rename_eq_some hnext) hgoto'

theorem mem_lookaheads (h : Renamed σ π g g') (hmatches : Matches π g g' q q') {x : LookaheadItem} :
    x.rename σ π ∈ g'.lookaheads.state q' ↔ x ∈ g.lookaheads.state q := by
  constructor
  · intro hx
    simpa using lookaheads_induct h.symm.kept hx q hmatches.symm
  · intro hx
    exact lookaheads_induct h.kept hx q' hmatches

/-! ## Renaming states -/

/-- States are matched one to one. -/
theorem exists_embedding (h : Renamed σ π g g') :
    ∃ f : Fin g.collection.states.size → Fin g'.collection.states.size,
      Function.Injective f ∧ ∀ q : Fin g.collection.states.size, Matches π g g' q (f q) := by
  choose f hf using fun q : Fin g.collection.states.size => h.exists_matches q.isLt
  refine ⟨fun q => ⟨f q, (hf q).lt'⟩, ?_, hf⟩
  intro p q hpq
  have hq := hf q
  rw [← Fin.mk.inj hpq] at hq
  exact Fin.ext ((hf p).unique_left hq)

theorem size_le (h : Renamed σ π g g') :
    g.collection.states.size ≤ g'.collection.states.size := by
  obtain ⟨f, hinjective, -⟩ := h.exists_embedding
  simpa using Fintype.card_le_of_injective f hinjective

/-- Renamed grammars have equally many states. -/
theorem size_eq (h : Renamed σ π g g') :
    g'.collection.states.size = g.collection.states.size :=
  Nat.le_antisymm h.symm.size_le h.size_le

end Renamed

/-- The automata are the same but for the names of symbols, productions and states. -/
structure Isomorphic (σ π ρ : Equiv.Perm Nat) (g g' : Cfg) : Prop extends Renamed σ π g g' where
  state_lt_iff : ∀ q, ρ q < g'.collection.states.size ↔ q < g.collection.states.size
  matches_of_lt : ∀ q < g.collection.states.size, Matches π g g' q (ρ q)

/-- The automata of renamed grammars are the same but for names. -/
theorem Renamed.exists_isomorphic (h : Renamed σ π g g') :
    ∃ ρ : Equiv.Perm Nat, Isomorphic σ π ρ g g' := by
  obtain ⟨f, hinjective, hf⟩ : ∃ f : Fin g.collection.states.size → Fin g.collection.states.size,
      Function.Injective f ∧ ∀ q : Fin g.collection.states.size, Matches π g g' q (f q) :=
    h.size_eq ▸ h.exists_embedding
  let e : Equiv.Perm (Fin g.collection.states.size) :=
    Equiv.ofBijective f (Finite.injective_iff_bijective.1 hinjective)
  -- Numbers that are no states keep standing for themselves.
  let ρ : Equiv.Perm Nat := e.extendDomain Fin.equivSubtype
  have hstate : ∀ q (hq : q < g.collection.states.size), ρ q = f ⟨q, hq⟩ := fun q hq =>
    e.extendDomain_apply_subtype Fin.equivSubtype hq
  have hother : ∀ q, ¬ q < g.collection.states.size → ρ q = q := fun q hq =>
    e.extendDomain_apply_not_subtype Fin.equivSubtype hq
  refine ⟨ρ, h, ?_, ?_⟩
  · intro q
    rw [h.size_eq]
    by_cases hq : q < g.collection.states.size
    · rw [hstate q hq]
      exact iff_of_true (f ⟨q, hq⟩).isLt hq
    · rw [hother q hq]
  · intro q hq
    rw [hstate q hq]
    exact hf ⟨q, hq⟩

namespace Isomorphic

variable {ρ : Equiv.Perm Nat}

theorem state_zero (h : Isomorphic σ π ρ g g') : ρ 0 = 0 :=
  (h.matches_of_lt 0 g.size_collection_pos).unique h.matches_zero

/-- The transitions are the same but for names. -/
theorem goto?_eq (h : Isomorphic σ π ρ g g') (q symbol : Nat) :
    g'.collection.goto? (ρ q) (σ symbol) = (g.collection.goto? q symbol).map ρ := by
  by_cases hq : q < g.collection.states.size
  · have hmatches := h.matches_of_lt q hq
    cases hgoto : g.collection.goto? q symbol with
    | some target =>
      obtain ⟨target', hgoto', htarget⟩ := h.exists_goto? hmatches hgoto
      rw [hgoto', Option.map_some, htarget.unique (h.matches_of_lt target htarget.lt)]
    | none =>
      rw [Option.map_none, Option.eq_none_iff_forall_ne_some]
      intro target' hgoto'
      obtain ⟨target, hback, -⟩ := h.symm.exists_goto? hmatches.symm hgoto'
      rw [Equiv.symm_apply_apply, hgoto] at hback
      cases hback
  · have hnone : g.collection.goto? q symbol = none :=
      Option.eq_none_iff_forall_ne_some.2 fun _ hgoto => hq (goto?_lt hgoto).1
    rw [hnone, Option.map_none, Option.eq_none_iff_forall_ne_some]
    intro target hgoto
    exact hq ((h.state_lt_iff q).1 (goto?_lt hgoto).1)

/-- The lookahead sets are the same but for names and order. -/
theorem lookaheads_perm (h : Isomorphic σ π ρ g g') (q : Nat) :
    (g'.lookaheads.state (ρ q)).Perm ((g.lookaheads.state q).map (LookaheadItem.rename σ π)) := by
  have hinjective : Function.Injective (LookaheadItem.rename σ π) := fun x y hxy => by
    rw [← x.rename_symm_rename (σ := σ) (π := π), hxy, LookaheadItem.rename_symm_rename]
  rw [List.perm_ext_iff_of_nodup (g'.nodup_lookaheads _) ((g.nodup_lookaheads q).map hinjective)]
  intro y
  have hmem : y ∈ (g.lookaheads.state q).map (LookaheadItem.rename σ π) ↔
      y.rename σ.symm π.symm ∈ g.lookaheads.state q := by
    constructor
    · intro hy
      obtain ⟨x, hx, rfl⟩ := List.mem_map.1 hy
      rwa [LookaheadItem.rename_symm_rename]
    · intro hy
      exact List.mem_map.2 ⟨_, hy, LookaheadItem.rename_rename_symm y⟩
  rw [hmem]
  by_cases hq : q < g.collection.states.size
  · rw [← h.mem_lookaheads (h.matches_of_lt q hq), LookaheadItem.rename_rename_symm]
  · -- There is nothing in the sets of numbers that are no states.
    refine iff_of_false (fun hy => hq ?_) fun hy => hq ?_
    · exact (h.state_lt_iff q).1 (Collection.lt_size_of_mem_state (proper_of_mem hy).1)
    · exact Collection.lt_size_of_mem_state (proper_of_mem hy).1

end Isomorphic

end Cfg

end ShiftReduce
