import ShiftReduce.Automaton
import ShiftReduce.Proofs.Lookaheads.Settled
import ShiftReduce.Proofs.Parser.Detection

/-!
# Edges follow transitions

The edges between sites are laid in the first phase and stay as they are in the second.  A site is
the source of an edge exactly if the placeholder comes up there while the kernel of the state is
closed and there is a symbol for the dot to move over; the edge then leads along the transition over
this symbol, and nowhere else.

A lookahead that came up in the first phase needs no edge, since its successor was put into the next
state at once.  So the finished sets go with the transitions whether or not a site has an edge.

* `Edges.Tidy`: sources and targets are listed once;
* `Cfg.edges_lookaheads`, `Cfg.tidy_edges_found`: the edges that there are;
* `Grammar.edges_follow_gotos`: sources, targets, and the finished sets along transitions.
-/

namespace ShiftReduce

/-! ## Lists of edges -/

namespace Edges

/-- Every source is listed once, with at least one target, and no target twice. -/
structure Tidy (edges : Edges) : Prop where
  sources : (edges.map Prod.fst).Nodup
  ne_nil : ∀ e ∈ edges, e.2 ≠ []
  targets : ∀ e ∈ edges, e.2.Nodup

variable {edges : Edges} {source target : Site}

theorem mem_sources_add {site : Site} :
    site ∈ (add source target edges).map Prod.fst ↔
      site ∈ edges.map Prod.fst ∨ site = source := by
  induction edges with
  | nil => simp [add]
  | cons e edges ih =>
    rw [add]
    split
    · next h =>
      subst h
      simp only [List.map_cons, List.mem_cons]
      exact ⟨Or.inl, fun h => h.elim id Or.inl⟩
    · simp only [List.map_cons, List.mem_cons, ih, or_assoc]

theorem tidy_cons_iff {site : Site} {ts : List Site} :
    Tidy ((site, ts) :: edges) ↔
      site ∉ edges.map Prod.fst ∧ ts ≠ [] ∧ ts.Nodup ∧ Tidy edges := by
  constructor
  · rintro ⟨hsources, hne, htargets⟩
    obtain ⟨hnew, hsources⟩ := List.nodup_cons.1 hsources
    obtain ⟨hts, hne⟩ := List.forall_mem_cons.1 hne
    obtain ⟨hnodup, htargets⟩ := List.forall_mem_cons.1 htargets
    exact ⟨hnew, hts, hnodup, hsources, hne, htargets⟩
  · rintro ⟨hnew, hts, hnodup, hsources, hne, htargets⟩
    exact ⟨List.nodup_cons.2 ⟨hnew, hsources⟩, List.forall_mem_cons.2 ⟨hts, hne⟩,
      List.forall_mem_cons.2 ⟨hnodup, htargets⟩⟩

theorem tidy_nil : Tidy [] := ⟨List.nodup_nil, by simp, by simp⟩

theorem Tidy.add (h : Tidy edges) (source target : Site) : Tidy (edges.add source target) := by
  induction edges with
  | nil => exact tidy_cons_iff.2 ⟨List.not_mem_nil, by simp, by simp, tidy_nil⟩
  | cons e edges ih =>
    obtain ⟨site, ts⟩ := e
    obtain ⟨hnew, hts, hnodup, hrest⟩ := tidy_cons_iff.1 h
    rw [Edges.add]
    split
    · refine tidy_cons_iff.2 ⟨hnew, ?_, ?_, hrest⟩
      · split
        · exact hts
        · simp
      · split
        · exact hnodup
        · next hmem =>
          rw [← List.concat_eq_append]
          exact hnodup.concat hmem
    · next hsite =>
      refine tidy_cons_iff.2 ⟨?_, hts, hnodup, ih hrest⟩
      rw [mem_sources_add]
      exact not_or.2 ⟨hnew, hsite⟩

/-- Looking a source up finds the targets that it is listed with. -/
theorem Tidy.targets_eq (h : Tidy edges) {ts : List Site} (hmem : (source, ts) ∈ edges) :
    edges.targets source = ts := by
  induction edges with
  | nil => exact absurd hmem List.not_mem_nil
  | cons e edges ih =>
    obtain ⟨site, ts'⟩ := e
    obtain ⟨hnew, -, -, hrest⟩ := tidy_cons_iff.1 h
    rw [targets_cons]
    rcases List.mem_cons.1 hmem with heq | hmem
    · cases heq
      exact if_pos rfl
    · have hne : site ≠ source := by
        rintro rfl
        exact hnew (List.mem_map.2 ⟨_, hmem, rfl⟩)
      rw [if_neg hne]
      exact ih hrest hmem

/-- A source that has a target is listed. -/
theorem exists_mem_of_mem_targets {t : Site} (h : t ∈ edges.targets source) :
    ∃ ts, (source, ts) ∈ edges := by
  induction edges with
  | nil => exact absurd h List.not_mem_nil
  | cons e edges ih =>
    obtain ⟨site, ts⟩ := e
    rw [targets_cons] at h
    by_cases hsite : site = source
    · exact ⟨ts, by rw [hsite]; exact List.mem_cons_self⟩
    · rw [if_neg hsite] at h
      obtain ⟨ts', hmem⟩ := ih h
      exact ⟨ts', List.mem_cons_of_mem _ hmem⟩

end Edges

/-! ## The edges of a grammar -/

namespace Cfg

variable {g : Cfg}

theorem tidy_edges_spread {c : Collection} {s : Lookaheads} (h : s.edges.Tidy) (q : Nat)
    (x : LookaheadItem) : (g.spread c q s x).edges.Tidy := by
  rw [spread_eq]
  split
  · rw [Lookaheads.edges_putSelf]
    exact h
  · split
    · dsimp only
      rw [Lookaheads.edges_putSelf]
      exact h.add _ _
    · show (s.putSelf q x).edges.Tidy
      rw [Lookaheads.edges_putSelf]
      exact h

theorem tidy_edges_found (g : Cfg) : g.found.edges.Tidy := by
  refine List.foldlRecOn (motive := fun s : Lookaheads => s.edges.Tidy) _ _ Edges.tidy_nil
    fun s hs q _ => ?_
  refine List.foldlRecOn (motive := fun s : Lookaheads => s.edges.Tidy) _ _ hs
    fun s hs item _ => ?_
  exact List.foldlRecOn (motive := fun s : Lookaheads => s.edges.Tidy) _ _ hs
    fun s hs x _ => tidy_edges_spread hs q x

/-- The second phase lays no edges. -/
theorem edges_lookaheads (g : Cfg) : g.lookaheads.edges = g.found.edges := by
  rw [lookaheads_eq]
  exact (underway_ready.propagate _).edges

/-- A source has one target: where its transition leads, with the dot moved. -/
theorem targets_eq_singleton {source : Site} {ts : List Site} (h : (source, ts) ∈ g.found.edges) :
    ∃ symbol target, g.nextSymbol? source.item = some symbol ∧
      g.collection.goto? source.state symbol = some target ∧
      ts = [⟨target, source.item.advance⟩] := by
  have htidy := g.tidy_edges_found
  have hmem : ∀ t, t ∈ ts ↔ g.Comes source.state ⟨source.item, none⟩ ∧
      t.item = source.item.advance ∧ ∃ symbol, g.nextSymbol? source.item = some symbol ∧
        g.collection.goto? source.state symbol = some t.state := fun t => by
    rw [← htidy.targets_eq h]
    exact mem_targets_found
  obtain ⟨t, ht⟩ := List.exists_mem_of_ne_nil ts (htidy.ne_nil _ h)
  obtain ⟨hcomes, -, symbol, hnext, hgoto⟩ := (hmem t).1 ht
  refine ⟨symbol, t.state, hnext, hgoto, ?_⟩
  have hone : (⟨t.state, source.item.advance⟩ : Site) ∈ ts :=
    (hmem _).2 ⟨hcomes, rfl, symbol, hnext, hgoto⟩
  have hnodup : ts.Nodup := htidy.targets _ h
  refine List.perm_singleton.1
    ((List.perm_ext_iff_of_nodup hnodup (List.nodup_singleton _)).2 fun t' => ?_)
  rw [List.mem_singleton]
  constructor
  · intro ht'
    obtain ⟨-, hitem, symbol', hnext', hgoto'⟩ := (hmem t').1 ht'
    obtain ⟨state, item⟩ := t'
    cases Option.some.inj (hnext.symm.trans hnext')
    cases Option.some.inj (hgoto.symm.trans hgoto')
    cases hitem
    rfl
  · rintro rfl
    exact hone

/-- The sources are the sites where the placeholder comes up before a symbol. -/
theorem mem_sources_found {q : Nat} {item : Item} :
    ⟨q, item⟩ ∈ g.found.edges.map Prod.fst ↔
      (∃ symbol, g.nextSymbol? item = some symbol) ∧ g.Comes q ⟨item, none⟩ := by
  constructor
  · intro h
    obtain ⟨⟨source, ts⟩, hmem, rfl⟩ := List.mem_map.1 h
    obtain ⟨t, ht⟩ := List.exists_mem_of_ne_nil ts (g.tidy_edges_found.ne_nil _ hmem)
    rw [← g.tidy_edges_found.targets_eq hmem] at ht
    obtain ⟨hcomes, -, symbol, hnext, -⟩ := mem_targets_found.1 ht
    exact ⟨⟨symbol, hnext⟩, hcomes⟩
  · rintro ⟨⟨symbol, hnext⟩, hcomes⟩
    obtain ⟨target, hgoto⟩ := exists_goto? hcomes.proper.1 hnext
    have ht : (⟨target, item.advance⟩ : Site) ∈ g.found.edges.targets ⟨q, item⟩ :=
      mem_targets_found.2 ⟨hcomes, rfl, symbol, hnext, hgoto⟩
    obtain ⟨ts, hmem⟩ := Edges.exists_mem_of_mem_targets ht
    exact List.mem_map.2 ⟨_, hmem, rfl⟩

end Cfg

/-! ## Sources, targets and finished sets -/

namespace Grammar

/-- Every site that is the source of edges is listed once.  It is one exactly if its item has a
symbol after the dot and comes up with the placeholder when some kernel item of its state is closed
under the placeholder; and it has one target, the item with the dot moved in the state that the
transition over this symbol leads to.  In the finished sets the members with a symbol after the
dot, whether there is an edge for them or not, have their successors in the set of the state that
the transition leads to. -/
theorem edges_follow_gotos {α : Type} (g : Grammar α) :
    (g.automaton.lookaheads.edges.map Prod.fst).Nodup ∧
    (∀ q item, ⟨q, item⟩ ∈ g.automaton.lookaheads.edges.map Prod.fst ↔
      (∃ symbol, g.cfg.nextSymbol? item = some symbol) ∧
        ∃ k ∈ g.automaton.collection.kernel q,
          ⟨item, none⟩ ∈ g.cfg.closureWith g.automaton.first [⟨k, none⟩]) ∧
    (∀ q item targets, (⟨q, item⟩, targets) ∈ g.automaton.lookaheads.edges →
      ∃ symbol target, g.cfg.nextSymbol? item = some symbol ∧
        g.automaton.collection.goto? q symbol = some target ∧
        targets = [⟨target, item.advance⟩] ∧
        item.advance ∈ g.automaton.collection.state target) ∧
    ∀ q x symbol, x ∈ g.automaton.lookaheads.state q → g.cfg.nextSymbol? x.item = some symbol →
      ∃ target, g.automaton.collection.goto? q symbol = some target ∧
        ⟨x.item.advance, x.lookahead⟩ ∈ g.automaton.lookaheads.state target := by
  rw [collection_automaton, first_automaton, lookaheads_automaton, Cfg.edges_lookaheads]
  refine ⟨g.cfg.tidy_edges_found.sources, ?_, ?_, ?_⟩
  · intro q item
    rw [Cfg.mem_sources_found]
    refine and_congr_right fun _ => ⟨And.right, fun ⟨k, hk, hitem⟩ => ⟨?_, k, hk, hitem⟩⟩
    exact Collection.lt_size_of_mem_state (List.mem_filter.1 hk).1
  · intro q item targets hmem
    obtain ⟨symbol, target, hnext, hgoto, htargets⟩ := Cfg.targets_eq_singleton hmem
    obtain ⟨-, hcomes⟩ := Cfg.mem_sources_found.1 (List.mem_map.2 ⟨_, hmem, rfl⟩)
    exact ⟨symbol, target, hnext, hgoto, htargets,
      Cfg.advance_mem_state hgoto hcomes.proper.1 hnext⟩
  · intro q x symbol hx hnext
    obtain ⟨target, hgoto⟩ := Cfg.exists_goto? (Cfg.proper_of_mem hx).1 hnext
    exact ⟨target, hgoto, Cfg.advance_mem_lookaheads hx hnext hgoto⟩

/-- After an opening, the rule for a pair has no edge for the closing after it, but its successor
has the closing all the same; before anything, the rule has an edge. -/
theorem edges_follow_gotos_matched :
    (⟨0, ⟨1, 0⟩⟩, [⟨2, ⟨1, 1⟩⟩]) ∈ matched.automaton.lookaheads.edges ∧
    (⟨⟨1, 0⟩, some 3⟩ : LookaheadItem) ∈ matched.automaton.lookaheads.state 2 ∧
    ⟨2, ⟨1, 0⟩⟩ ∉ matched.automaton.lookaheads.edges.map Prod.fst ∧
    matched.cfg.nextSymbol? ⟨1, 0⟩ = some 2 ∧
    (∃ target, matched.automaton.collection.goto? 0 2 = some target ∧
      ([⟨2, ⟨1, 1⟩⟩] : List Site) = [⟨target, ⟨1, 1⟩⟩] ∧
      ⟨1, 1⟩ ∈ matched.automaton.collection.state target) ∧
    ∃ target, matched.automaton.collection.goto? 2 2 = some target ∧
      ⟨⟨1, 1⟩, some 3⟩ ∈ matched.automaton.lookaheads.state target := by
  have hedge : (⟨0, ⟨1, 0⟩⟩, [⟨2, ⟨1, 1⟩⟩]) ∈ matched.automaton.lookaheads.edges := by
    decide +kernel
  have hmember : (⟨⟨1, 0⟩, some 3⟩ : LookaheadItem) ∈ matched.automaton.lookaheads.state 2 := by
    decide +kernel
  have hnext : matched.cfg.nextSymbol? ⟨1, 0⟩ = some 2 := rfl
  obtain ⟨-, -, htargets, hsets⟩ := edges_follow_gotos matched
  obtain ⟨symbol, target, hsymbol, htarget⟩ := htargets 0 ⟨1, 0⟩ _ hedge
  cases hnext.symm.trans hsymbol
  exact ⟨hedge, hmember, by decide +kernel, hnext, ⟨target, htarget⟩, hsets 2 _ 2 hmember hnext⟩

end Grammar

end ShiftReduce
