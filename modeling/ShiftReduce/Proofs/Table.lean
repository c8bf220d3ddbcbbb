import ShiftReduce.Parser.Basic
import ShiftReduce.Proofs.Lookaheads.Settled

/-!
# What the entries of a table mean

An entry is one of the candidates of its cell, or a conflict, or an error where there is no
candidate.  A shift is therefore a transition of the collection, and a reduction belongs to a
completed item of the state under the lookahead of the column.  Lookaheads are terminals or the end
of the input, so nothing competes with the transitions in the columns of nonterminals.

* `Grammar.action_automaton`: an entry as the choice among its candidates;
* `Grammar.rows_automaton`: the table as a whole, made of its entries;
* `Grammar.settleTie_cases`, `Grammar.exists_candidate_of_choose`: what can be chosen;
* `Table.conflict?_action`: no entry of a table without conflicts is one;
* `Grammar.action_nonterminal`, `Grammar.goto?_table`: the columns of nonterminals;
* `Grammar.Decided`: no cell has several candidates;
* `Parser.actionFor_cases`: what a parser reads from its table.
-/

namespace ShiftReduce

/-! ## Reading a table -/

namespace Table

theorem action_eq_of_row {t : Table} {q : Nat} {row : List Action} {la : Lookahead}
    {action : Action} (hrow : t.rows[q]? = some row) (haction : row[column la]? = some action) :
    t.action q la = action := by
  simp [Table.action, Table.row, List.getD_eq_getElem?_getD, hrow, haction]

/-- Outside of the table there are errors only. -/
theorem action_mem_or_eq_error (t : Table) (q : Nat) (la : Lookahead) :
    (∃ row, t.rows[q]? = some row ∧ row[column la]? = some (t.action q la)) ∨
      t.action q la = .error la := by
  cases hrow : t.rows[q]? with
  | none =>
    refine Or.inr ?_
    simp [Table.action, Table.row, List.getD_eq_getElem?_getD, hrow]
  | some row =>
    cases haction : row[column la]? with
    | none =>
      refine Or.inr ?_
      simp [Table.action, Table.row, List.getD_eq_getElem?_getD, hrow, haction]
    | some action =>
      refine Or.inl ⟨row, rfl, ?_⟩
      rw [action_eq_of_row hrow haction]
      exact haction

/-- The entries of a table without conflicts are none. -/
theorem conflict?_action {t : Table} (h : t.conflicts = []) (q : Nat) (la : Lookahead) :
    (t.action q la).conflict? = none := by
  rcases t.action_mem_or_eq_error q la with ⟨row, hrow, haction⟩ | herror
  · have hconflicts : rowConflicts (row, q) = [] := by
      rw [Table.conflicts, List.flatMap_eq_nil_iff] at h
      exact h (row, q) (List.mk_mem_zipIdx_iff_getElem?.2 hrow)
    rw [rowConflicts, List.filterMap_eq_nil_iff] at hconflicts
    have hnone := hconflicts _ (List.mem_of_getElem? haction)
    simpa using hnone
  · rw [herror]
    rfl

/-- A table without conflicting entries has no conflicts. -/
theorem conflicts_eq_nil {t : Table}
    (h : ∀ row ∈ t.rows, ∀ action ∈ row, action.conflict? = none) : t.conflicts = [] := by
  rw [Table.conflicts, List.flatMap_eq_nil_iff]
  rintro ⟨row, q⟩ hrow
  rw [rowConflicts, List.filterMap_eq_nil_iff]
  intro action haction
  have hmem : row ∈ t.rows := List.mem_of_getElem? (List.mk_mem_zipIdx_iff_getElem?.1 hrow)
  rw [h row hmem action haction]
  rfl

end Table

namespace Grammar

variable {α : Type} {g : Grammar α}

/-! ## Choosing among candidates -/

/-- A tie is settled for one of those tied, or it becomes a conflict about the lookahead. -/
theorem settleTie_cases (associativity : Associativity) (tied : List Action) (la : Lookahead) :
    settleTie associativity tied la ∈ tied ∨
      settleTie associativity tied la = .shiftReduce la ∨
      settleTie associativity tied la = .reduceReduce la := by
  unfold settleTie
  split
  · next reduce hreduce =>
    have hmem : reduce ∈ tied.filter Action.isReduce := by simp [hreduce]
    exact Or.inl (List.mem_filter.1 hmem).1
  · next shift hshift => exact Or.inl (List.mem_of_find?_eq_some hshift)
  · exact Or.inr (Or.inl rfl)
  · exact Or.inr (Or.inr rfl)

theorem settleTie_mem {associativity : Associativity} {tied : List Action}
    {la : Lookahead} (h : (settleTie associativity tied la).conflict? = none) :
    settleTie associativity tied la ∈ tied := by
  rcases settleTie_cases associativity tied la with hmem | hmade | hmade
  · exact hmem
  · rw [hmade] at h
    cases h
  · rw [hmade] at h
    cases h

/-- What is chosen without conflict is a candidate, or an error where there is none. -/
theorem exists_candidate_of_choose {candidates : List Candidate} {la : Lookahead}
    (h : (g.choose candidates la).conflict? = none) :
    (candidates = [] ∧ g.choose candidates la = .error la) ∨
      ∃ c ∈ candidates, g.choose candidates la = c.action := by
  cases hmin : (candidates.map Candidate.rank).min? with
  | none =>
    have hnil : candidates = [] := by simpa using hmin
    exact Or.inl ⟨hnil, by rw [hnil]; rfl⟩
  | some tightest =>
    refine Or.inr ?_
    have htied : ∀ action ∈ (candidates.filter fun c => c.rank == tightest).map Candidate.action,
        ∃ c ∈ candidates, action = c.action := by
      intro action haction
      obtain ⟨c, hc, rfl⟩ := List.mem_map.1 haction
      exact ⟨c, (List.mem_filter.1 hc).1, rfl⟩
    simp only [choose, hmin] at h ⊢
    generalize (candidates.filter fun c => c.rank == tightest).map Candidate.action = tied
      at h htied ⊢
    rcases tied with _ | ⟨only, _ | ⟨second, rest⟩⟩
    · exact htied _ (settleTie_mem h)
    · exact htied only List.mem_cons_self
    · exact htied _ (settleTie_mem h)

/-- A single candidate is chosen. -/
theorem choose_singleton (c : Candidate) (la : Lookahead) : g.choose [c] la = c.action := by
  simp [choose]

/-! ## Candidates -/

theorem mem_reduceCandidates {set : List LookaheadItem} {la : Lookahead} {c : Candidate}
    (h : c ∈ g.reduceCandidates set la) :
    ∃ x ∈ set, x.lookahead = la ∧ g.cfg.isComplete x.item = true ∧
      c.action = .reduce x.item.production := by
  unfold reduceCandidates at h
  obtain ⟨x, hx, rfl⟩ := List.mem_map.1 h
  simp only [List.mem_filter, Bool.and_eq_true, decide_eq_true_eq] at hx
  exact ⟨x, hx.1, hx.2.1, hx.2.2, rfl⟩

theorem reduce_mem_candidates {q : Nat} {x : LookaheadItem}
    (hx : x ∈ g.cfg.lookaheads.state q) (hcomplete : g.cfg.isComplete x.item = true) :
    ∃ c ∈ g.candidates g.cfg.collection g.cfg.lookaheads q x.lookahead,
      c.action = .reduce x.item.production := by
  refine ⟨⟨.reduce x.item.production, g.rank x.item.production⟩, ?_, rfl⟩
  refine List.mem_append_right _ (List.mem_map.2 ⟨x, List.mem_filter.2 ⟨hx, ?_⟩, rfl⟩)
  simp [hcomplete]

theorem shift_of_shiftCandidate? {c : Collection} {q : Nat} {la : Lookahead}
    {candidate : Candidate} (h : g.shiftCandidate? c q la = some candidate) :
    ∃ symbol target, la = some symbol ∧ c.goto? q symbol = some target ∧
      candidate.action = .shift target := by
  cases la with
  | none => cases h
  | some symbol =>
    simp only [shiftCandidate?, bind, Option.bind_some, Option.bind_eq_some_iff] at h
    obtain ⟨target, htarget, rank, -, hcandidate⟩ := h
    cases hcandidate
    exact ⟨symbol, target, rfl, htarget, rfl⟩

/-- A candidate is a transition or the reduction of a completed item. -/
theorem shift_or_reduce_of_mem_candidates {q : Nat} {la : Lookahead} {c : Candidate}
    (h : c ∈ g.candidates g.cfg.collection g.cfg.lookaheads q la) :
    (∃ symbol target, la = some symbol ∧ g.cfg.collection.goto? q symbol = some target ∧
        c.action = .shift target) ∨
      ∃ x ∈ g.cfg.lookaheads.state q, x.lookahead = la ∧ g.cfg.isComplete x.item = true ∧
        c.action = .reduce x.item.production := by
  rcases List.mem_append.1 h with h | h
  · exact Or.inl (shift_of_shiftCandidate? (Option.mem_toList.1 h))
  · exact Or.inr (mem_reduceCandidates h)

/-- A production is completed only once in a state under a lookahead. -/
theorem eq_of_isComplete {q : Nat} {x y : LookaheadItem} (hx : x ∈ g.cfg.lookaheads.state q)
    (hy : y ∈ g.cfg.lookaheads.state q) (hxcomplete : g.cfg.isComplete x.item = true)
    (hycomplete : g.cfg.isComplete y.item = true) (hla : x.lookahead = y.lookahead)
    (hproduction : x.item.production = y.item.production) : x = y := by
  have hxall := Cfg.state_subset_allItems (Cfg.proper_of_mem hx).1
  have hyall := Cfg.state_subset_allItems (Cfg.proper_of_mem hy).1
  obtain ⟨rule, hrule, -⟩ := Cfg.mem_allItems.1 hxall
  have hxend := Cfg.position_eq_of_isComplete hxall hrule hxcomplete
  have hyend := Cfg.position_eq_of_isComplete hyall (hproduction ▸ hrule) hycomplete
  obtain ⟨⟨_, _⟩, _⟩ := x
  obtain ⟨⟨_, _⟩, _⟩ := y
  simp only [LookaheadItem.mk.injEq, Item.mk.injEq]
  exact ⟨⟨hproduction, hxend.trans hyend.symm⟩, hla⟩

/-- Some production takes part in every transition. -/
theorem gotoRank?_ne_none {q symbol target : Nat}
    (h : g.cfg.collection.goto? q symbol = some target) :
    g.gotoRank? (g.cfg.collection.state q) symbol ≠ none := by
  obtain ⟨item, hitem, hnext⟩ := Cfg.exists_next_of_goto? h
  have hmem : item ∈ (g.cfg.collection.state q).filter (g.cfg.awaits symbol) :=
    List.mem_filter.2 ⟨hitem, by simp [Cfg.awaits, hnext]⟩
  intro hnone
  simp only [gotoRank?, List.min?_eq_none_iff, List.map_eq_nil_iff] at hnone
  rw [hnone] at hmem
  exact absurd hmem List.not_mem_nil

/-- A transition is a candidate of its cell. -/
theorem exists_shiftCandidate? {q symbol target : Nat}
    (h : g.cfg.collection.goto? q symbol = some target) :
    ∃ rank, g.shiftCandidate? g.cfg.collection q (some symbol) = some ⟨.shift target, rank⟩ := by
  obtain ⟨rank, hrank⟩ := Option.ne_none_iff_exists'.1 (gotoRank?_ne_none h)
  exact ⟨rank, by simp [shiftCandidate?, h, hrank]⟩

/-- Nothing but a transition can stand in the column of a nonterminal. -/
theorem candidates_nonterminal {q symbol : Nat} (h : g.cfg.isNonterminal symbol = true) :
    g.candidates g.cfg.collection g.cfg.lookaheads q (some symbol) =
      (g.shiftCandidate? g.cfg.collection q (some symbol)).toList := by
  have hnone : g.reduceCandidates (g.cfg.lookaheads.state q) (some symbol) = [] := by
    rw [List.eq_nil_iff_forall_not_mem]
    intro c hc
    obtain ⟨x, hx, hla, -, -⟩ := mem_reduceCandidates hc
    have hterminal := (Cfg.proper_of_mem hx).2 symbol hla
    rw [(Cfg.isTerminal_iff.1 hterminal).2] at h
    cases h
  rw [candidates, hnone, List.append_nil]

/-! ## The table of a grammar -/

theorem getD_map_range {β : Type} (f : Nat → β) (count i : Nat) (default : β) :
    ((List.range count).map f).getD i default = if i < count then f i else default := by
  by_cases hi : i < count
  · simp [List.getD_eq_getElem?_getD, hi]
  · simp [List.getD_eq_getElem?_getD, hi]

/-- An entry of the table is the choice among the candidates of its cell, and outside of the table
there are errors. -/
theorem action_automaton (g : Grammar α) (q : Nat) (la : Lookahead) :
    g.automaton.table.action q la =
      if q < g.cfg.collection.states.size ∧ column la ≤ g.cfg.symbolCount then
        g.choose (g.candidates g.cfg.collection g.cfg.lookaheads q la) la
      else .error la := by
  rw [g.table_automaton, Table.action, Table.row, tableOf, getD_map_range]
  by_cases hq : q < g.cfg.collection.states.size
  · rw [if_pos hq, getD_map_range, lookaheadOf_column]
    by_cases hla : column la ≤ g.cfg.symbolCount
    · rw [if_pos (Nat.lt_succ_of_le hla), if_pos ⟨hq, hla⟩]
    · rw [if_neg (fun h => hla (Nat.le_of_lt_succ h)), if_neg (fun h => hla h.2)]
  · rw [if_neg hq, if_neg (fun h => hq h.1)]
    rfl

/-- The table consists of its entries. -/
theorem rows_automaton (g : Grammar α) :
    g.automaton.table.rows = (List.range g.automaton.table.stateCount).map fun q =>
      (List.range (g.cfg.symbolCount + 1)).map fun col =>
        g.automaton.table.action q (lookaheadOf col) := by
  have hcount : g.automaton.table.stateCount = g.cfg.collection.states.size := by
    simp [Table.stateCount, tableOf]
  rw [hcount]
  conv_lhs => rw [table_automaton, tableOf]
  refine List.map_congr_left fun q hq => List.map_congr_left fun col hcol => ?_
  have hle : column (lookaheadOf col) ≤ g.cfg.symbolCount := by
    rw [column_lookaheadOf]
    exact Nat.le_of_lt_succ (List.mem_range.1 hcol)
  rw [action_automaton, if_pos ⟨List.mem_range.1 hq, hle⟩]

/-- An entry of a table without conflicts is an error or a candidate of its cell. -/
theorem exists_candidate_of_action {g : Grammar α} (h : g.automaton.table.conflicts = []) (q : Nat)
    (la : Lookahead) :
    g.automaton.table.action q la = .error la ∨
      q < g.cfg.collection.states.size ∧
        ∃ c ∈ g.candidates g.cfg.collection g.cfg.lookaheads q la,
          g.automaton.table.action q la = c.action := by
  have hnone := Table.conflict?_action h q la
  rw [action_automaton] at hnone ⊢
  split at hnone
  · next hcell =>
    rw [if_pos hcell]
    rcases exists_candidate_of_choose hnone with ⟨-, herror⟩ | hchosen
    · exact Or.inl herror
    · exact Or.inr ⟨hcell.1, hchosen⟩
  · next hcell => exact Or.inl (if_neg hcell)

/-- The columns of nonterminals hold the transitions and nothing else. -/
theorem action_nonterminal {g : Grammar α} {symbol : Nat}
    (h : g.cfg.isNonterminal symbol = true) (q : Nat) :
    g.automaton.table.action q (some symbol) =
      ((g.cfg.collection.goto? q symbol).map Action.shift).getD (.error (some symbol)) := by
  have hsymbol : symbol < g.cfg.symbolCount := by
    obtain ⟨rule, hrule, rfl⟩ := Cfg.isNonterminal_iff.1 h
    exact (g.cfg.inRange rule hrule).1
  rw [action_automaton]
  cases hgoto : g.cfg.collection.goto? q symbol with
  | none =>
    have hnil : g.candidates g.cfg.collection g.cfg.lookaheads q (some symbol) = [] := by
      simp [candidates_nonterminal h, shiftCandidate?, hgoto]
    rw [hnil]
    split <;> rfl
  | some target =>
    obtain ⟨rank, hrank⟩ := exists_shiftCandidate? hgoto
    have hcell : q < g.cfg.collection.states.size ∧ column (some symbol) ≤ g.cfg.symbolCount :=
      ⟨(Cfg.goto?_lt hgoto).1, hsymbol⟩
    rw [if_pos hcell, candidates_nonterminal h, hrank, Option.toList_some, choose_singleton]
    rfl

theorem goto?_table {g : Grammar α} {q symbol : Nat} (h : g.cfg.isNonterminal symbol = true) :
    g.automaton.table.goto? q symbol = g.cfg.collection.goto? q symbol := by
  rw [Table.goto?, action_nonterminal h]
  cases g.cfg.collection.goto? q symbol with
  | none => rfl
  | some target => rfl

/-! ## Tables without competition -/

/-- No cell of the table has several candidates. -/
def Decided (g : Grammar α) : Prop :=
  ∀ q < g.automaton.stateCount, ∀ col < g.cfg.symbolCount + 1,
    (g.candidates g.automaton.collection g.automaton.lookaheads q (lookaheadOf col)).length ≤ 1

instance (g : Grammar α) : Decidable g.Decided :=
  inferInstanceAs (Decidable (∀ q < g.automaton.stateCount, ∀ col < g.cfg.symbolCount + 1,
    (g.candidates g.automaton.collection g.automaton.lookaheads q (lookaheadOf col)).length ≤ 1))

theorem Decided.candidates_le {g : Grammar α} (h : g.Decided) {q : Nat} {la : Lookahead}
    (hq : q < g.cfg.collection.states.size) (hla : column la ≤ g.cfg.symbolCount) :
    (g.candidates g.cfg.collection g.cfg.lookaheads q la).length ≤ 1 := by
  have hcell := h q (by simpa [Automaton.stateCount] using hq) (column la) (Nat.lt_succ_of_le hla)
  simpa using hcell

/-- Where nothing competes every candidate is what the table says. -/
theorem Decided.action_eq {g : Grammar α} (h : g.Decided) {q : Nat} {la : Lookahead}
    (hq : q < g.cfg.collection.states.size) (hla : column la ≤ g.cfg.symbolCount) {c : Candidate}
    (hc : c ∈ g.candidates g.cfg.collection g.cfg.lookaheads q la) :
    g.automaton.table.action q la = c.action := by
  have hle := h.candidates_le hq hla
  rw [action_automaton, if_pos ⟨hq, hla⟩]
  obtain ⟨only, honly⟩ := List.length_eq_one_iff.1
    (Nat.le_antisymm hle (List.length_pos_of_mem hc))
  rw [honly, List.mem_singleton] at hc
  rw [honly, choose_singleton, hc]

/-- Where nothing competes there are no conflicts. -/
theorem Decided.conflicts_eq_nil {g : Grammar α} (h : g.Decided) :
    g.automaton.table.conflicts = [] := by
  apply Table.conflicts_eq_nil
  intro row hrow action haction
  rw [g.table_automaton] at hrow
  simp only [tableOf, List.mem_map, List.mem_range] at hrow
  obtain ⟨q, hq, rfl⟩ := hrow
  simp only [List.mem_map, List.mem_range] at haction
  obtain ⟨col, hcol, rfl⟩ := haction
  have hle : (g.candidates g.cfg.collection g.cfg.lookaheads q (lookaheadOf col)).length ≤ 1 :=
    h.candidates_le hq (by simpa using Nat.le_of_lt_succ hcol)
  rcases hcell : g.candidates g.cfg.collection g.cfg.lookaheads q (lookaheadOf col) with
    _ | ⟨c, _ | ⟨d, rest⟩⟩
  · rfl
  · have hc : c ∈ g.candidates g.cfg.collection g.cfg.lookaheads q (lookaheadOf col) := by
      simp [hcell]
    rw [choose_singleton]
    rcases shift_or_reduce_of_mem_candidates hc with ⟨_, _, -, -, hshift⟩ | ⟨_, -, -, -, hreduce⟩
    · rw [hshift]
      rfl
    · rw [hreduce]
      rfl
  · simp [hcell] at hle

end Grammar

/-! ## What a parser reads from its table -/

namespace Parser

variable {α : Type} (p : Parser α)

/-- A parser finds an error, or a transition over the terminal in sight, or the reduction of an item
that is completed before what is in sight. -/
theorem actionFor_cases (q : Nat) (la : Lookahead) :
    p.actionFor q la = .error la ∨
      (∃ symbol target, la = some symbol ∧ p.grammar.cfg.isTerminal symbol = true ∧
        p.grammar.cfg.collection.goto? q symbol = some target ∧
        p.actionFor q la = .shift target) ∨
      ∃ x ∈ p.grammar.cfg.lookaheads.state q, x.lookahead = la ∧
        p.grammar.cfg.isComplete x.item = true ∧ p.actionFor q la = .reduce x.item.production := by
  have hfree : p.grammar.automaton.table.conflicts = [] := p.table_eq ▸ p.conflictFree
  have hread : p.actionFor q la = .error la ∨
      (∀ symbol, la = some symbol → p.grammar.cfg.isTerminal symbol = true) ∧
        p.actionFor q la = p.grammar.automaton.table.action q la := by
    cases la with
    | none => exact Or.inr ⟨by simp, by simp [actionFor, p.table_eq]⟩
    | some symbol =>
      by_cases hsymbol : p.grammar.cfg.isTerminal symbol = true
      · refine Or.inr ⟨?_, by simp [actionFor, hsymbol, p.table_eq]⟩
        intro s hs
        cases hs
        exact hsymbol
      · exact Or.inl (by simp [actionFor, hsymbol])
  rcases hread with herror | ⟨hterminal, hread⟩
  · exact Or.inl herror
  · rw [hread]
    rcases Grammar.exists_candidate_of_action hfree q la with herror | ⟨-, c, hc, haction⟩
    · exact Or.inl herror
    · rw [haction]
      rcases Grammar.shift_or_reduce_of_mem_candidates hc with
        ⟨symbol, target, rfl, hgoto, hshift⟩ | ⟨x, hx, hla, hcomplete, hreduce⟩
      · exact Or.inr (Or.inl ⟨symbol, target, rfl, hterminal symbol rfl, hgoto, hshift⟩)
      · exact Or.inr (Or.inr ⟨x, hx, hla, hcomplete, hreduce⟩)

/-- What a parser reduces before a lookahead is completed in the state, under that lookahead. -/
theorem mem_lookaheads_of_reduce {q : Nat} {la : Lookahead} {production : Nat}
    (h : p.actionFor q la = .reduce production) :
    ∃ rule, p.grammar.cfg.rules[production]? = some rule ∧
      ⟨⟨production, rule.right.length⟩, la⟩ ∈ p.grammar.cfg.lookaheads.state q := by
  rcases p.actionFor_cases q la with
    herror | ⟨symbol, target, -, -, -, hshift⟩ | ⟨x, hx, hla, hcomplete, hreduce⟩
  · rw [herror] at h
    cases h
  · rw [hshift] at h
    cases h
  · rw [hreduce] at h
    cases h
    have hall := Cfg.state_subset_allItems (Cfg.proper_of_mem hx).1
    obtain ⟨rule, hrule, -⟩ := Cfg.mem_allItems.1 hall
    refine ⟨rule, hrule, ?_⟩
    rwa [← Cfg.position_eq_of_isComplete hall hrule hcomplete, ← hla]

theorem goto?_table {q symbol : Nat} (h : p.grammar.cfg.isNonterminal symbol = true) :
    p.table.goto? q symbol = p.grammar.cfg.collection.goto? q symbol := by
  rw [p.table_eq, Grammar.goto?_table h]

end Parser

end ShiftReduce
