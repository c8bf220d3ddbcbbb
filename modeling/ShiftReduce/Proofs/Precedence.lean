import ShiftReduce.Proofs.Table

/-!
# How precedence settles a cell

In a cell the transition competes with reductions.  If only one production can be reduced there, it
stands to the left of what comes, and the production that takes part in the transition stands to the
right.  The tighter of the two goes first, and between equally tight ones the associativity of their
group decides.

* `Grammar.LeftFirst`, `Grammar.RightFirst`: which of two productions goes first;
* `Grammar.Completed`, `Grammar.Awaits`: the productions that compete for a cell;
* `Grammar.action_eq_shift`, `Grammar.action_eq_reduce`: who wins it;
* `Grammar.conflicts_eq_nil_of_settled`: cells that are all settled in this way.
-/

namespace ShiftReduce

namespace Grammar

variable {α : Type} {g : Grammar α}

/-! ## Which of two productions goes first -/

/-- The production `p` to the left goes before the production `q` to the right. -/
def LeftFirst (g : Grammar α) (p q : Nat) : Prop :=
  g.rank p < g.rank q ∨ g.rank p = g.rank q ∧ g.associativity (g.rank p) = .left

/-- The production `q` to the right goes before the production `p` to the left. -/
def RightFirst (g : Grammar α) (p q : Nat) : Prop :=
  g.rank q < g.rank p ∨ g.rank p = g.rank q ∧ g.associativity (g.rank p) = .right

theorem leftFirst_or_rightFirst {p q : Nat} (h : g.associativity (g.rank q) ≠ .none) :
    g.LeftFirst p q ∨ g.RightFirst p q := by
  rcases Nat.lt_trichotomy (g.rank p) (g.rank q) with hlt | heq | hlt
  · exact Or.inl (Or.inl hlt)
  · rw [← heq] at h
    cases hassoc : g.associativity (g.rank p) with
    | none => exact absurd hassoc h
    | left => exact Or.inl (Or.inr ⟨heq, hassoc⟩)
    | right => exact Or.inr (Or.inr ⟨heq, hassoc⟩)
  · exact Or.inr (Or.inl hlt)

/-- What goes before a production that goes before another one, goes before that one too. -/
theorem RightFirst.leftFirst_trans {p q r : Nat} (hpq : g.RightFirst p q) (hpr : g.LeftFirst p r) :
    g.LeftFirst q r := by
  rcases hpq with hlt | ⟨heq, hright⟩
  · rcases hpr with hlt' | ⟨heq', -⟩
    · exact Or.inl (hlt.trans hlt')
    · exact Or.inl (heq' ▸ hlt)
  · rcases hpr with hlt' | ⟨-, hleft⟩
    · exact Or.inl (heq ▸ hlt')
    · rw [hright] at hleft
      cases hleft

theorem RightFirst.trans_leftFirst {p q r : Nat} (hpr : g.RightFirst p r) (hqr : g.LeftFirst q r) :
    g.RightFirst p q := by
  rcases hqr with hlt | ⟨heq, hleft⟩
  · rcases hpr with hlt' | ⟨heq', -⟩
    · exact Or.inl (hlt.trans hlt')
    · exact Or.inl (heq' ▸ hlt)
  · rcases hpr with hlt' | ⟨heq', hright⟩
    · exact Or.inl (heq ▸ hlt')
    · rw [heq', ← heq, hleft] at hright
      cases hright

/-! ## A transition against a reduction -/

theorem settleTie_left (target p : Nat) (la : Lookahead) :
    settleTie .left [.shift target, .reduce p] la = .reduce p := rfl

theorem settleTie_right (target p : Nat) (la : Lookahead) :
    settleTie .right [.shift target, .reduce p] la = .shift target := rfl

theorem choose_eq_reduce {target p k : Nat} {la : Lookahead}
    (h : g.rank p < k ∨ g.rank p = k ∧ g.associativity (g.rank p) = .left) :
    g.choose [⟨.shift target, k⟩, ⟨.reduce p, g.rank p⟩] la = .reduce p := by
  rcases h with hlt | ⟨rfl, hleft⟩
  · have hmin : min k (g.rank p) = g.rank p := Nat.min_eq_right hlt.le
    have hne : (k == g.rank p) = false := by simpa using hlt.ne'
    simp [choose, List.min?_cons, hmin, hne]
  · simp [choose, List.min?_cons, hleft, settleTie_left]

theorem choose_eq_shift {target p k : Nat} {la : Lookahead}
    (h : k < g.rank p ∨ g.rank p = k ∧ g.associativity (g.rank p) = .right) :
    g.choose [⟨.shift target, k⟩, ⟨.reduce p, g.rank p⟩] la = .shift target := by
  rcases h with hlt | ⟨rfl, hright⟩
  · have hmin : min k (g.rank p) = k := Nat.min_eq_left hlt.le
    have hne : (g.rank p == k) = false := by simpa using hlt.ne'
    simp [choose, List.min?_cons, hmin, hne]
  · simp [choose, List.min?_cons, hright, settleTie_right]

/-! ## What competes for a cell -/

/-- The production is completed in the state under the lookahead. -/
def Completed (g : Grammar α) (q : Nat) (la : Lookahead) (p : Nat) : Prop :=
  ∃ x ∈ g.cfg.lookaheads.state q, x.lookahead = la ∧ g.cfg.isComplete x.item = true ∧
    x.item.production = p

/-- The production awaits the symbol in the state. -/
def Awaits (g : Grammar α) (q symbol p : Nat) : Prop :=
  ∃ item ∈ g.cfg.collection.state q, g.cfg.nextSymbol? item = some symbol ∧ item.production = p

theorem reduceCandidates_eq_nil {q : Nat} {la : Lookahead} (h : ∀ p, ¬ g.Completed q la p) :
    g.reduceCandidates (g.cfg.lookaheads.state q) la = [] := by
  rw [List.eq_nil_iff_forall_not_mem]
  intro c hc
  obtain ⟨x, hx, hla, hcomplete, -⟩ := mem_reduceCandidates hc
  exact h _ ⟨x, hx, hla, hcomplete, rfl⟩

theorem eq_singleton_of_nodup {β : Type} {l : List β} (hnodup : l.Nodup) {x : β} (hx : x ∈ l)
    (h : ∀ y ∈ l, y = x) : l = [x] := by
  have hreplicate := List.eq_replicate_of_mem h
  have hle : l.length ≤ 1 := List.nodup_replicate.1 (hreplicate ▸ hnodup)
  have hpos : 0 < l.length := List.length_pos_of_mem hx
  have hone : l.length = 1 := by omega
  rw [hone] at hreplicate
  exact hreplicate

/-- A production that is the only completed one is the only one that can be reduced. -/
theorem reduceCandidates_eq_singleton {q p : Nat} {la : Lookahead} (h : g.Completed q la p)
    (hunique : ∀ p', g.Completed q la p' → p' = p) :
    g.reduceCandidates (g.cfg.lookaheads.state q) la = [⟨.reduce p, g.rank p⟩] := by
  obtain ⟨x, hx, rfl, hcomplete, rfl⟩ := h
  have hfilter : (g.cfg.lookaheads.state q).filter
      (fun y => decide (y.lookahead = x.lookahead) && g.cfg.isComplete y.item) = [x] := by
    apply eq_singleton_of_nodup ((g.cfg.nodup_lookaheads q).filter _)
    · exact List.mem_filter.2 ⟨hx, by simp [hcomplete]⟩
    · intro y hy
      simp only [List.mem_filter, Bool.and_eq_true, decide_eq_true_eq] at hy
      exact eq_of_isComplete hy.1 hx hy.2.2 hcomplete hy.2.1
        (hunique _ ⟨y, hy.1, hy.2.1, hy.2.2, rfl⟩)
  rw [reduceCandidates, hfilter]
  rfl

/-- The transition is ranked by a production that awaits its symbol. -/
theorem exists_awaits_of_goto? {q symbol target : Nat}
    (h : g.cfg.collection.goto? q symbol = some target) :
    ∃ p, g.Awaits q symbol p ∧
      g.shiftCandidate? g.cfg.collection q (some symbol) = some ⟨.shift target, g.rank p⟩ := by
  obtain ⟨rank, hrank⟩ := Option.ne_none_iff_exists'.1 (gotoRank?_ne_none h)
  have hmem := List.min?_mem hrank
  obtain ⟨item, hitem, rfl⟩ := List.mem_map.1 hmem
  obtain ⟨hstate, hawaits⟩ := List.mem_filter.1 hitem
  refine ⟨item.production, ⟨item, hstate, by simpa [Cfg.awaits] using hawaits, rfl⟩, ?_⟩
  simp [shiftCandidate?, h, hrank]

/-! ## Who wins a cell -/

/-- The transition wins when every production that is completed gives way to those that await the
symbol. -/
theorem action_eq_shift {q symbol target : Nat}
    (hgoto : g.cfg.collection.goto? q symbol = some target)
    (hunique : ∀ p p', g.Completed q (some symbol) p → g.Completed q (some symbol) p' → p' = p)
    (hfirst : ∀ p p', g.Completed q (some symbol) p → g.Awaits q symbol p' → g.RightFirst p p') :
    g.automaton.table.action q (some symbol) = .shift target := by
  obtain ⟨p', hawaits, hshift⟩ := exists_awaits_of_goto? hgoto
  rw [action_automaton, if_pos ⟨(Cfg.goto?_lt hgoto).1, (Cfg.goto?_lt hgoto).2.1⟩, candidates,
    hshift, Option.toList_some]
  by_cases hcompleted : ∃ p, g.Completed q (some symbol) p
  · obtain ⟨p, hp⟩ := hcompleted
    rw [reduceCandidates_eq_singleton hp (hunique p · hp)]
    exact choose_eq_shift (hfirst p p' hp hawaits)
  · rw [reduceCandidates_eq_nil (not_exists.1 hcompleted), List.append_nil, choose_singleton]

/-- The only production that is completed wins when it goes before those that await the symbol. -/
theorem action_eq_reduce {q p : Nat} {la : Lookahead} (h : g.Completed q la p)
    (hunique : ∀ p', g.Completed q la p' → p' = p)
    (hfirst : ∀ symbol p', la = some symbol → g.Awaits q symbol p' → g.LeftFirst p p') :
    g.automaton.table.action q la = .reduce p := by
  obtain ⟨x, hx, hla, -, -⟩ := id h
  have hcell : q < g.cfg.collection.states.size ∧ column la ≤ g.cfg.symbolCount := by
    refine ⟨Collection.lt_size_of_mem_state (Cfg.proper_of_mem hx).1, ?_⟩
    cases la with
    | none => exact Nat.zero_le _
    | some symbol => exact (Cfg.isTerminal_iff.1 ((Cfg.proper_of_mem hx).2 symbol hla)).1
  rw [action_automaton, if_pos hcell, candidates, reduceCandidates_eq_singleton h hunique]
  cases hshift : g.shiftCandidate? g.cfg.collection q la with
  | none => rw [Option.toList_none, List.nil_append, choose_singleton]
  | some candidate =>
    obtain ⟨symbol, target, rfl, hgoto, -⟩ := shift_of_shiftCandidate? hshift
    obtain ⟨p', hawaits, hshift'⟩ := exists_awaits_of_goto? hgoto
    rw [hshift] at hshift'
    cases hshift'
    exact choose_eq_reduce (hfirst symbol p' rfl hawaits)

/-- A cell is no conflict when at most one production is completed, and precedence decides between
it and those that await the symbol. -/
theorem conflict?_choose_of_settled {q : Nat} {la : Lookahead}
    (hunique : ∀ p p', g.Completed q la p → g.Completed q la p' → p' = p)
    (hsettled : ∀ symbol p p', la = some symbol → g.Completed q la p → g.Awaits q symbol p' →
      g.LeftFirst p p' ∨ g.RightFirst p p') :
    (g.choose (g.candidates g.cfg.collection g.cfg.lookaheads q la) la).conflict? = none := by
  rw [candidates]
  by_cases hcompleted : ∃ p, g.Completed q la p
  · obtain ⟨p, hp⟩ := hcompleted
    rw [reduceCandidates_eq_singleton hp (hunique p · hp)]
    cases hshift : g.shiftCandidate? g.cfg.collection q la with
    | none =>
      rw [Option.toList_none, List.nil_append, choose_singleton]
      rfl
    | some candidate =>
      obtain ⟨symbol, target, rfl, hgoto, -⟩ := shift_of_shiftCandidate? hshift
      obtain ⟨p', hawaits, hshift'⟩ := exists_awaits_of_goto? hgoto
      rw [hshift] at hshift'
      cases hshift'
      rw [Option.toList_some, List.singleton_append]
      rcases hsettled symbol p p' rfl hp hawaits with hleft | hright
      · rw [choose_eq_reduce hleft]
        rfl
      · rw [choose_eq_shift hright]
        rfl
  · rw [reduceCandidates_eq_nil (not_exists.1 hcompleted), List.append_nil]
    cases hshift : g.shiftCandidate? g.cfg.collection q la with
    | none => rfl
    | some candidate =>
      obtain ⟨symbol, target, -, -, haction⟩ := shift_of_shiftCandidate? hshift
      rw [Option.toList_some, choose_singleton, haction]
      rfl

/-- There are no conflicts when every cell is settled in this way. -/
theorem conflicts_eq_nil_of_settled
    (hunique : ∀ q la p p', g.Completed q la p → g.Completed q la p' → p' = p)
    (hsettled : ∀ q symbol p p', g.Completed q (some symbol) p → g.Awaits q symbol p' →
      g.LeftFirst p p' ∨ g.RightFirst p p') : g.automaton.table.conflicts = [] := by
  apply Table.conflicts_eq_nil
  intro row hrow action haction
  rw [g.table_automaton] at hrow
  simp only [tableOf, List.mem_map, List.mem_range] at hrow
  obtain ⟨q, -, rfl⟩ := hrow
  simp only [List.mem_map, List.mem_range] at haction
  obtain ⟨col, -, rfl⟩ := haction
  apply conflict?_choose_of_settled (hunique q _)
  intro symbol p p' hla hp hp'
  rw [hla] at hp
  exact hsettled q symbol p p' hp hp'

end Grammar

end ShiftReduce
