import ShiftReduce.Proofs.Cells

/-!
# Every entry is justified

What competes for a cell can be said without the table: the transition over the column's symbol, at
the rank of the tightest production that takes part in it, and each production that is completed in
the state under the lookahead, at its own rank.  An entry is then justified by the tightest among
those that compete.  A transition or reduction in the table is one of them, an error is the lack of
any, and either kind of conflict is exactly what its name says.

* `Grammar.Competes`, `Grammar.Tightest`: what competes for a cell, and what is tightest there;
* `Grammar.Settled`: how several actions of one group can be settled;
* `Grammar.Justified`: what an entry says about the actions that compete for its cell;
* `Grammar.table_is_justified`: all entries of a table, and its conflicts.
-/

namespace ShiftReduce

namespace Action

/-- The action is a transition or a reduction. -/
def IsMove (a : Action) : Prop := (∃ target, a = .shift target) ∨ ∃ p, a = .reduce p

/-- What moves is no conflict. -/
theorem IsMove.conflict?_eq_none {a : Action} (h : a.IsMove) : a.conflict? = none := by
  rcases h with ⟨target, rfl⟩ | ⟨p, rfl⟩
  · rfl
  · rfl

end Action

namespace Grammar

variable {α : Type} {g : Grammar α} {q : Nat} {la : Lookahead}

/-! ## What competes for a cell -/

/-- The action competes for the cell of state `q` under `la`, at the given rank. -/
inductive Competes (g : Grammar α) (q : Nat) (la : Lookahead) : Action → Nat → Prop
  | shift {symbol target rank : Nat} (sight : la = some symbol)
      (goto : g.automaton.collection.goto? q symbol = some target)
      (ranked : g.gotoRank? (g.automaton.collection.state q) symbol = some rank) :
      Competes g q la (.shift target) rank
  | reduce {p : Nat} {rule : Rule} (numbered : g.cfg.rules[p]? = some rule)
      (completed : ⟨⟨p, rule.right.length⟩, la⟩ ∈ g.automaton.lookaheads.state q) :
      Competes g q la (.reduce p) (g.rank p)

/-- The action competes for the cell, and nothing that does is tighter. -/
def Tightest (g : Grammar α) (q : Nat) (la : Lookahead) (rank : Nat) (a : Action) : Prop :=
  g.Competes q la a rank ∧ ∀ b k, g.Competes q la b k → rank ≤ k

theorem Tightest.rank_eq {rank rank' : Nat} {a b : Action} (h : g.Tightest q la rank a)
    (h' : g.Tightest q la rank' b) : rank = rank' :=
  Nat.le_antisymm (h.2 _ _ h'.1) (h'.2 _ _ h.1)

theorem Competes.isMove {a : Action} {rank : Nat} (h : g.Competes q la a rank) : a.IsMove := by
  cases h with
  | shift => exact Or.inl ⟨_, rfl⟩
  | reduce => exact Or.inr ⟨_, rfl⟩

theorem mem_shiftCandidate?_iff {c : Candidate} :
    c ∈ (g.shiftCandidate? g.cfg.collection q la).toList ↔
      ∃ symbol target, la = some symbol ∧ g.cfg.collection.goto? q symbol = some target ∧
        g.gotoRank? (g.cfg.collection.state q) symbol = some c.rank ∧
        c.action = .shift target := by
  obtain ⟨action, rank⟩ := c
  rw [Option.mem_toList]
  cases la with
  | none =>
    constructor
    · intro h
      cases h
    · rintro ⟨symbol, target, h, -⟩
      cases h
  | some symbol =>
    simp only [shiftCandidate?, bind, Option.bind_some, Option.bind_eq_some_iff, pure,
      Option.some.injEq, Candidate.mk.injEq, exists_and_left]
    constructor
    · rintro ⟨target, hgoto, k, hrank, rfl, rfl⟩
      exact ⟨symbol, rfl, target, hgoto, hrank, rfl⟩
    · rintro ⟨_, rfl, target, hgoto, hrank, rfl⟩
      exact ⟨target, hgoto, rank, hrank, rfl, rfl⟩

/-- The candidates of a cell are what competes for it. -/
theorem mem_candidates {c : Candidate} :
    c ∈ g.candidates g.cfg.collection g.cfg.lookaheads q la ↔ g.Competes q la c.action c.rank := by
  obtain ⟨action, rank⟩ := c
  rw [candidates, List.mem_append, mem_shiftCandidate?_iff]
  constructor
  · rintro (⟨symbol, target, hla, hgoto, hrank, rfl⟩ | hreduce)
    · exact .shift hla (by rwa [collection_automaton]) (by rwa [collection_automaton])
    · obtain ⟨x, hx, hcandidate⟩ := List.mem_map.1 hreduce
      rw [List.mem_filter, Bool.and_eq_true, decide_eq_true_eq] at hx
      obtain ⟨hmem, rfl, hcomplete⟩ := hx
      cases hcandidate
      have hall := Cfg.state_subset_allItems (Cfg.proper_of_mem hmem).1
      obtain ⟨rule, hrule, -⟩ := Cfg.mem_allItems.1 hall
      refine .reduce hrule ?_
      rwa [← Cfg.position_eq_of_isComplete hall hrule hcomplete, lookaheads_automaton]
  · intro h
    cases h with
    | shift hla hgoto hrank =>
      rw [collection_automaton] at hgoto hrank
      exact Or.inl ⟨_, _, hla, hgoto, hrank, rfl⟩
    | reduce hrule hmem =>
      rw [lookaheads_automaton] at hmem
      refine Or.inr (List.mem_map.2 ⟨_, List.mem_filter.2 ⟨hmem, ?_⟩, rfl⟩)
      rw [Bool.and_eq_true, decide_eq_true_eq]
      exact ⟨rfl, Cfg.isComplete_end hrule⟩

/-- No action is a candidate twice. -/
theorem nodup_candidates (g : Grammar α) (q : Nat) (la : Lookahead) :
    ((g.candidates g.cfg.collection g.cfg.lookaheads q la).map Candidate.action).Nodup := by
  rw [candidates, List.map_append, List.nodup_append']
  refine ⟨?_, ?_, ?_⟩
  · cases g.shiftCandidate? g.cfg.collection q la with
    | none => exact List.nodup_nil
    | some candidate => exact List.nodup_singleton _
  · rw [reduceCandidates, List.map_map]
    refine List.Nodup.map_on ?_ ((g.cfg.nodup_lookaheads q).filter _)
    intro x hx y hy hsame
    rw [List.mem_filter, Bool.and_eq_true, decide_eq_true_eq] at hx hy
    exact eq_of_isComplete hx.1 hy.1 hx.2.2 hy.2.2 (hx.2.1.trans hy.2.1.symm)
      (Action.reduce.inj hsame)
  · intro a hshift hreduce
    obtain ⟨c, hc, rfl⟩ := List.mem_map.1 hshift
    obtain ⟨d, hd, hsame⟩ := List.mem_map.1 hreduce
    obtain ⟨symbol, target, -, -, -, haction⟩ := mem_shiftCandidate?_iff.1 hc
    obtain ⟨x, -, -, -, haction'⟩ := mem_reduceCandidates hd
    rw [haction, haction'] at hsame
    cases hsame

/-! ## How a tie is settled -/

/-- The outcome for a cell whose tightest actions are the `tied` ones, of a group with the given
associativity. -/
inductive Settled (associativity : Associativity) (tied : Action → Prop) (la : Lookahead) :
    Action → Prop
  /-- Nothing is tied with it. -/
  | only {a : Action} (all : ∀ b, tied b ↔ b = a) : Settled associativity tied la a
  /-- The only reduction wins to the left. -/
  | left {p : Nat} (group : associativity = .left) (mem : tied (.reduce p))
      (one : ∀ p', tied (.reduce p') → p' = p) : Settled associativity tied la (.reduce p)
  /-- The transition wins to the right. -/
  | right {target : Nat} (group : associativity = .right) (mem : tied (.shift target)) :
      Settled associativity tied la (.shift target)
  /-- A transition and a reduction, and no preference. -/
  | shiftReduce {target p : Nat} (group : associativity = .none)
      (all : ∀ b, tied b ↔ b = .shift target ∨ b = .reduce p) :
      Settled associativity tied la (.shiftReduce la)
  /-- Several reductions, and no transition that wins. -/
  | reduceReduce {p p' : Nat} (ne : p ≠ p') (mem : tied (.reduce p)) (mem' : tied (.reduce p'))
      (loses : ¬ (associativity = .right ∧ ∃ target, tied (.shift target))) :
      Settled associativity tied la (.reduceReduce la)

/-- If there is a shift in the list, it is found. -/
theorem find?_isShift {tied : List Action} (hone : OneShift tied) {target : Nat}
    (hmem : Action.shift target ∈ tied) : tied.find? Action.isShift = some (.shift target) := by
  have hsome : (tied.find? Action.isShift).isSome = true :=
    List.find?_isSome.2 ⟨Action.shift target, hmem, rfl⟩
  obtain ⟨a, ha⟩ := Option.isSome_iff_exists.1 hsome
  rw [ha, hone a (List.mem_of_find?_eq_some ha) _ hmem (List.find?_some ha) rfl]

theorem reduce_mem_filter {tied : List Action} {p : Nat} :
    Action.reduce p ∈ tied.filter Action.isReduce ↔ Action.reduce p ∈ tied := by
  simp [Action.isReduce]

section Ties

variable {associativity : Associativity} {tied : List Action} (hone : OneShift tied)
  (hmoves : ∀ a ∈ tied, a.IsMove)

include hone hmoves

/-- A transition against a single reduction. -/
theorem settled_of_reduces_eq_singleton {p target : Nat}
    (hreduces : tied.filter Action.isReduce = [.reduce p]) (hshift : Action.shift target ∈ tied)
    (la : Lookahead) :
    Settled associativity (· ∈ tied) la (settleTie associativity tied la) := by
  have hmem : ∀ p', Action.reduce p' ∈ tied ↔ p' = p := by
    intro p'
    rw [← reduce_mem_filter, hreduces, List.mem_singleton, Action.reduce.injEq]
  unfold settleTie
  rw [hreduces, find?_isShift hone hshift]
  cases associativity with
  | left => exact .left rfl ((hmem p).2 rfl) fun p' => (hmem p').1
  | right => exact .right rfl hshift
  | none =>
    have hall : ∀ a, a ∈ tied ↔ a = .shift target ∨ a = .reduce p := by
      intro a
      constructor
      · intro ha
        rcases hmoves a ha with ⟨t, rfl⟩ | ⟨p', rfl⟩
        · exact Or.inl (hone _ ha _ hshift rfl rfl)
        · exact Or.inr (congrArg Action.reduce ((hmem p').1 ha))
      · rintro (rfl | rfl)
        · exact hshift
        · exact (hmem p).2 rfl
    exact .shiftReduce rfl hall

/-- Several reductions, with or without a transition. -/
theorem settled_of_reduces_eq_cons {p p' : Nat} (hne : p ≠ p') {rest : List Action}
    (hreduces : tied.filter Action.isReduce = .reduce p :: .reduce p' :: rest) (la : Lookahead) :
    Settled associativity (· ∈ tied) la (settleTie associativity tied la) := by
  have hmem : ∀ a ∈ tied.filter Action.isReduce, a ∈ tied := List.filter_subset_self _
  rw [hreduces] at hmem
  have hp := hmem _ List.mem_cons_self
  have hp' := hmem _ (List.mem_cons_of_mem _ List.mem_cons_self)
  by_cases hright : associativity = .right ∧ ∃ target, Action.shift target ∈ tied
  · obtain ⟨rfl, target, hshift⟩ := hright
    unfold settleTie
    rw [hreduces, find?_isShift hone hshift]
    exact .right rfl hshift
  · have hconflict : settleTie associativity tied la = .reduceReduce la := by
      unfold settleTie
      rw [hreduces]
      cases associativity with
      | left => rfl
      | none => rfl
      | right =>
        have hnone : tied.find? Action.isShift = none := by
          refine List.find?_eq_none.2 fun a ha hshift => ?_
          rcases hmoves a ha with ⟨target, rfl⟩ | ⟨p, rfl⟩
          · exact hright ⟨rfl, target, ha⟩
          · cases hshift
        rw [hnone]
    rw [hconflict]
    exact .reduceReduce hne hp hp' hright

/-- Several tied transitions and reductions are settled. -/
theorem settled_settleTie (hnodup : tied.Nodup) {a b : Action} (ha : a ∈ tied) (hb : b ∈ tied)
    (hab : a ≠ b) (la : Lookahead) :
    Settled associativity (· ∈ tied) la (settleTie associativity tied la) := by
  have hreduces : ∀ c ∈ tied.filter Action.isReduce, ∃ p, c = .reduce p := by
    intro c hc
    obtain ⟨hmem, hreduce⟩ := List.mem_filter.1 hc
    rcases hmoves c hmem with ⟨target, rfl⟩ | hp
    · cases hreduce
    · exact hp
  have hnodup' := hnodup.filter Action.isReduce
  rcases hfilter : tied.filter Action.isReduce with _ | ⟨r, _ | ⟨r', rest⟩⟩
  · -- Without reductions there would be two shifts.
    exfalso
    have hshift : ∀ c ∈ tied, c.isShift = true := by
      intro c hc
      rcases hmoves c hc with ⟨target, rfl⟩ | ⟨p, rfl⟩
      · rfl
      · exact absurd (hfilter ▸ reduce_mem_filter.2 hc) List.not_mem_nil
    exact hab (hone a ha b hb (hshift a ha) (hshift b hb))
  · obtain ⟨p, rfl⟩ := hreduces r (hfilter ▸ List.mem_singleton_self r)
    have hshift : ∃ target, Action.shift target ∈ tied := by
      by_contra hnone
      -- Without a shift there would be two reductions.
      have heq : ∀ c ∈ tied, c = .reduce p := by
        intro c hc
        rcases hmoves c hc with ⟨target, rfl⟩ | ⟨p', rfl⟩
        · exact absurd ⟨target, hc⟩ hnone
        · exact List.mem_singleton.1 (hfilter ▸ reduce_mem_filter.2 hc)
      exact hab ((heq a ha).trans (heq b hb).symm)
    obtain ⟨target, htarget⟩ := hshift
    exact settled_of_reduces_eq_singleton hone hmoves hfilter htarget la
  · rw [hfilter] at hnodup' hreduces
    obtain ⟨p, rfl⟩ := hreduces r List.mem_cons_self
    obtain ⟨p', rfl⟩ := hreduces r' (List.mem_cons_of_mem _ List.mem_cons_self)
    have hne : p ≠ p' := by
      rintro rfl
      exact (List.nodup_cons.1 hnodup').1 List.mem_cons_self
    exact settled_of_reduces_eq_cons hone hmoves hne hfilter la

end Ties

/-! ## The choice for a cell -/

/-- Of candidates that are what competes for a cell, those of least rank are the tightest. -/
theorem mem_least_iff {candidates : List Candidate}
    (hmem : ∀ {c : Candidate}, c ∈ candidates ↔ g.Competes q la c.action c.rank) {tightest : Nat}
    (hmin : (candidates.map Candidate.rank).min? = some tightest) (a : Action) :
    a ∈ (candidates.filter fun c => c.rank == tightest).map Candidate.action ↔
      g.Tightest q la tightest a := by
  obtain ⟨-, hleast⟩ := List.min?_eq_some_iff.1 hmin
  constructor
  · intro ha
    obtain ⟨c, hc, rfl⟩ := List.mem_map.1 ha
    obtain ⟨hc, hrank⟩ := List.mem_filter.1 hc
    have hcompetes := hmem.1 hc
    rw [beq_iff_eq.1 hrank] at hcompetes
    exact ⟨hcompetes, fun b k hb => hleast k (List.mem_map.2 ⟨⟨b, k⟩, hmem.2 hb, rfl⟩)⟩
  · intro ha
    exact List.mem_map.2 ⟨⟨a, tightest⟩,
      List.mem_filter.2 ⟨hmem.2 ha.1, beq_self_eq_true tightest⟩, rfl⟩

/-- Either nothing competes for a cell, or its tightest actions are settled. -/
theorem choose_settled (g : Grammar α) (q : Nat) (la : Lookahead) :
    ((∀ a rank, ¬ g.Competes q la a rank) ∧
        g.choose (g.candidates g.cfg.collection g.cfg.lookaheads q la) la = .error la) ∨
      ∃ rank a, g.Tightest q la rank a ∧
        Settled (g.associativity rank) (g.Tightest q la rank) la
          (g.choose (g.candidates g.cfg.collection g.cfg.lookaheads q la) la) := by
  have hnodup := g.nodup_candidates q la
  have hone := g.oneShift_candidates g.cfg.collection g.cfg.lookaheads q la
  have hmem : ∀ {c : Candidate}, c ∈ g.candidates g.cfg.collection g.cfg.lookaheads q la ↔
      g.Competes q la c.action c.rank := mem_candidates
  generalize g.candidates g.cfg.collection g.cfg.lookaheads q la = candidates at hnodup hone hmem
  cases hmin : (candidates.map Candidate.rank).min? with
  | none =>
    rw [List.min?_eq_none_iff, List.map_eq_nil_iff] at hmin
    subst hmin
    exact Or.inl ⟨fun a rank hc => List.not_mem_nil ((@hmem ⟨a, rank⟩).2 hc), rfl⟩
  | some tightest =>
    right
    have htied := mem_least_iff hmem hmin
    have hsublist : ((candidates.filter fun c => c.rank == tightest).map Candidate.action).Sublist
        (candidates.map Candidate.action) := List.filter_sublist.map _
    have hnodup' := hnodup.sublist hsublist
    have hone' : OneShift ((candidates.filter fun c => c.rank == tightest).map Candidate.action) :=
      fun a ha b hb => hone a (hsublist.subset ha) b (hsublist.subset hb)
    obtain ⟨c, hc, rfl⟩ := List.mem_map.1 (List.min?_eq_some_iff.1 hmin).1
    have hwinner := (htied c.action).1
      (List.mem_map_of_mem (List.mem_filter.2 ⟨hc, beq_self_eq_true c.rank⟩))
    refine ⟨c.rank, c.action, hwinner, ?_⟩
    simp only [choose, hmin]
    generalize (candidates.filter fun d => d.rank == c.rank).map Candidate.action = tied
      at htied hnodup' hone'
    have hpredicate : g.Tightest q la c.rank = (· ∈ tied) :=
      (funext fun a => propext (htied a)).symm
    rcases tied with _ | ⟨a, _ | ⟨b, rest⟩⟩
    · exact absurd ((htied _).2 hwinner) List.not_mem_nil
    · exact .only fun b => (htied b).symm.trans List.mem_singleton
    · have hab : a ≠ b := by
        rintro rfl
        exact (List.nodup_cons.1 hnodup').1 List.mem_cons_self
      rw [hpredicate]
      exact settled_settleTie hone' (fun d hd => ((htied d).1 hd).1.isMove) hnodup'
        List.mem_cons_self (List.mem_cons_of_mem _ List.mem_cons_self) hab la

/-! ## What an outcome says -/

namespace Settled

variable {associativity : Associativity} {tied : Action → Prop} {entry : Action}

/-- What is no conflict is one of those tied. -/
theorem mem (h : Settled associativity tied la entry) (hentry : entry.conflict? = none) :
    tied entry := by
  cases h with
  | only all => exact (all entry).2 rfl
  | left _ hmem _ => exact hmem
  | right _ hmem => exact hmem
  | shiftReduce => cases hentry
  | reduceReduce => cases hentry

theorem eq_shiftReduce_iff (h : Settled associativity tied la entry)
    (hmoves : ∀ a, tied a → a.IsMove) (la' : Lookahead) :
    entry = .shiftReduce la' ↔
      la' = la ∧ associativity = .none ∧
        ∃ target p, ∀ a, tied a ↔ a = .shift target ∨ a = .reduce p := by
  constructor
  · rintro rfl
    cases h with
    | only all => cases (hmoves _ ((all _).2 rfl)).conflict?_eq_none
    | shiftReduce hgroup hall => exact ⟨rfl, hgroup, _, _, hall⟩
  · rintro ⟨rfl, hnone, target, p, hall⟩
    have hshift := (hall _).2 (Or.inl rfl)
    have hreduce := (hall _).2 (Or.inr rfl)
    cases h with
    | only all =>
      have := ((all _).1 hshift).trans ((all _).1 hreduce).symm
      cases this
    | left hgroup =>
      rw [hnone] at hgroup
      cases hgroup
    | right hgroup =>
      rw [hnone] at hgroup
      cases hgroup
    | shiftReduce => rfl
    | reduceReduce hne hp hp' =>
      have heq : ∀ p', tied (.reduce p') → p' = p := by
        intro p' hp'
        rcases (hall _).1 hp' with heq | heq
        · cases heq
        · exact Action.reduce.inj heq
      exact absurd ((heq _ hp).trans (heq _ hp').symm) hne

theorem eq_reduceReduce_iff (h : Settled associativity tied la entry)
    (hmoves : ∀ a, tied a → a.IsMove) (la' : Lookahead) :
    entry = .reduceReduce la' ↔
      la' = la ∧ (∃ p p', p ≠ p' ∧ tied (.reduce p) ∧ tied (.reduce p')) ∧
        ¬ (associativity = .right ∧ ∃ target, tied (.shift target)) := by
  constructor
  · rintro rfl
    cases h with
    | only all => cases (hmoves _ ((all _).2 rfl)).conflict?_eq_none
    | reduceReduce hne hp hp' hloses => exact ⟨rfl, ⟨_, _, hne, hp, hp'⟩, hloses⟩
  · rintro ⟨rfl, ⟨p, p', hne, hp, hp'⟩, hloses⟩
    cases h with
    | only all =>
      have := ((all _).1 hp).trans ((all _).1 hp').symm
      exact absurd (Action.reduce.inj this) hne
    | left _ _ hone => exact absurd ((hone p hp).trans (hone p' hp').symm) hne
    | right hgroup hmem => exact absurd ⟨hgroup, _, hmem⟩ hloses
    | shiftReduce _ hall =>
      rcases (hall _).1 hp with heq | heq
      · cases heq
      · rcases (hall _).1 hp' with heq' | heq'
        · cases heq'
        · exact absurd (Action.reduce.inj (heq.trans heq'.symm)) hne
    | reduceReduce => rfl

end Settled

/-! ## What an entry says -/

/-- What the entry of the cell says about the actions that compete for it. -/
structure Justified (g : Grammar α) (q : Nat) (la : Lookahead) (entry : Action) : Prop where
  /-- It is an error when there are none, and then it is about the lookahead of the column. -/
  error_iff : ∀ la', entry = .error la' ↔ la' = la ∧ ∀ a rank, ¬ g.Competes q la a rank
  shift : ∀ target, entry = .shift target → ∃ rank, g.Tightest q la rank (.shift target)
  reduce : ∀ p, entry = .reduce p → ∃ rank, g.Tightest q la rank (.reduce p)
  /-- A transition and one reduction are the tightest, and their group has no associativity. -/
  shiftReduce_iff : ∀ la', entry = .shiftReduce la' ↔
    la' = la ∧ ∃ rank, g.associativity rank = .none ∧
      ∃ target p, ∀ a, g.Tightest q la rank a ↔ a = .shift target ∨ a = .reduce p
  /-- Two reductions are among the tightest, and no transition that wins to the right. -/
  reduceReduce_iff : ∀ la', entry = .reduceReduce la' ↔
    la' = la ∧ ∃ rank,
      (∃ p p', p ≠ p' ∧ g.Tightest q la rank (.reduce p) ∧ g.Tightest q la rank (.reduce p')) ∧
      ¬ (g.associativity rank = .right ∧ ∃ target, g.Tightest q la rank (.shift target))

theorem justified_error (h : ∀ a rank, ¬ g.Competes q la a rank) :
    g.Justified q la (.error la) where
  error_iff la' := by
    constructor
    · rintro ⟨⟩
      exact ⟨rfl, h⟩
    · rintro ⟨rfl, -⟩
      rfl
  shift target hshift := by cases hshift
  reduce p hreduce := by cases hreduce
  shiftReduce_iff la' := by
    constructor
    · intro hentry
      cases hentry
    · rintro ⟨-, rank, -, target, p, hall⟩
      exact absurd ((hall _).2 (Or.inl rfl)).1 (h _ _)
  reduceReduce_iff la' := by
    constructor
    · intro hentry
      cases hentry
    · rintro ⟨-, rank, ⟨p, p', -, hp, -⟩, -⟩
      exact absurd hp.1 (h _ _)

theorem Settled.justified {rank : Nat} {a entry : Action} (ha : g.Tightest q la rank a)
    (h : Settled (g.associativity rank) (g.Tightest q la rank) la entry) :
    g.Justified q la entry where
  error_iff la' := by
    constructor
    · rintro rfl
      rcases (h.mem rfl).1.isMove with ⟨target, hshift⟩ | ⟨p, hreduce⟩
      · cases hshift
      · cases hreduce
    · rintro ⟨-, hnone⟩
      exact absurd ha.1 (hnone a rank)
  shift target hshift := by
    subst hshift
    exact ⟨rank, h.mem rfl⟩
  reduce p hreduce := by
    subst hreduce
    exact ⟨rank, h.mem rfl⟩
  shiftReduce_iff la' := by
    rw [h.eq_shiftReduce_iff (fun b hb => hb.1.isMove)]
    refine and_congr_right fun _ => ?_
    constructor
    · intro hall
      exact ⟨rank, hall⟩
    · rintro ⟨rank', hnone, target, p, hall⟩
      obtain rfl := ((hall _).2 (Or.inl rfl)).rank_eq ha
      exact ⟨hnone, target, p, hall⟩
  reduceReduce_iff la' := by
    rw [h.eq_reduceReduce_iff (fun b hb => hb.1.isMove)]
    refine and_congr_right fun _ => ?_
    constructor
    · intro hall
      exact ⟨rank, hall⟩
    · rintro ⟨rank', ⟨p, p', hne, hp, hp'⟩, hloses⟩
      obtain rfl := hp.rank_eq ha
      exact ⟨⟨p, p', hne, hp, hp'⟩, hloses⟩

/-- Nothing competes for a cell outside of the table. -/
theorem Competes.lt {a : Action} {rank : Nat} (h : g.Competes q la a rank) :
    q < g.cfg.collection.states.size ∧ column la ≤ g.cfg.symbolCount := by
  cases h with
  | shift hla hgoto =>
    rw [collection_automaton] at hgoto
    subst hla
    exact ⟨(Cfg.goto?_lt hgoto).1, (Cfg.goto?_lt hgoto).2.1⟩
  | reduce _ hmem =>
    rw [lookaheads_automaton] at hmem
    refine ⟨Collection.lt_size_of_mem_state (Cfg.proper_of_mem hmem).1, ?_⟩
    cases la with
    | none => exact Nat.zero_le _
    | some symbol => exact (Cfg.isTerminal_iff.1 ((Cfg.proper_of_mem hmem).2 symbol rfl)).1

theorem justified_action (g : Grammar α) (q : Nat) (la : Lookahead) :
    g.Justified q la (g.automaton.table.action q la) := by
  rw [action_automaton]
  split
  · rcases g.choose_settled q la with ⟨hnone, herror⟩ | ⟨rank, a, ha, hsettled⟩
    · rw [herror]
      exact justified_error hnone
    · exact hsettled.justified ha
  · next houtside => exact justified_error fun a rank h => houtside h.lt

/-! ## Whole tables -/

theorem length_rows (g : Grammar α) :
    g.automaton.table.rows.length = g.automaton.stateCount := by
  simp [tableOf, Automaton.stateCount]

theorem length_row {row : List Action} (h : row ∈ g.automaton.table.rows) :
    row.length = g.cfg.symbolCount + 1 := by
  rw [table_automaton] at h
  obtain ⟨q, -, rfl⟩ := List.mem_map.1 h
  simp

/-- There is no transition over the end of the input. -/
theorem action_none_ne_shift (g : Grammar α) (q target : Nat) :
    g.automaton.table.action q none ≠ .shift target := by
  intro h
  obtain ⟨rank, hshift, -⟩ := (g.justified_action q none).shift target h
  cases hshift with
  | shift hsight => cases hsight

/-- There are conflicts exactly when some cell holds one. -/
theorem conflicts_ne_nil_iff (g : Grammar α) :
    g.automaton.table.conflicts ≠ [] ↔
      ∃ q la, (g.automaton.table.action q la).conflict? ≠ none := by
  constructor
  · intro h
    obtain ⟨c, hc⟩ := List.exists_mem_of_ne_nil _ h
    rw [g.labelled_automaton.mem_conflicts] at hc
    exact ⟨c.state, c.lookahead, by rw [hc]; exact Option.some_ne_none _⟩
  · rintro ⟨q, la, hconflict⟩ hnil
    exact hconflict (Table.conflict?_action hnil q la)

theorem build_eq_error_iff (g : Grammar α) (trim : Bool) (error : GrammarError) :
    Parser.build g trim = .error error ↔
      g.automaton.table.conflicts ≠ [] ∧ error = .conflicts g.automaton.table.conflicts := by
  unfold Parser.build
  dsimp only
  split
  · next hnil =>
    constructor
    · intro h
      cases h
    · rintro ⟨hne, -⟩
      exact absurd hnil hne
  · next hne =>
    constructor
    · rintro ⟨⟩
      exact ⟨hne, rfl⟩
    · rintro ⟨-, rfl⟩
      rfl

/-- Every entry of a table is justified by what competes for its cell.  The columns of nonterminals
hold the transitions and nothing else, and there is no transition over the end of the input.  The
conflicts are those that the cells hold, each listed once with the state and the lookahead of its
cell, by state and then by column; no parser is made exactly when some cell holds one, and then all
of them are the reason. -/
theorem table_is_justified (g : Grammar α) :
    g.automaton.table.rows.length = g.automaton.stateCount ∧
    (∀ row ∈ g.automaton.table.rows, row.length = g.cfg.symbolCount + 1) ∧
    (∀ q la, g.Justified q la (g.automaton.table.action q la)) ∧
    (∀ q symbol, g.cfg.isNonterminal symbol = true → g.automaton.table.action q (some symbol) =
      ((g.automaton.collection.goto? q symbol).map Action.shift).getD (.error (some symbol))) ∧
    (∀ q target, g.automaton.table.action q none ≠ .shift target) ∧
    (∀ c, c ∈ g.automaton.table.conflicts ↔
      (g.automaton.table.action c.state c.lookahead).conflict? = some (c.kind, c.lookahead)) ∧
    (g.automaton.table.conflicts.Pairwise fun c d =>
      c.state < d.state ∨ c.state = d.state ∧ column c.lookahead < column d.lookahead) ∧
    ∀ trim,
      ((∃ error, Parser.build g trim = .error error) ↔
        ∃ q la, (g.automaton.table.action q la).conflict? ≠ none) ∧
      ∀ error, Parser.build g trim = .error error →
        error = .conflicts g.automaton.table.conflicts := by
  refine ⟨g.length_rows, fun row hrow => length_row hrow, g.justified_action, ?_,
    g.action_none_ne_shift, fun c => g.labelled_automaton.mem_conflicts,
    g.labelled_automaton.pairwise_conflicts, fun trim => ⟨?_, ?_⟩⟩
  · intro q symbol hsymbol
    rw [collection_automaton]
    exact action_nonterminal hsymbol q
  · rw [← conflicts_ne_nil_iff]
    simp only [build_eq_error_iff]
    exact ⟨fun ⟨_, hne, _⟩ => hne, fun hne => ⟨_, hne, rfl⟩⟩
  · intro error herror
    exact ((g.build_eq_error_iff trim error).1 herror).2

/-- Sums without associativity, of numbers that are sums themselves and also terms. -/
def undecidedSums : List (Group Nat) :=
  [⟨.none, [{ left := 0, right := [1] }, { left := 1, right := [1, 3, 1] },
    { left := 1, right := [2] }, { left := 1, right := [4] }, { left := 4, right := [2] }]⟩]

/-- After a number two reductions compete, after a sum the next sign does with a reduction, and a
term is always gone over. -/
theorem table_is_justified_undecided :
    ∃ g : Grammar Nat,
      build ["start", "sum", "number", "+", "term"] undecidedSums = .ok g ∧
      g.automaton.table.conflicts =
        [⟨2, none, .reduceReduce⟩, ⟨2, some 3, .reduceReduce⟩, ⟨5, some 3, .shiftReduce⟩] ∧
      (∃ rank p p', p ≠ p' ∧ g.Tightest 2 none rank (.reduce p) ∧
        g.Tightest 2 none rank (.reduce p')) ∧
      (∃ rank target p, ∀ a, g.Tightest 5 (some 3) rank a ↔ a = .shift target ∨ a = .reduce p) ∧
      g.cfg.isNonterminal 4 = true ∧
      g.automaton.table.action 4 (some 4) =
        ((g.automaton.collection.goto? 4 4).map Action.shift).getD (.error (some 4)) ∧
      ∃ error, Parser.build g false = .error error := by
  have hbuild : ∃ g : Grammar Nat,
      build ["start", "sum", "number", "+", "term"] undecidedSums = .ok g ∧
      g.automaton.table.conflicts =
        [⟨2, none, .reduceReduce⟩, ⟨2, some 3, .reduceReduce⟩, ⟨5, some 3, .shiftReduce⟩] ∧
      g.automaton.table.action 2 none = .reduceReduce none ∧
      g.automaton.table.action 5 (some 3) = .shiftReduce (some 3) ∧
      g.cfg.isNonterminal 4 = true :=
    ⟨_, rfl, by decide +kernel, by decide +kernel, by decide +kernel, by decide +kernel⟩
  obtain ⟨g, hg, hconflicts, hreduces, hshift, hterm⟩ := hbuild
  obtain ⟨-, -, hjustified, hnonterminals, -, -, -, hbuilds⟩ := g.table_is_justified
  obtain ⟨-, rank, hmany, -⟩ := ((hjustified 2 none).reduceReduce_iff none).1 hreduces
  obtain ⟨-, rank', -, target, p, hall⟩ := ((hjustified 5 (some 3)).shiftReduce_iff _).1 hshift
  have hrefused := (hbuilds false).1.2 ⟨2, none, by rw [hreduces]; exact Option.some_ne_none _⟩
  exact ⟨g, hg, hconflicts, ⟨rank, hmany⟩, ⟨rank', target, p, hall⟩, hterm,
    hnonterminals 4 4 hterm, hrefused⟩

end Grammar

end ShiftReduce
