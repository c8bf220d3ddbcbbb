import ShiftReduce.Proofs.Table

/-!
# What a cell holds

The choice among the candidates of a cell only asks for the tightest rank, for the reduction among
the tightest when there is a single one, and for the shift, of which there is never more than one.
So it does not depend on the order in which the candidates come.  What cannot be settled is reported
once for each cell, with the state and the lookahead of the cell.

* `Grammar.choose_perm`, `Grammar.oneShift_candidates`: the order of candidates does not matter;
* `Table.Labelled`, `Grammar.labelled_automaton`: conflicts carry the lookahead of their column;
* `Table.Labelled.mem_conflicts`, `Table.Labelled.pairwise_conflicts`: the conflicts by the cells,
  and their order.
-/

namespace ShiftReduce

/-! ## The order of candidates -/

theorem min?_eq_of_perm {l l' : List Nat} (h : l.Perm l') : l.min? = l'.min? := by
  refine Option.ext fun a => ?_
  rw [List.min?_eq_some_iff, List.min?_eq_some_iff, h.mem_iff]
  refine and_congr_right fun _ => ?_
  simp only [h.mem_iff]

/-- If there is only one value to be found, it is found in any order. -/
theorem find?_eq_of_perm {α : Type} {p : α → Bool} {l l' : List α} (h : l.Perm l')
    (hone : ∀ a ∈ l, ∀ b ∈ l, p a = true → p b = true → a = b) : l.find? p = l'.find? p := by
  cases hfind : l.find? p with
  | none =>
    rw [List.find?_eq_none] at hfind
    exact (List.find?_eq_none.2 fun a ha => hfind a (h.mem_iff.2 ha)).symm
  | some a =>
    cases hfind' : l'.find? p with
    | none =>
      have ha := h.mem_iff.1 (List.mem_of_find?_eq_some hfind)
      exact absurd (List.find?_some hfind) (List.find?_eq_none.1 hfind' a ha)
    | some b =>
      have hb := h.mem_iff.2 (List.mem_of_find?_eq_some hfind')
      rw [hone a (List.mem_of_find?_eq_some hfind) b hb (List.find?_some hfind)
        (List.find?_some hfind')]

namespace Grammar

variable {α : Type} {g g' : Grammar α}

/-- There is at most one shift in the list. -/
def OneShift (actions : List Action) : Prop :=
  ∀ a ∈ actions, ∀ b ∈ actions, a.isShift = true → b.isShift = true → a = b

/-- A tie is settled in the same way whatever the order of what is tied. -/
theorem settleTie_perm (associativity : Associativity) {tied tied' : List Action}
    (h : tied.Perm tied') (hone : OneShift tied) (la : Lookahead) :
    settleTie associativity tied la = settleTie associativity tied' la := by
  have hfind := find?_eq_of_perm h hone
  have hreduces := h.filter Action.isReduce
  unfold settleTie
  rw [← hfind]
  generalize tied.filter Action.isReduce = reduces at hreduces
  generalize tied'.filter Action.isReduce = reduces' at hreduces
  generalize tied.find? Action.isShift = shift
  rcases reduces with _ | ⟨reduce, _ | ⟨second, rest⟩⟩
  · rw [hreduces.nil_eq]
  · rw [List.perm_singleton.1 hreduces.symm]
  · -- With several reductions on both sides only the shift counts.
    obtain ⟨reduce', second', rest', rfl⟩ : ∃ a b l, reduces' = a :: b :: l := by
      have hlength := hreduces.length_eq
      rcases reduces' with _ | ⟨a, _ | ⟨b, l⟩⟩
      · simp at hlength
      · simp at hlength
      · exact ⟨a, b, l, rfl⟩
    cases associativity
    · rfl
    · rfl
    · cases shift <;> rfl

/-- The choice does not depend on the order of candidates. -/
theorem choose_perm {candidates candidates' : List Candidate} (h : candidates.Perm candidates')
    (hone : OneShift (candidates.map Candidate.action)) (la : Lookahead) :
    g.choose candidates la = g.choose candidates' la := by
  unfold choose
  rw [min?_eq_of_perm (h.map Candidate.rank)]
  split
  · rfl
  · next tightest _ =>
    have htied := (h.filter fun c => c.rank == tightest).map Candidate.action
    have hone' : OneShift ((candidates.filter fun c => c.rank == tightest).map Candidate.action) :=
      fun a ha b hb => hone a (List.map_subset _ (List.filter_subset_self _) ha) b
        (List.map_subset _ (List.filter_subset_self _) hb)
    generalize (candidates.filter fun c => c.rank == tightest).map Candidate.action = tied
      at htied hone'
    generalize (candidates'.filter fun c => c.rank == tightest).map Candidate.action = tied'
      at htied
    have hsettle := settleTie_perm (g.associativity tightest) htied hone' la
    rcases tied with _ | ⟨only, _ | ⟨second, rest⟩⟩
    · rw [htied.nil_eq]
    · rw [List.perm_singleton.1 htied.symm]
    · have hlength := htied.length_eq
      rcases tied' with _ | ⟨only', _ | ⟨second', rest'⟩⟩
      · simp at hlength
      · simp at hlength
      · exact hsettle

/-- There is at most one shift among the candidates of a cell. -/
theorem oneShift_candidates (g : Grammar α) (c : Collection) (s : Lookaheads) (q : Nat)
    (la : Lookahead) : OneShift ((g.candidates c s q la).map Candidate.action) := by
  have hshift : ∀ a ∈ (g.candidates c s q la).map Candidate.action, a.isShift = true →
      ∃ candidate, g.shiftCandidate? c q la = some candidate ∧ a = candidate.action := by
    intro a ha hshift
    obtain ⟨candidate, hmem, rfl⟩ := List.mem_map.1 ha
    rcases List.mem_append.1 hmem with hmem | hmem
    · exact ⟨candidate, Option.mem_toList.1 hmem, rfl⟩
    · obtain ⟨x, -, -, -, hreduce⟩ := mem_reduceCandidates hmem
      rw [hreduce] at hshift
      cases hshift
  intro a ha b hb hashift hbshift
  obtain ⟨candidate, hcandidate, rfl⟩ := hshift a ha hashift
  obtain ⟨candidate', hcandidate', rfl⟩ := hshift b hb hbshift
  rw [hcandidate] at hcandidate'
  rw [Option.some.inj hcandidate']

end Grammar

/-! ## Conflicts by cells -/

namespace Table

theorem mem_rowConflicts {row : List Action} {q : Nat} {c : Conflict} :
    c ∈ rowConflicts (row, q) ↔
      c.state = q ∧ ∃ a ∈ row, a.conflict? = some (c.kind, c.lookahead) := by
  simp only [rowConflicts, List.mem_filterMap, Option.map_eq_some_iff, Prod.exists]
  constructor
  · rintro ⟨a, ha, kind, la, hconflict, rfl⟩
    exact ⟨rfl, a, ha, hconflict⟩
  · rintro ⟨rfl, a, ha, hconflict⟩
    exact ⟨a, ha, c.kind, c.lookahead, hconflict, rfl⟩

/-- Every conflict is about the lookahead of its column. -/
def Labelled (t : Table) : Prop :=
  ∀ row ∈ t.rows, ∀ (col : Nat) (a : Action) (kind : ConflictKind) (la : Lookahead),
    row[col]? = some a → a.conflict? = some (kind, la) → la = lookaheadOf col

namespace Labelled

variable {t : Table}

/-- The conflicts are those that the cells hold. -/
theorem mem_conflicts (h : t.Labelled) {c : Conflict} :
    c ∈ t.conflicts ↔ (t.action c.state c.lookahead).conflict? = some (c.kind, c.lookahead) := by
  simp only [conflicts, List.mem_flatMap, Prod.exists, List.mk_mem_zipIdx_iff_getElem?,
    mem_rowConflicts]
  constructor
  · rintro ⟨row, q, hrow, rfl, a, ha, hconflict⟩
    obtain ⟨col, hcol⟩ := List.getElem?_of_mem ha
    have hla := h row (List.mem_of_getElem? hrow) col a _ _ hcol hconflict
    rw [action_eq_of_row hrow (by rw [hla, column_lookaheadOf]; exact hcol), hconflict]
  · intro hconflict
    rcases t.action_mem_or_eq_error c.state c.lookahead with ⟨row, hrow, ha⟩ | herror
    · exact ⟨row, c.state, hrow, rfl, _, List.mem_of_getElem? ha, hconflict⟩
    · rw [herror] at hconflict
      cases hconflict

/-- The conflicts come by state and then by column. -/
theorem pairwise_conflicts (h : t.Labelled) :
    t.conflicts.Pairwise fun c d =>
      c.state < d.state ∨ c.state = d.state ∧ column c.lookahead < column d.lookahead := by
  rw [conflicts, List.flatMap, List.pairwise_flatten, List.forall_mem_map, List.pairwise_map]
  constructor
  · rintro ⟨row, q⟩ hrow
    have hmem : row ∈ t.rows := List.mem_of_getElem? (List.mk_mem_zipIdx_iff_getElem?.1 hrow)
    rw [rowConflicts, List.pairwise_filterMap, List.pairwise_iff_getElem]
    intro i j hi hj hij c hc d hd
    obtain ⟨⟨kind, la⟩, hconflict, rfl⟩ := Option.map_eq_some_iff.1 hc
    obtain ⟨⟨kind', la'⟩, hconflict', rfl⟩ := Option.map_eq_some_iff.1 hd
    have hla := h row hmem i _ kind la (List.getElem?_eq_getElem hi) hconflict
    have hla' := h row hmem j _ kind' la' (List.getElem?_eq_getElem hj) hconflict'
    refine Or.inr ⟨rfl, ?_⟩
    rwa [hla, hla', column_lookaheadOf, column_lookaheadOf]
  · rw [List.pairwise_iff_getElem]
    intro i j hi hj hij c hc d hd
    simp only [List.getElem_zipIdx, mem_rowConflicts] at hc hd
    omega

/-- No cell is reported twice. -/
theorem nodup_conflicts (h : t.Labelled) : t.conflicts.Nodup := by
  refine h.pairwise_conflicts.imp ?_
  rintro c d hlt rfl
  omega

end Labelled

end Table

namespace Grammar

variable {α : Type} {g : Grammar α}

theorem lookahead_of_conflict_settleTie {associativity : Associativity} {tied : List Action}
    {la la' : Lookahead} {kind : ConflictKind}
    (h : (settleTie associativity tied la).conflict? = some (kind, la'))
    (hin : ∀ a ∈ tied, a.conflict? = none) : la' = la := by
  rcases settleTie_cases associativity tied la with hmem | hmade | hmade
  · rw [hin _ hmem] at h
    cases h
  · rw [hmade] at h
    cases h
    rfl
  · rw [hmade] at h
    cases h
    rfl

theorem lookahead_of_conflict_choose {candidates : List Candidate} {la la' : Lookahead}
    {kind : ConflictKind} (h : (g.choose candidates la).conflict? = some (kind, la'))
    (hin : ∀ c ∈ candidates, c.action.conflict? = none) : la' = la := by
  unfold choose at h
  split at h
  · cases h
  · next tightest _ =>
    have htied : ∀ a ∈ (candidates.filter fun c => c.rank == tightest).map Candidate.action,
        a.conflict? = none := by
      intro a ha
      obtain ⟨c, hc, rfl⟩ := List.mem_map.1 ha
      exact hin c (List.mem_filter.1 hc).1
    split at h
    · next only honly =>
      rw [honly] at htied
      rw [htied only List.mem_cons_self] at h
      cases h
    · exact lookahead_of_conflict_settleTie h htied

theorem labelled_automaton (g : Grammar α) : g.automaton.table.Labelled := by
  intro row hrow col a kind la hcol hconflict
  rw [g.table_automaton] at hrow
  obtain ⟨q, -, rfl⟩ := List.mem_map.1 hrow
  rw [List.getElem?_map, Option.map_eq_some_iff] at hcol
  obtain ⟨i, hi, rfl⟩ := hcol
  obtain ⟨hlt, rfl⟩ := List.getElem?_eq_some_iff.1 hi
  rw [List.getElem_range] at hconflict
  refine lookahead_of_conflict_choose hconflict fun c hc => ?_
  rcases shift_or_reduce_of_mem_candidates hc with ⟨_, _, -, -, hshift⟩ | ⟨_, -, -, -, hreduce⟩
  · rw [hshift]
    rfl
  · rw [hreduce]
    rfl

end Grammar

end ShiftReduce
