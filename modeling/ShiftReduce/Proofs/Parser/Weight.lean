import ShiftReduce.Proofs.Parser.Budget

/-!
# Runs that come to an end

There are no more shifts in a run than tokens, so a run ends if there are only so many reductions
between two shifts.  This is so when stacks of symbols can be measured such that every reduction
takes the measure down.  One way to measure a stack is by weights of the symbols, when every rule
has more weight on its right side than on its left.

* `Cfg.Descends`: reductions take the measure down;
* `Cfg.Weighted`: the weights do so;
* `Parser.exists_ends_of_settles`: runs end if stacks settle;
* `Parser.exists_ends`: every run ends, whatever its source and whatever the hooks return;
* `Parser.Counts`, `Parser.Counts.reductions_le`: how many reductions there are before a shift.
-/

namespace ShiftReduce

namespace Cfg

variable {g : Cfg}

/-- The measure of a stack, its last symbol first, goes down when the right side of a rule is
replaced with its left side. -/
def Descends (g : Cfg) (measure : List Nat → Nat) : Prop :=
  ∀ rule ∈ g.rules, ∀ below, measure (rule.left :: below) < measure (rule.right.reverse ++ below)

/-- Every rule has more weight on its right side than on its left. -/
def Weighted (g : Cfg) (weight : Nat → Nat) : Prop :=
  ∀ rule ∈ g.rules, weight rule.left < (rule.right.map weight).sum

theorem Weighted.descends {weight : Nat → Nat} (h : g.Weighted weight) :
    g.Descends fun symbols => (symbols.map weight).sum := by
  intro rule hrule below
  have hweight := h rule hrule
  simp only [List.map_cons, List.sum_cons, List.map_append, List.sum_append, List.map_reverse,
    List.sum_reverse]
  omega

end Cfg

namespace Parser

variable {α ε : Type} {p : Parser α} {measure : List Nat → Nat}

/-! ## Runs that end -/

/-- Where the states on the stack settle, the run goes through the reductions up to the next shift
or the end of the run. -/
theorem exists_settled {la : Lookahead} {n : Nat} {σ : List Nat}
    (hn : StopsIn (p.restack la) n σ) {c : Config α ε} {symbols : List Nat}
    (hla : c.lookahead = la) (hσ : statesOf c = σ) (hc : c.Over p.grammar.cfg symbols) :
    ∃ (d : Config α ε) (symbols' : List Nat), d.Over p.grammar.cfg symbols' ∧
      d.window = c.window ∧ p.restack d.lookahead (statesOf d) = none ∧
      ∀ o, p.Ends (.next d) o → p.Ends (.next c) o := by
  induction hn generalizing c symbols with
  | here hnone => exact ⟨c, symbols, hc, rfl, by rw [hla, hσ, hnone], fun _ ho => ho⟩
  | next hsome _ ih =>
    rw [← hla, ← hσ] at hsome
    obtain ⟨d, hstep, hstates, hwindow⟩ := step_of_restack_eq_some hsome
    obtain ⟨symbols', hd⟩ := over_of_step hc hstep
    have hlookahead : d.lookahead = la := (congrArg Window.lookahead hwindow).trans hla
    obtain ⟨e, symbols'', he, hwindow', hnone, hends⟩ := ih hlookahead hstates hd
    exact ⟨e, symbols'', he, hwindow'.trans hwindow, hnone, fun o ho => .next (hstep ▸ hends o ho)⟩

/-- If the stacks on all paths settle, the run goes on to an end from every configuration. -/
theorem exists_ends_of_over (hsettles : ∀ la states symbols,
      p.grammar.cfg.Path states symbols → Settles (p.restack la) states)
    {pulls : Nat} {c : Config α ε} {symbols : List Nat} (hc : c.Over p.grammar.cfg symbols)
    (hpulls : c.window.pulls ≤ pulls) : ∃ o, p.Ends (.next c) o := by
  induction pulls using Nat.strongRecOn generalizing c symbols with
  | _ pulls ih =>
    obtain ⟨n, hn⟩ := hsettles c.lookahead (statesOf c) symbols hc
    obtain ⟨d, symbols', hd, hwindow, hnone, hends⟩ := exists_settled hn rfl rfl hc
    suffices h : ∃ o, p.Ends (p.step d) o from h.imp fun o ho => hends o (.next ho)
    rcases step_of_restack_eq_none hnone with ⟨o, hstep⟩ | ⟨symbol, target, hla, -, hshift⟩
    · exact ⟨o, hstep ▸ .halt⟩
    · rw [hshift]
      cases hstep : shiftStep d target with
      | halt o => exact ⟨o, .halt⟩
      | next e =>
        -- A shift leaves less of the source.
        have hfewer := (statesOf_of_shiftStep hla hstep).2
        rw [hwindow] at hfewer
        obtain ⟨symbols'', he⟩ := over_of_step hd (hshift.trans hstep)
        exact ih e.window.pulls (by omega) he (Nat.le_refl _)

/-- Then every run ends. -/
theorem exists_ends_of_settles (hsettles : ∀ la states symbols,
      p.grammar.cfg.Path states symbols → Settles (p.restack la) states)
    (source : List (Pull α ε)) : ∃ o, p.Ends (start source) o := by
  cases hstart : start source with
  | halt o => exact ⟨o, .halt⟩
  | next c => exact exists_ends_of_over hsettles (over_of_start hstart _) (Nat.le_refl _)

/-! ## Reductions that take a measure down -/

/-- What a reduction makes of the states on a path. -/
theorem path_of_restack {la : Lookahead} {states symbols τ : List Nat}
    (h : p.grammar.cfg.Path states symbols) (hτ : p.restack la states = some τ) :
    ∃ rule ∈ p.grammar.cfg.rules, ∃ below, symbols = rule.right.reverse ++ below ∧
      p.grammar.cfg.Path τ (rule.left :: below) := by
  obtain ⟨production, rule, target, haction, hrule, -, -, hgoto, rfl⟩ :=
    restack_eq_some_iff.1 hτ
  obtain ⟨rule', hrule', hdone⟩ := p.mem_lookaheads_of_reduce haction
  rw [hrule] at hrule'
  cases hrule'
  have hmem : rule ∈ p.grammar.cfg.rules := List.mem_of_getElem? hrule
  rw [p.goto?_table (Cfg.isNonterminal_left hmem)] at hgoto
  obtain ⟨-, htake, -⟩ := h.pop hrule (Cfg.proper_of_mem hdone).1
  rw [List.take_length] at htake
  refine ⟨rule, hmem, symbols.drop rule.right.length, ?_, .enter (h.drop _) hgoto⟩
  rw [← htake, List.take_append_drop]

theorem path_of_changes {la : Lookahead} {states symbols τ : List Nat}
    (h : p.grammar.cfg.Path states symbols) (hτ : Changes (p.restack la) states τ) :
    ∃ symbols', p.grammar.cfg.Path τ symbols' := by
  induction hτ with
  | refl => exact ⟨symbols, h⟩
  | tail _ hstep ih =>
    obtain ⟨symbols', h'⟩ := ih
    obtain ⟨rule, -, below, -, hpath⟩ := path_of_restack h' hstep
    exact ⟨rule.left :: below, hpath⟩

/-- A reduction takes the measure of the stack down. -/
theorem Reduces.measure_lt (hd : p.grammar.cfg.Descends measure) {c : Config α ε}
    {symbols : List Nat} {production : Nat} {rule : Rule}
    (hr : p.Reduces c symbols production rule) :
    measure (rule.left :: symbols.drop rule.right.length) < measure symbols := by
  have hlt := hd rule (List.mem_of_getElem? hr.rule_eq) (symbols.drop rule.right.length)
  rwa [← hr.right_eq, List.take_append_drop] at hlt

/-- A stack settles when reductions take its measure down. -/
theorem settles_of_descends (hd : p.grammar.cfg.Descends measure) {la : Lookahead}
    {states symbols : List Nat} (h : p.grammar.cfg.Path states symbols) :
    Settles (p.restack la) states := by
  generalize hm : measure symbols = m
  induction m using Nat.strongRecOn generalizing states symbols with
  | _ m ih =>
    cases hτ : p.restack la states with
    | none => exact ⟨0, .here hτ⟩
    | some τ =>
      obtain ⟨rule, hrule, below, rfl, hpath⟩ := path_of_restack h hτ
      obtain ⟨n, hn⟩ := ih _ (hm ▸ hd rule hrule below) hpath rfl
      exact ⟨n + 1, .next hτ hn⟩

/-- Every run ends. -/
theorem exists_ends (hd : p.grammar.cfg.Descends measure) (source : List (Pull α ε)) :
    ∃ o, p.Ends (start source) o :=
  exists_ends_of_settles (fun _ _ _ => settles_of_descends hd) source

/-! ## Reductions before a shift -/

/-- A run that has come to this step has counted so much here or further on, up to its end. -/
inductive Counts (p : Parser α) : Step α ε → Stats → Prop
  | here {c : Config α ε} : Counts p (.next c) c.stats
  | halt {o : Outcome α ε} : Counts p (.halt o) o.stats
  | next {c : Config α ε} {stats : Stats} (h : Counts p (p.step c) stats) :
    Counts p (.next c) stats

theorem counts_halt_iff {o : Outcome α ε} {stats : Stats} :
    p.Counts (.halt o) stats ↔ stats = o.stats := by
  constructor
  · rintro ⟨⟩
    rfl
  · rintro rfl
    exact .halt

/-- A shift is counted even when the source fails on the next pull. -/
theorem stats_of_shiftStep_eq_halt {c : Config α ε} {target : Nat} {o : Outcome α ε}
    (h : shiftStep c target = .halt o) : o.stats.shifts = c.stats.shifts + 1 := by
  unfold shiftStep Config.advance at h
  split at h
  · cases h
  · cases h
  · cases h
    rfl

/-- As long as no further shift is counted, there are no more reductions than the measure of the
stack says. -/
theorem Counts.reductions_le (hd : p.grammar.cfg.Descends measure) {s : Step α ε} {stats : Stats}
    (h : p.Counts s stats) {c : Config α ε} {symbols : List Nat} (hs : s = .next c)
    (hc : c.Over p.grammar.cfg symbols) :
    c.stats.shifts ≤ stats.shifts ∧ (stats.shifts = c.stats.shifts →
      stats.reductions ≤ c.stats.reductions + measure symbols) := by
  induction h generalizing c symbols with
  | here =>
    cases hs
    exact ⟨Nat.le_refl _, fun _ => Nat.le_add_right _ _⟩
  | halt => cases hs
  | @next c' stats hcounts ih =>
    cases hs
    rcases step_cases_of_over hc with ⟨-, herror⟩ | ⟨symbol, target, -, -, hgoto, -, hshift⟩ |
      ⟨production, rule, -, hr, ⟨-, -, haccept⟩ | ⟨target, hgoto, hreduce⟩⟩
    · rw [herror] at hcounts
      rw [counts_halt_iff.1 hcounts]
      exact ⟨Nat.le_refl _, fun _ => Nat.le_add_right _ _⟩
    · -- here one more shift is counted, and never taken back
      rw [hshift] at hcounts ih
      cases hstep : shiftStep c' target with
      | halt o =>
        rw [hstep] at hcounts
        have hshifts := stats_of_shiftStep_eq_halt hstep
        rw [counts_halt_iff.1 hcounts]
        omega
      | next d =>
        obtain ⟨-, hshifts, -⟩ := shiftStep_eq_next hstep
        obtain ⟨hle, -⟩ := ih hstep (over_of_shiftStep hc hgoto hstep)
        omega
    · have hlower := hr.measure_lt hd
      rw [haccept] at hcounts
      rw [counts_halt_iff.1 hcounts]
      refine ⟨Nat.le_refl _, fun _ => ?_⟩
      show c'.stats.reductions + 1 ≤ c'.stats.reductions + measure symbols
      omega
    · have hlower := hr.measure_lt hd
      obtain ⟨hle, hreductions⟩ := ih hreduce (Reduces.over_after hc hgoto)
      refine ⟨hle, fun heq => ?_⟩
      have hbound : stats.reductions ≤ c'.stats.reductions + 1 +
        measure (rule.left :: symbols.drop rule.right.length) := hreductions heq
      omega

end Parser

end ShiftReduce
