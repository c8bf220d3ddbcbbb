import ShiftReduce.Proofs.Parser.Safety
import ShiftReduce.Proofs.Stacks

/-!
# The budget of a run is enough

A whole run over a source is cut off after a number of steps.  That number is never reached by a run
that ends at all.  Between two shifts the stack of states changes in the way of `Local`, so there
are fewer reductions than stacks that can come up; a shift adds one state to the stack and takes one
token from the source.

* `Parser.restack`: what a reduction does to the states on the stack;
* `Parser.exists_stretch`: the reductions up to the next shift or the end of the run;
* `Window.pulls`: how many tokens can still be shifted;
* `Parser.parse_eq_iff_ends`: a whole run gives an outcome just when the run ends with it.
-/

namespace ShiftReduce

/-! ## What is left of a source -/

namespace Window

variable {α ε : Type}

/-- The answers that have not been pulled, and the token in sight if it can be shifted. -/
def pulls (w : Window α ε) : Nat := w.rest.length + if w.lookahead.isSome then 1 else 0

theorem pulls_advance_le {w w' : Window α ε} {pulled : Bool}
    (h : w.advance = (w', .ok pulled)) : w'.pulls ≤ w.rest.length := by
  have hend : ∀ rest : List (Pull α ε),
      (⟨rest, some Tree.endOfInput, true⟩ : Window α ε).pulls = rest.length := fun _ => rfl
  unfold Window.advance at h
  split at h
  · cases h
    exact Nat.le_refl _
  · split at h
    · next t rest hrest =>
      cases h
      rw [hrest, List.length_cons, pulls]
      split
      · exact Nat.le_refl _
      · exact Nat.le_succ _
    · cases h
    · next rest hrest =>
      cases h
      rw [hrest, hend]
      exact Nat.le_succ _
    · next hrest =>
      cases h
      rw [hrest, hend]

end Window

namespace Parser

variable {α ε : Type} {p : Parser α}

/-! ## Reductions on stacks of states -/

/-- What a reduction under a lookahead makes of the states on the stack, unless it accepts. -/
def restack (p : Parser α) (la : Lookahead) (states : List Nat) : Option (List Nat) :=
  match p.actionFor (states.headD 0) la with
  | .reduce production =>
    match p.grammar.cfg.rules[production]? with
    | none => none
    | some rule =>
      if states.length < rule.right.length then none
      else if rule.left == 0 && (states.drop rule.right.length).isEmpty then none
      else
        (p.table.goto? ((states.drop rule.right.length).headD 0) rule.left).map
          (· :: states.drop rule.right.length)
  | _ => none

theorem restack_eq_some_iff {la : Lookahead} {σ τ : List Nat} :
    p.restack la σ = some τ ↔ ∃ production rule target,
      p.actionFor (σ.headD 0) la = .reduce production ∧
      p.grammar.cfg.rules[production]? = some rule ∧ rule.right.length ≤ σ.length ∧
      (rule.left == 0 && (σ.drop rule.right.length).isEmpty) = false ∧
      p.table.goto? ((σ.drop rule.right.length).headD 0) rule.left = some target ∧
      τ = target :: σ.drop rule.right.length := by
  constructor
  · intro h
    unfold restack at h
    split at h
    · next production haction =>
      split at h
      · cases h
      · next rule hrule =>
        split at h
        · cases h
        · next hlength =>
          split at h
          · cases h
          · next haccept =>
            obtain ⟨target, hgoto, rfl⟩ := Option.map_eq_some_iff.1 h
            exact ⟨production, rule, target, haction, hrule, Nat.not_lt.1 hlength,
              Bool.eq_false_iff.2 haccept, hgoto, rfl⟩
    · cases h
  · rintro ⟨production, rule, target, haction, hrule, hlength, haccept, hgoto, rfl⟩
    unfold restack
    simp only [haction, hrule, if_neg (Nat.not_lt.2 hlength), haccept, hgoto]
    rfl

theorem headD_append_cons (u : List Nat) (s : Nat) (ρ : List Nat) :
    (u ++ s :: ρ).headD 0 = u.headD s := by
  cases u <;> rfl

/-- A reduction only looks at what it lays bare. -/
theorem local_restack (p : Parser α) (la : Lookahead) :
    Local (p.restack la) p.grammar.cfg.collection.states.size where
  pushes σ τ h := by
    obtain ⟨production, rule, target, -, hrule, -, -, hgoto, rfl⟩ := restack_eq_some_iff.1 h
    rw [p.goto?_table (Cfg.isNonterminal_left (List.mem_of_getElem? hrule))] at hgoto
    exact ⟨target, (Cfg.goto?_lt hgoto).2.2, rule.right.length, rfl⟩
  above u s ρ τ h hbelow := by
    obtain ⟨production, rule, target, haction, hrule, hlength, -, hgoto, rfl⟩ :=
      restack_eq_some_iff.1 h
    have hle : rule.right.length ≤ u.length := by
      have hsuffix := hbelow.length_le
      rw [List.tail_cons, List.length_drop, List.length_append, List.length_cons] at hsuffix
      rw [List.length_append, List.length_cons] at hlength
      omega
    have hdrop : ∀ ρ', (u ++ s :: ρ').drop rule.right.length =
        u.drop rule.right.length ++ s :: ρ' := by
      intro ρ'
      rw [List.drop_append, Nat.sub_eq_zero_of_le hle, List.drop_zero]
    rw [hdrop] at hgoto
    refine ⟨target, u.drop rule.right.length, by rw [hdrop]; rfl, ?_⟩
    intro ρ'
    refine restack_eq_some_iff.2 ⟨production, rule, target, ?_, hrule, ?_, ?_, ?_, ?_⟩
    · rw [headD_append_cons] at haction ⊢
      exact haction
    · rw [List.length_append]
      omega
    · rw [hdrop]
      simp
    · rw [hdrop, headD_append_cons]
      rw [headD_append_cons] at hgoto
      exact hgoto
    · rw [hdrop]
      rfl

/-- The states on the stack of a configuration. -/
def statesOf (c : Config α ε) : List Nat := c.stack.map Frame.state

/-- A shift enters one more state and uses up the token in sight. -/
theorem statesOf_of_shiftStep {c d : Config α ε} {symbol target : Nat}
    (hla : c.lookahead = some symbol) (h : shiftStep c target = .next d) :
    statesOf d = target :: statesOf c ∧ d.window.pulls < c.window.pulls := by
  obtain ⟨hstack, -, -, pulled, hadvance⟩ := shiftStep_eq_next h
  have hsight : c.window.pulls = c.window.taken.rest.length + 1 := by
    have hsome : c.window.lookahead = some symbol := hla
    rw [Window.pulls, hsome]
    rfl
  refine ⟨by simp [statesOf, hstack], ?_⟩
  rw [hsight]
  exact Nat.lt_succ_of_le (Window.pulls_advance_le hadvance)

/-- Where the states can be restacked the step does so, and what is in sight stays there. -/
theorem step_of_restack_eq_some {c : Config α ε} {τ : List Nat}
    (h : p.restack c.lookahead (statesOf c) = some τ) :
    ∃ d, p.step c = .next d ∧ statesOf d = τ ∧ d.window = c.window := by
  obtain ⟨production, rule, target, haction, hrule, hlength, haccept, hgoto, rfl⟩ :=
    restack_eq_some_iff.1 h
  have hstate : c.state = (statesOf c).headD 0 := topState_eq c.stack
  rw [statesOf, List.length_map] at hlength
  rw [statesOf, ← List.map_drop] at haccept hgoto
  rw [← topState_eq] at hgoto
  rw [List.isEmpty_map] at haccept
  refine ⟨Reduces.after p c production rule target, ?_, ?_, rfl⟩
  · unfold step
    rw [hstate, haction]
    simp only [reduceStep, hrule, if_neg (Nat.not_lt.2 hlength), haccept, hgoto]
    rfl
  · simp [statesOf, Reduces.after, List.map_drop]

/-- A reduction that goes on restacks the states. -/
theorem restack_of_reduceStep {c d : Config α ε} {production : Nat}
    (haction : p.actionFor c.state c.lookahead = .reduce production)
    (h : p.reduceStep c production = .next d) :
    p.restack c.lookahead (statesOf c) = some (statesOf d) := by
  have hstate : c.state = (statesOf c).headD 0 := topState_eq c.stack
  rw [hstate] at haction
  unfold reduceStep at h
  split at h
  · cases h
  · next rule hrule =>
    dsimp only at h
    split at h
    · cases h
    · next hlength =>
      split at h
      · cases h
      · next haccept =>
        split at h
        · cases h
        · next target hgoto =>
          cases h
          refine restack_eq_some_iff.2 ⟨production, rule, target, haction, hrule, ?_, ?_, ?_, ?_⟩
          · simpa [statesOf] using hlength
          · rw [statesOf, ← List.map_drop, List.isEmpty_map]
            exact Bool.eq_false_iff.2 haccept
          · rw [statesOf, ← List.map_drop, ← topState_eq]
            exact hgoto
          · simp [statesOf, List.map_drop]

/-- Where they cannot, the step shifts or ends the run. -/
theorem step_of_restack_eq_none {c : Config α ε}
    (h : p.restack c.lookahead (statesOf c) = none) :
    (∃ o, p.step c = .halt o) ∨
      ∃ symbol target, c.lookahead = some symbol ∧
        target < p.grammar.cfg.collection.states.size ∧ p.step c = shiftStep c target := by
  rcases p.step_cases c with
    ⟨-, hstep⟩ | ⟨symbol, target, hla, -, hgoto, -, hstep⟩ | ⟨x, -, -, -, haction, hstep⟩
  · exact Or.inl ⟨_, hstep⟩
  · exact Or.inr ⟨symbol, target, hla, (Cfg.goto?_lt hgoto).2.2, hstep⟩
  · cases hreduce : p.reduceStep c x.item.production with
    | halt o => exact Or.inl ⟨o, hstep.trans hreduce⟩
    | next d =>
      rw [restack_of_reduceStep haction hreduce] at h
      cases h

/-! ## Stretches of reductions -/

theorem Ends.unique {s : Step α ε} {o o' : Outcome α ε} (h : p.Ends s o) (h' : p.Ends s o') :
    o = o' := by
  induction h with
  | halt =>
    cases h'
    rfl
  | next _ ih =>
    cases h' with
    | next h' => exact ih h'

/-- From a run that ends, the reductions up to the next shift or the end of the run: they stop, and
the run goes on from where they lead. -/
theorem exists_stretch {s : Step α ε} {o : Outcome α ε} (h : p.Ends s o) {c : Config α ε}
    (hs : s = .next c) :
    ∃ n d, StopsIn (p.restack c.lookahead) n (statesOf c) ∧
      Changes (p.restack c.lookahead) (statesOf c) (statesOf d) ∧ d.window = c.window ∧
      p.restack d.lookahead (statesOf d) = none ∧ p.Ends (.next d) o ∧
      ∀ fuel, p.run (n + fuel) c = p.run fuel d := by
  induction h generalizing c with
  | halt => cases hs
  | @next c' o hends ih =>
    obtain rfl : c' = c := Step.next.inj hs
    cases hrestack : p.restack c'.lookahead (statesOf c') with
    | none =>
      refine ⟨0, c', .here hrestack, .refl, rfl, hrestack, .next hends, ?_⟩
      intro fuel
      rw [Nat.zero_add]
    | some τ =>
      obtain ⟨d, hstep, hstates, hwindow⟩ := step_of_restack_eq_some hrestack
      have hla : d.lookahead = c'.lookahead := by rw [Config.lookahead, hwindow]; rfl
      obtain ⟨n, e, hstops, hchanges, hwindow', hnone, hends', hrun⟩ := ih hstep
      rw [hla, hstates] at hstops hchanges
      refine ⟨n + 1, e, .next hrestack hstops, hchanges.head hrestack, hwindow'.trans hwindow,
        hnone, hends', ?_⟩
      intro fuel
      have hsucc : n + 1 + fuel = (n + fuel) + 1 := by omega
      rw [hsucc, run, hstep]
      exact hrun fuel

/-! ## Whole runs -/

/-- Steps for all stretches of a run that still has so many tokens to shift. -/
theorem run_eq_of_ends {pulls height : Nat} {c : Config α ε} {o : Outcome α ε}
    (h : p.Ends (.next c) o) (hpulls : c.window.pulls ≤ pulls)
    (hlt : ∀ q ∈ statesOf c, q < p.grammar.cfg.collection.states.size)
    (hheight : (statesOf c).length +
      (pulls + 1) * (p.grammar.cfg.collection.states.size + 1) ≤ height)
    {fuel : Nat}
    (hfuel : (pulls + 1) * (p.grammar.cfg.collection.states.size + 1) ^ height ≤ fuel) :
    p.run fuel c = o := by
  induction pulls using Nat.strongRecOn generalizing c fuel with
  | _ pulls ih =>
    obtain ⟨n, d, hstops, hchanges, hwindow, hnone, hends, hrun⟩ := exists_stretch h rfl
    have hlocal := p.local_restack c.lookahead
    obtain ⟨hdlt, hdle⟩ := hstops.length_le hlocal hlt hchanges
    have hn := hstops.lt_pow hlocal hlt
    have hlast := step_of_restack_eq_none hnone
    generalize p.grammar.cfg.collection.states.size = count
      at hlt hheight hfuel hdlt hdle hn ih hlast
    have hrows : (pulls + 1) * (count + 1) = pulls * (count + 1) + (count + 1) :=
      Nat.succ_mul pulls (count + 1)
    have hpow : (count + 1) ^ ((statesOf c).length + count) ≤ (count + 1) ^ height :=
      Nat.pow_le_pow_right (Nat.succ_pos count) (by omega)
    have hsteps : (pulls + 1) * (count + 1) ^ height =
        pulls * (count + 1) ^ height + (count + 1) ^ height :=
      Nat.succ_mul pulls ((count + 1) ^ height)
    obtain ⟨rest, rfl⟩ : ∃ rest, fuel = n + (rest + 1) := ⟨fuel - n - 1, by omega⟩
    rw [hrun, run]
    cases hends with
    | next hends =>
      rcases hlast with ⟨o', hstep⟩ | ⟨symbol, target, hla, htarget, hstep⟩
      · rw [hstep] at hends ⊢
        exact (hends.unique .halt).symm
      · rw [hstep] at hends ⊢
        cases hshift : shiftStep d target with
        | halt o' =>
          rw [hshift] at hends
          exact (hends.unique .halt).symm
        | next e =>
          rw [hshift] at hends
          obtain ⟨hstates, hfewer⟩ := statesOf_of_shiftStep hla hshift
          rw [← hwindow] at hpulls
          obtain ⟨k, rfl⟩ : ∃ k, pulls = k + 1 := ⟨pulls - 1, by omega⟩
          refine ih k (Nat.lt_succ_self k) hends (by omega) ?_ ?_ (by omega)
          · intro q hq
            rw [hstates] at hq
            rcases List.mem_cons.1 hq with rfl | hq
            · exact htarget
            · exact hdlt q hq
          · rw [hstates, List.length_cons]
            omega

theorem stateCount_eq (p : Parser α) :
    p.table.stateCount = p.grammar.cfg.collection.states.size := by
  rw [p.table_eq, p.grammar.table_automaton]
  simp [Table.stateCount, Grammar.tableOf]

/-- A whole run is never cut off if it ends at all. -/
theorem parse_eq_of_ends {source : List (Pull α ε)} {o : Outcome α ε}
    (h : p.Ends (start source) o) : p.parse source = o := by
  unfold parse
  cases hstart : start source with
  | halt o' =>
    rw [hstart] at h
    exact (h.unique .halt).symm
  | next c =>
    rw [hstart] at h
    obtain ⟨hstack, -, -, pulled, hadvance⟩ := Config.advance_eq_next hstart
    have hnil : statesOf c = [] := by rw [statesOf, hstack]; rfl
    have hpulls : c.window.pulls ≤ source.length := Window.pulls_advance_le hadvance
    refine run_eq_of_ends h hpulls (by simp [hnil]) (Nat.le_of_eq (by rw [hnil])) ?_
    rw [budget, p.stateCount_eq]
    generalize p.grammar.cfg.collection.states.size = count
    have hbase : count + 1 ≤ p.grammar.cfg.symbolCount + (count + 2) := by omega
    have hheight : ([] : List Nat).length + (source.length + 1) * (count + 1) ≤
        (source.length + 2) * (count + 2) := by
      rw [List.length_nil, Nat.zero_add]
      exact Nat.mul_le_mul (by omega) (by omega)
    have hpow : (count + 1) ^ (([] : List Nat).length + (source.length + 1) * (count + 1)) ≤
        (p.grammar.cfg.symbolCount + (count + 2)) ^ ((source.length + 2) * (count + 2)) :=
      Nat.le_trans (Nat.pow_le_pow_left hbase _) (Nat.pow_le_pow_right (by omega) hheight)
    exact Nat.mul_le_mul (by omega) hpow

/-- A whole run gives an outcome just when the run, however long it is, ends with it. -/
theorem parse_eq_iff_ends {source : List (Pull α ε)} {o : Outcome α ε}
    (ho : ∀ stats unread, o ≠ ⟨.unfinished, stats, unread⟩) :
    p.parse source = o ↔ p.Ends (start source) o :=
  ⟨fun h => ends_of_parse h ho, parse_eq_of_ends⟩

end Parser

end ShiftReduce
