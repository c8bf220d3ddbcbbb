import ShiftReduce.Proofs.Parser.Completeness

/-!
# Runs over lists of tokens

Over a plain list of tokens a run always is at a configuration `Config.on`, and a step depends on
the stack and on the first token ahead only.  Hence two runs over lists with a common beginning do
the same until they have shifted it, and a run that ends has accepted or rejected.

* `Parser.step_on_cases`: what a step does, whatever comes after the first token;
* `Parser.Ends.verdict_on`: how such a run can end;
* `Parser.Ends.rejected_of_agree`: a rejection depends on the tokens up to the rejected one.
-/

namespace ShiftReduce.Parser

variable {α ε : Type} {p : Parser α}

/-! ## Steps -/

/-- A reduction either accepts or goes on, whatever tokens are ahead. -/
theorem reduceStep_on_cases {stack : List (Frame α)} {symbols : List Nat} {production : Nat}
    {rule : Rule} {s r : Nat} (h : p.grammar.cfg.Path (stack.map Frame.state) symbols)
    (hr : p.Reduces (Config.on stack [] s r : Config α ε) symbols production rule) :
    (∃ root, ∀ tokens, p.reduceStep (Config.on stack tokens s r : Config α ε) production =
      .halt ⟨.accepted root, ⟨s + min 1 tokens.length, s, r + 1⟩,
        (windowOn tokens : Window α ε).rest⟩) ∨
    ∃ stack' symbols', p.grammar.cfg.Path (stack'.map Frame.state) symbols' ∧
      ∀ tokens, p.reduceStep (Config.on stack tokens s r : Config α ε) production =
        .next (Config.on stack' tokens s (r + 1)) := by
  have hall : ∀ tokens, p.Reduces (Config.on stack tokens s r : Config α ε) symbols production
      rule := fun _ => ⟨hr.rule_eq, hr.length_le, hr.right_eq, hr.below⟩
  by_cases haccept : production = 0 ∧ stack.drop rule.right.length = []
  · obtain ⟨rfl, hdrop⟩ := haccept
    have hlength : stack.length = rule.right.length :=
      Nat.le_antisymm (List.drop_eq_nil_iff.1 hdrop) hr.length_le
    exact Or.inl ⟨_, fun tokens => reduceStep_accept hr.rule_eq hlength⟩
  · rcases hr.below with hzero | ⟨target, hgoto⟩
    · exact absurd hzero haccept
    · refine Or.inr ⟨(Reduces.after p (Config.on stack [] s r : Config α ε) production rule
        target).stack, _, Reduces.over_after (c := (Config.on stack [] s r : Config α ε)) h hgoto,
        fun tokens => ?_⟩
      rcases (hall tokens).reduceStep_cases with ⟨hzero, hdrop, -⟩ | ⟨target', hgoto', hnext⟩
      · exact absurd ⟨hzero, hdrop⟩ haccept
      · have heq : target = target' := Option.some.inj (hgoto.symm.trans hgoto')
        rw [hnext, heq]
        rfl

/-- A step rejects, or shifts, or accepts, or reduces; which of these it does, and what it leaves on
the stack, depends on the first token ahead but not on those after it. -/
theorem step_on_cases {stack : List (Frame α)} {symbols : List Nat}
    (h : p.grammar.cfg.Path (stack.map Frame.state) symbols) (head : Option (Tree α)) (s r : Nat) :
    (∀ tokens, tokens.head? = head → p.step (Config.on stack tokens s r : Config α ε) =
      .halt ⟨.rejected ((head.getD Tree.endOfInput).withState Tree.errorState),
        ⟨s + min 1 tokens.length, s, r⟩, (windowOn tokens : Window α ε).rest⟩) ∨
    (∃ t target symbol, head = some t ∧
      p.grammar.cfg.Path ((⟨target, stamp target t⟩ :: stack).map Frame.state)
        (symbol :: symbols) ∧
      ∀ ts, p.step (Config.on stack (t :: ts) s r : Config α ε) =
        .next (Config.on (⟨target, stamp target t⟩ :: stack) ts (s + 1) r)) ∨
    (∃ root, ∀ tokens, tokens.head? = head → p.step (Config.on stack tokens s r : Config α ε) =
      .halt ⟨.accepted root, ⟨s + min 1 tokens.length, s, r + 1⟩,
        (windowOn tokens : Window α ε).rest⟩) ∨
    ∃ stack' symbols', p.grammar.cfg.Path (stack'.map Frame.state) symbols' ∧
      ∀ tokens, tokens.head? = head → p.step (Config.on stack tokens s r : Config α ε) =
        .next (Config.on stack' tokens s (r + 1)) := by
  have hread : ∀ tokens : List (Tree α), tokens.head? = head →
      p.actionFor (Config.on stack tokens s r : Config α ε).state
          (Config.on stack tokens s r : Config α ε).lookahead =
        p.actionFor (topState stack) (head.bind Tree.symbol) := by
    intro tokens hhead
    rw [Config.state_on, Config.lookahead_on, hhead]
  rcases p.actionFor_cases (topState stack) (head.bind Tree.symbol) with
    herror | ⟨symbol, target, hla, hterminal, hgoto, hshift⟩ | ⟨x, hx, -, hcomplete, hreduce⟩
  · refine Or.inl fun tokens hhead => ?_
    unfold step
    rw [hread tokens hhead, herror, ← hhead]
    cases tokens <;> rfl
  · obtain ⟨t, rfl, hsymbol⟩ := Option.bind_eq_some_iff.1 hla
    refine Or.inr (Or.inl ⟨t, target, symbol, rfl, ?_, fun ts => ?_⟩)
    · rw [topState_eq] at hgoto
      exact .enter h hgoto
    · unfold step
      rw [hread (t :: ts) rfl, hshift]
      exact shiftStep_on stack t ts s r target
  · obtain ⟨rule, hr⟩ := reduces_of_path (c := (Config.on stack [] s r : Config α ε)) h
      (Cfg.proper_of_mem hx).1 hcomplete
    rcases reduceStep_on_cases h hr with ⟨root, haccept⟩ | ⟨stack', symbols', hpath, hnext⟩
    · refine Or.inr (Or.inr (Or.inl ⟨root, fun tokens hhead => ?_⟩))
      unfold step
      rw [hread tokens hhead, hreduce]
      exact haccept tokens
    · refine Or.inr (Or.inr (Or.inr ⟨stack', symbols', hpath, fun tokens hhead => ?_⟩))
      unfold step
      rw [hread tokens hhead, hreduce]
      exact hnext tokens

/-! ## Runs -/

theorem ends_of_step_eq_halt {c : Config α ε} {o : Outcome α ε} (h : p.step c = .halt o) :
    p.Ends (.next c) o := by
  refine .next ?_
  rw [h]
  exact .halt

/-- A run that ends has accepted or rejected, and it never takes a shift back. -/
theorem Ends.verdict_on {step : Step α ε} {o : Outcome α ε} (h : p.Ends step o)
    {stack : List (Frame α)} {symbols : List Nat} {tokens : List (Tree α)} {s r : Nat}
    (hstep : step = .next (Config.on stack tokens s r))
    (hpath : p.grammar.cfg.Path (stack.map Frame.state) symbols) :
    s ≤ o.stats.shifts ∧
      ((∃ root, o.verdict = .accepted root) ∨ ∃ token, o.verdict = .rejected token) := by
  induction h generalizing stack symbols tokens s r with
  | halt => cases hstep
  | next h ih =>
    cases hstep
    rcases step_on_cases hpath tokens.head? s r with
      hreject | ⟨t, target, symbol, hhead, hpath', hshift⟩ | ⟨root, haccept⟩ |
        ⟨stack', symbols', hpath', hreduce⟩
    · rw [hreject tokens rfl] at h
      cases h
      exact ⟨Nat.le_refl s, Or.inr ⟨_, rfl⟩⟩
    · obtain ⟨ts, rfl⟩ := List.head?_eq_some_iff.1 hhead
      obtain ⟨hle, hverdict⟩ := ih (hshift ts) hpath'
      exact ⟨Nat.le_of_succ_le hle, hverdict⟩
    · rw [haccept tokens rfl] at h
      cases h
      exact ⟨Nat.le_refl s, Or.inl ⟨_, rfl⟩⟩
    · exact ih (hreduce tokens rfl) hpath'

/-- A run that rejects before it has shifted all of some tokens rejects the same token whatever
comes after them. -/
theorem Ends.rejected_of_agree {step : Step α ε} {o : Outcome α ε} (h : p.Ends step o)
    {stack : List (Frame α)} {symbols : List Nat} {ts rest : List (Tree α)} {s r : Nat}
    (hstep : step = .next (Config.on stack (ts ++ rest) s r))
    (hpath : p.grammar.cfg.Path (stack.map Frame.state) symbols) {token : Tree α}
    (hverdict : o.verdict = .rejected token) (hshifts : o.stats.shifts < s + ts.length)
    (rest' : List (Tree α)) :
    ∃ o', p.Ends (.next (Config.on stack (ts ++ rest') s r : Config α ε)) o' ∧
      o'.verdict = .rejected token := by
  induction h generalizing stack symbols ts s r with
  | halt => cases hstep
  | @next c o h ih =>
    cases hstep
    -- Not all of the tokens have been shifted, so the same one is in sight in both runs.
    have hle : s ≤ o.stats.shifts := ((Ends.next h).verdict_on rfl hpath).1
    cases ts with
    | nil => exact absurd hshifts (Nat.not_lt.2 hle)
    | cons t ts =>
      rcases step_on_cases hpath (some t) s r with
        hreject | ⟨t', target, symbol, hhead, hpath', hshift⟩ | ⟨root, haccept⟩ |
          ⟨stack', symbols', hpath', hreduce⟩
      · rw [hreject _ rfl] at h
        cases h
        cases hverdict
        have hhalt := hreject (t :: ts ++ rest') rfl
        exact ⟨_, ends_of_step_eq_halt hhalt, rfl⟩
      · cases hhead
        have hlt : o.stats.shifts < s + 1 + ts.length := by
          simpa [Nat.add_assoc, Nat.add_comm 1] using hshifts
        obtain ⟨o', ho', hv⟩ := ih (hshift _) hpath' hverdict hlt
        refine ⟨o', .next ?_, hv⟩
        rw [List.cons_append, hshift]
        exact ho'
      · rw [haccept _ rfl] at h
        cases h
        cases hverdict
      · obtain ⟨o', ho', hv⟩ := ih (hreduce _ rfl) hpath' hverdict hshifts
        refine ⟨o', .next ?_, hv⟩
        rw [hreduce _ rfl]
        exact ho'

end ShiftReduce.Parser
