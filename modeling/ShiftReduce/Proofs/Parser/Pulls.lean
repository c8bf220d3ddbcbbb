import ShiftReduce.Proofs.Parser.Budget
import ShiftReduce.Proofs.Parser.Safety

/-!
# One token ahead

A run asks its source for one answer at the start and for one more after every shift, so the answer
in sight is always the only one that has been pulled and not shifted.  The end of the input is never
shifted, whether the source has said that nothing is left or a token says so itself.  Therefore the
source is not asked again once it has said so, and a run that ends has shifted all that it has
pulled but the last answer.  That answer is a fault exactly when the run ends with this fault.

What has not been pulled has no part in the run.  Any source that gives the same answers as far as
they are pulled leads to the same outcome, and what it has left is unread.

* `Window.answer?`, `Config.meet`: the next answer of a source, and how it is met;
* `Parser.shifted`, `Parser.pulled`: the tokens that a run shifts and the answers that it pulls;
* `Parser.Account`: what a run tells about its source from some point on;
* `Parser.Quiet`: what a step does that is no shift;
* `Parser.pulls_one_ahead`: the account of a whole run.
-/

namespace ShiftReduce

variable {α ε : Type}

/-! ## Answers -/

/-- Whether the answer is a token. -/
def Pull.isToken : Pull α ε → Bool
  | .token _ => true
  | _ => false

/-- What the source answers when the window moves on; nothing if it is not asked any more. -/
def Window.answer? (w : Window α ε) : Option (Pull α ε) :=
  if w.exhausted then none else some (w.rest.headD .stop)

/-- To begin with an answer is to give it first and to go on with what comes after it. -/
theorem headD_of_cons_prefix {β : Type} {a x : β} {as bs : List β}
    (h : (a :: as) <+: bs ++ [x]) : bs.headD x = a ∧ as <+: bs.tail ++ [x] := by
  cases bs with
  | nil =>
    obtain ⟨rfl, has⟩ := List.cons_prefix_cons.1 h
    rw [List.prefix_nil.1 has]
    exact ⟨rfl, List.nil_prefix⟩
  | cons b bs =>
    obtain ⟨rfl, has⟩ := List.cons_prefix_cons.1 h
    exact ⟨rfl, has⟩

theorem headD_cons_prefix {β : Type} {x : β} {as bs : List β} (h : as <+: bs.tail ++ [x])
    (hend : bs = [] → as = []) : (bs.headD x :: as) <+: bs ++ [x] := by
  cases bs with
  | nil =>
    rw [hend rfl]
    exact List.prefix_rfl
  | cons b bs => exact List.cons_prefix_cons.2 ⟨rfl, h⟩

namespace Config

/-- The run at the same place before a source that has these answers left. -/
def withRest (c : Config α ε) (rest : List (Pull α ε)) : Config α ε :=
  { c with window := { c.window with rest := rest } }

/-- Meets an answer of the source, which has others left. -/
def meet (c : Config α ε) (rest : List (Pull α ε)) : Pull α ε → Step α ε
  | .token t => .next { c with
      window := ⟨rest, some t, false⟩
      stats := { c.stats with tokens := c.stats.tokens + 1 } }
  | .fault error => .halt ⟨.faulted error, c.stats, rest⟩
  | .stop => .next { c with window := ⟨rest, some Tree.endOfInput, true⟩ }

/-- As long as the source is asked, its next answer is met. -/
theorem advance_withRest (c : Config α ε) (h : c.window.exhausted = false)
    (rest : List (Pull α ε)) :
    (c.withRest rest).advance = c.meet rest.tail (rest.headD .stop) := by
  obtain ⟨⟨_, current, exhausted⟩, stack, stats⟩ := c
  cases h
  rcases rest with _ | ⟨t | error | _, rest⟩
  · rfl
  · rfl
  · rfl
  · rfl

/-- The answer in sight is this one. -/
inductive Faces (c : Config α ε) : Pull α ε → Prop
  | token {t : Tree α} (current : c.window.current = some t)
      (asking : c.window.exhausted = false) : Faces c (.token t)
  | stop (current : c.window.current = some Tree.endOfInput)
      (done : c.window.exhausted = true) : Faces c .stop

/-- If there is a symbol in sight, it comes from a token and the source is still asked. -/
theorem Faces.of_lookahead {c : Config α ε} {here : Pull α ε} (h : c.Faces here) {symbol : Nat}
    (hla : c.lookahead = some symbol) : here = .token c.token ∧ c.window.exhausted = false := by
  cases h with
  | token hcurrent hasking =>
    refine ⟨?_, hasking⟩
    rw [Config.token, hcurrent]
    rfl
  | stop hcurrent =>
    rw [lookahead, Window.lookahead, hcurrent] at hla
    cases hla

theorem Faces.ne_fault {c : Config α ε} {here : Pull α ε} (h : c.Faces here) (error : ε) :
    here ≠ .fault error := by
  rintro rfl
  cases h

end Config

/-- The step that is the same but for what the source has left. -/
def Step.withRest (rest : List (Pull α ε)) : Step α ε → Step α ε
  | .next c => .next (c.withRest rest)
  | .halt o => .halt { o with unread := rest }

namespace Parser

variable {p : Parser α}

/-! ## What a run shifts and pulls -/

/-- The configurations of the run from a step on. -/
def trailOn (p : Parser α) (fuel : Nat) : Step α ε → List (Config α ε)
  | .halt _ => []
  | .next c => p.trail fuel c

/-- The outcome of the run from a step on. -/
def runOn (p : Parser α) (fuel : Nat) : Step α ε → Outcome α ε
  | .halt o => o
  | .next c => p.run fuel c

/-- The token that is shifted in a configuration. -/
def shiftedFrom (p : Parser α) (c : Config α ε) : Option (Tree α) :=
  if (p.actionFor c.state c.lookahead).isShift then some c.token else none

/-- The answer that is pulled in a configuration: one after a shift, unless the source is not asked
any more. -/
def pulledFrom (p : Parser α) (c : Config α ε) : Option (Pull α ε) :=
  if (p.actionFor c.state c.lookahead).isShift then c.window.answer? else none

/-- The configurations of the run over a source, as far as `parse` goes. -/
def configs (p : Parser α) (source : List (Pull α ε)) : List (Config α ε) :=
  p.trailOn (p.budget source.length) (start source)

/-- The tokens that the run over a source shifts, in order. -/
def shifted (p : Parser α) (source : List (Pull α ε)) : List (Tree α) :=
  (p.configs source).filterMap p.shiftedFrom

/-- The answers that the run over a source pulls, in order: one at the start, and others later. -/
def pulled (p : Parser α) (source : List (Pull α ε)) : List (Pull α ε) :=
  (Window.ofSource source).answer?.toList ++ (p.configs source).filterMap p.pulledFrom

theorem trail_succ (p : Parser α) (fuel : Nat) (c : Config α ε) :
    p.trail (fuel + 1) c = c :: p.trailOn fuel (p.step c) := by
  rw [trail]
  cases p.step c with
  | halt o => rfl
  | next d => rfl

theorem run_succ (p : Parser α) (fuel : Nat) (c : Config α ε) :
    p.run (fuel + 1) c = p.runOn fuel (p.step c) := by
  rw [run]
  cases p.step c with
  | halt o => rfl
  | next d => rfl

theorem parse_eq_runOn (p : Parser α) (source : List (Pull α ε)) :
    p.parse source = p.runOn (p.budget source.length) (start source) := by
  rw [parse]
  cases start source with
  | halt o => rfl
  | next c => rfl

/-! ## Steps that are no shift -/

/-- The step leaves the window and the counters of tokens and shifts as they are, and does not end
with a fault. -/
inductive Quiet (c : Config α ε) : Step α ε → Prop
  | next {d : Config α ε} (window : d.window = c.window)
      (tokens : d.stats.tokens = c.stats.tokens) (shifts : d.stats.shifts = c.stats.shifts) :
      Quiet c (.next d)
  | halt {o : Outcome α ε} (unread : o.unread = c.window.rest)
      (tokens : o.stats.tokens = c.stats.tokens) (shifts : o.stats.shifts = c.stats.shifts)
      (verdict : ∀ error, o.verdict ≠ .faulted error) : Quiet c (.halt o)

/-- A configuration that ends its run without a fault does so quietly. -/
theorem quiet_halt (c : Config α ε) {verdict : Verdict α ε}
    (h : ∀ error, verdict ≠ .faulted error) : Quiet c (c.halt verdict) :=
  .halt rfl rfl rfl h

theorem quiet_reduceStep (p : Parser α) (c : Config α ε) (production : Nat) :
    Quiet c (p.reduceStep c production) := by
  have hstuck : ∀ error, (.stuck : Verdict α ε) ≠ .faulted error := fun error h => by cases h
  unfold reduceStep
  dsimp only
  split
  · exact quiet_halt c hstuck
  · split
    · exact quiet_halt c hstuck
    · split
      · exact .halt rfl rfl rfl fun error h => by cases h
      · split
        · exact .halt rfl rfl rfl hstuck
        · exact .next rfl rfl rfl

/-- A reduction does not ask what the source has left. -/
theorem reduceStep_withRest (p : Parser α) (c : Config α ε) (production : Nat)
    (rest : List (Pull α ε)) :
    p.reduceStep (c.withRest rest) production = (p.reduceStep c production).withRest rest := by
  cases hrule : p.grammar.cfg.rules[production]? with
  | none =>
    simp only [reduceStep, hrule]
    rfl
  | some rule =>
    simp only [reduceStep, hrule, apply_ite (Step.withRest rest)]
    cases hgoto : p.table.goto? (topState (c.stack.drop rule.right.length)) rule.left with
    | none => simp only [Config.withRest, hgoto]; rfl
    | some target => simp only [Config.withRest, hgoto]; rfl

/-- Whatever the source has left, a step shifts the token in sight, or it is quiet and the same but
for that. -/
theorem step_shift_or_quiet (p : Parser α) (c : Config α ε) :
    (∃ symbol target, c.lookahead = some symbol ∧
      p.actionFor c.state c.lookahead = .shift target ∧
      ∀ rest, p.step (c.withRest rest) = shiftStep (c.withRest rest) target) ∨
    ((p.actionFor c.state c.lookahead).isShift = false ∧ Quiet c (p.step c) ∧
      ∀ rest, p.step (c.withRest rest) = (p.step c).withRest rest) := by
  -- The action does not depend on what the source has left.
  have hread : ∀ {rest action}, p.actionFor c.state c.lookahead = action →
      p.actionFor (c.withRest rest).state (c.withRest rest).lookahead = action := fun h => h
  rcases p.step_cases c with
    ⟨haction, heq⟩ | ⟨symbol, target, hla, -, -, haction, -⟩ | ⟨x, -, -, -, haction, heq⟩
  · refine Or.inr ⟨by rw [haction]; rfl, ?_, fun rest => ?_⟩
    · rw [heq]
      exact quiet_halt c fun error h => by cases h
    · rw [heq, step, hread haction]
      rfl
  · refine Or.inl ⟨symbol, target, hla, haction, fun rest => ?_⟩
    rw [step, hread haction]
  · refine Or.inr ⟨by rw [haction]; rfl, ?_, fun rest => ?_⟩
    · rw [heq]
      exact p.quiet_reduceStep c _
    · rw [heq, step, hread haction]
      exact p.reduceStep_withRest c _ rest

/-! ## The account of a run -/

/-- What a run tells that goes on from `go rest`, the step that depends on what the source has left,
with the answers `sight` in sight and the counters at `before`: it shifts `shifted` and pulls
`pulled`, of which `last` is the last answer or else the one in sight. -/
structure Account (p : Parser α) (go : List (Pull α ε) → Step α ε) (sight : List (Pull α ε))
    (before : Stats) (rest : List (Pull α ε)) (o : Outcome α ε) (shifted : List (Tree α))
    (pulled : List (Pull α ε)) (last : Pull α ε) : Prop where
  /-- What is or comes into sight is shifted, but for the last answer. -/
  ahead : sight ++ pulled = shifted.map Pull.token ++ [last]
  /-- The source has given the answers, the one that nothing is left counted. -/
  asked : pulled <+: rest ++ [.stop]
  unread : o.unread = rest.drop pulled.length
  shifts : o.stats.shifts = before.shifts + shifted.length
  tokens : o.stats.tokens = before.tokens + pulled.countP Pull.isToken
  faulted : ∀ error, o.verdict = .faulted error ↔ last = .fault error
  /-- Any other source that gives these answers leads to the same outcome. -/
  same : ∀ rest', pulled <+: rest' ++ [.stop] →
    p.Ends (go rest') { o with unread := rest'.drop pulled.length }

namespace Account

variable {c d : Config α ε} {here last : Pull α ε} {o : Outcome α ε} {shifted : List (Tree α)}
  {pulled rest : List (Pull α ε)}

/-- Once the source has said that nothing is left, it is not asked again. -/
theorem pulled_eq_nil {go : List (Pull α ε) → Step α ε} {before : Stats}
    (h : p.Account go [.stop] before rest o shifted pulled last) : pulled = [] := by
  have hahead := h.ahead
  cases shifted with
  | nil => exact (List.cons.inj hahead).2
  | cons t shifted => cases (List.cons.inj hahead).1

/-- A quiet step that ends the run. -/
theorem of_quiet_halt (hc : c.Faces here) (hquiet : Quiet c (.halt o))
    (hsame : ∀ rest, p.step (c.withRest rest) = .halt { o with unread := rest }) :
    p.Account (fun rest => .next (c.withRest rest)) [here] c.stats c.window.rest o [] [] here := by
  cases hquiet with
  | halt hunread htokens hshifts hverdict =>
    refine ⟨rfl, List.nil_prefix, hunread, hshifts, htokens, fun error => ?_, fun rest _ => ?_⟩
    · exact iff_of_false (hverdict error) (hc.ne_fault error)
    · refine .next ?_
      rw [hsame]
      exact .halt

/-- A quiet step after which the run goes on. -/
theorem of_quiet_next (hquiet : Quiet c (.next d))
    (hsame : ∀ rest, p.step (c.withRest rest) = .next (d.withRest rest))
    (h : p.Account (fun rest => .next (d.withRest rest)) [here] d.stats d.window.rest o shifted
      pulled last) :
    p.Account (fun rest => .next (c.withRest rest)) [here] c.stats c.window.rest o shifted pulled
      last := by
  cases hquiet with
  | next hwindow htokens hshifts =>
    refine ⟨h.ahead, hwindow ▸ h.asked, hwindow ▸ h.unread, hshifts ▸ h.shifts,
      htokens ▸ h.tokens, h.faulted, fun rest hrest => .next ?_⟩
    rw [hsame]
    exact h.same rest hrest

/-- The run goes on when an answer is met that is no fault. -/
theorem of_meet_next
    (h : p.Account (fun rest => .next (d.withRest rest)) [here] d.stats d.window.rest o shifted
      pulled last)
    (hmeet : ∀ rest', c.meet rest' here = .next (d.withRest rest'))
    (hhere : rest.headD .stop = here) (hrest : d.window.rest = rest.tail)
    (hshifts : d.stats.shifts = c.stats.shifts)
    (htokens : d.stats.tokens = c.stats.tokens + if here.isToken then 1 else 0) :
    p.Account (fun rest => c.meet rest.tail (rest.headD .stop)) [] c.stats rest o shifted
      (here :: pulled) last where
  ahead := h.ahead
  asked := by
    rw [← hhere]
    refine headD_cons_prefix (hrest ▸ h.asked) fun hnil => ?_
    subst hnil
    cases hhere
    exact h.pulled_eq_nil
  unread := by
    rw [h.unread, hrest, List.drop_tail, List.length_cons]
  shifts := by rw [h.shifts, hshifts]
  tokens := by
    rw [h.tokens, htokens, List.countP_cons]
    omega
  faulted := h.faulted
  same rest' hpulled := by
    obtain ⟨hhead, htail⟩ := headD_of_cons_prefix hpulled
    rw [hhead, hmeet, List.length_cons, ← List.drop_tail]
    exact h.same rest'.tail htail

/-- A fault is met, which ends the run. -/
theorem of_meet_fault {error : ε} (hhere : rest.headD .stop = .fault error) :
    p.Account (fun rest => c.meet rest.tail (rest.headD .stop)) [] c.stats rest
      ⟨.faulted error, c.stats, rest.tail⟩ [] [.fault error] (.fault error) where
  ahead := rfl
  asked := by
    rw [← hhere]
    exact headD_cons_prefix List.nil_prefix fun _ => rfl
  unread := List.drop_one.symm
  shifts := rfl
  tokens := rfl
  faulted other := by
    constructor
    · rintro ⟨⟩
      rfl
    · rintro ⟨⟩
      rfl
  same rest' hpulled := by
    obtain ⟨hhead, -⟩ := headD_of_cons_prefix hpulled
    rw [hhead, List.length_singleton, List.drop_one]
    exact .halt

/-- The account of a run from the next answer on, when there is one from wherever this answer is in
sight. -/
theorem of_meet {fuel : Nat} (c : Config α ε) (rest : List (Pull α ε))
    (ho : p.runOn fuel (c.meet rest.tail (rest.headD .stop)) = o)
    (hgo : ∀ (d : Config α ε) (here : Pull α ε), d.Faces here → p.run fuel d = o →
      ∃ last, p.Account (fun rest => .next (d.withRest rest)) [here] d.stats d.window.rest o
        ((p.trail fuel d).filterMap p.shiftedFrom) ((p.trail fuel d).filterMap p.pulledFrom) last) :
    ∃ last, p.Account (fun rest => c.meet rest.tail (rest.headD .stop)) [] c.stats rest o
      ((p.trailOn fuel (c.meet rest.tail (rest.headD .stop))).filterMap p.shiftedFrom)
      (rest.headD .stop ::
        (p.trailOn fuel (c.meet rest.tail (rest.headD .stop))).filterMap p.pulledFrom) last := by
  rcases hhere : rest.headD .stop with t | error | _
  · rw [hhere] at ho
    obtain ⟨last, h⟩ := hgo _ (.token t) (.token rfl rfl) ho
    exact ⟨last, h.of_meet_next (fun _ => rfl) hhere rfl rfl rfl⟩
  · rw [hhere] at ho
    cases ho
    exact ⟨.fault error, of_meet_fault hhere⟩
  · rw [hhere] at ho
    obtain ⟨last, h⟩ := hgo _ .stop (.stop rfl rfl) ho
    exact ⟨last, h.of_meet_next (fun _ => rfl) hhere rfl rfl rfl⟩

/-- The token in sight is shifted, and the next answer is met. -/
theorem of_shift {base : Config α ε} {t : Tree α}
    (h : p.Account (fun rest => base.meet rest.tail (rest.headD .stop)) [] base.stats
      c.window.rest o shifted pulled last)
    (hstep : ∀ rest, p.step (c.withRest rest) = base.meet rest.tail (rest.headD .stop))
    (hshifts : base.stats.shifts = c.stats.shifts + 1)
    (htokens : base.stats.tokens = c.stats.tokens) :
    p.Account (fun rest => .next (c.withRest rest)) [.token t] c.stats c.window.rest o
      (t :: shifted) pulled last where
  ahead := congrArg (Pull.token t :: ·) h.ahead
  asked := h.asked
  unread := h.unread
  shifts := by
    rw [h.shifts, hshifts, List.length_cons]
    omega
  tokens := by rw [h.tokens, htokens]
  faulted := h.faulted
  same rest' hpulled := by
    refine .next ?_
    rw [hstep]
    exact h.same rest' hpulled

end Account

variable {c : Config α ε} {here : Pull α ε} {o : Outcome α ε}

/-- A shift moves the token in sight to the stack and meets the next answer. -/
theorem shiftStep_withRest (hasking : c.window.exhausted = false) (target : Nat)
    (rest : List (Pull α ε)) :
    shiftStep (c.withRest rest) target =
      Config.meet
        ⟨c.window.taken, ⟨target, stamp target c.token⟩ :: c.stack,
          { c.stats with shifts := c.stats.shifts + 1 }⟩
        rest.tail (rest.headD .stop) :=
  Config.advance_withRest ⟨c.window.taken, _ :: c.stack, _⟩ hasking rest

/-- The account of a run that ends, from any configuration on that has an answer in sight. -/
theorem exists_account {fuel : Nat} (hc : c.Faces here) (h : p.run fuel c = o)
    (ho : ∀ stats unread, o ≠ ⟨.unfinished, stats, unread⟩) :
    ∃ last, p.Account (fun rest => .next (c.withRest rest)) [here] c.stats c.window.rest o
      ((p.trail fuel c).filterMap p.shiftedFrom) ((p.trail fuel c).filterMap p.pulledFrom) last := by
  induction fuel generalizing c here with
  | zero => exact absurd h.symm (ho _ _)
  | succ fuel ih =>
    have hself : c.withRest c.window.rest = c := rfl
    rw [run_succ] at h
    rw [trail_succ]
    rcases p.step_shift_or_quiet c with
      ⟨symbol, target, hla, haction, hstep⟩ | ⟨hno, hquiet, hsame⟩
    · obtain ⟨rfl, hasking⟩ := hc.of_lookahead hla
      simp only [shiftStep_withRest hasking] at hstep
      have hshifted : p.shiftedFrom c = some c.token := by
        simp [shiftedFrom, haction, Action.isShift]
      have hpulled : p.pulledFrom c = some (c.window.rest.headD .stop) := by
        simp [pulledFrom, haction, Action.isShift, Window.answer?, hasking]
      rw [List.filterMap_cons_some hshifted, List.filterMap_cons_some hpulled, ← hself, hstep]
      rw [← hself, hstep] at h
      obtain ⟨last, haccount⟩ := Account.of_meet _ _ h fun d here hd hrun => ih hd hrun
      exact ⟨last, haccount.of_shift hstep rfl rfl⟩
    · have hshifted : p.shiftedFrom c = none := by simp [shiftedFrom, hno]
      have hpulled : p.pulledFrom c = none := by simp [pulledFrom, hno]
      rw [List.filterMap_cons_none hshifted, List.filterMap_cons_none hpulled]
      cases hstep : p.step c with
      | halt o' =>
        rw [hstep] at h hquiet hsame
        cases h
        exact ⟨here, Account.of_quiet_halt hc hquiet hsame⟩
      | next d =>
        rw [hstep] at h hquiet hsame
        have hd : d.Faces here := by
          cases hquiet with
          | next hwindow =>
            cases hc with
            | token hcurrent hasking => exact .token (hwindow ▸ hcurrent) (hwindow ▸ hasking)
            | stop hcurrent hdone => exact .stop (hwindow ▸ hcurrent) (hwindow ▸ hdone)
        obtain ⟨last, haccount⟩ := ih hd h
        exact ⟨last, Account.of_quiet_next hquiet hsame haccount⟩

/-! ## Whole runs -/

/-- The start of a run, before it has asked its source. -/
def seat : Config α ε := ⟨Window.ofSource [], [], ⟨0, 0, 0⟩⟩

theorem start_eq_meet (source : List (Pull α ε)) :
    start source = seat.meet source.tail (source.headD .stop) :=
  seat.advance_withRest rfl source

theorem pulled_eq (p : Parser α) (source : List (Pull α ε)) :
    p.pulled source = source.headD .stop :: (p.configs source).filterMap p.pulledFrom := rfl

/-- The account of a whole run. -/
theorem exists_account_of_parse {source : List (Pull α ε)} (h : p.parse source = o)
    (ho : ∀ stats unread, o ≠ ⟨.unfinished, stats, unread⟩) :
    ∃ last, p.Account start [] ⟨0, 0, 0⟩ source o (p.shifted source) (p.pulled source) last := by
  rw [parse_eq_runOn, start_eq_meet] at h
  obtain ⟨last, haccount⟩ :=
    Account.of_meet seat source h fun d here hd hrun => exists_account hd hrun ho
  refine ⟨last, ?_⟩
  rw [shifted, pulled_eq, configs, start_eq_meet]
  have hstart : (start : List (Pull α ε) → Step α ε) =
      fun rest => seat.meet rest.tail (rest.headD .stop) := funext start_eq_meet
  rw [hstart]
  exact haccount

/-- A run that does not end with a fault goes as it does over the tokens that it shifts and, unless
nothing is left, the token in sight at the end. -/
theorem exists_tokens_of_parse {source : List (Pull α ε)} (hstop : Pull.stop ∉ source)
    (h : p.parse source = o) (ho : ∀ stats unread, o ≠ ⟨.unfinished, stats, unread⟩)
    (hfaulted : ∀ error, o.verdict ≠ .faulted error) :
    ∃ (tokens : List (Tree α)) (more : List (Pull α ε)), source = tokens.map .token ++ more ∧
      p.Ends (start (tokens.map .token)) { o with unread := [] } ∧
      (more = [] ∧ tokens.length = o.stats.shifts ∨ tokens.length = o.stats.shifts + 1) := by
  obtain ⟨last, haccount⟩ := exists_account_of_parse h ho
  have hpulled : p.pulled source = (p.shifted source).map Pull.token ++ [last] := haccount.ahead
  have hshifts : o.stats.shifts = (p.shifted source).length :=
    haccount.shifts.trans (Nat.zero_add _)
  cases last with
  | token t =>
    have htokens : p.pulled source = (p.shifted source ++ [t]).map Pull.token := by
      rw [hpulled, List.map_append, List.map_singleton]
    rcases List.prefix_concat_iff.1 haccount.asked with hall | ⟨more, hmore⟩
    · have hmem : Pull.stop ∈ p.pulled source := by simp [hall]
      simp [htokens] at hmem
    · have hends := haccount.same (p.pulled source) (List.prefix_append _ _)
      rw [List.drop_length, htokens] at hends
      exact ⟨p.shifted source ++ [t], more, by rw [← htokens, hmore], hends,
        .inr (by rw [hshifts, List.length_append, List.length_singleton])⟩
  | stop =>
    have hsource : source = (p.shifted source).map Pull.token := by
      rcases List.prefix_concat_iff.1 haccount.asked with hall | hbegins
      · exact (List.append_inj' (hpulled.symm.trans hall) rfl).1.symm
      · exact absurd (hbegins.subset (by simp [hpulled])) hstop
    have hends := haccount.same source haccount.asked
    have hdrop : source.drop (p.pulled source).length = [] := by
      rw [List.drop_eq_nil_iff, hpulled, ← hsource, List.length_append]
      exact Nat.le_add_right _ _
    rw [hdrop] at hends
    exact ⟨p.shifted source, [], by rw [List.append_nil, ← hsource], hsource ▸ hends,
      .inl ⟨rfl, hshifts.symm⟩⟩
  | fault error => exact absurd ((haccount.faulted error).2 rfl) (hfaulted error)

/-- Answers that end with a fault stand in the source as they are. -/
theorem eq_append_drop_of_prefix {source : List (Pull α ε)} {before : List (Pull α ε)} {error : ε}
    (h : before ++ [.fault error] <+: source ++ [.stop]) :
    source = before ++ .fault error :: source.drop (before ++ [Pull.fault error]).length := by
  obtain ⟨after, hafter⟩ := h
  rcases List.eq_nil_or_concat after with rfl | ⟨after, x, rfl⟩
  · rw [List.append_nil] at hafter
    cases (List.append_inj' hafter rfl).2
  · rw [List.concat_eq_append, ← List.append_assoc] at hafter
    obtain ⟨rfl, -⟩ := List.append_inj' hafter rfl
    rw [List.drop_left, List.append_assoc]
    rfl

/-- A run that ends is one token ahead of its source: it has shifted, in order, all that it has
pulled but the last answer, and what it leaves unread begins right after this one.  The tokens it
has counted are those it has pulled.  It ends with a fault exactly when the last answer is this
fault, which then stands in the source right after the tokens shifted; else it accepts or rejects,
and there is no fault among the answers.  Any source that gives the same answers, as far as they
are pulled, leads to the same verdict and the same counters. -/
theorem pulls_one_ahead (p : Parser α) {source : List (Pull α ε)} (h : p.parse source = o)
    (ho : ∀ stats unread, o ≠ ⟨.unfinished, stats, unread⟩) :
    ∃ last,
      p.pulled source = (p.shifted source).map Pull.token ++ [last] ∧
      p.pulled source <+: source ++ [.stop] ∧
      o.unread = source.drop (p.pulled source).length ∧
      o.stats.shifts = (p.shifted source).length ∧
      o.stats.tokens = o.stats.shifts + (if last.isToken then 1 else 0) ∧
      o.verdict.Final ∧
      (∀ error, o.verdict = .faulted error ↔ last = .fault error) ∧
      (∀ error, o.verdict = .faulted error →
        source = (p.shifted source).map Pull.token ++ .fault error :: o.unread) ∧
      ∀ source', p.pulled source <+: source' ++ [.stop] →
        p.parse source' = { o with unread := source'.drop (p.pulled source).length } := by
  obtain ⟨last, haccount⟩ := exists_account_of_parse h ho
  have hahead : p.pulled source = (p.shifted source).map Pull.token ++ [last] := haccount.ahead
  have hcount : (p.pulled source).countP Pull.isToken =
      (p.shifted source).length + if last.isToken then 1 else 0 := by
    have htokens : (p.shifted source).countP (Pull.isToken ∘ (Pull.token : Tree α → Pull α ε)) =
        (p.shifted source).length := List.countP_eq_length.2 fun _ _ => rfl
    rw [hahead, List.countP_append, List.countP_map, htokens, List.countP_singleton]
  have hshifts : o.stats.shifts = (p.shifted source).length :=
    haccount.shifts.trans (Nat.zero_add _)
  refine ⟨last, hahead, haccount.asked, haccount.unread, hshifts, ?_, (ends_of_parse h ho).final,
    haccount.faulted, ?_, ?_⟩
  · simp [haccount.tokens, hcount, hshifts]
  · intro error hfaulted
    obtain rfl := (haccount.faulted error).1 hfaulted
    have hasked := haccount.asked
    rw [haccount.unread, hahead] at *
    exact eq_append_drop_of_prefix hasked
  · intro source' hagree
    exact parse_eq_of_ends (haccount.same source' hagree)

/-- What a source would answer after it has said that nothing is left plays no part.  A fault ends
the run when the token before it has been shifted. -/
theorem pulls_one_ahead_anyNumber :
    ∃ root : Tree Nat,
      anyNumber.parse [.token (Tree.scalar 2 7), .stop, .fault "gone"] =
        ⟨.accepted root, ⟨1, 1, 3⟩, [.fault "gone"]⟩ ∧
      anyNumber.parse [.token (Tree.scalar 2 7)] =
        (⟨.accepted root, ⟨1, 1, 3⟩, []⟩ : Outcome Nat String) ∧
      anyNumber.parse [.token (Tree.scalar 2 7), .fault "gone", .stop] =
        ⟨.faulted "gone", ⟨1, 1, 0⟩, [.stop]⟩ ∧
      (anyNumber.shifted [.token (Tree.scalar 2 7), .fault "gone", .stop]).map Pull.token ++
        [.fault "gone", .stop] = [.token (Tree.scalar 2 7), .fault "gone", .stop] := by
  have hruns : ∃ root : Tree Nat,
      anyNumber.parse [.token (Tree.scalar 2 7), .stop, .fault "gone"] =
        ⟨.accepted root, ⟨1, 1, 3⟩, [.fault "gone"]⟩ ∧
      anyNumber.parse [.token (Tree.scalar 2 7), .fault "gone", .stop] =
        ⟨.faulted "gone", ⟨1, 1, 0⟩, [.stop]⟩ := ⟨_, rfl, rfl⟩
  obtain ⟨root, hstop, hfault⟩ := hruns
  obtain ⟨-, -, -, -, -, -, -, -, -, hsame⟩ :=
    anyNumber.pulls_one_ahead hstop fun _ _ => by simp
  obtain ⟨-, -, -, -, -, -, -, -, hsource, -⟩ :=
    anyNumber.pulls_one_ahead hfault fun _ _ => by simp
  exact ⟨root, hstop, hsame [.token (Tree.scalar 2 7)] List.prefix_rfl, hfault,
    (hsource "gone" rfl).symm⟩

end Parser

end ShiftReduce
