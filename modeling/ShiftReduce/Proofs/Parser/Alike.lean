import ShiftReduce.Proofs.Parser.Budget
import ShiftReduce.Proofs.Parser.Soundness

/-!
# Trees never steer a run

What a step does depends on the states on the stack and on the symbol in sight.  The trees on the
stack are only handed to the reductions.  Two parsers with the same rules and the same table, which
may differ in their hooks and in whether they trim, therefore go through their runs side by side,
and whatever relation their reductions keep between trees holds of the roots in the end.

* `Config.Like`, `Outcome.Like`, `Step.Like`: side by side, up to a relation between trees;
* `Parser.Alike`: parsers that differ in their trees only, and reductions that keep the relation;
* `Parser.Alike.step`, `Parser.Alike.ends`: one step, and whole runs;
* `Grammar.bare`, `Parser.bare`: the same grammar without hooks, and its parser without trimming;
* `Parser.ends_accepted_iff_bare`: a run is accepted just when it is without hooks and trimming.
-/

namespace ShiftReduce

variable {α ε : Type} {S : Tree α → Tree α → Prop}

/-! ## Side by side -/

/-- Every token that is in sight or may still come is related to itself. -/
structure Window.Fits (S : Tree α → Tree α → Prop) (w : Window α ε) : Prop where
  current : ∀ t, w.current = some t → t.symbol ≠ none → S t t
  rest : ∀ t, Pull.token t ∈ w.rest → S t t

/-- The frames have the same state and related trees. -/
structure Frame.Like (S : Tree α → Tree α → Prop) (f f' : Frame α) : Prop where
  state_eq : f.state = f'.state
  tree : S f.tree f'.tree

/-- The configurations differ in the trees on the stack only, and these are related. -/
structure Config.Like (S : Tree α → Tree α → Prop) (c c' : Config α ε) : Prop where
  window_eq : c.window = c'.window
  stats_eq : c.stats = c'.stats
  stack : List.Forall₂ (Frame.Like S) c.stack c'.stack
  fits : c.window.Fits S

/-- The verdicts are the same, but for related roots. -/
inductive Verdict.Like (S : Tree α → Tree α → Prop) : Verdict α ε → Verdict α ε → Prop
  | accepted {root root' : Tree α} (h : S root root') : Like S (.accepted root) (.accepted root')
  | rejected (token : Tree α) : Like S (.rejected token) (.rejected token)
  | faulted (error : ε) : Like S (.faulted error) (.faulted error)
  | stuck : Like S .stuck .stuck

/-- The outcomes are the same, but for related roots. -/
structure Outcome.Like (S : Tree α → Tree α → Prop) (o o' : Outcome α ε) : Prop where
  verdict : Verdict.Like S o.verdict o'.verdict
  stats_eq : o.stats = o'.stats
  unread_eq : o.unread = o'.unread

/-- The steps lead to configurations or outcomes that are alike. -/
inductive Step.Like (S : Tree α → Tree α → Prop) : Step α ε → Step α ε → Prop
  | next {c c' : Config α ε} (h : Config.Like S c c') : Like S (.next c) (.next c')
  | halt {o o' : Outcome α ε} (h : Outcome.Like S o o') : Like S (.halt o) (.halt o')

theorem Window.Fits.advance {w w' : Window α ε} {result : Except ε Bool} (h : w.Fits S)
    (hw : w.advance = (w', result)) : w'.Fits S := by
  have hend : ∀ t : Tree α, some Tree.endOfInput = some t → t.symbol ≠ none → S t t := by
    intro t ht hne
    cases ht
    exact absurd rfl hne
  unfold Window.advance at hw
  split at hw
  · cases hw
    exact ⟨hend, h.rest⟩
  · split at hw
    · next t rest hrest =>
      cases hw
      refine ⟨?_, fun u hu => h.rest u (hrest ▸ List.mem_cons_of_mem _ hu)⟩
      intro u hu _
      cases hu
      exact h.rest t (hrest ▸ List.mem_cons_self)
    · next error rest hrest =>
      cases hw
      exact ⟨h.current, fun u hu => h.rest u (hrest ▸ List.mem_cons_of_mem _ hu)⟩
    · next rest hrest =>
      cases hw
      exact ⟨hend, fun u hu => h.rest u (hrest ▸ List.mem_cons_of_mem _ hu)⟩
    · cases hw
      exact ⟨hend, by simp⟩

/-- Stacks that are alike have led to the same state, and both are empty or neither is. -/
theorem Frame.Like.topState_eq {stack stack' : List (Frame α)}
    (h : List.Forall₂ (Frame.Like S) stack stack') :
    topState stack = topState stack' ∧ stack.isEmpty = stack'.isEmpty := by
  cases h with
  | nil => exact ⟨rfl, rfl⟩
  | cons hframe _ => exact ⟨hframe.state_eq, rfl⟩

namespace Config.Like

variable {c c' : Config α ε}

theorem state_eq (h : Config.Like S c c') : c.state = c'.state :=
  (Frame.Like.topState_eq h.stack).1

theorem lookahead_eq (h : Config.Like S c c') : c.lookahead = c'.lookahead :=
  congrArg Window.lookahead h.window_eq

theorem halt (h : Config.Like S c c') {v v' : Verdict α ε} (hv : Verdict.Like S v v') :
    Step.Like S (c.halt v) (c'.halt v') :=
  .halt ⟨hv, h.stats_eq, congrArg Window.rest h.window_eq⟩

theorem advance (h : Config.Like S c c') : Step.Like S c.advance c'.advance := by
  unfold Config.advance
  rw [← h.window_eq, ← h.stats_eq]
  split
  · next window hwindow => exact .next ⟨rfl, rfl, h.stack, h.fits.advance hwindow⟩
  · next window hwindow => exact .next ⟨rfl, rfl, h.stack, h.fits.advance hwindow⟩
  · next window error hwindow =>
    exact .halt ⟨.faulted error, rfl, rfl⟩

end Config.Like

/-- A run begins alike when every token of the source is related to itself. -/
theorem Parser.like_start {source : List (Pull α ε)} (h : ∀ t, Pull.token t ∈ source → S t t) :
    Step.Like S (Parser.start source) (Parser.start source) :=
  Config.Like.advance ⟨rfl, rfl, .nil, ⟨fun _ ht _ => (nomatch ht), h⟩⟩

/-! ## Parsers that differ in their trees -/

/-- The parsers have the same rules and the same table, and their reductions take related trees to
related trees. -/
structure Parser.Alike (p p' : Parser α) (S : Tree α → Tree α → Prop) : Prop where
  cfg_eq : p.grammar.cfg = p'.grammar.cfg
  table_eq : p.table = p'.table
  stamp : ∀ q t t', S t t' → S (stamp q t) (stamp q t')
  reduce : ∀ production rule ts ts', p.grammar.cfg.rules[production]? = some rule →
    ts.length = rule.right.length → List.Forall₂ S ts ts' →
    S (p.reduce production rule ts) (p'.reduce production rule ts')

namespace Parser.Alike

variable {p p' : Parser α} {c c' : Config α ε}

theorem symm (h : p.Alike p' S) : p'.Alike p (flip S) where
  cfg_eq := h.cfg_eq.symm
  table_eq := h.table_eq.symm
  stamp q t t' := h.stamp q t' t
  reduce := by
    intro production rule ts ts' hrule hlength hts
    rw [← h.cfg_eq] at hrule
    exact h.reduce production rule ts' ts hrule (hts.length_eq ▸ hlength) hts.flip

theorem actionFor_eq (h : p.Alike p' S) (q : Nat) (la : Lookahead) :
    p.actionFor q la = p'.actionFor q la := by
  cases la <;> simp [Parser.actionFor, h.cfg_eq, h.table_eq]

theorem shiftStep (h : p.Alike p' S) (hc : Config.Like S c c') {symbol : Nat}
    (hla : c.lookahead = some symbol) (target : Nat) :
    Step.Like S (Parser.shiftStep c target) (Parser.shiftStep c' target) := by
  have htoken : c.token = c'.token := by rw [Config.token, Config.token, hc.window_eq]
  have hself : S c.token c.token := by
    cases hcurrent : c.window.current with
    | none => simp [Config.lookahead, Window.lookahead, hcurrent] at hla
    | some t =>
      have hsymbol : t.symbol = some symbol := by
        simpa [Config.lookahead, Window.lookahead, hcurrent] using hla
      have hne : t.symbol ≠ none := by simp [hsymbol]
      simpa [Config.token, hcurrent] using hc.fits.current t hcurrent hne
  refine Config.Like.advance ⟨?_, ?_, .cons ⟨rfl, ?_⟩ hc.stack, ?_, hc.fits.rest⟩
  · show c.window.taken = c'.window.taken
    rw [hc.window_eq]
  · simp [hc.stats_eq]
  · rw [← htoken]
    exact h.stamp target _ _ hself
  · intro t ht
    cases ht

theorem reduceStep (h : p.Alike p' S) (hc : Config.Like S c c') (production : Nat) :
    Step.Like S (p.reduceStep c production) (p'.reduceStep c' production) := by
  have hlength := hc.stack.length_eq
  unfold Parser.reduceStep
  rw [← h.cfg_eq]
  cases hrule : p.grammar.cfg.rules[production]? with
  | none => exact hc.halt .stuck
  | some rule =>
    have hbelow := List.forall₂_drop rule.right.length hc.stack
    obtain ⟨htop, hempty⟩ := Frame.Like.topState_eq hbelow
    dsimp only
    rw [← hlength, ← htop, ← hempty, ← h.table_eq]
    split
    · exact hc.halt .stuck
    · next hle =>
      have hchildren : List.Forall₂ S ((c.stack.take rule.right.length).map Frame.tree).reverse
          ((c'.stack.take rule.right.length).map Frame.tree).reverse := by
        rw [List.forall₂_reverse_iff, List.forall₂_map_left_iff, List.forall₂_map_right_iff]
        exact (List.forall₂_take _ hc.stack).imp fun _ _ hframe => hframe.tree
      have hcount : ((c.stack.take rule.right.length).map Frame.tree).reverse.length =
          rule.right.length := by
        simpa using Nat.not_lt.1 hle
      have htree := h.reduce production rule _ _ hrule hcount hchildren
      split
      · exact .halt ⟨.accepted htree, by simp [hc.stats_eq], congrArg Window.rest hc.window_eq⟩
      · split
        · exact .halt ⟨.stuck, by simp [hc.stats_eq], congrArg Window.rest hc.window_eq⟩
        · next target _ =>
          exact .next ⟨hc.window_eq, by simp [hc.stats_eq],
            .cons ⟨rfl, h.stamp target _ _ htree⟩ hbelow, hc.fits⟩

/-- Steps from configurations that are alike lead to what is alike. -/
theorem step (h : p.Alike p' S) (hc : Config.Like S c c') :
    Step.Like S (p.step c) (p'.step c') := by
  have haction : p'.actionFor c'.state c'.lookahead = p.actionFor c.state c.lookahead := by
    rw [← hc.state_eq, ← hc.lookahead_eq, h.actionFor_eq]
  have htoken : c.token = c'.token := by rw [Config.token, Config.token, hc.window_eq]
  rcases p.step_cases c with
    ⟨herror, hstep⟩ | ⟨symbol, target, hla, -, -, hshift, hstep⟩ |
      ⟨x, -, -, -, hreduce, hstep⟩
  · rw [hstep]
    unfold Parser.step
    rw [haction, herror, htoken]
    exact hc.halt (.rejected _)
  · rw [hstep]
    unfold Parser.step
    rw [haction, hshift]
    exact h.shiftStep hc hla target
  · rw [hstep]
    unfold Parser.step
    rw [haction, hreduce]
    exact h.reduceStep hc _

/-- Runs that begin alike end alike. -/
theorem ends (h : p.Alike p' S) {s s' : Step α ε} {o : Outcome α ε} (hs : Step.Like S s s')
    (ho : p.Ends s o) : ∃ o', p'.Ends s' o' ∧ Outcome.Like S o o' := by
  induction ho generalizing s' with
  | halt =>
    cases hs with
    | halt hlike => exact ⟨_, .halt, hlike⟩
  | next _ ih =>
    cases hs with
    | next hc =>
      obtain ⟨o', ho', hlike⟩ := ih (h.step hc)
      exact ⟨o', .next ho', hlike⟩

/-- Runs over the same source end alike. -/
theorem ends_start (h : p.Alike p' S) {source : List (Pull α ε)}
    (hsource : ∀ t, Pull.token t ∈ source → S t t) {o : Outcome α ε}
    (ho : p.Ends (Parser.start source) o) :
    ∃ o', p'.Ends (Parser.start source) o' ∧ Outcome.Like S o o' :=
  h.ends (Parser.like_start hsource) ho

variable {source : List (Pull α ε)} {stats : Stats} {unread : List (Pull α ε)}

/-- What one of them accepts the other accepts, and the roots are related. -/
theorem ends_accepted (h : p.Alike p' S) (hsource : ∀ t, Pull.token t ∈ source → S t t)
    {root : Tree α} (ho : p.Ends (Parser.start source) ⟨.accepted root, stats, unread⟩) :
    ∃ root', p'.Ends (Parser.start source) ⟨.accepted root', stats, unread⟩ ∧ S root root' := by
  obtain ⟨⟨verdict, _, _⟩, ho', hverdict, hstats, hunread⟩ := h.ends_start hsource ho
  cases hstats
  cases hunread
  cases hverdict with
  | accepted hroot => exact ⟨_, ho', hroot⟩

/-- They reject the same token. -/
theorem ends_rejected (h : p.Alike p' S) (hsource : ∀ t, Pull.token t ∈ source → S t t)
    {token : Tree α} (ho : p.Ends (Parser.start source) ⟨.rejected token, stats, unread⟩) :
    p'.Ends (Parser.start source) ⟨.rejected token, stats, unread⟩ := by
  obtain ⟨⟨verdict, _, _⟩, ho', hverdict, hstats, hunread⟩ := h.ends_start hsource ho
  cases hstats
  cases hunread
  cases hverdict with
  | rejected => exact ho'

end Parser.Alike

/-! ## Without hooks and trimming -/

/-- The grammar without its hooks. -/
def Grammar.bare (g : Grammar α) : Grammar α :=
  { g with
    hooks := g.hooks.map fun _ => none
    hooks_length := by rw [List.length_map, g.hooks_length] }

theorem Grammar.hookFree_bare (g : Grammar α) : g.bare.HookFree := by
  intro hook hmem
  obtain ⟨_, -, rfl⟩ := List.mem_map.1 hmem
  rfl

namespace Parser

/-- The parser without hooks and trimming. -/
def bare (p : Parser α) : Parser α where
  grammar := p.grammar.bare
  table := p.table
  trim := false
  table_eq := p.table_eq
  conflictFree := p.conflictFree

theorem alike_bare (p : Parser α) : p.Alike p.bare fun _ _ => True :=
  ⟨rfl, rfl, fun _ _ _ _ => trivial, fun _ _ _ _ _ _ _ => trivial⟩

/-- A run is accepted just when it is accepted without hooks and trimming, after the same shifts
and reductions. -/
theorem ends_accepted_iff_bare {p : Parser α} {source : List (Pull α ε)} {stats : Stats}
    {unread : List (Pull α ε)} :
    (∃ root, p.Ends (start source) ⟨.accepted root, stats, unread⟩) ↔
      ∃ root, p.bare.Ends (start source) ⟨.accepted root, stats, unread⟩ := by
  constructor
  · rintro ⟨root, h⟩
    obtain ⟨root', h', -⟩ := p.alike_bare.ends_accepted (fun _ _ => trivial) h
    exact ⟨root', h'⟩
  · rintro ⟨root, h⟩
    obtain ⟨root', h', -⟩ := p.alike_bare.symm.ends_accepted (fun _ _ => trivial) h
    exact ⟨root', h'⟩

end Parser

end ShiftReduce
