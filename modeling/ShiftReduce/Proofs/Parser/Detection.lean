import ShiftReduce.Proofs.Sentences
import ShiftReduce.Proofs.Parser.Alike
import ShiftReduce.Proofs.Parser.Tokens

/-!
# Errors are found at the earliest token

When nothing competes in the table and every nonterminal is productive, a run that rejects has
shifted the beginning of a sentence, and with the token it rejects this would be no beginning of a
sentence any more.  Reductions under a wrong lookahead can happen before the rejection.  They do not
matter: a sentence that went on with the rejected token would make the run do the same up to there,
and go on.

* `Parser.Parsed.reject`: what a run that rejects has done;
* `Parser.exists_more_of_rejected`: the tokens shifted go on to a sentence;
* `Parser.not_yields_of_rejected`: with the rejected token they do not;
* `Parser.rejected_at_earliest`: all of this about the parser of a grammar.
-/

namespace ShiftReduce

namespace Parser

variable {α ε : Type} {p : Parser α}

/-! ## What a run that rejects has done -/

/-- A run rejects the first of the tokens it has not shifted, or the end of the input. -/
theorem Parsed.reject {tokens rest : List (Tree α)} {c : Config α ε} {ds : List (Derivation α)}
    {symbols : List Nat} (h : p.Parsed tokens c ds symbols rest) {item : Tree α} {stats : Stats}
    {unread : List (Pull α ε)} (hstep : p.step c = .halt ⟨.rejected item, stats, unread⟩) :
    stats.shifts = (Derivation.yieldAll ds.reverse).length ∧
      item = (rest.head?.getD Tree.endOfInput).withState Tree.errorState := by
  have hmove := move_of_over h.path
  generalize p.step c = s at hstep hmove
  cases hmove with
  | reject =>
    cases hstep
    refine ⟨h.shifts_eq, ?_⟩
    have htoken : c.token = rest.head?.getD Tree.endOfInput := by
      have hsees := h.sees
      cases rest with
      | nil => rw [Config.token, hsees.1]; rfl
      | cons t ts => rw [Config.token, hsees.1]; rfl
    rw [htoken]
  | shift =>
    obtain ⟨error, hfaulted⟩ := Config.advance_eq_halt hstep
    cases hfaulted
  | accept => cases hstep
  | reduce => cases hstep

section Rejected

variable {tokens : List (Tree α)} {item : Tree α} {stats : Stats} {unread : List (Pull α ε)}

/-- The tokens shifted before a rejection are derived from what the stack leads over, and the item
returned is the token after them. -/
theorem exists_path_of_rejected (hfree : p.grammar.HookFree) (htrim : p.trim = false)
    (h : p.Ends (start (tokens.map .token)) ⟨.rejected item, stats, unread⟩) :
    stats.shifts ≤ tokens.length ∧
      item = (tokens[stats.shifts]?.getD Tree.endOfInput).withState Tree.errorState ∧
      ∃ states symbols, p.grammar.cfg.Path states symbols ∧
        p.grammar.cfg.Yields symbols.reverse (tokens.take stats.shifts) := by
  rcases h.exists_last with hhalt | ⟨c, hc, hstep⟩
  · obtain ⟨error, hfaulted⟩ := Config.advance_eq_halt hhalt
    cases hfaulted
  · obtain ⟨ds, symbols, rest, hparsed⟩ := exists_parsed_of_reachable hfree htrim hc
    obtain ⟨hshifts, hitem⟩ := hparsed.reject hstep
    have htokens : tokens = Derivation.yieldAll ds.reverse ++ rest := by
      simpa using hparsed.tokens_eq
    have hnext : tokens[stats.shifts]? = rest.head? := by
      rw [htokens, hshifts, List.getElem?_append_right (Nat.le_refl _), Nat.sub_self,
        ← List.head?_eq_getElem?]
    have htake : tokens.take stats.shifts = Derivation.yieldAll ds.reverse := by
      rw [htokens, hshifts, List.take_left]
    refine ⟨?_, by rw [hnext, hitem], _, symbols, hparsed.path, ?_⟩
    · rw [htokens, hshifts, List.length_append]
      exact Nat.le_add_right _ _
    · rw [htake]
      exact Cfg.yields_all (List.forall₂_reverse_iff.2 hparsed.derived)

/-- In a productive grammar the tokens shifted go on to a sentence. -/
theorem exists_more_of_rejected (hfree : p.grammar.HookFree) (htrim : p.trim = false)
    (hprod : p.grammar.cfg.Productive)
    (h : p.Ends (start (tokens.map .token)) ⟨.rejected item, stats, unread⟩) :
    ∃ more, p.grammar.cfg.Yields [0] (tokens.take stats.shifts ++ more) := by
  obtain ⟨-, -, states, symbols, hpath, hyields⟩ := exists_path_of_rejected hfree htrim h
  exact hprod.exists_more hpath hyields

/-- Where nothing competes, what is rejected is no sentence. -/
theorem not_yields_of_rejected (hdecided : p.grammar.Decided) (hfree : p.grammar.HookFree)
    (htrim : p.trim = false) (hstart : ∀ rule ∈ p.grammar.cfg.rules, 0 ∉ rule.right)
    {o : Outcome α ε} (h : p.Ends (start (tokens.map .token)) o)
    (hverdict : o.verdict = .rejected item) : ¬ p.grammar.cfg.Yields [0] tokens := by
  intro hyields
  obtain ⟨d, hd, hyield⟩ := hyields.exists_derivation
  obtain ⟨children, rfl⟩ := hd.exists_children
  obtain ⟨root, -, haccepted⟩ := ends_accepted (ε := ε) hdecided hfree htrim hstart hd
  rw [hyield] at haccepted
  rw [h.unique haccepted] at hverdict
  cases hverdict

/-- Where nothing competes, tokens that begin like rejected ones, up to the token rejected, are no
sentence. -/
theorem not_yields_of_agree (hdecided : p.grammar.Decided) (hfree : p.grammar.HookFree)
    (htrim : p.trim = false) (hstart : ∀ rule ∈ p.grammar.cfg.rules, 0 ∉ rule.right)
    (h : p.Ends (start (tokens.map .token)) ⟨.rejected item, stats, unread⟩)
    (hlt : stats.shifts < tokens.length) (more : List (Tree α)) :
    ¬ p.grammar.cfg.Yields [0] (tokens.take (stats.shifts + 1) ++ more) := by
  have hsplit : start (tokens.map .token) = .next (Config.on [] (tokens.take (stats.shifts + 1) ++
      tokens.drop (stats.shifts + 1)) 0 0 : Config α ε) := by
    rw [List.take_append_drop]
    exact start_map_token tokens
  have hlength : stats.shifts < 0 + (tokens.take (stats.shifts + 1)).length := by
    rw [List.length_take]
    omega
  obtain ⟨o, ho, hverdict⟩ := h.rejected_of_agree hsplit .start rfl hlength more
  rw [← start_map_token] at ho
  exact not_yields_of_rejected hdecided hfree htrim hstart ho hverdict

end Rejected

/-! ## Whole runs -/

/-- Let no cell have several candidates, let the start symbol be on no right side, and let every
nonterminal derive a string of terminals.  If a run over some tokens rejects, the tokens it has
shifted are the beginning of a sentence.  If there is a token after them, it is what the run
returns, marked as being in error, and with it they are the beginning of no sentence.  If there is
none, the tokens are no sentence, and the run returns the marked end of the input. -/
theorem rejected_at_earliest {g : Grammar α} (hstart : ∀ rule ∈ g.cfg.rules, 0 ∉ rule.right)
    (hprod : g.cfg.Productive) (hdecided : g.Decided) {trim : Bool} {p : Parser α}
    (hp : Parser.build g trim = .ok p) {tokens : List (Tree α)} {item : Tree α} {stats : Stats}
    {unread : List (Pull α ε)}
    (h : p.parse (tokens.map .token) = ⟨.rejected item, stats, unread⟩) :
    (∃ more, g.cfg.Yields [0] (tokens.take stats.shifts ++ more)) ∧
      stats.shifts ≤ tokens.length ∧
      (∀ t, tokens[stats.shifts]? = some t →
        (∀ more, ¬ g.cfg.Yields [0] (tokens.take (stats.shifts + 1) ++ more)) ∧
          item = t.withState Tree.errorState) ∧
      (stats.shifts = tokens.length →
        ¬ g.cfg.Yields [0] tokens ∧ item = Tree.endOfInput.withState Tree.errorState) := by
  obtain ⟨rfl, -⟩ := build_eq_ok hp
  have hends : p.bare.Ends (start (tokens.map .token)) ⟨.rejected item, stats, unread⟩ :=
    p.alike_bare.ends_rejected (fun _ _ => trivial) (ends_of_parse h fun _ _ => by simp)
  have hfree : p.bare.grammar.HookFree := p.grammar.hookFree_bare
  obtain ⟨hle, hitem, -⟩ := exists_path_of_rejected hfree rfl hends
  refine ⟨exists_more_of_rejected (p := p.bare) hfree rfl hprod hends, hle, ?_, ?_⟩
  · intro t ht
    have hlt : stats.shifts < tokens.length := (List.getElem?_eq_some_iff.1 ht).1
    refine ⟨not_yields_of_agree (p := p.bare) hdecided hfree rfl hstart hends hlt, ?_⟩
    rw [hitem, ht]
    rfl
  · intro hall
    have hnone : tokens[stats.shifts]? = none := List.getElem?_eq_none (Nat.le_of_eq hall.symm)
    refine ⟨not_yields_of_rejected (p := p.bare) hdecided hfree rfl hstart hends rfl, ?_⟩
    rw [hitem, hnone]
    rfl

end Parser

/-! ## One more closing than opening -/

/-- The nonterminal `1` stands for any number of terminals `2` and as many terminals `3` after
them. -/
def Cfg.matched : Cfg where
  symbolCount := 4
  rules := [⟨0, [1]⟩, ⟨1, [2, 1, 3]⟩, ⟨1, []⟩]
  inRange := by decide
  startFirst := ⟨[1], [⟨1, [2, 1, 3]⟩, ⟨1, []⟩], rfl, by decide⟩

theorem Cfg.productive_matched : matched.Productive := by
  have hone : matched.Derives [1] [] := @Derives.rule matched ⟨1, []⟩ (by decide)
  have hzero : matched.Derives [0] [1] := @Derives.rule matched ⟨0, [1]⟩ (by decide)
  intro symbol hsymbol
  obtain ⟨rule, hrule, rfl⟩ := isNonterminal_iff.1 hsymbol
  refine ⟨[], by simp, ?_⟩
  simp only [matched, List.mem_cons, List.not_mem_nil, or_false] at hrule
  rcases hrule with rfl | rfl | rfl
  · exact hzero.trans hone
  · exact hone
  · exact hone

/-- The grammar of `Cfg.matched`, with neither precedence nor hooks. -/
def Grammar.matched : Grammar Nat where
  symbols := ⟨["start", "matched", "opening", "closing"], by decide⟩
  cfg := Cfg.matched
  hooks := [none, none, none]
  ranks := [0, 0, 0]
  associativities := [.none]
  symbolCount_eq := rfl
  hooks_length := Grammar.anyNumber.hooks_length
  ranks_length := Grammar.anyNumber.ranks_length
  ranks_lt := Grammar.anyNumber.ranks_lt

/-- The closing that comes too soon is rejected, although the pair before it has been reduced by
then as if it stood inside of another one. -/
theorem Parser.rejected_at_earliest_matched :
    ∃ (p : Parser Nat) (item : Tree Nat), Parser.build Grammar.matched true = .ok p ∧
      p.parse ([Tree.scalar 2 7, Tree.scalar 3 8, Tree.scalar 3 9].map .token) =
        (⟨.rejected item, ⟨3, 2, 2⟩, []⟩ : Outcome Nat String) ∧
      item = (Tree.scalar 3 9).withState Tree.errorState ∧
      ∀ more, ¬ Grammar.matched.cfg.Yields [0]
        ([Tree.scalar 2 7, Tree.scalar 3 8, Tree.scalar 3 9] ++ more) := by
  have hdecided : Grammar.matched.Decided := by decide +kernel
  obtain ⟨p, hp⟩ := exists_build_eq_ok hdecided true
  have hparse : ∃ item, p.parse ([Tree.scalar 2 7, Tree.scalar 3 8, Tree.scalar 3 9].map .token) =
      (⟨.rejected item, ⟨3, 2, 2⟩, []⟩ : Outcome Nat String) := by
    cases hp
    exact ⟨_, rfl⟩
  obtain ⟨item, hparse⟩ := hparse
  obtain ⟨-, -, hrejected, -⟩ :=
    rejected_at_earliest (by decide) Cfg.productive_matched hdecided hp hparse
  obtain ⟨hmore, hitem⟩ := hrejected _ rfl
  exact ⟨p, item, hp, hparse, hitem, hmore⟩

end ShiftReduce
