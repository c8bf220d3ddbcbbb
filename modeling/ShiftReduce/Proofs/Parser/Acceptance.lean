import ShiftReduce.Proofs.Declarations
import ShiftReduce.Proofs.Parser.Alike

/-!
# Where a run accepts

A run accepts when it reduces the start production with nothing below, whatever is in sight.  If the
start symbol is on no right side, only the end of the input can be in sight then, so that all tokens
have been shifted.  A grammar text can put the start symbol on a right side; then the start
production is also reduced before other tokens, and a run can accept with tokens left.

* `Parser.lookahead_eq_none_of_accept`: what is in sight when a run accepts;
* `Parser.exists_derivation_of_accepted`: what has been accepted, whatever the hooks;
* `GrammarText.Draft.accepts_whole_input`: all of this about grammars in text form;
* `GrammarText.Draft.accepts_before_end`: a text that has the start symbol on a right side.
-/

namespace ShiftReduce

namespace Parser

variable {α ε : Type} {p : Parser α} {root : Tree α} {stats : Stats} {unread : List (Pull α ε)}

/-- If the start symbol is on no right side, the end of the input is in sight when a run accepts. -/
theorem lookahead_eq_none_of_accept (hstart : ∀ rule ∈ p.grammar.cfg.rules, 0 ∉ rule.right)
    {c : Config α ε} {symbols : List Nat} (hc : c.Over p.grammar.cfg symbols)
    (hstep : p.step c = .halt ⟨.accepted root, stats, unread⟩) : c.lookahead = none := by
  have hmove := move_of_over hc
  generalize p.step c = s at hstep hmove
  cases hmove with
  | reject => cases hstep
  | shift =>
    obtain ⟨error, hfaulted⟩ := Config.advance_eq_halt hstep
    cases hfaulted
  | reduce => cases hstep
  | accept hx hla hzero =>
    rw [← hla]
    exact Cfg.lookahead_eq_none_of_start hstart hx hzero

/-- What is accepted, with whatever hooks, has a derivation tree, and the run without hooks and
trimming returns a tree that shows it. -/
theorem exists_derivation_of_accepted (hstart : ∀ rule ∈ p.grammar.cfg.rules, 0 ∉ rule.right)
    {tokens : List (Tree α)} (hend : ∀ t ∈ tokens, t.symbol ≠ none)
    (h : p.Ends (start (tokens.map .token)) ⟨.accepted root, stats, unread⟩) :
    ∃ (d : Derivation α) (bareRoot : Tree α), p.grammar.cfg.IsDerivation d 0 ∧ d.yield = tokens ∧
      stats.shifts = tokens.length ∧ p.grammar.cfg.Depicts bareRoot d ∧
      p.bare.Ends (start (tokens.map .token)) ⟨.accepted bareRoot, stats, unread⟩ := by
  obtain ⟨bareRoot, hbare⟩ := ends_accepted_iff_bare.1 ⟨root, h⟩
  obtain ⟨c, hc, hstep⟩ := hbare.exists_accept
  have hfree : p.bare.grammar.HookFree := p.grammar.hookFree_bare
  obtain ⟨ds, symbols, rest, hparsed⟩ := exists_parsed_of_reachable (p := p.bare) hfree rfl hc
  obtain ⟨children, hderived, hdepicted, htokens, hshifts, -⟩ := hparsed.accept hfree rfl hstep
  rw [leading_map_token] at htokens
  have hnone : c.lookahead = none := lookahead_eq_none_of_accept (p := p.bare) hstart
    hparsed.path hstep
  -- Tokens have symbols, so the end of the input is in sight only when no token is left.
  have hrest : rest = [] := by
    have hsees : rest.head?.bind Tree.symbol = none := by
      rw [← hparsed.sees.lookahead_eq]
      exact hnone
    cases rest with
    | nil => rfl
    | cons t ts => exact absurd hsees (hend t (by simp [htokens]))
  rw [hrest, List.append_nil] at htokens
  exact ⟨.node 0 children, bareRoot, hderived, htokens.symm, by rw [hshifts, htokens], hdepicted,
    hbare⟩

end Parser

/-! ## Grammars in text form -/

namespace GrammarText.Draft

/-- If no production of a grammar text has the start symbol on its right side, a run over tokens
accepts before the end of the input only, after it has shifted all tokens. -/
theorem accepts_whole_input {α ε : Type} {draft : Draft} {hookFor : String → Option (Hook α)}
    {g : Grammar α} (hg : draft.build hookFor = .ok g) {p : Parser α} {trim : Bool}
    (hp : Parser.build g trim = .ok p) (hstart : ∀ q ∈ draft.productions, 0 ∉ q.right)
    {tokens : List (Tree α)} (hend : ∀ t ∈ tokens, t.symbol ≠ none) {root : Tree α} {stats : Stats}
    {unread : List (Pull α ε)}
    (h : p.parse (tokens.map .token) = ⟨.accepted root, stats, unread⟩) :
    stats.shifts = tokens.length ∧
      ∃ c : Config α ε, p.Reachable (tokens.map .token) c ∧
        p.step c = .halt ⟨.accepted root, stats, unread⟩ ∧ c.lookahead = none := by
  obtain ⟨rfl, -⟩ := Parser.build_eq_ok hp
  have hrules : ∀ rule ∈ p.grammar.cfg.rules, 0 ∉ rule.right := by
    rw [rules_eq_of_build hg]
    intro rule hrule
    obtain ⟨q, hq, rfl⟩ := List.mem_map.1 hrule
    exact hstart q hq
  have hends := Parser.ends_of_parse h fun _ _ => by simp
  obtain ⟨-, -, -, -, hshifts, -⟩ := Parser.exists_derivation_of_accepted hrules hend hends
  obtain ⟨c, hc, hstep⟩ := hends.exists_accept
  obtain ⟨symbols, hover⟩ := Parser.over_of_reachable hc
  exact ⟨hshifts, c, hc, hstep, Parser.lookahead_eq_none_of_accept hrules hover hstep⟩

/-- What the text with the productions `E -> E x` and `E -> num` declares. -/
def repeated : Draft where
  symbols := ["Start", "E", "x", "num"]
  nonterminalCount := 2
  groups := [⟨.none, [⟨"start", 0, [1]⟩, ⟨"rule1", 1, [1, 2]⟩, ⟨"rule2", 1, [3]⟩]⟩]

/-- A token and two more after it are accepted as a whole. -/
theorem accepts_whole_input_repeated :
    ∃ (g : Grammar String) (p : Parser String) (root : Tree String),
      ofText "E -> E x\nE -> num\n" = .ok repeated ∧
      repeated.build (fun _ => none) = .ok g ∧ Parser.build g true = .ok p ∧
      p.parse ([Tree.scalar 3 "num", Tree.scalar 2 "x", Tree.scalar 2 "x"].map .token) =
        (⟨.accepted root, ⟨3, 3, 4⟩, []⟩ : Outcome String String) ∧
      ∃ c : Config String String,
        p.Reachable ([Tree.scalar 3 "num", Tree.scalar 2 "x", Tree.scalar 2 "x"].map .token) c ∧
          p.step c = .halt ⟨.accepted root, ⟨3, 3, 4⟩, []⟩ ∧ c.lookahead = none := by
  have hruns : ∃ (g : Grammar String) (p : Parser String) (root : Tree String),
      repeated.build (fun _ => none) = .ok g ∧ Parser.build g true = .ok p ∧
      p.parse ([Tree.scalar 3 "num", Tree.scalar 2 "x", Tree.scalar 2 "x"].map .token) =
        (⟨.accepted root, ⟨3, 3, 4⟩, []⟩ : Outcome String String) := ⟨_, _, _, rfl, rfl, rfl⟩
  obtain ⟨g, p, root, hg, hp, hparse⟩ := hruns
  have hend : ∀ t ∈ [Tree.scalar 3 "num", Tree.scalar 2 "x", Tree.scalar 2 "x"],
      t.symbol ≠ none := by
    simp [Tree.scalar, Tree.symbol, Tree.tag]
  obtain ⟨-, hlast⟩ := accepts_whole_input hg hp (by decide) hend hparse
  exact ⟨g, p, root, by decide +kernel, hg, hp, hparse, hlast⟩

/-- What the text with the productions `E -> Start x` and `E -> num` declares. -/
def recurrent : Draft where
  symbols := ["Start", "E", "x", "num"]
  nonterminalCount := 2
  groups := [⟨.none, [⟨"start", 0, [1]⟩, ⟨"rule1", 1, [0, 2]⟩, ⟨"rule2", 1, [3]⟩]⟩]

/-- With the start symbol on a right side, the run over three tokens accepts while the second one is
in sight; the third one is never pulled. -/
theorem accepts_before_end :
    ∃ (g : Grammar String) (p : Parser String) (root : Tree String),
      ofText "E -> Start x\nE -> num\n" = .ok recurrent ∧
      recurrent.build (fun _ => none) = .ok g ∧ Parser.build g true = .ok p ∧
      p.parse ([Tree.scalar 3 "num", Tree.scalar 2 "x", Tree.scalar 3 "num"].map .token) =
        (⟨.accepted root, ⟨2, 1, 2⟩, [.token (Tree.scalar 3 "num")]⟩ : Outcome String String) ∧
      ∃ c : Config String String,
        p.Reachable ([Tree.scalar 3 "num", Tree.scalar 2 "x", Tree.scalar 3 "num"].map .token) c ∧
          p.step c = .halt ⟨.accepted root, ⟨2, 1, 2⟩, [.token (Tree.scalar 3 "num")]⟩ ∧
          c.lookahead = some 2 :=
  ⟨_, _, _, by decide +kernel, rfl, rfl, rfl, _, .step (.step (.start rfl) rfl) rfl, rfl, rfl⟩

end GrammarText.Draft

end ShiftReduce
