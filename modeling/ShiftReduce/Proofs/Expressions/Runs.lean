import ShiftReduce.Proofs.Expressions.Regrouping
import ShiftReduce.Proofs.Expressions.Traversal
import ShiftReduce.Proofs.Parser.Acceptance
import ShiftReduce.Proofs.Parser.Tokens
import ShiftReduce.Proofs.Parser.Weight

/-!
# What a parser for expressions does with its tokens

A parser for an expression grammar accepts the tokens of expressions and rejects all others.  Hooks
and trimming have no part in this.  Without them, the tree shows the derivation that respects
precedence, and there is only one.

* `Cfg.Expressions.weighted`: every run ends;
* `Grammar.Expressions.eq_of_groups`: tokens are grouped in one way only;
* `Parser.exists_accepted_iff_expression`: the tokens that are accepted;
* `Parser.exists_rejected_of_not_expression`: the others are rejected;
* `Parser.exists_respects_of_accepted`: the tree shows how the tokens are grouped.
-/

namespace ShiftReduce

variable {α ε : Type} {expr : Nat} {forms : List Form}

/-- A weight for each symbol: terminals have more than expressions, and the start has none. -/
def Form.weight (expr symbol : Nat) : Nat :=
  if symbol = 0 then 0 else if symbol = expr then 1 else 2

theorem Cfg.Expressions.weighted {g : Cfg} (h : g.Expressions expr forms) :
    g.Weighted (Form.weight expr) := by
  have hexpr : Form.weight expr expr = 1 := by simp [Form.weight, h.expr_ne]
  intro rule hrule
  obtain ⟨q, hq⟩ := List.getElem?_of_mem hrule
  rcases h.rule_cases hq with ⟨-, rfl⟩ | ⟨f, hf, rfl⟩
  · simp [Form.weight, h.expr_ne]
  · have hterminal : ∀ t ∈ f.terminals, Form.weight expr t = 2 := by
      intro t ht
      obtain ⟨hzero, hne⟩ := h.ne_of_mem_terminals hf ht
      simp [Form.weight, hzero, hne]
    cases f with
    | operand a =>
      have ha := hterminal a (by simp [Form.terminals])
      simp [Form.right, hexpr, ha]
    | enclosed l r =>
      have hl := hterminal l (by simp [Form.terminals])
      have hr := hterminal r (by simp [Form.terminals])
      simp [Form.right, hexpr, hl, hr]
    | signed o =>
      have ho := hterminal o (by simp [Form.terminals])
      simp [Form.right, hexpr, ho]
    | joined o =>
      have ho := hterminal o (by simp [Form.terminals])
      simp [Form.right, hexpr, ho]

namespace Grammar

variable {g : Grammar α}

theorem respects_bare {d : Derivation α} : g.bare.Respects d ↔ g.Respects d := by
  induction d using Derivation.induct with
  | token t => exact ⟨fun _ => .token t, fun _ => .token t⟩
  | node p children ih =>
    rw [respects_node_iff, respects_node_iff, forall₂_congr ih]
    rfl

theorem Expressions.bare (h : g.Expressions expr forms) : g.bare.Expressions expr forms :=
  ⟨h.cfg, h.settled, h.sign_lt⟩

theorem Groups.bare {tokens : List (Tree α)} {d : Derivation α} (h : g.Groups forms tokens d) :
    g.bare.Groups forms tokens d :=
  ⟨h.expression, respects_bare.2 h.respects, h.yield_eq⟩

end Grammar

namespace Parser

variable {p : Parser α} {tokens : List (Tree α)} {root : Tree α} {stats : Stats}
  {unread : List (Pull α ε)}

/-- Without hooks and trimming, tokens that can be grouped are accepted. -/
theorem bare_ends_accepted (h : p.grammar.Expressions expr forms) {d : Derivation α}
    (hd : p.grammar.Groups forms tokens d) :
    ∃ root : Tree α, p.grammar.cfg.Depicts root (.node 0 [d]) ∧
      p.bare.Ends (start (tokens.map fun t => (.token t : Pull α ε)))
        ⟨.accepted root, ⟨tokens.length, tokens.length, d.nodeCount + 1⟩, []⟩ :=
  ends_accepted_of_groups (p := p.bare) h.bare p.grammar.hookFree_bare rfl hd.bare

/-- What is accepted are the tokens of an expression. -/
theorem exists_expression_of_ends (h : p.grammar.Expressions expr forms)
    (hend : ∀ t ∈ tokens, t.symbol ≠ none)
    (hends : p.Ends (start (tokens.map .token)) ⟨.accepted root, stats, unread⟩) :
    ∃ d, Expression forms d ∧ d.yield = tokens := by
  obtain ⟨d, -, hd, hyield, -⟩ :=
    exists_derivation_of_accepted h.cfg.start_not_mem hend hends
  obtain ⟨e, rfl, he⟩ := h.cfg.isDerivation_start_iff.1 hd
  exact ⟨e, he, by simpa using hyield⟩

/-- A run accepts just the tokens of expressions. -/
theorem exists_accepted_iff_expression (h : p.grammar.Expressions expr forms)
    (hend : ∀ t ∈ tokens, t.symbol ≠ none) :
    (∃ root stats unread, p.parse (tokens.map .token) =
      (⟨.accepted root, stats, unread⟩ : Outcome α ε)) ↔
      ∃ d, Expression forms d ∧ d.yield = tokens := by
  constructor
  · rintro ⟨root, stats, unread, hparse⟩
    exact exists_expression_of_ends h hend (ends_of_parse hparse fun _ _ => by simp)
  · rintro ⟨d, hd, rfl⟩
    obtain ⟨e, he⟩ := h.exists_groups hd
    obtain ⟨root, -, hends⟩ := bare_ends_accepted (ε := ε) h he
    obtain ⟨root', hends'⟩ := ends_accepted_iff_bare.2 ⟨root, hends⟩
    exact ⟨root', _, _, parse_eq_of_ends hends'⟩

/-- All other tokens are rejected. -/
theorem exists_rejected_of_not_expression (h : p.grammar.Expressions expr forms)
    (hend : ∀ t ∈ tokens, t.symbol ≠ none) (hno : ¬ ∃ d, Expression forms d ∧ d.yield = tokens) :
    ∃ token stats unread, p.parse (tokens.map .token) =
      (⟨.rejected token, stats, unread⟩ : Outcome α ε) := by
  -- the run ends, and over tokens alone it can only accept or reject
  obtain ⟨⟨verdict, stats, unread⟩, hends⟩ :=
    exists_ends (p := p) (ε := ε) h.cfg.weighted.descends (tokens.map .token)
  obtain ⟨-, ⟨root, rfl⟩ | ⟨token, rfl⟩⟩ := hends.verdict_on (start_map_token tokens) .start
  · exact absurd (exists_expression_of_ends h hend hends) hno
  · exact ⟨token, stats, unread, parse_eq_of_ends hends⟩

end Parser

/-- Tokens are grouped in one way only. -/
theorem Grammar.Expressions.eq_of_groups {g : Grammar α} (h : g.Expressions expr forms)
    {tokens : List (Tree α)} {d e : Derivation α} (hd : g.Groups forms tokens d)
    (he : g.Groups forms tokens e) : d = e := by
  obtain ⟨p, hp⟩ := Parser.exists_build_of_expressions h false
  obtain ⟨rfl, -⟩ := Parser.build_eq_ok hp
  obtain ⟨root, hroot, hends⟩ := Parser.bare_ends_accepted (ε := Unit) h hd
  obtain ⟨root', hroot', hends'⟩ := Parser.bare_ends_accepted (ε := Unit) h he
  obtain rfl : root = root' := Verdict.accepted.inj (Outcome.mk.inj (hends.unique hends')).1
  have heq : Derivation.node 0 [d] = .node 0 [e] :=
    hroot.eq_of_yield_eq hroot' (h.cfg.isDerivation_start_iff.2 ⟨d, rfl, hd.expression⟩)
      (h.cfg.isDerivation_start_iff.2 ⟨e, rfl, he.expression⟩)
      (by simp [hd.yield_eq, he.yield_eq])
  simpa using heq

namespace Parser

variable {p : Parser α} {tokens : List (Tree α)} {root : Tree α} {stats : Stats}
  {unread : List (Pull α ε)}

/-- Without hooks and trimming, the tree of what is accepted shows the derivation of the tokens that
respects precedence, and they have no other one. -/
theorem exists_respects_of_accepted (h : p.grammar.Expressions expr forms)
    (hfree : p.grammar.HookFree) (htrim : p.trim = false) (hend : ∀ t ∈ tokens, t.symbol ≠ none)
    (hparse : p.parse (tokens.map .token) = ⟨.accepted root, stats, unread⟩) :
    ∃ d, p.grammar.cfg.Depicts root d ∧ p.grammar.cfg.IsDerivation d 0 ∧ d.yield = tokens ∧
      p.grammar.Respects d ∧ ∀ e, p.grammar.cfg.IsDerivation e 0 → e.yield = tokens →
        p.grammar.Respects e → e = d := by
  have hends := ends_of_parse hparse fun _ _ => by simp
  obtain ⟨d, hd, rfl⟩ := exists_expression_of_ends h hend hends
  obtain ⟨c, hc⟩ := h.exists_groups hd
  obtain ⟨root', hroot, hends'⟩ := ends_accepted_of_groups (ε := ε) h hfree htrim hc
  obtain rfl : root = root' := Verdict.accepted.inj (Outcome.mk.inj (hends.unique hends')).1
  refine ⟨.node 0 [c], hroot, h.cfg.isDerivation_start_iff.2 ⟨c, rfl, hc.expression⟩, ?_,
    (Grammar.respects_start_iff h.cfg).2 hc.respects, ?_⟩
  · simpa using hc.yield_eq
  · intro e he hyield hrespects
    obtain ⟨c', rfl, hc'⟩ := h.cfg.isDerivation_start_iff.1 he
    have hgroups : p.grammar.Groups forms d.yield c' :=
      ⟨hc', (Grammar.respects_start_iff h.cfg).1 hrespects, by
        simpa using hyield⟩
    rw [h.eq_of_groups hgroups hc]

end Parser

end ShiftReduce
