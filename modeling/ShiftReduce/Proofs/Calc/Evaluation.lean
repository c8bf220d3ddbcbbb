import ShiftReduce.Proofs.Calc.Folding
import ShiftReduce.Proofs.Expressions.Runs
import ShiftReduce.Proofs.Parser.Detection

/-!
# The calculator computes checked arithmetic

For every text without a fault the calculator has a result.  If the reference evaluates the tokens
to a number, the result holds this number.  If an operation fails, or if the tokens are none of the
reference, the result is marked and holds no number.

* `eval_of_evaluates`, `eq_of_evaluates`: the tokens of the reference;
* `eval_of_not_evaluates`: all others;
* `computes_checked_arithmetic`: every text without a fault.
-/

namespace ShiftReduce.Calc

variable {p : Parser Token} {text : String} {tokens : List (Tree Token)}

/-- The result for tokens of the reference holds their value. -/
theorem eval_of_evaluates (h : Standard p.grammar) (htrim : p.trim = true)
    (hsource : Calculator.source ⟨p, alphabet⟩ text = tokens.map .token) {v : Option Int}
    (hv : Evaluates .sum (tokens.map valueOf) v) :
    ∃ ev, Calculator.eval ⟨p, alphabet⟩ text = .ok ev ∧ Folds ev.root v := by
  have hlexed := lexed_of_source hsource
  obtain ⟨d, hd, -, hmeans⟩ := h.exists_groups_of_evaluates hv hlexed rfl
  obtain ⟨bareRoot, hdepicts, hbare⟩ := Parser.bare_ends_accepted (ε := Error) h.expressions hd
  have hcarries : ∀ t, Pull.token t ∈ tokens.map (Pull.token : Tree Token → Pull Token Error) →
      flip (Carries p.grammar.cfg) t t := by
    intro t ht
    obtain ⟨t', ht', heq⟩ := List.mem_map.1 ht
    cases heq
    exact (hlexed t ht').carries p.grammar.cfg
  -- the run without hooks is known to accept, so the other one does beside it
  obtain ⟨root, hends, hroot⟩ := (h.alike_bare htrim).symm.ends_accepted hcarries hbare
  have heval : Calculator.eval ⟨p, alphabet⟩ text =
      .ok ⟨root, ⟨tokens.length, tokens.length, d.nodeCount + 1⟩⟩ := by
    unfold Calculator.eval
    rw [hsource, Parser.parse_eq_of_ends hends]
  exact ⟨_, heval, (hroot _ hdepicts).folds v (.start hmeans)⟩

/-- A result holds the only value that the reference gives the tokens. -/
theorem eq_of_evaluates (h : Standard p.grammar) (htrim : p.trim = true)
    (hsource : Calculator.source ⟨p, alphabet⟩ text = tokens.map .token) {ev : Evaluation}
    (heval : Calculator.eval ⟨p, alphabet⟩ text = .ok ev) {v w : Option Int}
    (hfolds : Folds ev.root v) (hw : Evaluates .sum (tokens.map valueOf) w) : w = v := by
  obtain ⟨ev', heval', hfolds'⟩ := eval_of_evaluates h htrim hsource hw
  rw [heval] at heval'
  cases heval'
  rw [← hfolds.numberIn?_eq, ← hfolds'.numberIn?_eq]

/-- The result for any other tokens is marked. -/
theorem eval_of_not_evaluates (h : Standard p.grammar)
    (hsource : Calculator.source ⟨p, alphabet⟩ text = tokens.map .token)
    (hno : ¬ ∃ v, Evaluates .sum (tokens.map valueOf) v) :
    ∃ ev, Calculator.eval ⟨p, alphabet⟩ text = .ok ev ∧ Folds ev.root none := by
  have hlexed := lexed_of_source hsource
  have hend : ∀ t ∈ tokens, t.symbol ≠ none := fun t ht => (hlexed t ht).symbol_ne
  have hnone : ¬ ∃ d, Expression forms d ∧ d.yield = tokens := by
    rintro ⟨d, hd, rfl⟩
    obtain ⟨c, hc⟩ := h.expressions.exists_groups hd
    have hyield := hc.yield_eq
    rw [← hyield] at hlexed hno
    exact hno (h.exists_evaluates hc.expression hc.respects hlexed h.within_sum)
  obtain ⟨token, stats, unread, hparse⟩ :=
    Parser.exists_rejected_of_not_expression (ε := Error) h.expressions hend hnone
  refine ⟨⟨token, stats⟩, ?_, ?_⟩
  · unfold Calculator.eval
    rw [hsource, hparse]
  · have hends := p.alike_bare.ends_rejected (fun _ _ => trivial)
      (Parser.ends_of_parse hparse fun _ _ => by simp)
    obtain ⟨-, hitem, -⟩ :=
      Parser.exists_path_of_rejected (p := p.bare) p.grammar.hookFree_bare rfl hends
    refine folds_none ?_
    show token.isError = true
    rw [hitem]
    exact Tree.isError_withState_errorState _

/-- For every text that is read without a fault there is a result.  It holds the number that the
reference evaluates the tokens to.  If the evaluation fails, and if the tokens are none of the
reference, it is marked and holds no number. -/
theorem computes_checked_arithmetic :
    ∃ c, Calculator.standard = .ok c ∧ ∀ (text : String) (tokens : List (Tree Token)),
      c.source text = tokens.map .token → ∃ ev, c.eval text = .ok ev ∧
        (∀ n, Evaluates .sum (tokens.map valueOf) (some n) →
          ev.value? = some n ∧ ev.isError = false) ∧
        (Evaluates .sum (tokens.map valueOf) none ∨
            (¬ ∃ v, Evaluates .sum (tokens.map valueOf) v) →
          ev.isError = true ∧ ev.value? = none) := by
  obtain ⟨p, hp, hstandard, htrim⟩ := standard_eq
  refine ⟨⟨p, alphabet⟩, hp, fun text tokens hsource => ?_⟩
  by_cases hvalue : ∃ v, Evaluates .sum (tokens.map valueOf) v
  · obtain ⟨v, hv⟩ := hvalue
    obtain ⟨ev, hev, hfolds⟩ := eval_of_evaluates hstandard htrim hsource hv
    refine ⟨ev, hev, ?_, ?_⟩
    · intro n hn
      cases eq_of_evaluates hstandard htrim hsource hev hfolds hn
      exact ⟨hfolds.numberIn?_eq, hfolds.isError_eq⟩
    · rintro (hfault | hno)
      · cases eq_of_evaluates hstandard htrim hsource hev hfolds hfault
        exact ⟨hfolds.isError_eq, hfolds.numberIn?_eq⟩
      · exact absurd ⟨v, hv⟩ hno
  · obtain ⟨ev, hev, hfolds⟩ := eval_of_not_evaluates hstandard hsource hvalue
    refine ⟨ev, hev, ?_, ?_⟩
    · intro n hn
      exact absurd ⟨_, hn⟩ hvalue
    · intro _
      exact ⟨hfolds.isError_eq, hfolds.numberIn?_eq⟩

/-- Products come before differences. -/
theorem computes_checked_arithmetic_difference :
    ∃ c ev, Calculator.standard = .ok c ∧ c.eval "7-2*3" = .ok ev ∧ ev.value? = some 1 ∧
      ev.isError = false := by
  obtain ⟨c, hc, hcomputes⟩ := computes_checked_arithmetic
  obtain ⟨p, hp, -, -⟩ := standard_eq
  obtain rfl : c = ⟨p, alphabet⟩ := by
    rw [hp] at hc
    exact (Except.ok.inj hc).symm
  have hsource : ∃ tokens : List (Tree Token),
      Calculator.source ⟨p, alphabet⟩ "7-2*3" = tokens.map .token ∧
      tokens.map valueOf = [.number 7, .operator '-', .number 2, .operator '*', .number 3] :=
    ⟨[_, _, _, _, _], rfl, rfl⟩
  obtain ⟨tokens, htokens, hvalues⟩ := hsource
  have hproduct : Evaluates .product [.number 2, .operator '*', .number 3] (some 6) :=
    @Evaluates.apply .product '*' _ [.number 2] [.number 3] (some 2) (some 3) List.mem_cons_self
      (Evaluates.number 2).of_unary (.number 3)
  have hdifference : Evaluates .sum
      [.number 7, .operator '-', .number 2, .operator '*', .number 3] (some 1) :=
    @Evaluates.apply .sum '-' _ [.number 7] _ (some 7) (some 6)
      (List.mem_cons_of_mem _ List.mem_cons_self) (Evaluates.number 7).of_unary hproduct
  obtain ⟨ev, hev, hvalue, -⟩ := hcomputes _ tokens htokens
  exact ⟨_, ev, hp, hev, hvalue 1 (hvalues ▸ hdifference)⟩

end ShiftReduce.Calc
