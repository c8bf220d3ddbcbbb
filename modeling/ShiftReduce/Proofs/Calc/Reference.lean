import ShiftReduce.Proofs.Calc.Standard
import ShiftReduce.Proofs.Expressions.Regrouping

/-!
# What expressions evaluate to

The reference for the calculator is a grammar without ambiguity that evaluates as it goes:

    sum     := product (('+' | '-') product)*
    product := unary (('*' | '/') unary)*
    unary   := '-' unary | number | '(' sum ')'

Operators of the same level apply from the left, and every operation is checked.  What the reference
reads are just the values of the derivations that respect precedence.

* `int64?`, `quotient?`: checked arithmetic in 64 bits;
* `Level`, `Evaluates`: the reference;
* `Means`: the value of a derivation;
* `Standard.exists_groups_of_evaluates`, `Standard.exists_evaluates`: from the reference to
  derivations and back.
-/

namespace ShiftReduce.Calc

/-! ## The reference -/

/-- The integer itself, provided that it has 64 bits, one of them for the sign. -/
def int64? (n : Int) : Option Int := if -2 ^ 63 ≤ n ∧ n < 2 ^ 63 then some n else none

/-- Division cuts off the fraction; there is none by zero. -/
def quotient? (m n : Int) : Option Int := if n = 0 then none else int64? (m.tdiv n)

theorem checked_eq (n : Int) : checked n = int64? n := by
  have hrange : least ≤ n ∧ n ≤ greatest ↔ -2 ^ 63 ≤ n ∧ n < 2 ^ 63 := by
    simp only [least, greatest]
    omega
  simp only [checked, int64?, hrange]

theorem divide_eq (m n : Int) : divide m n = quotient? m n := by
  simp only [divide, quotient?, checked_eq]

example : quotient? (-2 ^ 63) (-1) = none := by decide

/-- The levels of expressions, the loosest first. -/
inductive Level where
  | sum
  | product
  | unary
deriving DecidableEq, Repr

namespace Level

/-- The level of the operands. -/
def operand : Level → Level
  | sum => product
  | product => unary
  | unary => unary

/-- The operators of a level and their operations. -/
def operations : Level → List (Char × (Int → Int → Option Int))
  | sum => [('+', fun m n => int64? (m + n)), ('-', fun m n => int64? (m - n))]
  | product => [('*', fun m n => int64? (m * n)), ('/', quotient?)]
  | unary => []

/-- The group of the operators of a level. -/
def rank : Level → Nat
  | sum => 3
  | product => 2
  | unary => 1

end Level

/-- The values are those of an expression of the level, and it evaluates to the number, or to none
where an operation fails. -/
inductive Evaluates : Level → List Value → Option Int → Prop
  | number (n : Int) : Evaluates .unary [.number n] (some n)
  | paren {w : List Value} {v : Option Int} (h : Evaluates .sum w v) :
    Evaluates .unary (.operator '(' :: w ++ [.operator ')']) v
  | negate {w : List Value} {v : Option Int} (h : Evaluates .unary w v) :
    Evaluates .unary (.operator '-' :: w) (v.bind fun n => int64? (-n))
  | operand {level : Level} {w : List Value} {v : Option Int} (h : Evaluates level.operand w v) :
    Evaluates level w v
  | apply {level : Level} {c : Char} {f : Int → Int → Option Int} {u w : List Value}
    {a b : Option Int} (hf : (c, f) ∈ level.operations) (ha : Evaluates level u a)
    (hb : Evaluates level.operand w b) :
    Evaluates level (u ++ .operator c :: w) (a.bind fun m => b.bind (f m))

theorem Evaluates.of_unary {level : Level} {w : List Value} {v : Option Int}
    (h : Evaluates .unary w v) : Evaluates level w v := by
  cases level with
  | sum => exact .operand (.operand h)
  | product => exact .operand h
  | unary => exact h

/-- An expression is one of every looser level, too. -/
theorem Evaluates.mono {level level' : Level} (hle : level.rank ≤ level'.rank) {w : List Value}
    {v : Option Int} (h : Evaluates level w v) : Evaluates level' w v := by
  cases level with
  | unary => exact h.of_unary
  | product =>
    cases level' with
    | sum => exact .operand h
    | product => exact h
    | unary => exact absurd hle (by decide)
  | sum =>
    cases level' with
    | sum => exact h
    | product => exact absurd hle (by decide)
    | unary => exact absurd hle (by decide)

/-! ## Operators and derivations -/

/-- The production with an operator between two expressions, with the symbol and the sign of the
operator, its level and its operation. -/
inductive Operator : Nat → Nat → Char → Level → (Int → Int → Option Int) → Prop
  | times : Operator 4 6 '*' .product fun m n => int64? (m * n)
  | over : Operator 5 7 '/' .product quotient?
  | plus : Operator 6 8 '+' .sum fun m n => int64? (m + n)
  | minus : Operator 7 5 '-' .sum fun m n => int64? (m - n)

theorem exists_operator_of_form {p o : Nat} (h : Form.at? forms p = some (.joined o)) :
    ∃ c level f, Operator p o c level f := by
  rcases joined_cases h with ⟨rfl, rfl⟩ | ⟨rfl, rfl⟩ | ⟨rfl, rfl⟩ | ⟨rfl, rfl⟩
  · exact ⟨_, _, _, .times⟩
  · exact ⟨_, _, _, .over⟩
  · exact ⟨_, _, _, .plus⟩
  · exact ⟨_, _, _, .minus⟩

theorem exists_operator_of_mem {level : Level} {c : Char} {f : Int → Int → Option Int}
    (h : (c, f) ∈ level.operations) : ∃ p o, Operator p o c level f := by
  cases level with
  | sum =>
    simp only [Level.operations, List.mem_cons, Prod.mk.injEq, List.not_mem_nil, or_false] at h
    rcases h with ⟨rfl, rfl⟩ | ⟨rfl, rfl⟩
    · exact ⟨_, _, .plus⟩
    · exact ⟨_, _, .minus⟩
  | product =>
    simp only [Level.operations, List.mem_cons, Prod.mk.injEq, List.not_mem_nil, or_false] at h
    rcases h with ⟨rfl, rfl⟩ | ⟨rfl, rfl⟩
    · exact ⟨_, _, .times⟩
    · exact ⟨_, _, .over⟩
  | unary => cases h

namespace Operator

variable {p o : Nat} {c : Char} {level : Level} {f : Int → Int → Option Int}

theorem form (h : Operator p o c level f) : Form.at? forms p = some (.joined o) := by
  cases h <;> rfl

theorem operator?_eq (h : Operator p o c level f) : alphabet.operator? c = some o := by
  cases h <;> rfl

theorem mem_operations (h : Operator p o c level f) : (c, f) ∈ level.operations := by
  cases h <;> simp [Level.operations]

variable {g : Grammar Token}

theorem rank_eq (h : Operator p o c level f) (hg : Standard g) : g.rank p = level.rank := by
  rw [hg.rank_eq]
  cases h <;> rfl

theorem associativity_eq (h : Operator p o c level f) (hg : Standard g) :
    g.associativity level.rank = .left := by
  rw [hg.associativity_eq]
  cases h <;> rfl

theorem rank_operand (h : Operator p o c level f) : level.operand.rank + 1 = level.rank := by
  cases h <;> rfl

end Operator

/-- What a derivation evaluates to: a number, or none where an operation fails. -/
inductive Means : Derivation Token → Option Int → Prop
  | start {d : Derivation Token} {v : Option Int} (h : Means d v) : Means (.node 0 [d]) v
  | number {t : Tree Token} {n : Int} (ht : valueOf t = .number n) :
    Means (.node 1 [.token t]) (some n)
  | paren {t u : Tree Token} {d : Derivation Token} {v : Option Int} (h : Means d v) :
    Means (.node 2 [.token t, d, .token u]) v
  | negate {t : Tree Token} {d : Derivation Token} {v : Option Int} (h : Means d v) :
    Means (.node 3 [.token t, d]) (v.bind fun n => int64? (-n))
  | apply {p o : Nat} {c : Char} {level : Level} {f : Int → Int → Option Int} {t : Tree Token}
    {d e : Derivation Token} {a b : Option Int} (hf : Operator p o c level f) (hd : Means d a)
    (he : Means e b) : Means (.node p [d, .token t, e]) (a.bind fun m => b.bind (f m))

theorem Means.exists_node {d : Derivation Token} {v : Option Int} (h : Means d v) :
    ∃ p children, d = .node p children := by
  cases h <;> exact ⟨_, _, rfl⟩

/-- The operators at the root are of the level or tighter. -/
def Within (g : Grammar Token) (level : Level) (d : Derivation Token) : Prop :=
  ∀ q children, d = .node q children → g.cfg.Joins q → g.rank q ≤ level.rank

namespace Standard

variable {g : Grammar Token} {p o : Nat} {c : Char} {level : Level} {f : Int → Int → Option Int}
  {d : Derivation Token}

/-- What can be a left operand is an expression of the operator's level. -/
theorem leftFits_iff (h : Standard g) (hf : Operator p o c level f) :
    g.LeftFits d p ↔ Within g level d := by
  have hfirst : ∀ q, g.LeftFirst q p ↔ g.rank q ≤ level.rank := by
    intro q
    rw [Grammar.LeftFirst, hf.rank_eq h, Nat.le_iff_lt_or_eq]
    refine or_congr_right ⟨And.left, fun heq => ⟨heq, ?_⟩⟩
    rw [heq]
    exact hf.associativity_eq h
  simp only [Grammar.LeftFits, Within, hfirst]

/-- What can be a right operand is an expression of the level of operands. -/
theorem rightFits_iff (h : Standard g) (hf : Operator p o c level f) :
    g.RightFits p d ↔ Within g level.operand d := by
  have hfirst : ∀ q, g.RightFirst p q ↔ g.rank q ≤ level.operand.rank := by
    intro q
    rw [Grammar.RightFirst, hf.rank_eq h, hf.associativity_eq h, ← hf.rank_operand]
    constructor
    · rintro (hlt | ⟨-, hright⟩)
      · exact Nat.le_of_lt_succ hlt
      · cases hright
    · intro hle
      exact Or.inl (Nat.lt_succ_of_le hle)
  simp only [Grammar.RightFits, Within, hfirst]

/-- What can have a sign is a unary expression. -/
theorem rightFits_sign_iff (h : Standard g) : g.RightFits 3 d ↔ Within g .unary d := by
  have hfirst : ∀ q, g.RightFirst 3 q ↔ g.rank q ≤ Level.unary.rank := by
    intro q
    have hthree : g.rank 3 = 1 := h.rank_eq 3
    have hright : g.associativity 1 = .right := h.associativity_eq 1
    rw [Grammar.RightFirst, hthree, hright, Nat.le_iff_lt_or_eq]
    exact or_congr_right ⟨fun hq => hq.1.symm, fun hq => ⟨hq.symm, rfl⟩⟩
  simp only [Grammar.RightFits, Within, hfirst]

theorem within_of_form (h : Standard g) {q : Nat} {form : Form} {children : List (Derivation Token)}
    (hform : Form.at? forms q = some form) (hnone : form.operator? = none) :
    Within g level (.node q children) := by
  intro q' children' heq hjoins
  cases heq
  exact absurd hjoins (h.expressions.cfg.not_joins_of_form hform hnone)

theorem within_operator (h : Standard g) (hf : Operator p o c level f)
    {children : List (Derivation Token)} {level' : Level} :
    Within g level' (.node p children) ↔ level.rank ≤ level'.rank := by
  constructor
  · intro hwithin
    rw [← hf.rank_eq h]
    exact hwithin p children rfl (h.expressions.cfg.joins hf.form)
  · intro hle q children' heq _
    cases heq
    rw [hf.rank_eq h]
    exact hle

theorem within_sum (h : Standard g) : Within g .sum d := by
  intro q children _ hjoins
  obtain ⟨o, hform⟩ := h.expressions.cfg.exists_form_of_joins hjoins
  obtain ⟨c, level, f, hf⟩ := exists_operator_of_form hform
  rw [hf.rank_eq h]
  cases level <;> decide

/-! ## From the reference to derivations -/

/-- Tokens that the reference evaluates have a derivation that respects precedence and has the same
value. -/
theorem exists_groups_of_evaluates (h : Standard g) {w : List Value} {v : Option Int}
    (he : Evaluates level w v) {tokens : List (Tree Token)} (hlexed : ∀ t ∈ tokens, Lexed t)
    (hw : tokens.map valueOf = w) :
    ∃ d, g.Groups forms tokens d ∧ Within g level d ∧ Means d v := by
  induction he generalizing tokens with
  | number n =>
    obtain ⟨t, rfl, ht⟩ := List.map_eq_singleton_iff.1 hw
    have hsymbol : t.symbol = some 2 := by
      rw [(hlexed t List.mem_cons_self).symbol_eq, ht]
      rfl
    refine ⟨.node 1 [.token t], ⟨.operand (p := 1) rfl hsymbol, Grammar.respects_operand, rfl⟩, ?_,
      .number ht⟩
    exact h.within_of_form (q := 1) rfl rfl
  | paren _ ih =>
    obtain ⟨ts, us, rfl, hts, hus⟩ := List.map_eq_append_iff.1 hw
    obtain ⟨t, ts, rfl, ht, hts⟩ := List.map_eq_cons_iff.1 hts
    obtain ⟨u, rfl, hu⟩ := List.map_eq_singleton_iff.1 hus
    obtain ⟨d, hd, -, hmeans⟩ := ih (fun t' ht' => hlexed t' (by simp [ht'])) hts
    have hl : t.symbol = some 3 := (hlexed t (by simp)).symbol_of_operator ht
    have hr : u.symbol = some 4 := (hlexed u (by simp)).symbol_of_operator hu
    refine ⟨.node 2 [.token t, d, .token u], ⟨.enclosed (p := 2) rfl hl hr hd.expression,
      Grammar.respects_enclosed hd.respects, ?_⟩, h.within_of_form (q := 2) rfl rfl, .paren hmeans⟩
    simp [hd.yield_eq]
  | negate _ ih =>
    obtain ⟨t, ts, rfl, ht, hts⟩ := List.map_eq_cons_iff.1 hw
    obtain ⟨d, hd, hwithin, hmeans⟩ := ih (fun t' ht' => hlexed t' (by simp [ht'])) hts
    have ho : t.symbol = some 5 := (hlexed t (by simp)).symbol_of_operator ht
    refine ⟨.node 3 [.token t, d], ⟨.signed (p := 3) rfl ho hd.expression,
      Grammar.respects_signed hd.respects (h.rightFits_sign_iff.2 hwithin), ?_⟩,
      h.within_of_form (q := 3) rfl rfl, .negate hmeans⟩
    simp [hd.yield_eq]
  | @operand level w v _ ih =>
    obtain ⟨d, hd, hwithin, hmeans⟩ := ih hlexed hw
    have hle : level.operand.rank ≤ level.rank := by cases level <;> decide
    exact ⟨d, hd, fun q children heq hjoins => (hwithin q children heq hjoins).trans hle, hmeans⟩
  | apply hmem _ _ iha ihb =>
    obtain ⟨p, o, hf⟩ := exists_operator_of_mem hmem
    obtain ⟨ts, us, rfl, hts, hus⟩ := List.map_eq_append_iff.1 hw
    obtain ⟨t, us, rfl, ht, hus⟩ := List.map_eq_cons_iff.1 hus
    obtain ⟨d, hd, hleft, hmeans⟩ := iha (fun t' ht' => hlexed t' (by simp [ht'])) hts
    obtain ⟨e, he, hright, hmeans'⟩ := ihb (fun t' ht' => hlexed t' (by simp [ht'])) hus
    have ho : t.symbol = some o := by
      rw [(hlexed t (by simp)).symbol_of_operator ht, hf.operator?_eq]
    exact ⟨_, Grammar.Expressions.groups_joined hf.form ho hd he ((h.leftFits_iff hf).2 hleft)
      ((h.rightFits_iff hf).2 hright), (h.within_operator hf).2 (Nat.le_refl _),
      .apply hf hmeans hmeans'⟩

/-! ## From derivations to the reference -/

/-- The reference evaluates the tokens of every derivation that respects precedence. -/
theorem exists_evaluates (h : Standard g) (hd : Expression forms d) (hrespects : g.Respects d)
    (hlexed : ∀ t ∈ d.yield, Lexed t) (hwithin : Within g level d) :
    ∃ v, Evaluates level (d.yield.map valueOf) v := by
  induction hd generalizing level with
  | @operand p a t hf ht =>
    obtain ⟨-, rfl⟩ := operand_eq hf
    obtain ⟨n, hn⟩ := (hlexed t (by simp)).exists_number ht
    exact ⟨some n, by simpa [hn] using (Evaluates.number n).of_unary⟩
  | @enclosed p l r t u d hf ht hu _ ih =>
    obtain ⟨-, rfl, rfl⟩ := enclosed_eq hf
    obtain ⟨hchildren, -, -⟩ := Grammar.respects_node_iff.1 hrespects
    obtain ⟨v, hv⟩ := ih (hchildren d (by simp)) (fun t' ht' => hlexed t' (by simp [ht']))
      h.within_sum
    have hl : valueOf t = .operator '(' := (hlexed t (by simp)).value_of_operator rfl ht
    have hr : valueOf u = .operator ')' := (hlexed u (by simp)).value_of_operator rfl hu
    exact ⟨v, by simpa [hl, hr] using hv.paren.of_unary⟩
  | @signed p o t d hf ht _ ih =>
    obtain ⟨rfl, rfl⟩ := signed_eq hf
    obtain ⟨hchildren, -, hright⟩ := Grammar.respects_node_iff.1 hrespects
    have hfits : g.RightFits 3 d := hright (Or.inr (h.expressions.cfg.signs hf)) d rfl
    obtain ⟨v, hv⟩ := ih (hchildren d (by simp)) (fun t' ht' => hlexed t' (by simp [ht']))
      (h.rightFits_sign_iff.1 hfits)
    have ho : valueOf t = .operator '-' := (hlexed t (by simp)).value_of_operator rfl ht
    exact ⟨_, by simpa [ho] using hv.negate.of_unary⟩
  | @joined p o t d e hform ht _ _ ihd ihe =>
    obtain ⟨c, level', f, hf⟩ := exists_operator_of_form hform
    obtain ⟨hchildren, hleft, hright⟩ := Grammar.respects_node_iff.1 hrespects
    have hjoins := h.expressions.cfg.joins hform
    obtain ⟨a, ha⟩ := ihd (hchildren d (by simp)) (fun t' ht' => hlexed t' (by simp [ht']))
      ((h.leftFits_iff hf).1 (hleft hjoins d rfl))
    obtain ⟨b, hb⟩ := ihe (hchildren e (by simp)) (fun t' ht' => hlexed t' (by simp [ht']))
      ((h.rightFits_iff hf).1 (hright (Or.inl hjoins) e rfl))
    have ho : valueOf t = .operator c := (hlexed t (by simp)).value_of_operator hf.operator?_eq ht
    -- the operator itself may be of a tighter level than the one asked for
    have happly := (Evaluates.apply hf.mem_operations ha hb).mono ((h.within_operator hf).1 hwithin)
    exact ⟨_, by simpa [ho] using happly⟩

end Standard

end ShiftReduce.Calc
