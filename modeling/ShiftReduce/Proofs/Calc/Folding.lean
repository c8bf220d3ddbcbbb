import ShiftReduce.Proofs.Calc.Reference
import ShiftReduce.Proofs.Parser.Alike
import ShiftReduce.Proofs.Parser.Marks

/-!
# Hooks compute values

The calculator's parser goes through its runs beside the parser without hooks and trimming.  Where
the latter builds the tree of a derivation, the hooks leave a tree that holds the value of the
derivation, or one that is marked where there is no value.  Marks are kept on the way up: no hook
replaces a reduction with a marked child, and the usual tree for it is marked again.

* `Folds`: the tree holds the value;
* `Standard.folds_reduce`: reductions that a hook replaces, and others;
* `Stands`, `Carries`, `Standard.alike_bare`: the two parsers side by side.
-/

namespace ShiftReduce

/-! ## Values -/

namespace Tree

variable {α : Type}

theorem value?_withState (t : Tree α) (s : Int) : (t.withState s).value? = t.value? := by
  cases t <;> rfl

theorem value?_stamp (q : Nat) (t : Tree α) : (stamp q t).value? = t.value? := by
  unfold stamp
  split
  · rfl
  · exact value?_withState t q

theorem value?_relabel (t : Tree α) (symbol : Nat) : (t.relabel symbol).value? = t.value? := by
  cases t <;> rfl

end Tree

namespace Calc

/-! ## Trees that hold values -/

/-- The tree holds the number, or it is marked if there is none. -/
structure Folds (t : Tree Token) (v : Option Int) : Prop where
  numberIn?_eq : numberIn? t = v
  isError_eq : t.isError = v.isNone

theorem folds_some {t : Tree Token} {token : Token} {n : Int} (ht : t.value? = some token)
    (hn : token.value = .number n) (herror : t.isError = false) : Folds t (some n) :=
  ⟨by simp [numberIn?, herror, ht, Token.number?, hn], herror⟩

theorem folds_none {t : Tree Token} (h : t.isError = true) : Folds t none :=
  ⟨by simp [numberIn?, h], h⟩

theorem folds_folded (left : Nat) (result : Option Int) (children : List (Tree Token)) :
    Folds (folded left result children) result := by
  cases result with
  | some n => exact @folds_some _ ⟨.number n, coveredSpan children⟩ n rfl rfl rfl
  | none => exact folds_none (Tree.isError_withState_errorState _)

theorem Folds.of_eq {t t' : Tree Token} {v : Option Int} (h : Folds t v)
    (hvalue : t'.value? = t.value?) (herror : t'.isError = t.isError) : Folds t' v :=
  ⟨by rw [← h.numberIn?_eq, numberIn?, numberIn?, hvalue, herror], by rw [herror, h.isError_eq]⟩

/-! ## Reductions -/

namespace Standard

variable {p : Parser Token} {production : Nat} {rule : Rule}

theorem replacement?_eq {g : Grammar Token} (hrule : g.cfg.rules[production]? = some rule)
    {hook : Hook Token} (hhook : g.hooks[production]? = some (some hook))
    (children : List (Tree Token)) :
    g.replacement? production children = hook rule.left children := by
  simp [Grammar.replacement?, Grammar.hook?, hhook, hrule]

/-- A reduction holds what the hook computes.  Where the hook computes nothing, one of the children
is marked, and so is the reduction. -/
theorem folds_reduce (hrule : p.grammar.cfg.rules[production]? = some rule) {hook : Hook Token}
    (hhook : p.grammar.hooks[production]? = some (some hook)) {a b : Tree Token}
    {cs : List (Tree Token)} {v : Option Int}
    (h : hook rule.left (a :: b :: cs) = some (folded rule.left v (a :: b :: cs)) ∨
      hook rule.left (a :: b :: cs) = none ∧ v = none ∧
        ∃ t ∈ a :: b :: cs, t.isError = true) :
    Folds (p.reduce production rule (a :: b :: cs)) v := by
  unfold Parser.reduce
  rw [replacement?_eq hrule hhook]
  rcases h with hsome | ⟨hnone, rfl, t, ht, herror⟩
  · rw [hsome]
    exact folds_folded _ _ _
  · rw [hnone]
    refine folds_none ?_
    show (Tree.reduction rule.left production (a :: b :: cs)).isError = true
    rw [Tree.isError_reduction]
    exact Tree.anyError_iff.2 ⟨t, ht, herror⟩

theorem folds_start (h : Standard p.grammar) (htrim : p.trim = true) {a : Tree Token}
    {v : Option Int} (hrule : p.grammar.cfg.rules[0]? = some rule) (ha : Folds a v) :
    Folds (p.reduce 0 rule [a]) v := by
  rw [h.expressions.cfg.rule_zero] at hrule
  cases hrule
  have hunit : Parser.isUnit p.grammar.cfg ⟨0, [1]⟩ = true := h.expressions.cfg.isNonterminal_expr
  have hnone : p.grammar.replacement? 0 [a] = none := by
    simp [Grammar.replacement?, Grammar.hook?, h.hooks_eq]
  have hreduce : p.reduce 0 ⟨0, [1]⟩ [a] = a.relabel 0 := by
    simp [Parser.reduce, hnone, htrim, hunit]
  rw [hreduce]
  exact ha.of_eq (Tree.value?_relabel a 0) (Tree.isError_relabel a 0)

theorem folds_number (h : Standard p.grammar) {a : Tree Token} {token : Token} {n : Int}
    (hrule : p.grammar.cfg.rules[1]? = some rule) (ha : a.value? = some token)
    (hn : token.value = .number n) : Folds (p.reduce 1 rule [a]) (some n) := by
  have hhook : p.grammar.hooks[1]? = some (some foldNumber) := by rw [h.hooks_eq]; rfl
  have hreduce : p.reduce 1 rule [a] = Tree.scalar rule.left token := by
    simp [Parser.reduce, replacement?_eq hrule hhook, foldNumber, ha]
  rw [hreduce]
  exact folds_some rfl hn rfl

theorem folds_paren (h : Standard p.grammar) {a b c : Tree Token} {v : Option Int}
    (hrule : p.grammar.cfg.rules[2]? = some rule) (hb : Folds b v) :
    Folds (p.reduce 2 rule [a, b, c]) v := by
  have hhook : p.grammar.hooks[2]? = some (some foldParen) := by rw [h.hooks_eq]; rfl
  apply folds_reduce hrule hhook
  cases v with
  | some n => exact Or.inl (by simp [foldParen, hb.numberIn?_eq])
  | none => exact Or.inr ⟨by simp [foldParen, hb.numberIn?_eq], rfl, b, by simp, hb.isError_eq⟩

theorem folds_negation (h : Standard p.grammar) {a b : Tree Token} {v : Option Int}
    (hrule : p.grammar.cfg.rules[3]? = some rule) (hb : Folds b v) :
    Folds (p.reduce 3 rule [a, b]) (v.bind fun n => int64? (-n)) := by
  have hhook : p.grammar.hooks[3]? = some (some foldNegation) := by rw [h.hooks_eq]; rfl
  apply folds_reduce hrule hhook
  cases v with
  | some n => exact Or.inl (by simp [foldNegation, hb.numberIn?_eq, checked_eq])
  | none => exact Or.inr ⟨by simp [foldNegation, hb.numberIn?_eq], rfl, b, by simp, hb.isError_eq⟩

theorem folds_operator (h : Standard p.grammar) {q o : Nat} {c : Char} {level : Level}
    {f : Int → Int → Option Int} (hf : Operator q o c level f) {a t b : Tree Token}
    {v w : Option Int} (hrule : p.grammar.cfg.rules[q]? = some rule) (ha : Folds a v)
    (hb : Folds b w) :
    Folds (p.reduce q rule [a, t, b]) (v.bind fun m => w.bind (f m)) := by
  have hhook : p.grammar.hooks[q]? = some (some (foldBinary f)) := by
    have hdivide : divide = quotient? := funext fun m => funext fun n => divide_eq m n
    rw [h.hooks_eq]
    cases hf <;> simp [checked_eq, hdivide]
  apply folds_reduce hrule hhook
  cases v with
  | none =>
    exact Or.inr ⟨by simp [foldBinary, ha.numberIn?_eq], rfl, a, by simp, ha.isError_eq⟩
  | some m =>
    cases w with
    | none =>
      exact Or.inr ⟨by simp [foldBinary, hb.numberIn?_eq], rfl, b, by simp, hb.isError_eq⟩
    | some n => exact Or.inl (by simp [foldBinary, ha.numberIn?_eq, hb.numberIn?_eq])

end Standard

/-! ## Side by side -/

/-- The tree holds the value of the derivation, or the token that the derivation consists of. -/
structure Stands (t : Tree Token) (d : Derivation Token) : Prop where
  folds : ∀ v, Means d v → Folds t v
  token : ∀ u token, d = .token u → u.value? = some token → t.value? = some token

/-- The tree of the calculator holds what the other tree shows. -/
def Carries (g : Cfg) (t t' : Tree Token) : Prop := ∀ d, g.Depicts t' d → Stands t d

theorem Carries.stamp {g : Cfg} {t t' : Tree Token} (h : Carries g t t') (q : Nat) :
    Carries g (stamp q t) (stamp q t') := by
  intro d hd
  obtain ⟨hfolds, htoken⟩ := h d hd.of_stamp
  refine ⟨?_, ?_⟩
  · intro v hv
    exact (hfolds v hv).of_eq (Tree.value?_stamp q t) (Tree.isError_stamp q t)
  · intro u token heq hu
    rw [Tree.value?_stamp]
    exact htoken u token heq hu

/-- A token of a text holds itself, and shows no derivation with a value. -/
theorem Lexed.carries {t : Tree Token} (h : Lexed t) (g : Cfg) : Carries g t t := by
  intro d hd
  refine ⟨?_, ?_⟩
  · intro v hv
    obtain ⟨p, children, rfl⟩ := hv.exists_node
    obtain ⟨rule, trees, state, rfl, -⟩ := Cfg.depicts_node_iff.1 hd
    obtain ⟨span, hvalue⟩ := h.value?_eq
    cases hvalue
  · rintro u token rfl hu
    obtain ⟨state, rfl⟩ := Cfg.depicts_token_iff.1 hd
    rw [Tree.value?_withState]
    exact hu

theorem stands_all {g : Cfg} {ts ts' : List (Tree Token)} {ds : List (Derivation Token)}
    (hts : List.Forall₂ (Carries g) ts ts') (hds : List.Forall₂ g.Depicts ts' ds) :
    List.Forall₂ Stands ts ds := by
  induction hts generalizing ds with
  | nil =>
    cases hds
    exact .nil
  | cons ht _ ih =>
    obtain ⟨d, ds, hd, hrest, rfl⟩ := List.forall₂_cons_left_iff.1 hds
    exact .cons (ht d hd) (ih hrest)

namespace Standard

variable {p : Parser Token}

/-- A reduction of trees that hold the values of derivations holds the value of the derivation with
one more node. -/
theorem folds_node (h : Standard p.grammar) (htrim : p.trim = true) {production : Nat}
    {rule : Rule} (hrule : p.grammar.cfg.rules[production]? = some rule) {ts : List (Tree Token)}
    {ds : List (Derivation Token)} (hts : List.Forall₂ Stands ts ds) {v : Option Int}
    (hv : Means (.node production ds) v) : Folds (p.reduce production rule ts) v := by
  cases hv with
  | start hd =>
    obtain ⟨a, _, ha, hnil, rfl⟩ := List.forall₂_cons_right_iff.1 hts
    cases hnil
    exact h.folds_start htrim hrule (ha.folds _ hd)
  | @number t n hn =>
    obtain ⟨a, _, ha, hnil, rfl⟩ := List.forall₂_cons_right_iff.1 hts
    cases hnil
    cases hvalue : t.value? with
    | none => simp [valueOf, hvalue] at hn
    | some token =>
      have htoken : token.value = .number n := by simpa [valueOf, hvalue] using hn
      exact h.folds_number hrule (ha.token t token rfl hvalue) htoken
  | paren hd =>
    obtain ⟨a, _, -, htail, rfl⟩ := List.forall₂_cons_right_iff.1 hts
    obtain ⟨b, _, hb, hlast, rfl⟩ := List.forall₂_cons_right_iff.1 htail
    obtain ⟨c, _, -, hnil, rfl⟩ := List.forall₂_cons_right_iff.1 hlast
    cases hnil
    exact h.folds_paren hrule (hb.folds _ hd)
  | negate hd =>
    obtain ⟨a, _, -, htail, rfl⟩ := List.forall₂_cons_right_iff.1 hts
    obtain ⟨b, _, hb, hnil, rfl⟩ := List.forall₂_cons_right_iff.1 htail
    cases hnil
    exact h.folds_negation hrule (hb.folds _ hd)
  | apply hf hd he =>
    obtain ⟨a, _, ha, htail, rfl⟩ := List.forall₂_cons_right_iff.1 hts
    obtain ⟨t, _, -, hlast, rfl⟩ := List.forall₂_cons_right_iff.1 htail
    obtain ⟨b, _, hb, hnil, rfl⟩ := List.forall₂_cons_right_iff.1 hlast
    cases hnil
    exact h.folds_operator hf hrule (ha.folds _ hd) (hb.folds _ he)

/-- The parser of the calculator goes beside the one without hooks and trimming, and its trees hold
what the trees of the other one show. -/
theorem alike_bare (h : Standard p.grammar) (htrim : p.trim = true) :
    p.Alike p.bare (Carries p.grammar.cfg) where
  cfg_eq := rfl
  table_eq := rfl
  stamp q _ _ ht := ht.stamp q
  reduce := by
    intro production rule ts ts' hrule _ hts d hd
    rw [Parser.reduce_eq (p := p.bare) p.grammar.hookFree_bare rfl] at hd
    refine ⟨?_, ?_⟩
    · intro v hv
      obtain ⟨q, ds, rfl⟩ := hv.exists_node
      obtain ⟨rule', trees, state, heq, -, hds⟩ := Cfg.depicts_node_iff.1 hd
      obtain ⟨-, rfl, rfl⟩ := Tree.node.inj heq
      exact h.folds_node htrim hrule (stands_all hts hds) hv
    · rintro u token rfl hu
      obtain ⟨state, heq⟩ := Cfg.depicts_token_iff.1 hd
      rw [← Tree.value?_withState u state, ← heq] at hu
      cases hu

end Standard

end Calc

end ShiftReduce
