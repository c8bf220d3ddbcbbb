import ShiftReduce.Proofs.Expressions.Derivations
import ShiftReduce.Proofs.Expressions.Table

/-!
# Regrouping expressions

Every expression can be regrouped, with its tokens as they are, into one that respects precedence.
An operator with its right operand is taken into the left operand, along the right side of it, down
to the first node that goes before the operator.  A right operand that does not fit is taken apart
at its root.  A sign is taken into its operand along the left side.

* `Grammar.Expressions.grafts_of_rightFits`: an operator with a right operand that fits;
* `Grammar.Expressions.exists_join`, `Grammar.Expressions.exists_sign`: any two expressions with an
  operator between them, and any expression after a sign;
* `Grammar.Expressions.exists_groups`: every expression can be regrouped.
-/

namespace ShiftReduce

variable {α : Type} {expr : Nat} {forms : List Form}

namespace Grammar.Expressions

variable {g : Grammar α} {p o : Nat} {t : Tree α} {d e : Derivation α} {ts us : List (Tree α)}

/-- Operands that fit are grouped by their operator. -/
theorem groups_joined (hf : Form.at? forms p = some (.joined o)) (ht : t.symbol = some o)
    (hd : g.Groups forms ts d) (he : g.Groups forms us e) (hleft : g.LeftFits d p)
    (hright : g.RightFits p e) : g.Groups forms (ts ++ t :: us) (.node p [d, .token t, e]) where
  expression := .joined hf ht hd.expression he.expression
  respects := respects_joined hd.respects he.respects hleft hright
  yield_eq := by simp [hd.yield_eq, he.yield_eq]

/-- The tokens can be grouped so that the result fits on the right wherever the operator and its
left operand do. -/
def Grafts (g : Grammar α) (forms : List Form) (p : Nat) (d : Derivation α) (ts : List (Tree α)) :
    Prop :=
  ∃ c, g.Groups forms ts c ∧ ∀ q, g.RightFirst q p → g.RightFits q d → g.RightFits q c

theorem grafts_of_leftFits (h : g.Expressions expr forms)
    (hf : Form.at? forms p = some (.joined o)) (ht : t.symbol = some o)
    (hd : g.Groups forms ts d) (he : g.Groups forms us e) (hleft : g.LeftFits d p)
    (hright : g.RightFits p e) : Grafts g forms p d (ts ++ t :: us) := by
  refine ⟨_, groups_joined hf ht hd he hleft hright, ?_⟩
  intro q hq _
  exact (rightFits_node_iff (h.cfg.joins hf)).2 hq

/-- An operator with a right operand that fits can be taken into any left operand. -/
theorem grafts_of_rightFits (h : g.Expressions expr forms)
    (hf : Form.at? forms p = some (.joined o)) (ht : t.symbol = some o)
    (hd : Expression forms d) (hd' : g.Respects d) (he : g.Groups forms us e)
    (hright : g.RightFits p e) : Grafts g forms p d (d.yield ++ t :: us) := by
  have hhere : g.LeftFits d p → Grafts g forms p d (d.yield ++ t :: us) := fun hleft =>
    h.grafts_of_leftFits hf ht ⟨hd, hd', rfl⟩ he hleft hright
  induction hd with
  | operand hf' => exact hhere (leftFits_of_not_joins (h.cfg.not_joins_of_form hf' rfl))
  | enclosed hf' => exact hhere (leftFits_of_not_joins (h.cfg.not_joins_of_form hf' rfl))
  | signed hf' => exact hhere (leftFits_of_not_joins (h.cfg.not_joins_of_form hf' rfl))
  | @joined q o' t' d₁ d₂ hf' ht' hd₁ hd₂ _ ih =>
    have hjoins := h.cfg.joins hf'
    obtain ⟨hchildren, hleft, hright'⟩ := respects_node_iff.1 hd'
    have hd₂' : g.Respects d₂ := hchildren d₂ (by simp)
    rcases leftFirst_or_rightFirst (p := q) (h.settled p o hf) with hfirst | hfirst
    · exact hhere ((leftFits_node_iff hjoins).2 hfirst)
    · -- the operator goes before this node, so it belongs to the right operand
      obtain ⟨c, hc, hfits⟩ := ih hd₂' fun hleft' =>
        h.grafts_of_leftFits hf ht ⟨hd₂, hd₂', rfl⟩ he hleft' hright
      have hq : g.RightFits q c := hfits q hfirst (hright' (Or.inl hjoins) d₂ rfl)
      have hgroups := groups_joined hf' ht' ⟨hd₁, hchildren d₁ (by simp), rfl⟩ hc
        (hleft hjoins d₁ rfl) hq
      refine ⟨_, by simpa using hgroups, ?_⟩
      intro r _ hr
      rw [rightFits_node_iff hjoins] at hr ⊢
      exact hr

theorem exists_graft (h : g.Expressions expr forms) (hf : Form.at? forms p = some (.joined o))
    (ht : t.symbol = some o) (hd : g.Groups forms ts d) (he : g.Groups forms us e)
    (hright : g.RightFits p e) : ∃ c, g.Groups forms (ts ++ t :: us) c := by
  obtain ⟨hexpression, hrespects, rfl⟩ := hd
  obtain ⟨c, hc, -⟩ := h.grafts_of_rightFits hf ht hexpression hrespects he hright
  exact ⟨c, hc⟩

/-- Any two expressions with an operator between them can be regrouped. -/
theorem exists_join (h : g.Expressions expr forms) (hf : Form.at? forms p = some (.joined o))
    (ht : t.symbol = some o) (hd : g.Groups forms ts d) (he : Expression forms e)
    (he' : g.Respects e) : ∃ c, g.Groups forms (ts ++ t :: e.yield) c := by
  induction he generalizing p o t d ts with
  | operand hf' ht' =>
    exact h.exists_graft hf ht hd ⟨.operand hf' ht', he', rfl⟩
      (rightFits_of_not_joins (h.cfg.not_joins_of_form hf' rfl))
  | enclosed hf' ht' hu' he =>
    exact h.exists_graft hf ht hd ⟨.enclosed hf' ht' hu' he, he', rfl⟩
      (rightFits_of_not_joins (h.cfg.not_joins_of_form hf' rfl))
  | signed hf' ht' he =>
    exact h.exists_graft hf ht hd ⟨.signed hf' ht' he, he', rfl⟩
      (rightFits_of_not_joins (h.cfg.not_joins_of_form hf' rfl))
  | @joined q o' t' e₁ e₂ hf' ht' he₁ he₂ ih _ =>
    have hjoins := h.cfg.joins hf'
    obtain ⟨hchildren, -, hright⟩ := respects_node_iff.1 he'
    rcases leftFirst_or_rightFirst (p := p) (h.settled q o' hf') with hfirst | hfirst
    · -- the operator takes the left operand of this node, and the node takes the rest
      obtain ⟨c, hc⟩ := ih hf ht hd (hchildren e₁ (by simp))
      obtain ⟨c', hc'⟩ := h.exists_graft hf' ht' hc ⟨he₂, hchildren e₂ (by simp), rfl⟩
        (hright (Or.inl hjoins) e₂ rfl)
      exact ⟨c', by simpa using hc'⟩
    · exact h.exists_graft hf ht hd ⟨.joined hf' ht' he₁ he₂, he', rfl⟩
        ((rightFits_node_iff hjoins).2 hfirst)

theorem exists_sign_of_rightFits (h : g.Expressions expr forms)
    (hf : Form.at? forms p = some (.signed o)) (ht : t.symbol = some o) (hd : Expression forms d)
    (hd' : g.Respects d) (hright : g.RightFits p d) :
    ∃ c, g.Groups forms (t :: d.yield) c ∧ ∀ q, g.LeftFits d q → g.LeftFits c q := by
  refine ⟨.node p [.token t, d], ⟨.signed hf ht hd, respects_signed hd' hright, by simp⟩, ?_⟩
  intro q _
  exact leftFits_of_not_joins (h.cfg.not_joins_of_form hf rfl)

/-- Any expression after a sign can be regrouped.  What comes out fits on the left wherever the
expression does. -/
theorem exists_sign (h : g.Expressions expr forms) (hf : Form.at? forms p = some (.signed o))
    (ht : t.symbol = some o) (hd : Expression forms d) (hd' : g.Respects d) :
    ∃ c, g.Groups forms (t :: d.yield) c ∧ ∀ q, g.LeftFits d q → g.LeftFits c q := by
  induction hd with
  | operand hf' ht' =>
    exact h.exists_sign_of_rightFits hf ht (.operand hf' ht') hd'
      (rightFits_of_not_joins (h.cfg.not_joins_of_form hf' rfl))
  | enclosed hf' ht' hu' hd =>
    exact h.exists_sign_of_rightFits hf ht (.enclosed hf' ht' hu' hd) hd'
      (rightFits_of_not_joins (h.cfg.not_joins_of_form hf' rfl))
  | signed hf' ht' hd =>
    exact h.exists_sign_of_rightFits hf ht (.signed hf' ht' hd) hd'
      (rightFits_of_not_joins (h.cfg.not_joins_of_form hf' rfl))
  | @joined q o' t' d₁ d₂ hf' ht' hd₁ hd₂ ih _ =>
    have hjoins := h.cfg.joins hf'
    obtain ⟨hchildren, hleft, hright⟩ := respects_node_iff.1 hd'
    obtain ⟨c, hc, hfits⟩ := ih (hchildren d₁ (by simp))
    have hgroups := groups_joined hf' ht' hc ⟨hd₂, hchildren d₂ (by simp), rfl⟩
      (hfits q (hleft hjoins d₁ rfl)) (hright (Or.inl hjoins) d₂ rfl)
    refine ⟨_, by simpa using hgroups, ?_⟩
    intro r hr
    rw [leftFits_node_iff hjoins] at hr ⊢
    exact hr

/-- Every expression can be regrouped so that it respects precedence. -/
theorem exists_groups (h : g.Expressions expr forms) (hd : Expression forms d) :
    ∃ c, g.Groups forms d.yield c := by
  induction hd with
  | operand hf ht => exact ⟨_, .operand hf ht, respects_operand, rfl⟩
  | enclosed hf ht hu _ ih =>
    obtain ⟨c, hc⟩ := ih
    refine ⟨_, .enclosed hf ht hu hc.expression, respects_enclosed hc.respects, ?_⟩
    simp [hc.yield_eq]
  | signed hf ht _ ih =>
    obtain ⟨c, hc⟩ := ih
    obtain ⟨c', hc', -⟩ := h.exists_sign hf ht hc.expression hc.respects
    exact ⟨c', by simpa [hc.yield_eq] using hc'⟩
  | joined hf ht _ _ ihd ihe =>
    obtain ⟨c, hc⟩ := ihd
    obtain ⟨c', hc'⟩ := ihe
    obtain ⟨c'', hc''⟩ := h.exists_join hf ht hc hc'.expression hc'.respects
    exact ⟨c'', by simpa [hc'.yield_eq] using hc''⟩

end Grammar.Expressions

end ShiftReduce
