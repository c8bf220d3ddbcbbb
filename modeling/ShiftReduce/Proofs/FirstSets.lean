import Mathlib.Algebra.Group.Action.Defs
import Mathlib.Algebra.Order.BigOperators.Group.List
import Mathlib.Algebra.Order.Ring.Nat
import ShiftReduce.FirstSets
import ShiftReduce.Proofs.Derives

/-!
# FIRST sets are exact

The computed sets say what derivations say: a terminal is among the first ones of a string exactly
when the string derives something that begins with it, and a string is found to vanish exactly when
it derives the empty string.

That nothing is found in vain is an invariant of the passes.  That nothing is missed rests on the
last pass changing nothing.  Every other pass adds a terminal to the set of a nonterminal or lets
a nonterminal vanish, which cannot happen more often than the bound on the passes allows.

* `FirstSets.Fits`: what holds of the sets before and after every pass;
* `Cfg.absorb_firstSets`: the finished sets absorb no rule;
* `Cfg.mem_begins_firstSets`, `Cfg.vanishes_firstSets`: exactness;
* `FirstSets.mem_firstBefore`: the lookaheads of a string.
-/

namespace ShiftReduce

/-! ## Ascending lists -/

/-- A list is left alone or grows by one. -/
theorem insertBy_eq_or_length {α : Type} [DecidableEq α] (key : α → Nat) (a : α) (as : List α) :
    insertBy key a as = as ∨ (insertBy key a as).length = as.length + 1 := by
  induction as with
  | nil => exact Or.inr rfl
  | cons b bs ih =>
    rw [insertBy]
    split
    · exact Or.inl rfl
    · split
      · exact Or.inr rfl
      · rcases ih with ih | ih
        · exact Or.inl (by rw [ih])
        · exact Or.inr (by rw [List.length_cons, ih, List.length_cons])

theorem pairwise_insertBy {α : Type} [DecidableEq α] {key : α → Nat}
    (hkey : ∀ a b, key a = key b → a = b) {a : α} {as : List α}
    (h : as.Pairwise fun x y => key x < key y) :
    (insertBy key a as).Pairwise fun x y => key x < key y := by
  induction as with
  | nil => exact List.pairwise_singleton _ _
  | cons b bs ih =>
    obtain ⟨hb, hbs⟩ := List.pairwise_cons.1 h
    rw [insertBy]
    split
    · exact h
    · next hne =>
      split
      · next hlt =>
        refine List.pairwise_cons.2 ⟨?_, h⟩
        intro y hy
        rcases List.mem_cons.1 hy with rfl | hy
        · exact hlt
        · exact Nat.lt_trans hlt (hb y hy)
      · next hle =>
        refine List.pairwise_cons.2 ⟨?_, ih hbs⟩
        intro y hy
        rcases mem_insertBy.1 hy with rfl | hy
        · have : key y ≠ key b := fun hc => hne (hkey y b hc)
          omega
        · exact hb y hy

namespace FirstSets

theorem union_cons (xs ys : List Nat) (y : Nat) :
    union xs (y :: ys) = union (insertBy id y xs) ys := rfl

@[simp]
theorem mem_union {xs ys : List Nat} {t : Nat} : t ∈ union xs ys ↔ t ∈ xs ∨ t ∈ ys := by
  induction ys generalizing xs with
  | nil => simp [union]
  | cons y ys ih =>
    rw [union_cons, ih, mem_insertBy, List.mem_cons]
    constructor
    · rintro ((h | h) | h)
      · exact Or.inr (Or.inl h)
      · exact Or.inl h
      · exact Or.inr (Or.inr h)
    · rintro (h | h | h)
      · exact Or.inl (Or.inr h)
      · exact Or.inl (Or.inl h)
      · exact Or.inr h

theorem union_eq_or_length_lt (xs ys : List Nat) :
    union xs ys = xs ∨ xs.length < (union xs ys).length := by
  induction ys generalizing xs with
  | nil => exact Or.inl rfl
  | cons y ys ih =>
    rw [union_cons]
    rcases insertBy_eq_or_length id y xs with h | h
    · rw [h]
      exact ih xs
    · rcases ih (insertBy id y xs) with h' | h'
      · exact Or.inr (by rw [h', h]; omega)
      · exact Or.inr (by omega)

theorem pairwise_union {xs : List Nat} (h : xs.Pairwise (· < ·)) (ys : List Nat) :
    (union xs ys).Pairwise (· < ·) := by
  induction ys generalizing xs with
  | nil => exact h
  | cons y ys ih =>
    rw [union_cons]
    exact ih (pairwise_insertBy (fun _ _ hab => hab) h)

/-! ## Strings -/

variable {sets : FirstSets}

@[simp]
theorem vanishes_append (u v : List Nat) :
    sets.vanishes (u ++ v) = (sets.vanishes u && sets.vanishes v) := by
  simp [vanishes]

@[simp]
theorem vanishes_cons (s : Nat) (u : List Nat) :
    sets.vanishes (s :: u) = (sets.isNullable s && sets.vanishes u) := rfl

theorem mem_begins_cons {s t : Nat} {u : List Nat} :
    t ∈ sets.begins (s :: u) ↔
      t ∈ sets.of s ∨ (sets.isNullable s = true ∧ t ∈ sets.begins u) := by
  rw [begins]
  split
  · next h => simp [h]
  · next h => simp [h]

theorem mem_begins_append {u v : List Nat} {t : Nat} :
    t ∈ sets.begins (u ++ v) ↔
      t ∈ sets.begins u ∨ (sets.vanishes u = true ∧ t ∈ sets.begins v) := by
  induction u with
  | nil => simp [begins, vanishes]
  | cons s u ih =>
    rw [List.cons_append, mem_begins_cons, ih, mem_begins_cons, vanishes_cons]
    cases sets.isNullable s with
    | true => simp [or_assoc]
    | false => simp

/-- The lookaheads of a string are its first terminals, and what follows it if it can vanish. -/
theorem mem_firstBefore {u : List Nat} {fallback la : Lookahead} :
    la ∈ sets.firstBefore u fallback ↔
      (∃ t ∈ sets.begins u, la = some t) ∨ (sets.vanishes u = true ∧ la = fallback) := by
  rw [firstBefore]
  split
  · next h =>
    rw [mem_insertBy, List.mem_map]
    constructor
    · rintro (rfl | ⟨t, ht, rfl⟩)
      · exact Or.inr ⟨h, rfl⟩
      · exact Or.inl ⟨t, ht, rfl⟩
    · rintro (⟨t, ht, rfl⟩ | ⟨-, rfl⟩)
      · exact Or.inr ⟨t, ht, rfl⟩
      · exact Or.inl rfl
  · next h =>
    rw [List.mem_map]
    constructor
    · rintro ⟨t, ht, rfl⟩
      exact Or.inl ⟨t, ht, rfl⟩
    · rintro (⟨t, ht, rfl⟩ | ⟨hv, -⟩)
      · exact ⟨t, ht, rfl⟩
      · exact absurd hv h

/-! ## One rule -/

/-- Putting back the entry that is there changes nothing, nor does putting one out of range. -/
theorem set_getD {β : Type} (l : List β) (i : Nat) (d : β) : l.set i (l.getD i d) = l := by
  by_cases hi : i < l.length
  · rw [List.getD_eq_getElem?_getD, List.getElem?_eq_getElem hi, Option.getD_some,
      List.set_getElem_self]
  · exact List.set_eq_of_length_le (Nat.not_lt.1 hi)

theorem mem_of_absorb {rule : Rule} {s t : Nat} (h : t ∈ (sets.absorb rule).of s) :
    t ∈ sets.of s ∨ (s = rule.left ∧ t ∈ sets.begins rule.right) := by
  rw [of, absorb, List.getD_eq_getElem?_getD, List.getElem?_set] at h
  split at h
  · next hs =>
    split at h
    · rw [Option.getD_some, mem_union, hs] at h
      exact h.imp_right fun ht => ⟨hs.symm, ht⟩
    · exact absurd h (by simp)
  · exact Or.inl (by rwa [of, List.getD_eq_getElem?_getD])

theorem isNullable_of_absorb {rule : Rule} {s : Nat}
    (h : (sets.absorb rule).isNullable s = true) :
    sets.isNullable s = true ∨ (s = rule.left ∧ sets.vanishes rule.right = true) := by
  rw [isNullable, absorb, List.getD_eq_getElem?_getD, List.getElem?_set] at h
  split at h
  · next hs =>
    split at h
    · rw [Option.getD_some, Bool.or_eq_true, hs] at h
      exact h.imp_right fun hv => ⟨hs.symm, hv⟩
    · exact absurd h (by simp)
  · exact Or.inl (by rwa [isNullable, List.getD_eq_getElem?_getD])

theorem of_absorb_self {rule : Rule} (h : rule.left < sets.first.length) :
    (sets.absorb rule).of rule.left = union (sets.of rule.left) (sets.begins rule.right) := by
  rw [of, absorb, List.getD_eq_getElem?_getD, List.getElem?_set_self h, Option.getD_some]

theorem isNullable_absorb_self {rule : Rule} (h : rule.left < sets.nullable.length) :
    (sets.absorb rule).isNullable rule.left =
      (sets.isNullable rule.left || sets.vanishes rule.right) := by
  rw [isNullable, absorb, List.getD_eq_getElem?_getD, List.getElem?_set_self h, Option.getD_some]

theorem of_absorb_of_ne {rule : Rule} {s : Nat} (h : s ≠ rule.left) :
    (sets.absorb rule).of s = sets.of s := by
  rw [of, absorb, List.getD_eq_getElem?_getD, List.getElem?_set_ne (Ne.symm h), of,
    List.getD_eq_getElem?_getD]

theorem isNullable_absorb_of_ne {rule : Rule} {s : Nat} (h : s ≠ rule.left) :
    (sets.absorb rule).isNullable s = sets.isNullable s := by
  rw [isNullable, absorb, List.getD_eq_getElem?_getD, List.getElem?_set_ne (Ne.symm h),
    isNullable, List.getD_eq_getElem?_getD]

/-- A rule that adds nothing to its left side changes nothing. -/
theorem absorb_eq_self {rule : Rule}
    (hfirst : union (sets.of rule.left) (sets.begins rule.right) = sets.of rule.left)
    (hnull : (sets.isNullable rule.left || sets.vanishes rule.right) =
      sets.isNullable rule.left) : sets.absorb rule = sets := by
  rw [absorb, hfirst, hnull, of, isNullable, set_getD, set_getD]

end FirstSets

/-! ## The invariant of the passes -/

/-- What holds of the sets before and after every pass: they have an entry for each symbol, each
entry ascends, and what they say is borne out by derivations. -/
structure FirstSets.Fits (g : Cfg) (sets : FirstSets) : Prop where
  first_length : sets.first.length = g.symbolCount
  nullable_length : sets.nullable.length = g.symbolCount
  ascending : ∀ s, (sets.of s).Pairwise (· < ·)
  begins : ∀ s, ∀ t ∈ sets.of s, g.Begins [s] t
  vanishes : ∀ s, sets.isNullable s = true → g.Vanishes [s]
  /-- A terminal begins itself. -/
  own : ∀ t, g.isTerminal t = true → t ∈ sets.of t

namespace FirstSets.Fits

variable {g : Cfg} {sets : FirstSets}

theorem vanishes_string (h : sets.Fits g) {u : List Nat} (hu : sets.vanishes u = true) :
    g.Vanishes u := by
  induction u with
  | nil => exact Cfg.Derives.refl []
  | cons s u ih =>
    rw [vanishes_cons, Bool.and_eq_true] at hu
    exact (h.vanishes s hu.1).append (ih hu.2)

theorem begins_string (h : sets.Fits g) {u : List Nat} {t : Nat} (ht : t ∈ sets.begins u) :
    g.Begins u t := by
  induction u with
  | nil => simp [FirstSets.begins] at ht
  | cons s u ih =>
    rcases mem_begins_cons.1 ht with ht | ⟨hs, ht⟩
    · exact (h.begins s t ht).append_left u
    · exact (ih ht).append_right (h.vanishes s hs)

theorem absorb (h : sets.Fits g) {rule : Rule} (hrule : rule ∈ g.rules) :
    (sets.absorb rule).Fits g where
  first_length := by rw [← h.first_length, FirstSets.absorb, List.length_set]
  nullable_length := by rw [← h.nullable_length, FirstSets.absorb, List.length_set]
  ascending s := by
    by_cases hs : s = rule.left
    · subst hs
      rw [of_absorb_self (h.first_length ▸ (g.inRange rule hrule).1)]
      exact pairwise_union (h.ascending _) _
    · rw [of_absorb_of_ne hs]
      exact h.ascending s
  begins s t ht := by
    rcases mem_of_absorb ht with ht' | ⟨rfl, ht'⟩
    · exact h.begins s t ht'
    · exact (h.begins_string ht').of_derives (Cfg.Derives.rule hrule)
  vanishes s hs := by
    rcases isNullable_of_absorb hs with hs' | ⟨rfl, hs'⟩
    · exact h.vanishes s hs'
    · exact (Cfg.Derives.rule hrule).trans (h.vanishes_string hs')
  own t ht := by
    rw [of_absorb_of_ne (Ne.symm (Cfg.left_ne_of_isTerminal ht hrule))]
    exact h.own t ht

theorem foldl (h : sets.Fits g) {rules : List Rule} (hrules : ∀ r ∈ rules, r ∈ g.rules) :
    (rules.foldl FirstSets.absorb sets).Fits g := by
  induction rules generalizing sets with
  | nil => exact h
  | cons r rules ih =>
    exact ih (h.absorb (hrules r List.mem_cons_self)) fun x hx =>
      hrules x (List.mem_cons_of_mem _ hx)

theorem firstStep (h : sets.Fits g) : (g.firstStep sets).Fits g := h.foldl fun _ hr => hr

theorem settle (h : sets.Fits g) (fuel : Nat) : (g.settleFirst fuel sets).1.Fits g := by
  induction fuel generalizing sets with
  | zero => exact h
  | succ fuel ih =>
    rw [Cfg.settleFirst]
    split
    · exact h
    · exact ih h.firstStep

end FirstSets.Fits

theorem Cfg.of_firstSeed {g : Cfg} {s : Nat} :
    g.firstSeed.of s = if g.isTerminal s then [s] else [] := by
  rw [FirstSets.of, firstSeed, List.getD_eq_getElem?_getD, List.getElem?_map]
  by_cases hs : s < g.symbolCount
  · rw [List.getElem?_range hs, Option.map_some, Option.getD_some]
  · rw [List.getElem?_eq_none (by simpa using hs), Option.map_none, Option.getD_none, if_neg]
    intro ht
    exact hs (isTerminal_iff.1 ht).1

theorem Cfg.fits_firstSeed (g : Cfg) : g.firstSeed.Fits g where
  first_length := by simp [firstSeed]
  nullable_length := by simp [firstSeed]
  ascending s := by
    rw [of_firstSeed]
    split
    · exact List.pairwise_singleton _ _
    · exact List.Pairwise.nil
  begins s t ht := by
    rw [of_firstSeed] at ht
    split at ht
    · next hs =>
      rw [List.mem_singleton] at ht
      subst ht
      exact ⟨hs, [], Derives.refl [t]⟩
    · exact absurd ht List.not_mem_nil
  vanishes s hs := by
    rw [FirstSets.isNullable, firstSeed, List.getD_eq_getElem?_getD, List.getElem?_map] at hs
    by_cases hlt : s < g.symbolCount
    · rw [List.getElem?_range hlt, Option.map_some, Option.getD_some] at hs
      obtain ⟨rule, hrule, hempty⟩ := List.any_eq_true.1 hs
      rw [Bool.and_eq_true, decide_eq_true_eq, List.isEmpty_iff] at hempty
      obtain ⟨rfl, hright⟩ := hempty
      have := Derives.rule hrule
      rwa [hright] at this
    · rw [List.getElem?_eq_none (by simpa using hlt), Option.map_none] at hs
      cases hs
  own t ht := by
    rw [of_firstSeed, if_pos ht]
    exact List.mem_singleton_self t

/-! ## The passes come to an end -/

/-- How much the sets say about nonterminals. -/
def FirstSets.weight (g : Cfg) (sets : FirstSets) : Nat :=
  (g.nonterminals.map fun s => (sets.of s).length + if sets.isNullable s then 1 else 0).sum

namespace FirstSets.Fits

variable {g : Cfg} {sets : FirstSets}

/-- The sets of terminals are no longer than the list of all terminals. -/
theorem length_of_le (h : sets.Fits g) (s : Nat) : (sets.of s).length ≤ g.terminals.length := by
  have hnodup : (sets.of s).Nodup := (h.ascending s).imp fun hab => Nat.ne_of_lt hab
  refine (List.subperm_of_subset hnodup fun t ht => ?_).length_le
  have hterm := (h.begins s t ht).1
  rw [Cfg.terminals, List.mem_filter, List.mem_range]
  exact ⟨(Cfg.isTerminal_iff.1 hterm).1, hterm⟩

theorem weight_le (h : sets.Fits g) :
    sets.weight g ≤ g.nonterminals.length * (g.terminals.length + 1) := by
  have hbound := List.sum_le_card_nsmul
    (g.nonterminals.map fun s => (sets.of s).length + if sets.isNullable s then 1 else 0)
    (g.terminals.length + 1) (by
      intro n hn
      obtain ⟨s, -, rfl⟩ := List.mem_map.1 hn
      have := h.length_of_le s
      split <;> omega)
  rwa [List.length_map, smul_eq_mul] at hbound

/-- A rule changes nothing or adds to the weight. -/
theorem absorb_eq_or_weight_lt (h : sets.Fits g) {rule : Rule} (hrule : rule ∈ g.rules) :
    sets.absorb rule = sets ∨ sets.weight g < (sets.absorb rule).weight g := by
  have hlt := (g.inRange rule hrule).1
  have hof := of_absorb_self (h.first_length ▸ hlt)
  have hnull := isNullable_absorb_self (h.nullable_length ▸ hlt)
  have hgrow := union_eq_or_length_lt (sets.of rule.left) (sets.begins rule.right)
  by_cases hsame : union (sets.of rule.left) (sets.begins rule.right) = sets.of rule.left ∧
      (sets.isNullable rule.left || sets.vanishes rule.right) = sets.isNullable rule.left
  · exact Or.inl (absorb_eq_self hsame.1 hsame.2)
  · right
    have hmem : rule.left ∈ g.nonterminals := by
      rw [Cfg.nonterminals, List.mem_filter, List.mem_range]
      exact ⟨hlt, Cfg.isNonterminal_left hrule⟩
    refine List.sum_lt_sum _ _ ?_ ⟨rule.left, hmem, ?_⟩
    · intro s _
      by_cases hs : s = rule.left
      · subst hs
        rw [hof, hnull]
        have hle : (sets.of rule.left).length ≤
            (union (sets.of rule.left) (sets.begins rule.right)).length := by
          rcases hgrow with hgrow | hgrow
          · rw [hgrow]
          · exact Nat.le_of_lt hgrow
        cases sets.isNullable rule.left <;> cases sets.vanishes rule.right <;> simp <;> omega
      · rw [of_absorb_of_ne hs, isNullable_absorb_of_ne hs]
    · rw [hof, hnull]
      rcases hgrow with hgrow | hgrow
      · rw [hgrow]
        revert hsame
        cases sets.isNullable rule.left <;> cases sets.vanishes rule.right <;> simp [hgrow]
      · cases sets.isNullable rule.left <;> cases sets.vanishes rule.right <;> simp <;> omega

theorem weight_le_foldl (h : sets.Fits g) {rules : List Rule} (hrules : ∀ r ∈ rules, r ∈ g.rules) :
    sets.weight g ≤ (rules.foldl FirstSets.absorb sets).weight g := by
  induction rules generalizing sets with
  | nil => exact Nat.le_refl _
  | cons r rules ih =>
    have hr := hrules r List.mem_cons_self
    have hrest := ih (h.absorb hr) fun x hx => hrules x (List.mem_cons_of_mem _ hx)
    rcases h.absorb_eq_or_weight_lt hr with heq | hlt
    · rw [heq] at hrest
      rw [List.foldl_cons, heq]
      exact hrest
    · exact Nat.le_trans (Nat.le_of_lt hlt) hrest

/-- A pass in which the weight stays the same meets only rules that change nothing. -/
theorem absorb_eq_of_weight_le (h : sets.Fits g) {rules : List Rule}
    (hrules : ∀ r ∈ rules, r ∈ g.rules)
    (hle : (rules.foldl FirstSets.absorb sets).weight g ≤ sets.weight g) :
    ∀ r ∈ rules, sets.absorb r = sets := by
  induction rules generalizing sets with
  | nil => simp
  | cons r rules ih =>
    have hr := hrules r List.mem_cons_self
    have htail : ∀ x ∈ rules, x ∈ g.rules := fun x hx => hrules x (List.mem_cons_of_mem _ hx)
    have hrest := (h.absorb hr).weight_le_foldl htail
    rw [List.foldl_cons] at hle
    rcases h.absorb_eq_or_weight_lt hr with heq | hlt
    · rw [heq] at hle
      intro x hx
      rcases List.mem_cons.1 hx with rfl | hx
      · exact heq
      · exact ih h htail hle x hx
    · omega

theorem firstStep_eq_or_weight_lt (h : sets.Fits g) :
    g.firstStep sets = sets ∨ sets.weight g < (g.firstStep sets).weight g := by
  by_cases hle : (g.firstStep sets).weight g ≤ sets.weight g
  · left
    have hall := h.absorb_eq_of_weight_le (fun _ hr => hr) hle
    have hfold : ∀ rules : List Rule, (∀ r ∈ rules, sets.absorb r = sets) →
        rules.foldl FirstSets.absorb sets = sets := by
      intro rules
      induction rules with
      | nil => intro _; rfl
      | cons r rules ih =>
        intro hr
        rw [List.foldl_cons, hr r List.mem_cons_self]
        exact ih fun x hx => hr x (List.mem_cons_of_mem _ hx)
    exact hfold g.rules hall
  · exact Or.inr (Nat.not_le.1 hle)

/-- With fuel for every step up to the greatest weight, the passes end at sets that a further pass
leaves alone. -/
theorem firstStep_settle (h : sets.Fits g) {fuel : Nat}
    (hfuel : g.nonterminals.length * (g.terminals.length + 1) < fuel + sets.weight g) :
    g.firstStep (g.settleFirst fuel sets).1 = (g.settleFirst fuel sets).1 := by
  induction fuel generalizing sets with
  | zero =>
    have := h.weight_le
    omega
  | succ fuel ih =>
    rw [Cfg.settleFirst]
    rcases h.firstStep_eq_or_weight_lt with heq | hlt
    · rw [if_pos heq]
      exact heq
    · have hne : g.firstStep sets ≠ sets := by
        intro hc
        rw [hc] at hlt
        exact Nat.lt_irrefl _ hlt
      rw [if_neg hne]
      exact ih h.firstStep (by omega)

end FirstSets.Fits

namespace Cfg

variable (g : Cfg)

theorem fits_firstSets : g.firstSets.Fits g := g.fits_firstSeed.settle _

/-- One more pass changes nothing. -/
theorem firstStep_firstSets : g.firstStep g.firstSets = g.firstSets :=
  g.fits_firstSeed.firstStep_settle (by rw [firstBound]; omega)

variable {g}

theorem absorb_firstSets {rule : Rule} (h : rule ∈ g.rules) :
    g.firstSets.absorb rule = g.firstSets := by
  refine g.fits_firstSets.absorb_eq_of_weight_le (fun _ hr => hr) ?_ rule h
  have := g.firstStep_firstSets
  rw [firstStep] at this
  rw [this]

/-! ## Exactness -/

theorem begins_right_subset {rule : Rule} (h : rule ∈ g.rules) {t : Nat}
    (ht : t ∈ g.firstSets.begins rule.right) : t ∈ g.firstSets.of rule.left := by
  rw [← absorb_firstSets h,
    FirstSets.of_absorb_self (g.fits_firstSets.first_length ▸ (g.inRange rule h).1)]
  exact FirstSets.mem_union.2 (Or.inr ht)

theorem isNullable_left {rule : Rule} (h : rule ∈ g.rules)
    (hv : g.firstSets.vanishes rule.right = true) : g.firstSets.isNullable rule.left = true := by
  rw [← absorb_firstSets h,
    FirstSets.isNullable_absorb_self (g.fits_firstSets.nullable_length ▸ (g.inRange rule h).1),
    hv, Bool.or_true]

/-- A step of a derivation cannot gain first terminals, nor the property to vanish. -/
theorem Produces.first_subset {u v : List Nat} (h : g.Produces u v) :
    (∀ t ∈ g.firstSets.begins v, t ∈ g.firstSets.begins u) ∧
      (g.firstSets.vanishes v = true → g.firstSets.vanishes u = true) := by
  cases h with
  | @expand rule hrule before after =>
    constructor
    · intro t ht
      rw [FirstSets.mem_begins_append, FirstSets.mem_begins_append] at ht
      rw [FirstSets.mem_begins_append, FirstSets.mem_begins_cons]
      rcases ht with ht | ⟨hb, ht | ⟨hr, ht⟩⟩
      · exact Or.inl ht
      · exact Or.inr ⟨hb, Or.inl (begins_right_subset hrule ht)⟩
      · exact Or.inr ⟨hb, Or.inr ⟨isNullable_left hrule hr, ht⟩⟩
    · intro hv
      simp only [FirstSets.vanishes_append, Bool.and_eq_true] at hv
      simp only [FirstSets.vanishes_append, FirstSets.vanishes_cons, Bool.and_eq_true]
      exact ⟨hv.1, isNullable_left hrule hv.2.1, hv.2.2⟩

/-- The first terminals of a string are those that begin something it derives. -/
theorem mem_begins_firstSets {u : List Nat} {t : Nat} :
    t ∈ g.firstSets.begins u ↔ g.Begins u t := by
  constructor
  · exact g.fits_firstSets.begins_string
  · rintro ⟨ht, rest, h⟩
    induction h using Relation.ReflTransGen.head_induction_on with
    | refl => exact FirstSets.mem_begins_cons.2 (Or.inl (g.fits_firstSets.own t ht))
    | head hstep _ ih => exact hstep.first_subset.1 t ih

/-- A string is found to vanish exactly when it derives the empty string. -/
theorem vanishes_firstSets {u : List Nat} :
    g.firstSets.vanishes u = true ↔ g.Vanishes u := by
  constructor
  · exact g.fits_firstSets.vanishes_string
  · intro h
    induction h using Relation.ReflTransGen.head_induction_on with
    | refl => rfl
    | head hstep _ ih => exact hstep.first_subset.2 ih

/-- The lookaheads of a string by derivations. -/
theorem mem_firstBefore_firstSets {u : List Nat} {fallback la : Lookahead} :
    la ∈ g.firstSets.firstBefore u fallback ↔
      (∃ t, g.Begins u t ∧ la = some t) ∨ (g.Vanishes u ∧ la = fallback) := by
  simp only [FirstSets.mem_firstBefore, mem_begins_firstSets, vanishes_firstSets]

end Cfg

end ShiftReduce
