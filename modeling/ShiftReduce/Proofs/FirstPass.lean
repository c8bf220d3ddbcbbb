import Mathlib.Data.List.Sort
import ShiftReduce.Automaton
import ShiftReduce.Proofs.FirstSets

/-!
# Passes that report growth

A pass over the rules can be made symbol by symbol: what begins a symbol of the right side is added
to what begins the left side at once, the walk along the right side stops at the first symbol that
is not known to vanish, and the left side itself is skipped where it occurs on the right.  Such a
pass says whether it has added anything.  It leaves the same sets as a pass rule by rule, and it
reports growth exactly when the sets are not the same as before.

For the finished sets this means that a further pass finds nothing to add, and all that is known
about them by derivations is put together here.

* `FirstSets.Pass`, `Cfg.firstPass`: the pass symbol by symbol;
* `FirstSets.Pass.Adds`: what every part of a pass does to the sets and to the report;
* `Cfg.firstPass_eq`: what a whole pass leaves and what it reports;
* `Cfg.growFirst_eq`: going by the reports comes to the same end;
* `Grammar.first_sets_are_exact`: the finished sets.
-/

namespace ShiftReduce

/-! ## Ascending lists -/

namespace FirstSets

/-- The union of ascending lists is told by its members. -/
theorem union_eq_union {xs ys xs' ys' : List Nat} (hxs : xs.Pairwise (· < ·))
    (hxs' : xs'.Pairwise (· < ·)) (h : ∀ t, t ∈ xs ∨ t ∈ ys ↔ t ∈ xs' ∨ t ∈ ys') :
    union xs ys = union xs' ys' := by
  refine (pairwise_union hxs ys).eq_of_mem_iff (pairwise_union hxs' ys') fun t => ?_
  rw [mem_union, mem_union, h t]

/-- Nothing is gained by what is there already. -/
theorem union_eq_left {xs ys : List Nat} (hxs : xs.Pairwise (· < ·)) (h : ∀ t ∈ ys, t ∈ xs) :
    union xs ys = xs := by
  refine @union_eq_union xs ys xs [] hxs hxs fun t => ?_
  simpa using h t

/-! ## One rule, symbol by symbol -/

/-- Sets in the course of a pass, and whether the pass has added anything to them. -/
structure Pass where
  sets : FirstSets
  grew : Bool
deriving DecidableEq, Repr

/-- The sets with `ts` as the terminals that begin `left`. -/
def putFirst (sets : FirstSets) (left : Nat) (ts : List Nat) : FirstSets :=
  { sets with first := sets.first.set left ts }

/-- The sets with `left` among the symbols that vanish. -/
def putNullable (sets : FirstSets) (left : Nat) : FirstSets :=
  { sets with nullable := sets.nullable.set left true }

namespace Pass

/-- Adds what begins `symbol` to what begins `left`, unless they are the same symbol. -/
def gather (left symbol : Nat) (pass : Pass) : Pass :=
  let new := (pass.sets.of symbol).filter (· ∉ pass.sets.of left)
  if symbol = left ∨ new = [] then pass
  else ⟨pass.sets.putFirst left (union (pass.sets.of left) new), true⟩

/-- Walks along a right side of `left` as far as it can vanish.  The second component is whether
the end was reached. -/
def scan (left : Nat) : List Nat → Pass → Pass × Bool
  | [], pass => (pass, true)
  | symbol :: rest, pass =>
    let gathered := pass.gather left symbol
    if gathered.sets.isNullable symbol then scan left rest gathered else (gathered, false)

/-- Takes in a rule: after the walk along its right side, the left side vanishes if the end was
reached. -/
def takeIn (pass : Pass) (rule : Rule) : Pass :=
  let scanned := scan rule.left rule.right pass
  if scanned.2 && !scanned.1.sets.isNullable rule.left then
    ⟨scanned.1.sets.putNullable rule.left, true⟩
  else scanned.1

end Pass

/-! ## Sets with one entry replaced -/

variable {sets : FirstSets} {left : Nat} {ts : List Nat}

/-- Every entry ascends. -/
def Ascends (sets : FirstSets) : Prop := ∀ s, (sets.of s).Pairwise (· < ·)

@[simp]
theorem isNullable_putFirst (s : Nat) :
    (sets.putFirst left ts).isNullable s = sets.isNullable s := rfl

@[simp]
theorem vanishes_putFirst (u : List Nat) :
    (sets.putFirst left ts).vanishes u = sets.vanishes u := rfl

@[simp]
theorem length_putFirst : (sets.putFirst left ts).first.length = sets.first.length :=
  List.length_set

@[simp]
theorem putFirst_putFirst (us : List Nat) :
    (sets.putFirst left ts).putFirst left us = sets.putFirst left us := by
  rw [putFirst, putFirst, List.set_set, putFirst]

theorem putFirst_of_self : sets.putFirst left (sets.of left) = sets := by
  rw [putFirst, of, set_getD]

theorem of_putFirst_self (h : left < sets.first.length) : (sets.putFirst left ts).of left = ts := by
  simp [of, putFirst, h]

theorem of_putFirst_of_ne {s : Nat} (h : s ≠ left) :
    (sets.putFirst left ts).of s = sets.of s := by
  simp [of, putFirst, Ne.symm h]

theorem Ascends.putFirst (h : sets.Ascends) (hlt : left < sets.first.length)
    (hts : ts.Pairwise (· < ·)) : (sets.putFirst left ts).Ascends := by
  intro s
  by_cases hs : s = left
  · rwa [hs, of_putFirst_self hlt]
  · rw [of_putFirst_of_ne hs]
    exact h s

/-- When `ts` takes the place of part of itself, a string begins with the same terminals as before
and with members of `ts`. -/
theorem mem_begins_putFirst (hlt : left < sets.first.length) (hts : ∀ t ∈ sets.of left, t ∈ ts)
    (u : List Nat) (t : Nat) :
    t ∈ ts ∨ t ∈ (sets.putFirst left ts).begins u ↔ t ∈ ts ∨ t ∈ sets.begins u := by
  have hof : ∀ s, t ∈ ts ∨ t ∈ (sets.putFirst left ts).of s ↔ t ∈ ts ∨ t ∈ sets.of s := by
    intro s
    by_cases hs : s = left
    · have := hts t
      rw [hs, of_putFirst_self hlt]
      tauto
    · rw [of_putFirst_of_ne hs]
  induction u with
  | nil => exact Iff.rfl
  | cons s u ih =>
    rw [mem_begins_cons, mem_begins_cons, isNullable_putFirst]
    have := hof s
    tauto

/-! ## What a walk leaves -/

namespace Pass

variable {pass : Pass}

theorem sets_gather (h : pass.sets.Ascends) (left symbol : Nat) :
    (pass.gather left symbol).sets =
      pass.sets.putFirst left (union (pass.sets.of left) (pass.sets.of symbol)) := by
  rw [gather]
  split
  · next hskip =>
    have hold : ∀ t ∈ pass.sets.of symbol, t ∈ pass.sets.of left := by
      rcases hskip with rfl | hnone
      · exact fun _ ht => ht
      · intro t ht
        have := List.filter_eq_nil_iff.1 hnone t ht
        rwa [decide_eq_true_eq, not_not] at this
    rw [union_eq_left (h left) hold, putFirst_of_self]
  · refine congrArg (pass.sets.putFirst left) (union_eq_union (h left) (h left) fun t => ?_)
    rw [List.mem_filter, decide_eq_true_eq]
    tauto

/-- The walk adds what begins the right side, and its end is reached when all of it vanishes. -/
theorem scan_eq (h : pass.sets.Ascends) (hlt : left < pass.sets.first.length) (right : List Nat) :
    (scan left right pass).1.sets =
        pass.sets.putFirst left (union (pass.sets.of left) (pass.sets.begins right)) ∧
      (scan left right pass).2 = pass.sets.vanishes right := by
  induction right generalizing pass with
  | nil => exact ⟨putFirst_of_self.symm, rfl⟩
  | cons symbol rest ih =>
    have hgather := sets_gather h left symbol
    have hascending := pairwise_union (h left) (pass.sets.of symbol)
    rw [scan, vanishes_cons, begins, hgather, isNullable_putFirst]
    cases pass.sets.isNullable symbol with
    | false => exact ⟨hgather, rfl⟩
    | true =>
      have hrest := @ih (pass.gather left symbol)
        (by rw [hgather]; exact h.putFirst hlt hascending)
        (by rw [hgather, length_putFirst]; exact hlt)
      rw [hgather, of_putFirst_self hlt, putFirst_putFirst, vanishes_putFirst] at hrest
      refine ⟨hrest.1.trans (congrArg (pass.sets.putFirst left) ?_), hrest.2⟩
      refine union_eq_union hascending (h left) fun t => ?_
      have hsame := mem_begins_putFirst hlt
        (fun t ht => mem_union.2 (Or.inl ht) :
          ∀ t ∈ pass.sets.of left, t ∈ union (pass.sets.of left) (pass.sets.of symbol)) rest t
      rw [hsame, mem_union, if_pos rfl, mem_union, or_assoc]

/-- A rule leaves what it says about its left side. -/
theorem sets_takeIn (h : pass.sets.Ascends) {rule : Rule}
    (hlt : rule.left < pass.sets.first.length) :
    (pass.takeIn rule).sets = pass.sets.absorb rule := by
  obtain ⟨hsets, hend⟩ := scan_eq h hlt rule.right
  rw [takeIn, hend, hsets, isNullable_putFirst, absorb]
  have hsame : pass.sets.nullable.set rule.left (pass.sets.isNullable rule.left) =
      pass.sets.nullable := set_getD _ _ _
  cases hleft : pass.sets.isNullable rule.left with
  | true =>
    rw [hleft] at hsame
    simp [hsets, hsame, putFirst]
  | false =>
    rw [hleft] at hsame
    cases pass.sets.vanishes rule.right with
    | true => rfl
    | false => simp [hsets, hsame, putFirst]

end Pass

/-! ## What a pass reports -/

/-- What the sets say of a symbol: that a terminal begins it, or that it vanishes. -/
def Says (sets : FirstSets) (s : Nat) : Lookahead → Prop
  | some t => t ∈ sets.of s
  | none => sets.isNullable s = true

/-- The later sets say all that the sets say, and more. -/
def Outdone (sets later : FirstSets) : Prop :=
  (∀ s la, sets.Says s la → later.Says s la) ∧ ∃ s la, later.Says s la ∧ ¬ sets.Says s la

theorem Outdone.trans {later latest : FirstSets} (h : sets.Outdone later)
    (h' : later.Outdone latest) : sets.Outdone latest := by
  obtain ⟨s, la, hnew, hold⟩ := h.2
  exact ⟨fun s la hs => h'.1 s la (h.1 s la hs), s, la, h'.1 s la hnew, hold⟩

theorem Outdone.irrefl : ¬ sets.Outdone sets := by
  rintro ⟨-, s, la, hnew, hold⟩
  exact hold hnew

theorem outdone_putFirst (hlt : left < sets.first.length) (hts : ∀ t ∈ sets.of left, t ∈ ts)
    {t : Nat} (ht : t ∈ ts) (hnew : t ∉ sets.of left) : sets.Outdone (sets.putFirst left ts) := by
  refine ⟨?_, left, some t, ?_, hnew⟩
  · intro s la hs
    cases la with
    | none => exact hs
    | some u =>
      rw [Says] at hs ⊢
      by_cases hne : s = left
      · subst hne
        rw [of_putFirst_self hlt]
        exact hts u hs
      · rwa [of_putFirst_of_ne hne]
  · rwa [Says, of_putFirst_self hlt]

theorem outdone_putNullable (hlt : left < sets.nullable.length)
    (hnew : sets.isNullable left = false) : sets.Outdone (sets.putNullable left) := by
  have hself : (sets.putNullable left).isNullable left = true := by
    simp [isNullable, putNullable, hlt]
  have hother : ∀ s, s ≠ left → (sets.putNullable left).isNullable s = sets.isNullable s := by
    intro s hs
    simp [isNullable, putNullable, Ne.symm hs]
  refine ⟨?_, left, none, hself, ?_⟩
  · intro s la hs
    cases la with
    | some u => exact hs
    | none =>
      rw [Says] at hs ⊢
      by_cases hne : s = left
      · rwa [hne]
      · rwa [hother s hne]
  · simp [Says, hnew]

/-- Part of a pass leaves everything as it was, or it says more than before and reports so. -/
def Pass.Adds (pass later : Pass) : Prop :=
  later = pass ∨ (later.grew = true ∧ pass.sets.Outdone later.sets)

namespace Pass

variable {pass later latest : Pass}

theorem Adds.refl (pass : Pass) : pass.Adds pass := Or.inl rfl

theorem Adds.trans (h : pass.Adds later) (h' : later.Adds latest) : pass.Adds latest := by
  rcases h' with rfl | ⟨hgrew, hmore⟩
  · exact h
  · rcases h with rfl | ⟨-, hless⟩
    · exact Or.inr ⟨hgrew, hmore⟩
    · exact Or.inr ⟨hgrew, hless.trans hmore⟩

/-- From nothing reported, growth is reported exactly when the sets have changed. -/
theorem Adds.grew_eq (h : Adds ⟨sets, false⟩ later) : later.grew = decide (later.sets ≠ sets) := by
  rcases h with rfl | ⟨hgrew, hmore⟩
  · simp
  · rw [hgrew, eq_comm, decide_eq_true_eq]
    rintro rfl
    exact Outdone.irrefl hmore

theorem adds_gather (hlt : left < pass.sets.first.length) (symbol : Nat) :
    pass.Adds (pass.gather left symbol) := by
  rw [gather]
  split
  · exact Adds.refl pass
  · next hnew =>
    obtain ⟨t, ht⟩ := List.exists_mem_of_ne_nil _ (not_or.1 hnew).2
    have hfresh : t ∉ pass.sets.of left := of_decide_eq_true (List.mem_filter.1 ht).2
    exact Or.inr ⟨rfl, outdone_putFirst hlt (fun _ hu => mem_union.2 (Or.inl hu))
      (mem_union.2 (Or.inr ht)) hfresh⟩

theorem adds_scan (h : pass.sets.Ascends) (hlt : left < pass.sets.first.length)
    (right : List Nat) : pass.Adds (scan left right pass).1 := by
  induction right generalizing pass with
  | nil => exact Adds.refl pass
  | cons symbol rest ih =>
    have hgather := sets_gather h left symbol
    rw [scan]
    split
    · refine (adds_gather hlt symbol).trans (ih ?_ ?_)
      · rw [hgather]
        exact h.putFirst hlt (pairwise_union (h left) _)
      · rwa [hgather, length_putFirst]
    · exact adds_gather hlt symbol

theorem adds_takeIn (h : pass.sets.Ascends) {rule : Rule}
    (hlt : rule.left < pass.sets.first.length) (hnull : rule.left < pass.sets.nullable.length) :
    pass.Adds (pass.takeIn rule) := by
  have hscan := adds_scan h hlt rule.right
  obtain ⟨hsets, -⟩ := scan_eq h hlt rule.right
  rw [takeIn]
  split
  · next hnew =>
    rw [Bool.and_eq_true, Bool.not_eq_true'] at hnew
    refine hscan.trans (Or.inr ⟨rfl, outdone_putNullable ?_ hnew.2⟩)
    rw [hsets]
    exact hnull
  · exact hscan

end Pass

end FirstSets

/-! ## A whole pass -/

namespace Cfg

variable {g : Cfg} {sets : FirstSets}

/-- One pass over all rules, symbol by symbol. -/
def firstPass (g : Cfg) (sets : FirstSets) : FirstSets.Pass :=
  g.rules.foldl FirstSets.Pass.takeIn ⟨sets, false⟩

/-- Rules taken in one after the other leave what they say about their left sides. -/
theorem foldl_takeIn {pass : FirstSets.Pass} (h : pass.sets.Fits g) {rules : List Rule}
    (hrules : ∀ r ∈ rules, r ∈ g.rules) :
    (rules.foldl FirstSets.Pass.takeIn pass).sets = rules.foldl FirstSets.absorb pass.sets ∧
      pass.Adds (rules.foldl FirstSets.Pass.takeIn pass) := by
  induction rules generalizing pass with
  | nil => exact ⟨rfl, FirstSets.Pass.Adds.refl pass⟩
  | cons r rules ih =>
    have hr := hrules r List.mem_cons_self
    have hlt := (g.inRange r hr).1
    have hfirst : r.left < pass.sets.first.length := h.first_length ▸ hlt
    have hnull : r.left < pass.sets.nullable.length := h.nullable_length ▸ hlt
    have htake := FirstSets.Pass.sets_takeIn h.ascending hfirst
    have hrest := @ih (pass.takeIn r) (by rw [htake]; exact h.absorb hr)
      fun x hx => hrules x (List.mem_cons_of_mem _ hx)
    rw [htake] at hrest
    exact ⟨hrest.1, (FirstSets.Pass.adds_takeIn h.ascending hfirst hnull).trans hrest.2⟩

/-- The pass symbol by symbol leaves the same sets as the pass rule by rule, and reports whether
they are other sets than before. -/
theorem firstPass_eq (h : sets.Fits g) :
    g.firstPass sets = ⟨g.firstStep sets, decide (g.firstStep sets ≠ sets)⟩ := by
  have hpass := @foldl_takeIn g ⟨sets, false⟩ h g.rules fun _ hr => hr
  have hgrew := hpass.2.grew_eq
  rw [hpass.1] at hgrew
  exact congrArg₂ FirstSets.Pass.mk hpass.1 hgrew

/-- Repeats the pass as long as it reports growth, at most `fuel` times, and counts the passes. -/
def growFirst (g : Cfg) : Nat → FirstSets → FirstSets × Nat
  | 0, sets => (sets, 0)
  | fuel + 1, sets =>
    let pass := g.firstPass sets
    if pass.grew then
      let settled := g.growFirst fuel pass.sets
      (settled.1, settled.2 + 1)
    else (pass.sets, 1)

/-- Going by the reports finds the same sets in as many passes. -/
theorem growFirst_eq (h : sets.Fits g) (fuel : Nat) :
    g.growFirst fuel sets = g.settleFirst fuel sets := by
  induction fuel generalizing sets with
  | zero => rfl
  | succ fuel ih =>
    rw [growFirst, settleFirst, firstPass_eq h, ih h.firstStep]
    by_cases hsame : g.firstStep sets = sets
    · simp [hsame]
    · simp [hsame]

end Cfg

/-! ## The finished sets -/

namespace FirstSets

variable {sets : FirstSets}

theorem Ascends.begins (h : sets.Ascends) (u : List Nat) :
    (sets.begins u).Pairwise (· < ·) := by
  cases u with
  | nil => exact List.Pairwise.nil
  | cons s rest =>
    rw [FirstSets.begins]
    split
    · exact pairwise_union (h s) _
    · exact h s

/-- The lookaheads of a string ascend by column, so none of them is listed twice. -/
theorem Ascends.firstBefore (h : sets.Ascends) (u : List Nat) (fallback : Lookahead) :
    (sets.firstBefore u fallback).Pairwise fun x y => column x < column y := by
  have hterminals : ((sets.begins u).map some).Pairwise fun x y => column x < column y :=
    List.pairwise_map.2 ((h.begins u).imp Nat.succ_lt_succ)
  have hcolumn : Function.Injective column := Function.LeftInverse.injective lookaheadOf_column
  rw [FirstSets.firstBefore]
  split
  · exact pairwise_insertBy (fun _ _ hab => hcolumn hab) hterminals
  · exact hterminals

end FirstSets

namespace Cfg

variable (g : Cfg)

theorem isNullable_firstSets (s : Nat) : g.firstSets.isNullable s = true ↔ g.Vanishes [s] := by
  rw [← vanishes_firstSets, FirstSets.vanishes_cons, Bool.and_eq_true]
  exact (and_iff_left rfl).symm

theorem mem_of_firstSets (s t : Nat) : t ∈ g.firstSets.of s ↔ g.Begins [s] t := by
  rw [← mem_begins_firstSets, FirstSets.mem_begins_cons]
  exact (or_iff_left fun h => List.not_mem_nil h.2).symm

/-- A further pass finds nothing to add to the finished sets, and says so. -/
theorem firstPass_firstSets : g.firstPass g.firstSets = ⟨g.firstSets, false⟩ := by
  simp [firstPass_eq g.fits_firstSets, firstStep_firstSets]

end Cfg

namespace Grammar

variable {α : Type} (g : Grammar α)

/-- FIRST sets are exact.  A symbol is found to vanish exactly when it derives the empty string, and
the terminals found to begin it are exactly those that begin something it derives.  The sets are
those that passes symbol by symbol end at, and a further pass changes nothing and reports no
growth.  The lookaheads of a string are the terminals that begin something it derives, and the
lookahead that follows it exactly when it derives the empty string; each is listed once, in the
order of columns. -/
theorem first_sets_are_exact :
    (∀ s, g.automaton.first.isNullable s = true ↔ g.cfg.Derives [s] []) ∧
    (∀ s t, t ∈ g.automaton.first.of s ↔
      g.cfg.isTerminal t = true ∧ ∃ rest, g.cfg.Derives [s] (t :: rest)) ∧
    g.cfg.growFirst g.cfg.firstBound g.cfg.firstSeed =
      (g.automaton.first, g.automaton.firstPasses) ∧
    g.cfg.firstPass g.automaton.first = ⟨g.automaton.first, false⟩ ∧
    ∀ seq fallback,
      ((g.automaton.first.firstBefore seq fallback).Pairwise fun x y => column x < column y) ∧
      ∀ la, la ∈ g.automaton.first.firstBefore seq fallback ↔
        (∃ t, la = some t ∧ g.cfg.isTerminal t = true ∧ ∃ rest, g.cfg.Derives seq (t :: rest)) ∨
          (la = fallback ∧ g.cfg.Derives seq []) := by
  rw [first_automaton, firstPasses_automaton]
  refine ⟨g.cfg.isNullable_firstSets, g.cfg.mem_of_firstSets,
    Cfg.growFirst_eq g.cfg.fits_firstSeed _, g.cfg.firstPass_firstSets, ?_⟩
  intro seq fallback
  have hascends : g.cfg.firstSets.Ascends := g.cfg.fits_firstSets.ascending
  refine ⟨hascends.firstBefore seq fallback, fun la => ?_⟩
  rw [Cfg.mem_firstBefore_firstSets]
  constructor
  · rintro (⟨t, hbegins, hla⟩ | ⟨hvanishes, hla⟩)
    · exact Or.inl ⟨t, hla, hbegins⟩
    · exact Or.inr ⟨hla, hvanishes⟩
  · rintro (⟨t, hla, hbegins⟩ | ⟨hla, hvanishes⟩)
    · exact Or.inl ⟨t, hbegins, hla⟩
    · exact Or.inr ⟨hvanishes, hla⟩

end Grammar

end ShiftReduce
