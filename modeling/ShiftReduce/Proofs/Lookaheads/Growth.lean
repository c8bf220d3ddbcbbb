import ShiftReduce.Lookaheads.Propagation
import ShiftReduce.Proofs.Collection

/-!
# How lookahead sets grow

Each operation on lookahead sets is described by what it adds to the set of a state and to the
targets of a site, and nothing ever leaves a set.  The two phases are then described as wholes: the
first by what the closed kernel items contribute, the second by what closing and passing on add.

* `Lookaheads.Tidy`: one set per state, without repetitions, of numbered items;
* `Cfg.Puts`, `Cfg.Links`: what a member of a closed kernel item contributes;
* `Cfg.mem_state_spontaneous`, `Cfg.mem_targets_spontaneous`: the result of the first phase;
* `Cfg.mem_state_closeSets`: closing several sets;
* `Lookaheads.Passed`: what a number of steps along edges can do to the sets.
-/

namespace ShiftReduce

/-- When every step adds what belongs to its argument, a fold adds what belongs to some argument. -/
theorem foldl_iff {σ β : Type} {step : σ → β → σ} (Inv View : σ → Prop) {Adds : β → Prop}
    (hinv : ∀ s b, Inv s → Inv (step s b))
    (hview : ∀ s b, Inv s → (View (step s b) ↔ View s ∨ Adds b)) (bs : List β) (s : σ)
    (hs : Inv s) : View (bs.foldl step s) ↔ View s ∨ ∃ b ∈ bs, Adds b := by
  induction bs generalizing s with
  | nil => simp
  | cons b bs ih =>
    rw [List.foldl_cons, ih _ (hinv s b hs), hview s b hs, or_assoc]
    simp

/-! ## Edges -/

namespace Edges

theorem targets_cons (e : Site × List Site) (edges : Edges) (site : Site) :
    targets (e :: edges) site = if e.1 = site then e.2 else targets edges site := by
  rw [targets, List.find?_cons]
  by_cases h : e.1 = site
  · simp [h]
  · simp [h, targets]

theorem mem_targets_add {edges : Edges} {source target site t : Site} :
    t ∈ targets (add source target edges) site ↔
      t ∈ targets edges site ∨ (site = source ∧ t = target) := by
  induction edges with
  | nil =>
    rw [add, targets_cons]
    by_cases h : source = site
    · simp [h, targets]
    · simp [h, targets, Ne.symm h]
  | cons e edges ih =>
    obtain ⟨first, ts⟩ := e
    rw [add]
    split
    · next hfirst =>
      subst hfirst
      rw [targets_cons, targets_cons]
      by_cases hsite : first = site
      · subst hsite
        rw [if_pos rfl, if_pos rfl]
        by_cases hmem : target ∈ ts
        · rw [if_pos hmem]
          constructor
          · exact Or.inl
          · rintro (ht | ⟨-, rfl⟩)
            · exact ht
            · exact hmem
        · rw [if_neg hmem]
          simp
      · simp [hsite, Ne.symm hsite]
    · next hfirst =>
      rw [targets_cons, targets_cons]
      by_cases hsite : first = site
      · subst hsite
        simp [hfirst]
      · rw [if_neg hsite, if_neg hsite, ih]

end Edges

/-! ## Sets -/

namespace Lookaheads

/-- There is one set for each of `count` states, and the sets hold numbered items, none twice. -/
structure Tidy (count : Nat) (s : Lookaheads) : Prop where
  length : s.states.length = count
  numbered : ∀ q, ∀ x ∈ s.state q, x ∈ s.items.entries
  nodup : ∀ q, (s.state q).Nodup

variable {s : Lookaheads} {count : Nat}

theorem lt_length_of_mem_state {q : Nat} {x : LookaheadItem} (h : x ∈ s.state q) :
    q < s.states.length := by
  by_contra hq
  rw [state, List.getD_eq_getElem?_getD, List.getElem?_eq_none (Nat.not_lt.1 hq)] at h
  exact absurd h List.not_mem_nil

/-- The members by ascending numbers are the members. -/
theorem Tidy.mem_ordered (h : s.Tidy count) {q : Nat} {x : LookaheadItem} :
    x ∈ s.ordered q ↔ x ∈ s.state q := by
  rw [ordered, Numbering.mem_inOrder]
  exact ⟨fun hx => hx.2, fun hx => ⟨h.numbered q x hx, hx⟩⟩

theorem state_put {q q' : Nat} {x : LookaheadItem} :
    (s.put q x).state q' =
      if q = q' ∧ q < s.states.length ∧ x ∉ s.state q then s.state q' ++ [x] else s.state q' := by
  simp only [state, put, List.getD_eq_getElem?_getD, List.getElem?_modify]
  by_cases hq : q = q'
  · subst hq
    by_cases hlt : q < s.states.length
    · rw [List.getElem?_eq_getElem hlt]
      by_cases hx : x ∈ s.states[q]
      · simp [hx]
      · simp [hx, hlt]
    · rw [List.getElem?_eq_none (Nat.not_lt.1 hlt)]
      simp [hlt]
  · simp [hq]

theorem mem_state_put {q q' : Nat} {x y : LookaheadItem} :
    y ∈ (s.put q x).state q' ↔
      y ∈ s.state q' ∨ (q' = q ∧ q < s.states.length ∧ y = x) := by
  rw [state_put]
  split
  · next h =>
    obtain ⟨rfl, hlt, -⟩ := h
    simp [hlt]
  · next h =>
    constructor
    · exact Or.inl
    · rintro (hy | ⟨rfl, hlt, rfl⟩)
      · exact hy
      · by_contra hy
        exact h ⟨rfl, hlt, hy⟩

theorem length_states_put {q : Nat} {x : LookaheadItem} :
    (s.put q x).states.length = s.states.length := by
  rw [put, List.length_modify]

theorem Tidy.put (h : s.Tidy count) (q : Nat) (x : LookaheadItem) : (s.put q x).Tidy count where
  length := by rw [length_states_put, h.length]
  numbered q' y hy := by
    refine Numbering.mem_entries_insert.2 ?_
    rcases mem_state_put.1 hy with hy | ⟨-, -, rfl⟩
    · exact Or.inl (h.numbered q' y hy)
    · exact Or.inr rfl
  nodup q' := by
    rw [state_put]
    split
    · next hnew =>
      obtain ⟨rfl, -, hx⟩ := hnew
      refine List.nodup_append.2 ⟨h.nodup q, by simp, ?_⟩
      intro a ha b hb
      rw [List.mem_singleton] at hb
      rintro rfl
      exact hx (hb ▸ ha)
    · exact h.nodup q'

/-- A member of a closed kernel item of state `q` goes into the set of `q`, unless it has the
placeholder. -/
def putSelf (s : Lookaheads) (q : Nat) (x : LookaheadItem) : Lookaheads :=
  if x.lookahead.isSome || q == 0 then s.put q x else s

theorem mem_state_putSelf {q q' : Nat} {x y : LookaheadItem} :
    y ∈ (s.putSelf q x).state q' ↔
      y ∈ s.state q' ∨
        (q' < s.states.length ∧ q' = q ∧ y = x ∧ (x.lookahead ≠ none ∨ q = 0)) := by
  unfold putSelf
  split
  · next h =>
    have h' : x.lookahead ≠ none ∨ q = 0 := by
      simpa [Option.isSome_iff_ne_none] using h
    rw [mem_state_put]
    constructor
    · rintro (hy | ⟨rfl, hlt, rfl⟩)
      · exact Or.inl hy
      · exact Or.inr ⟨hlt, rfl, rfl, h'⟩
    · rintro (hy | ⟨hlt, rfl, rfl, -⟩)
      · exact Or.inl hy
      · exact Or.inr ⟨rfl, hlt, rfl⟩
  · next h =>
    have h' : ¬ (x.lookahead ≠ none ∨ q = 0) := by
      simpa [Option.isSome_iff_ne_none] using h
    constructor
    · exact Or.inl
    · rintro (hy | ⟨-, -, -, hor⟩)
      · exact hy
      · exact absurd hor h'

theorem length_states_putSelf {q : Nat} {x : LookaheadItem} :
    (s.putSelf q x).states.length = s.states.length := by
  unfold putSelf
  split
  · exact length_states_put
  · rfl

theorem edges_putSelf {q : Nat} {x : LookaheadItem} : (s.putSelf q x).edges = s.edges := by
  unfold putSelf
  split <;> rfl

theorem Tidy.putSelf {count : Nat} (h : s.Tidy count) (q : Nat) (x : LookaheadItem) :
    (s.putSelf q x).Tidy count := by
  unfold Lookaheads.putSelf
  split
  · exact h.put q x
  · exact h

end Lookaheads

/-! ## The first phase -/

namespace Cfg

variable {g : Cfg} {c : Collection} {s : Lookaheads} {count : Nat}

/-- While a kernel item of state `q` is closed, the member `x` puts `y` into the set of `q'`: itself
into that of `q`, unless it has the placeholder, and its successor into that of the next state. -/
def Puts (g : Cfg) (c : Collection) (q : Nat) (x : LookaheadItem) (q' : Nat)
    (y : LookaheadItem) : Prop :=
  (q' = q ∧ y = x ∧ (x.lookahead ≠ none ∨ q = 0)) ∨
    (x.lookahead ≠ none ∧ y = ⟨x.item.advance, x.lookahead⟩ ∧
      (g.nextSymbol? x.item).bind (c.goto? q) = some q')

/-- While a kernel item of state `q` is closed, the member `x` with the placeholder links two
sites. -/
def Links (g : Cfg) (c : Collection) (q : Nat) (x : LookaheadItem) (source target : Site) :
    Prop :=
  x.lookahead = none ∧ source = ⟨q, x.item⟩ ∧ target.item = x.item.advance ∧
    (g.nextSymbol? x.item).bind (c.goto? q) = some target.state

theorem spread_eq (q : Nat) (x : LookaheadItem) :
    g.spread c q s x =
      match (g.nextSymbol? x.item).bind (c.goto? q) with
      | none => s.putSelf q x
      | some target =>
        match x.lookahead with
        | none =>
          { s.putSelf q x with
            edges := (s.putSelf q x).edges.add ⟨q, x.item⟩ ⟨target, x.item.advance⟩ }
        | some _ => (s.putSelf q x).put target ⟨x.item.advance, x.lookahead⟩ := rfl

theorem mem_state_spread {q q' : Nat} {x y : LookaheadItem} :
    y ∈ (g.spread c q s x).state q' ↔
      y ∈ s.state q' ∨ (q' < s.states.length ∧ g.Puts c q x q' y) := by
  rw [spread_eq, Puts]
  split
  · next hnone =>
    rw [Lookaheads.mem_state_putSelf, hnone]
    simp
  · next target htarget =>
    split
    · next hla =>
      refine Lookaheads.mem_state_putSelf.trans ?_
      simp [hla]
    · next t hla =>
      rw [Lookaheads.mem_state_put, Lookaheads.mem_state_putSelf,
        Lookaheads.length_states_putSelf, htarget]
      simp only [hla, ne_eq, reduceCtorEq, not_false_eq_true, true_or, and_true, true_and,
        Option.some.injEq]
      constructor
      · rintro ((hy | ⟨hlt, rfl, rfl⟩) | ⟨rfl, hlt, rfl⟩)
        · exact Or.inl hy
        · exact Or.inr ⟨hlt, Or.inl ⟨rfl, rfl⟩⟩
        · exact Or.inr ⟨hlt, Or.inr ⟨rfl, rfl⟩⟩
      · rintro (hy | ⟨hlt, ⟨rfl, rfl⟩ | ⟨rfl, rfl⟩⟩)
        · exact Or.inl (Or.inl hy)
        · exact Or.inl (Or.inr ⟨hlt, rfl, rfl⟩)
        · exact Or.inr ⟨rfl, hlt, rfl⟩

theorem mem_targets_spread {q : Nat} {x : LookaheadItem} {source target : Site} :
    target ∈ (g.spread c q s x).edges.targets source ↔
      target ∈ s.edges.targets source ∨ g.Links c q x source target := by
  rw [spread_eq, Links]
  split
  · next hnone =>
    rw [Lookaheads.edges_putSelf, hnone]
    simp
  · next q' hq' =>
    split
    · next hla =>
      rw [Lookaheads.edges_putSelf, Edges.mem_targets_add, hq']
      refine or_congr_right ?_
      constructor
      · rintro ⟨rfl, rfl⟩
        exact ⟨hla, rfl, rfl, rfl⟩
      · rintro ⟨-, rfl, hitem, hstate⟩
        obtain ⟨state, item⟩ := target
        cases hstate
        cases hitem
        exact ⟨rfl, rfl⟩
    · next t hla =>
      show target ∈ (s.putSelf q x).edges.targets source ↔ _
      rw [Lookaheads.edges_putSelf, hla]
      simp

theorem tidy_spread (h : s.Tidy count) (q : Nat) (x : LookaheadItem) :
    (g.spread c q s x).Tidy count := by
  have hself := h.putSelf q x
  rw [spread_eq]
  split
  · exact hself
  · split
    · exact ⟨hself.length, hself.numbered, hself.nodup⟩
    · exact hself.put _ _

/-- Numbering further items leaves the sets and the edges as they are. -/
theorem tidy_insertAll (h : s.Tidy count) (xs : List LookaheadItem) :
    Lookaheads.Tidy count { s with items := s.items.insertAll xs } where
  length := h.length
  numbered q x hx := Numbering.mem_entries_insertAll.2 (Or.inl (h.numbered q x hx))
  nodup := h.nodup

theorem mem_inOrder_insertAll {items : Numbering LookaheadItem} {xs : List LookaheadItem}
    {x : LookaheadItem} : x ∈ (items.insertAll xs).inOrder xs ↔ x ∈ xs := by
  rw [Numbering.mem_inOrder, Numbering.mem_entries_insertAll]
  exact ⟨fun h => h.2, fun h => ⟨Or.inr h, h⟩⟩

variable {sets : FirstSets}

theorem tidy_spontaneousFrom (h : s.Tidy count) (q : Nat) (item : Item) :
    (g.spontaneousFrom sets c q s item).Tidy count :=
  List.foldlRecOn _ _ (tidy_insertAll h _) fun _ hs x _ => tidy_spread hs q x

theorem mem_state_spontaneousFrom (h : s.Tidy count) {q q' : Nat} {item : Item}
    {y : LookaheadItem} :
    y ∈ (g.spontaneousFrom sets c q s item).state q' ↔
      y ∈ s.state q' ∨
        ∃ x ∈ g.closureWith sets [⟨item, none⟩], q' < count ∧ g.Puts c q x q' y := by
  have hstep : ∀ (r : Lookaheads) (x : LookaheadItem), r.Tidy count →
      (y ∈ (g.spread c q r x).state q' ↔ y ∈ r.state q' ∨ (q' < count ∧ g.Puts c q x q' y)) := by
    intro r x hr
    rw [mem_state_spread, hr.length]
  have hfold := foldl_iff (Lookaheads.Tidy count) (fun r : Lookaheads => y ∈ r.state q')
    (fun _ x hr => tidy_spread hr q x) hstep
    ((s.items.insertAll (g.closureWith sets [⟨item, none⟩])).inOrder
      (g.closureWith sets [⟨item, none⟩])) _
    (tidy_insertAll h (g.closureWith sets [⟨item, none⟩]))
  simp only [mem_inOrder_insertAll] at hfold
  exact hfold

theorem mem_targets_spontaneousFrom {q : Nat} {item : Item} {source target : Site} :
    target ∈ (g.spontaneousFrom sets c q s item).edges.targets source ↔
      target ∈ s.edges.targets source ∨
        ∃ x ∈ g.closureWith sets [⟨item, none⟩], g.Links c q x source target := by
  have hfold := foldl_iff (fun _ => True) (fun r : Lookaheads => target ∈ r.edges.targets source)
    (fun _ _ _ => trivial) (fun r x _ => @mem_targets_spread g c r q x source target)
    ((s.items.insertAll (g.closureWith sets [⟨item, none⟩])).inOrder
      (g.closureWith sets [⟨item, none⟩]))
    { s with items := s.items.insertAll (g.closureWith sets [⟨item, none⟩]) } trivial
  simp only [mem_inOrder_insertAll] at hfold
  exact hfold

/-- The member `x` comes up while a kernel item of state `q` is closed under the placeholder. -/
def Spreads (g : Cfg) (sets : FirstSets) (c : Collection) (q : Nat) (x : LookaheadItem) : Prop :=
  q < c.states.size ∧ ∃ k ∈ c.kernel q, x ∈ g.closureWith sets [⟨k, none⟩]

/-- The sets before the first phase. -/
def nothing (count : Nat) : Lookaheads := ⟨Numbering.empty, List.replicate count [], []⟩

theorem not_mem_state_nothing {q : Nat} {x : LookaheadItem} : x ∉ (nothing count).state q := by
  rw [Lookaheads.state, nothing, List.getD_eq_getElem?_getD, List.getElem?_replicate]
  split <;> exact List.not_mem_nil

theorem tidy_nothing : (nothing count).Tidy count where
  length := List.length_replicate
  numbered _ _ hx := absurd hx not_mem_state_nothing
  nodup q := by
    rw [List.eq_nil_iff_forall_not_mem.2 fun x => @not_mem_state_nothing count q x]
    exact List.nodup_nil

theorem tidy_spontaneousIn (h : s.Tidy count) (q : Nat) :
    ((c.kernel q).foldl (g.spontaneousFrom sets c q) s).Tidy count :=
  List.foldlRecOn _ _ h fun _ hr item _ => tidy_spontaneousFrom hr q item

theorem tidy_spontaneous : (g.spontaneous sets c).Tidy c.states.size :=
  List.foldlRecOn _ _ tidy_nothing fun _ hs q _ => tidy_spontaneousIn hs q

/-- The sets after the first phase. -/
theorem mem_state_spontaneous {q' : Nat} {y : LookaheadItem} :
    y ∈ (g.spontaneous sets c).state q' ↔
      q' < c.states.size ∧ ∃ q x, g.Spreads sets c q x ∧ g.Puts c q x q' y := by
  have hstep : ∀ (r : Lookaheads) (q : Nat), r.Tidy c.states.size →
      (y ∈ ((c.kernel q).foldl (g.spontaneousFrom sets c q) r).state q' ↔ y ∈ r.state q' ∨
        ∃ k ∈ c.kernel q, ∃ x ∈ g.closureWith sets [⟨k, none⟩],
          q' < c.states.size ∧ g.Puts c q x q' y) := fun r q hr =>
    foldl_iff (Lookaheads.Tidy c.states.size) (fun r : Lookaheads => y ∈ r.state q')
      (fun _ k hr => tidy_spontaneousFrom hr q k) (fun _ _ hr => mem_state_spontaneousFrom hr) _ _
      hr
  have hfold := foldl_iff (Lookaheads.Tidy c.states.size) (fun r : Lookaheads => y ∈ r.state q')
    (fun _ q hr => tidy_spontaneousIn hr q) hstep (List.range c.states.size) _ tidy_nothing
  refine hfold.trans ?_
  simp only [not_mem_state_nothing, false_or, List.mem_range]
  constructor
  · rintro ⟨q, hq, k, hk, x, hx, hlt, hputs⟩
    exact ⟨hlt, q, x, ⟨hq, k, hk, hx⟩, hputs⟩
  · rintro ⟨hlt, q, x, ⟨hq, k, hk, hx⟩, hputs⟩
    exact ⟨q, hq, k, hk, x, hx, hlt, hputs⟩

/-- The edges after the first phase. -/
theorem mem_targets_spontaneous {source target : Site} :
    target ∈ (g.spontaneous sets c).edges.targets source ↔
      ∃ q x, g.Spreads sets c q x ∧ g.Links c q x source target := by
  have hstep : ∀ (r : Lookaheads) (q : Nat), True →
      (target ∈ ((c.kernel q).foldl (g.spontaneousFrom sets c q) r).edges.targets source ↔
        target ∈ r.edges.targets source ∨
          ∃ k ∈ c.kernel q, ∃ x ∈ g.closureWith sets [⟨k, none⟩],
            g.Links c q x source target) := fun r q _ =>
    foldl_iff (fun _ => True) (fun r : Lookaheads => target ∈ r.edges.targets source)
      (fun _ _ _ => trivial)
      (fun r k _ => @mem_targets_spontaneousFrom g c r sets q k source target) (c.kernel q) r
      trivial
  have hfold := foldl_iff (fun _ => True) (fun r : Lookaheads => target ∈ r.edges.targets source)
    (fun _ _ _ => trivial) hstep (List.range c.states.size) (nothing c.states.size) trivial
  refine hfold.trans ?_
  have hnothing : target ∉ (nothing c.states.size).edges.targets source := List.not_mem_nil
  simp only [hnothing, false_or, List.mem_range]
  constructor
  · rintro ⟨q, hq, k, hk, x, hx, hlinks⟩
    exact ⟨q, x, ⟨hq, k, hk, hx⟩, hlinks⟩
  · rintro ⟨q, x, ⟨hq, k, hk, hx⟩, hlinks⟩
    exact ⟨q, hq, k, hk, x, hx, hlinks⟩

/-! ## Closing sets -/

theorem state_closeSet {q q' : Nat} :
    (g.closeSet sets s q).state q' =
      if q = q' ∧ q < s.states.length then
        (s.items.insertAll (g.closureWith sets (s.ordered q))).inOrder
          (g.closureWith sets (s.ordered q))
      else s.state q' := by
  simp only [closeSet, Lookaheads.state, List.getD_eq_getElem?_getD, List.getElem?_set]
  by_cases hq : q = q'
  · subst hq
    by_cases hlt : q < s.states.length
    · simp [hlt]
    · simp [hlt]
  · simp [hq]

theorem tidy_closeSet (h : s.Tidy count) (q : Nat) : (g.closeSet sets s q).Tidy count where
  length := by rw [closeSet, List.length_set, h.length]
  numbered q' x hx := by
    refine Numbering.mem_entries_insertAll.2 ?_
    rw [state_closeSet] at hx
    split at hx
    · exact Or.inr (mem_inOrder_insertAll.1 hx)
    · exact Or.inl (h.numbered q' x hx)
  nodup q' := by
    rw [state_closeSet]
    split
    · exact Numbering.nodup_inOrder _ _
    · exact h.nodup q'

/-- Closing a set adds what its members await, and leaves the other sets alone. -/
theorem mem_state_closeSet (h : s.Tidy count) {q q' : Nat} {y : LookaheadItem} :
    y ∈ (g.closeSet g.firstSets s q).state q' ↔
      y ∈ s.state q' ∨
        (q' = q ∧ ∃ x ∈ s.state q, Leads (g.awaitedWith g.firstSets) x y) := by
  rw [state_closeSet]
  split
  · next hq =>
    obtain ⟨rfl, -⟩ := hq
    rw [mem_inOrder_insertAll, mem_closureWith]
    simp only [h.mem_ordered, true_and]
    constructor
    · exact Or.inr
    · rintro (hy | hy)
      · exact ⟨y, hy, .refl⟩
      · exact hy
  · next hq =>
    constructor
    · exact Or.inl
    · rintro (hy | ⟨rfl, x, hx, -⟩)
      · exact hy
      · exact absurd ⟨rfl, Lookaheads.lt_length_of_mem_state hx⟩ hq

theorem tidy_closeSets (h : s.Tidy count) (qs : List Nat) :
    (qs.foldl (g.closeSet sets) s).Tidy count :=
  List.foldlRecOn _ _ h fun _ hr q _ => tidy_closeSet hr q

theorem edges_closeSets (qs : List Nat) : (qs.foldl (g.closeSet sets) s).edges = s.edges := by
  induction qs generalizing s with
  | nil => rfl
  | cons q qs ih => exact ih

theorem mem_state_closeSets (h : s.Tidy count) {qs : List Nat} {q' : Nat} {y : LookaheadItem} :
    y ∈ (qs.foldl (g.closeSet g.firstSets) s).state q' ↔
      y ∈ s.state q' ∨
        (q' ∈ qs ∧ ∃ x ∈ s.state q', Leads (g.awaitedWith g.firstSets) x y) := by
  induction qs generalizing s with
  | nil => simp
  | cons q qs ih =>
    rw [List.foldl_cons, ih (tidy_closeSet h q)]
    simp only [mem_state_closeSet h, List.mem_cons]
    constructor
    · rintro ((hy | ⟨rfl, hy⟩) | ⟨hq, x, hx | ⟨rfl, w, hw, hwx⟩, hxy⟩)
      · exact Or.inl hy
      · exact Or.inr ⟨Or.inl rfl, hy⟩
      · exact Or.inr ⟨Or.inr hq, x, hx, hxy⟩
      · exact Or.inr ⟨Or.inl rfl, w, hw, hwx.trans hxy⟩
    · rintro (hy | ⟨rfl | hq, x, hx, hxy⟩)
      · exact Or.inl (Or.inl hy)
      · exact Or.inl (Or.inr ⟨rfl, x, hx, hxy⟩)
      · exact Or.inr ⟨hq, x, Or.inl hx, hxy⟩

end Cfg

/-! ## Passing lookaheads along edges -/

namespace Lookaheads

variable {count : Nat}

/-- What any number of steps along edges can do: the sets grow inside every property that the edges
respect, and the states noted as grown are those with new members. -/
structure Passed (count : Nat) (before after : Lookaheads × List Nat) : Prop where
  tidy : after.1.Tidy count
  edges : after.1.edges = before.1.edges
  grows : ∀ q, ∀ x ∈ before.1.state q, x ∈ after.1.state q
  noted : ∀ q ∈ before.2, q ∈ after.2
  same : ∀ q, q ∉ after.2 → after.1.state q = before.1.state q
  fresh : ∀ q ∈ after.2, q ∈ before.2 ∨ ∃ x ∈ after.1.state q, x ∉ before.1.state q
  inside : ∀ P : Nat → LookaheadItem → Prop,
    (∀ q x, P q x → ∀ t ∈ before.1.edges.targets ⟨q, x.item⟩, P t.state ⟨t.item, x.lookahead⟩) →
    (∀ q, ∀ x ∈ before.1.state q, P q x) → ∀ q, ∀ x ∈ after.1.state q, P q x

theorem Passed.refl {acc : Lookaheads × List Nat} (h : acc.1.Tidy count) :
    Passed count acc acc where
  tidy := h
  edges := rfl
  grows _ _ hx := hx
  noted _ hq := hq
  same _ _ := rfl
  fresh _ hq := Or.inl hq
  inside _ _ hin := hin

theorem Passed.trans {a b c : Lookaheads × List Nat} (hab : Passed count a b)
    (hbc : Passed count b c) : Passed count a c where
  tidy := hbc.tidy
  edges := hbc.edges.trans hab.edges
  grows q x hx := hbc.grows q x (hab.grows q x hx)
  noted q hq := hbc.noted q (hab.noted q hq)
  same q hq := (hbc.same q hq).trans (hab.same q fun hb => hq (hbc.noted q hb))
  fresh q hq := by
    rcases hbc.fresh q hq with hq | ⟨x, hx, hnew⟩
    · rcases hab.fresh q hq with hq | ⟨x, hx, hnew⟩
      · exact Or.inl hq
      · exact Or.inr ⟨x, hbc.grows q x hx, hnew⟩
    · exact Or.inr ⟨x, hx, fun ha => hnew (hab.grows q x ha)⟩
  inside P hP hin := hbc.inside P (by rw [hab.edges]; exact hP) (hab.inside P hP hin)

/-- One step along one edge. -/
theorem passed_push {acc : Lookaheads × List Nat} (h : acc.1.Tidy count) {q : Nat}
    {x : LookaheadItem} (hx : x ∈ acc.1.state q) {t : Site}
    (ht : t ∈ acc.1.edges.targets ⟨q, x.item⟩) (hlt : t.state < count) :
    Passed count acc (Cfg.push x.lookahead acc t) where
  tidy := h.put _ _
  edges := rfl
  grows q' y hy := mem_state_put.2 (Or.inl hy)
  noted q' hq' := by
    rw [Cfg.push]
    split
    · exact hq'
    · exact List.mem_cons_of_mem _ hq'
  same q' hq' := by
    rw [Cfg.push] at hq' ⊢
    simp only [state_put]
    rw [if_neg]
    rintro ⟨rfl, -, hnew⟩
    simp [hnew] at hq'
  fresh q' hq' := by
    rw [Cfg.push] at hq' ⊢
    dsimp only at hq' ⊢
    split at hq'
    · exact Or.inl hq'
    · next hnew =>
      rcases List.mem_cons.1 hq' with rfl | hq'
      · exact Or.inr ⟨_, mem_state_put.2 (Or.inr ⟨rfl, h.length ▸ hlt, rfl⟩), hnew⟩
      · exact Or.inl hq'
  inside P hP hin q' y hy := by
    rcases mem_state_put.1 hy with hy | ⟨rfl, -, rfl⟩
    · exact hin q' y hy
    · exact hP q x (hin q x hx) t ht

/-- Steps that each see to their argument, made one after the other, see to all arguments. -/
theorem foldl_passed {β : Type} {bs : List β}
    {step : Lookaheads × List Nat → β → Lookaheads × List Nat}
    (Done : β → Lookaheads × List Nat → Prop) {start acc : Lookaheads × List Nat}
    (hstep : ∀ acc, Passed count start acc → ∀ b ∈ bs,
      Passed count acc (step acc b) ∧ Done b (step acc b))
    (hkeep : ∀ b acc acc', Passed count acc acc' → Done b acc → Done b acc')
    (h : Passed count start acc) :
    Passed count acc (bs.foldl step acc) ∧ ∀ b ∈ bs, Done b (bs.foldl step acc) := by
  induction bs generalizing acc with
  | nil => exact ⟨Passed.refl h.tidy, by simp⟩
  | cons b bs ih =>
    obtain ⟨hb, hdone⟩ := hstep acc h b List.mem_cons_self
    obtain ⟨hbs, hall⟩ := ih (fun a ha x hx => hstep a ha x (List.mem_cons_of_mem _ hx))
      (h.trans hb)
    refine ⟨hb.trans hbs, ?_⟩
    intro x hx
    rcases List.mem_cons.1 hx with rfl | hx
    · exact hkeep x _ _ hbs hdone
    · exact hall x hx

theorem passed_pushState {acc : Lookaheads × List Nat} (h : acc.1.Tidy count)
    (hlt : ∀ source, ∀ t ∈ acc.1.edges.targets source, t.state < count) (q : Nat) :
    Passed count acc (Cfg.pushState acc q) ∧
      ∀ x ∈ acc.1.state q, ∀ t ∈ acc.1.edges.targets ⟨q, x.item⟩,
        ⟨t.item, x.lookahead⟩ ∈ (Cfg.pushState acc q).1.state t.state := by
  have hall : Passed count acc (Cfg.pushState acc q) ∧ ∀ x ∈ acc.1.ordered q, _ :=
    foldl_passed (fun (x : LookaheadItem) after => ∀ t ∈ acc.1.edges.targets ⟨q, x.item⟩,
      ⟨t.item, x.lookahead⟩ ∈ after.1.state t.state) ?_ ?_ (Passed.refl h)
  · exact ⟨hall.1, fun x hx => hall.2 x (h.mem_ordered.2 hx)⟩
  · intro mid hmid x hx
    rw [hmid.edges]
    have hmem : x ∈ acc.1.state q := h.mem_ordered.1 hx
    refine foldl_passed (fun (t : Site) after => ⟨t.item, x.lookahead⟩ ∈ after.1.state t.state)
      (fun next hnext t ht => ⟨?_, ?_⟩)
      (fun t _ _ hpassed hdone => hpassed.grows _ _ hdone) (Passed.refl hmid.tidy)
    · refine passed_push hnext.tidy (hnext.grows q x (hmid.grows q x hmem)) ?_ (hlt _ t ht)
      rw [hnext.edges, hmid.edges]
      exact ht
    · exact mem_state_put.2 (Or.inr ⟨rfl, hnext.tidy.length ▸ hlt _ t ht, rfl⟩)
  · intro x _ _ hpassed hdone t ht
    exact hpassed.grows _ _ (hdone t ht)

theorem passed_pushAll {s : Lookaheads} (h : s.Tidy count)
    (hlt : ∀ source, ∀ t ∈ s.edges.targets source, t.state < count) :
    Passed count (s, []) (Cfg.pushAll s) ∧
      ∀ q, ∀ x ∈ s.state q, ∀ t ∈ s.edges.targets ⟨q, x.item⟩,
        ⟨t.item, x.lookahead⟩ ∈ (Cfg.pushAll s).1.state t.state := by
  have hall : Passed count (s, []) (Cfg.pushAll s) ∧ ∀ q ∈ List.range s.states.length, _ :=
    foldl_passed (fun (q : Nat) after => ∀ x ∈ s.state q, ∀ t ∈ s.edges.targets ⟨q, x.item⟩,
      ⟨t.item, x.lookahead⟩ ∈ after.1.state t.state) ?_ ?_ (Passed.refl h)
  · exact ⟨hall.1, fun q x hx => hall.2 q (List.mem_range.2 (lt_length_of_mem_state hx)) x hx⟩
  · intro mid hmid q _
    have hedges : mid.1.edges = s.edges := hmid.edges
    obtain ⟨hpassed, hdone⟩ := passed_pushState hmid.tidy (by rw [hedges]; exact hlt) q
    rw [hedges] at hdone
    exact ⟨hpassed, fun x hx => hdone x (hmid.grows q x hx)⟩
  · intro q _ _ hpassed hdone x hx t ht
    exact hpassed.grows _ _ (hdone x hx t ht)

end Lookaheads

end ShiftReduce
