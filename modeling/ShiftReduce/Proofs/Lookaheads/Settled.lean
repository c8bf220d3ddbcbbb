import ShiftReduce.Proofs.Lookaheads.Growth

/-!
# The finished lookahead sets

What belongs to the finished sets is found by induction over how it came there: it was put there in
the first phase, it is awaited by another member, or it was passed on along an edge.

Conversely nothing is missing.  The passes of the second phase end because each of them but the
last adds to sets of bounded size, and when they have ended the sets are closed and the edges have
nothing more to pass on.  An item whose lookahead has no edge to travel on got its successor in
the first phase.  So members have successors in the next states whichever way they came.

* `Cfg.lookaheads_induct`: the induction;
* `Cfg.Proper`, `Cfg.proper_of_mem`: members refine the items of their state by terminals;
* `Cfg.mem_lookaheads_of_awaitedWith`: the sets are closed;
* `Cfg.advance_mem_lookaheads`: members have successors;
* `Cfg.start_mem_lookaheads`: the start item awaits the end of the input.
-/

namespace ShiftReduce

namespace Cfg

variable {g : Cfg}

/-! ## Members that come up while a kernel item is closed -/

/-- The member `x` comes up while a kernel item of state `q` of the grammar is closed. -/
abbrev Comes (g : Cfg) (q : Nat) (x : LookaheadItem) : Prop :=
  g.Spreads g.firstSets g.collection q x

theorem Comes.lt {q : Nat} {x : LookaheadItem} (h : g.Comes q x) : q < g.collection.states.size :=
  h.1

/-- What comes up is led to by a kernel item under the placeholder. -/
theorem comes_iff {q : Nat} {x : LookaheadItem} :
    g.Comes q x ↔ q < g.collection.states.size ∧
      ∃ k ∈ g.collection.kernel q, Leads (g.awaitedWith g.firstSets) ⟨k, none⟩ x := by
  simp only [Comes, Spreads, mem_closureWith, List.mem_singleton, exists_eq_left]

theorem comes_of_mem_kernel {q : Nat} {k : Item} (h : k ∈ g.collection.kernel q) :
    g.Comes q ⟨k, none⟩ := by
  have hmem : k ∈ g.collection.state q := (List.mem_filter.1 h).1
  exact comes_iff.2 ⟨Collection.lt_size_of_mem_state hmem, k, h, .refl⟩

theorem Comes.awaited {q : Nat} {x y : LookaheadItem} (h : g.Comes q x)
    (hy : y ∈ g.awaitedWith g.firstSets x) : g.Comes q y := by
  obtain ⟨hq, k, hk, hleads⟩ := comes_iff.1 h
  exact comes_iff.2 ⟨hq, k, hk, hleads.tail hy⟩

/-- A property of kernel items under the placeholder that passes to what is awaited holds of all
that comes up. -/
theorem Comes.induct {q : Nat} {P : LookaheadItem → Prop}
    (start : ∀ k ∈ g.collection.kernel q, P ⟨k, none⟩)
    (step : ∀ x y, P x → y ∈ g.awaitedWith g.firstSets x → P y) {x : LookaheadItem}
    (h : g.Comes q x) : P x := by
  obtain ⟨-, k, hk, hleads⟩ := comes_iff.1 h
  exact hleads.induct (start k hk) step

theorem lookahead_of_awaitedWith {x y : LookaheadItem} (h : y ∈ g.awaitedWith g.firstSets x) :
    (∃ t, g.isTerminal t = true ∧ y.lookahead = some t) ∨ y.lookahead = x.lookahead := by
  obtain ⟨-, -, -, ⟨t, ht, hla⟩ | ⟨-, hla⟩⟩ := mem_awaitedWith_firstSets.1 h
  · exact Or.inl ⟨t, ht.1, hla⟩
  · exact Or.inr hla

/-- A member refines an item of its state, and its lookahead is a terminal or the end. -/
def Proper (g : Cfg) (q : Nat) (x : LookaheadItem) : Prop :=
  x.item ∈ g.collection.state q ∧ ∀ t, x.lookahead = some t → g.isTerminal t = true

theorem Proper.awaited {q : Nat} {x y : LookaheadItem} (h : g.Proper q x)
    (hy : y ∈ g.awaitedWith g.firstSets x) : g.Proper q y := by
  refine ⟨mem_state_of_awaited h.1 (awaited_of_awaitedWith hy), ?_⟩
  intro t ht
  rcases lookahead_of_awaitedWith hy with ⟨t', ht', hla⟩ | hla
  · rw [hla] at ht
    cases ht
    exact ht'
  · exact h.2 t (hla ▸ ht)

theorem Proper.advance {q symbol target : Nat} {x : LookaheadItem} (h : g.Proper q x)
    (hnext : g.nextSymbol? x.item = some symbol)
    (hgoto : g.collection.goto? q symbol = some target) :
    g.Proper target ⟨x.item.advance, x.lookahead⟩ :=
  ⟨advance_mem_state hgoto h.1 hnext, h.2⟩

theorem Comes.proper {q : Nat} {x : LookaheadItem} (h : g.Comes q x) : g.Proper q x := by
  apply h.induct
  · intro k hk
    refine ⟨(List.mem_filter.1 hk).1, ?_⟩
    intro t ht
    cases ht
  · intro x y hx hy
    exact hx.awaited hy

/-- An item whose dot has just moved belongs to the kernel of its state. -/
theorem advance_mem_kernel {q symbol target : Nat} {item : Item}
    (hitem : item ∈ g.collection.state q) (hnext : g.nextSymbol? item = some symbol)
    (hgoto : g.collection.goto? q symbol = some target) :
    item.advance ∈ g.collection.kernel target := by
  refine List.mem_filter.2 ⟨advance_mem_state hgoto hitem hnext, ?_⟩
  simp [Collection.isKernel, Item.advance]

/-! ## The induction -/

theorem bind_goto?_eq_some_iff {q target : Nat} {item : Item} :
    (g.nextSymbol? item).bind (g.collection.goto? q) = some target ↔
      ∃ symbol, g.nextSymbol? item = some symbol ∧
        g.collection.goto? q symbol = some target := by
  rw [Option.bind_eq_some_iff]

/-- The sets after the first phase. -/
abbrev found (g : Cfg) : Lookaheads := g.spontaneous g.firstSets g.collection

theorem mem_targets_found {source target : Site} :
    target ∈ g.found.edges.targets source ↔
      g.Comes source.state ⟨source.item, none⟩ ∧ target.item = source.item.advance ∧
        ∃ symbol, g.nextSymbol? source.item = some symbol ∧
          g.collection.goto? source.state symbol = some target.state := by
  rw [mem_targets_spontaneous]
  constructor
  · rintro ⟨q, ⟨item, la⟩, hcomes, rfl, rfl, hitem, hgoto⟩
    exact ⟨hcomes, hitem, bind_goto?_eq_some_iff.1 hgoto⟩
  · rintro ⟨hcomes, hitem, hgoto⟩
    exact ⟨source.state, _, hcomes, rfl, rfl, hitem, bind_goto?_eq_some_iff.2 hgoto⟩

/-- A property that holds of what is put into the sets in the first phase, passes to what is
awaited, and passes along edges. -/
structure Kept (g : Cfg) (P : Nat → LookaheadItem → Prop) : Prop where
  put : ∀ q x, g.Comes q x → ∀ q' y, g.Puts g.collection q x q' y → P q' y
  close : ∀ q x, P q x → ∀ y ∈ g.awaitedWith g.firstSets x, P q y
  pass : ∀ q x, P q x → g.Comes q ⟨x.item, none⟩ → ∀ symbol target,
    g.nextSymbol? x.item = some symbol → g.collection.goto? q symbol = some target →
      P target ⟨x.item.advance, x.lookahead⟩

theorem Kept.edges {P : Nat → LookaheadItem → Prop} (h : g.Kept P) :
    ∀ q x, P q x → ∀ t ∈ g.found.edges.targets ⟨q, x.item⟩, P t.state ⟨t.item, x.lookahead⟩ := by
  intro q x hx t ht
  obtain ⟨hcomes, hitem, symbol, hnext, hgoto⟩ := mem_targets_found.1 ht
  rw [hitem]
  exact h.pass q x hx hcomes symbol t.state hnext hgoto

theorem Kept.closeSets {P : Nat → LookaheadItem → Prop} (h : g.Kept P) {s : Lookaheads}
    {count : Nat} (hs : s.Tidy count) (hin : ∀ q, ∀ x ∈ s.state q, P q x) (qs : List Nat) :
    ∀ q, ∀ x ∈ (qs.foldl (g.closeSet g.firstSets) s).state q, P q x := by
  intro q x hx
  rcases (mem_state_closeSets hs).1 hx with hx | ⟨-, w, hw, hleads⟩
  · exact hin q x hx
  · exact hleads.induct (hin q w hw) fun x y hx hy => h.close q x hx y hy

/-- What holds of the sets during the second phase. -/
structure Underway (g : Cfg) (s : Lookaheads) : Prop where
  tidy : s.Tidy g.collection.states.size
  edges : s.edges = g.found.edges

theorem Underway.targets_lt {s : Lookaheads} (h : g.Underway s) :
    ∀ source, ∀ t ∈ s.edges.targets source, t.state < g.collection.states.size := by
  intro source t ht
  rw [h.edges] at ht
  obtain ⟨-, -, symbol, -, hgoto⟩ := mem_targets_found.1 ht
  exact (goto?_lt hgoto).2.2

/-- The sets after a pass along all edges and the closing of what has grown. -/
def passed (g : Cfg) (s : Lookaheads) : Lookaheads :=
  ((List.range s.states.length).filter (· ∈ (pushAll s).2)).foldl (g.closeSet g.firstSets)
    (pushAll s).1

theorem Underway.pushAll {s : Lookaheads} (h : g.Underway s) : g.Underway (pushAll s).1 := by
  obtain ⟨hpassed, -⟩ := Lookaheads.passed_pushAll h.tidy h.targets_lt
  exact ⟨hpassed.tidy, hpassed.edges.trans h.edges⟩

theorem Underway.passed {s : Lookaheads} (h : g.Underway s) : g.Underway (g.passed s) :=
  ⟨tidy_closeSets h.pushAll.tidy _, (edges_closeSets _).trans h.pushAll.edges⟩

theorem Kept.pushAll {P : Nat → LookaheadItem → Prop} (h : g.Kept P) {s : Lookaheads}
    (hs : g.Underway s) (hin : ∀ q, ∀ x ∈ s.state q, P q x) :
    ∀ q, ∀ x ∈ (Cfg.pushAll s).1.state q, P q x := by
  obtain ⟨hpassed, -⟩ := Lookaheads.passed_pushAll hs.tidy hs.targets_lt
  exact hpassed.inside P (by rw [hs.edges]; exact h.edges) hin

theorem Kept.passed {P : Nat → LookaheadItem → Prop} (h : g.Kept P) {s : Lookaheads}
    (hs : g.Underway s) (hin : ∀ q, ∀ x ∈ s.state q, P q x) :
    ∀ q, ∀ x ∈ (g.passed s).state q, P q x :=
  h.closeSets hs.pushAll.tidy (h.pushAll hs hin) _

theorem propagate_succ (fuel : Nat) (s : Lookaheads) :
    (g.propagate g.firstSets (fuel + 1) s).1 =
      if (pushAll s).2 = [] then (pushAll s).1
      else (g.propagate g.firstSets fuel (g.passed s)).1 := by
  rw [propagate]
  by_cases h : (pushAll s).2 = []
  · simp [h]
  · simp [h, passed]

theorem Kept.propagate {P : Nat → LookaheadItem → Prop} (h : g.Kept P) {s : Lookaheads}
    (hs : g.Underway s) (hin : ∀ q, ∀ x ∈ s.state q, P q x) (fuel : Nat) :
    ∀ q, ∀ x ∈ (g.propagate g.firstSets fuel s).1.state q, P q x := by
  induction fuel generalizing s with
  | zero => exact hin
  | succ fuel ih =>
    rw [propagate_succ]
    split
    · exact h.pushAll hs hin
    · exact ih hs.passed (h.passed hs hin)

/-- The sets when the second phase begins to pass lookaheads on. -/
def ready (g : Cfg) : Lookaheads :=
  (List.range g.found.states.length).foldl (g.closeSet g.firstSets) g.found

theorem lookaheads_eq (g : Cfg) :
    g.lookaheads =
      (g.propagate g.firstSets (g.propagateBound g.collection.states.size) g.ready).1 := rfl

theorem underway_ready : g.Underway g.ready :=
  ⟨tidy_closeSets tidy_spontaneous _, edges_closeSets _⟩

theorem Kept.ready {P : Nat → LookaheadItem → Prop} (h : g.Kept P) :
    ∀ q, ∀ x ∈ g.ready.state q, P q x := by
  apply h.closeSets tidy_spontaneous
  intro q x hx
  obtain ⟨-, q', y, hcomes, hputs⟩ := mem_state_spontaneous.1 hx
  exact h.put q' y hcomes q x hputs

/-- What is kept by all that happens to the sets holds of the finished sets. -/
theorem lookaheads_induct {P : Nat → LookaheadItem → Prop} (h : g.Kept P) {q : Nat}
    {x : LookaheadItem} (hx : x ∈ g.lookaheads.state q) : P q x :=
  h.propagate underway_ready h.ready _ q x hx

theorem kept_proper (g : Cfg) : g.Kept g.Proper where
  put q x hcomes q' y hputs := by
    rcases hputs with ⟨rfl, rfl, -⟩ | ⟨-, rfl, hgoto⟩
    · exact hcomes.proper
    · obtain ⟨symbol, hnext, hgoto⟩ := bind_goto?_eq_some_iff.1 hgoto
      exact hcomes.proper.advance hnext hgoto
  close q x hx y hy := hx.awaited hy
  pass q x hx _ symbol target hnext hgoto := hx.advance hnext hgoto

theorem proper_of_mem {q : Nat} {x : LookaheadItem} (h : x ∈ g.lookaheads.state q) :
    g.Proper q x :=
  lookaheads_induct g.kept_proper h

end Cfg

/-! ## How many passes there can be -/

namespace Lookaheads

/-- The number of members of all sets together. -/
def weight (count : Nat) (s : Lookaheads) : Nat :=
  ((List.range count).map fun q => (s.state q).length).sum

theorem length_state_le {count : Nat} {s s' : Lookaheads} (h : s.Tidy count)
    (hgrows : ∀ q, ∀ x ∈ s.state q, x ∈ s'.state q) (q : Nat) :
    (s.state q).length ≤ (s'.state q).length :=
  (List.subperm_of_subset (h.nodup q) (hgrows q)).length_le

/-- Sets that have grown weigh more. -/
theorem weight_lt {count : Nat} {s s' : Lookaheads} (h : s.Tidy count)
    (hgrows : ∀ q, ∀ x ∈ s.state q, x ∈ s'.state q) {q : Nat} (hq : q < count)
    {x : LookaheadItem} (hx : x ∈ s'.state q) (hnew : x ∉ s.state q) :
    s.weight count < s'.weight count := by
  refine List.sum_lt_sum _ _ (fun p _ => length_state_le h hgrows p)
    ⟨q, List.mem_range.2 hq, ?_⟩
  have hsub : x :: s.state q ⊆ s'.state q := by
    intro y hy
    rcases List.mem_cons.1 hy with rfl | hy
    · exact hx
    · exact hgrows q y hy
  have hnodup : (x :: s.state q).Nodup := List.nodup_cons.2 ⟨hnew, h.nodup q⟩
  exact (List.subperm_of_subset hnodup hsub).length_le

end Lookaheads

namespace Cfg

variable {g : Cfg}

/-- An item of a state has at most one member for each terminal and one for the end. -/
theorem length_state_le_of_proper {s : Lookaheads} (h : g.Underway s)
    (hin : ∀ q, ∀ x ∈ s.state q, g.Proper q x) (q : Nat) :
    (s.state q).length ≤ g.itemCount * (g.terminals.length + 1) := by
  let pool : List LookaheadItem :=
    g.allItems.flatMap fun item => (none :: g.terminals.map some).map fun la => ⟨item, la⟩
  have hsub : s.state q ⊆ pool := by
    intro x hx
    obtain ⟨hitem, hla⟩ := hin q x hx
    refine List.mem_flatMap.2 ⟨x.item, state_subset_allItems hitem,
      List.mem_map.2 ⟨x.lookahead, ?_, rfl⟩⟩
    cases hlook : x.lookahead with
    | none => exact List.mem_cons_self
    | some t =>
      have ht := hla t hlook
      refine List.mem_cons_of_mem _ (List.mem_map.2 ⟨t, List.mem_filter.2 ⟨?_, ht⟩, rfl⟩)
      exact List.mem_range.2 (isTerminal_iff.1 ht).1
  have hlength : pool.length = g.itemCount * (g.terminals.length + 1) := by
    simp [pool, List.length_flatMap, itemCount]
  rw [← hlength]
  exact (List.subperm_of_subset (h.tidy.nodup q) hsub).length_le

theorem weight_le {s : Lookaheads} (h : g.Underway s)
    (hin : ∀ q, ∀ x ∈ s.state q, g.Proper q x) :
    s.weight g.collection.states.size ≤
      g.collection.states.size * (g.itemCount * (g.terminals.length + 1)) := by
  have hbound := List.sum_le_card_nsmul
    ((List.range g.collection.states.size).map fun q => (s.state q).length)
    (g.itemCount * (g.terminals.length + 1)) fun n hn => by
      obtain ⟨q, -, rfl⟩ := List.mem_map.1 hn
      exact length_state_le_of_proper h hin q
  simpa [Lookaheads.weight] using hbound

/-! ## When the passes have ended -/

/-- The sets are closed. -/
def Closed (g : Cfg) (s : Lookaheads) : Prop :=
  ∀ q, ∀ x ∈ s.state q, ∀ y ∈ g.awaitedWith g.firstSets x, y ∈ s.state q

/-- The edges have nothing more to pass on. -/
def Stable (g : Cfg) (s : Lookaheads) : Prop :=
  ∀ q, ∀ x ∈ s.state q, ∀ t ∈ g.found.edges.targets ⟨q, x.item⟩,
    ⟨t.item, x.lookahead⟩ ∈ s.state t.state

theorem grows_passed {s : Lookaheads} (h : g.Underway s) :
    ∀ q, ∀ x ∈ s.state q, x ∈ (g.passed s).state q := by
  intro q x hx
  obtain ⟨hpassed, -⟩ := Lookaheads.passed_pushAll h.tidy h.targets_lt
  exact (mem_state_closeSets h.pushAll.tidy).2 (Or.inl (hpassed.grows q x hx))

/-- Only what has grown needs to be closed again. -/
theorem Closed.passed {s : Lookaheads} (h : g.Underway s) (hclosed : g.Closed s) :
    g.Closed (g.passed s) := by
  intro q x hx y hy
  obtain ⟨hpassed, -⟩ := Lookaheads.passed_pushAll h.tidy h.targets_lt
  by_cases hdirty : q ∈ (List.range s.states.length).filter (· ∈ (Cfg.pushAll s).2)
  · refine (mem_state_closeSets h.pushAll.tidy).2 (Or.inr ⟨hdirty, ?_⟩)
    rcases (mem_state_closeSets h.pushAll.tidy).1 hx with hx | ⟨-, w, hw, hleads⟩
    · exact ⟨x, hx, .single hy⟩
    · exact ⟨w, hw, hleads.tail hy⟩
  · have hx' : x ∈ (Cfg.pushAll s).1.state q := by
      rcases (mem_state_closeSets h.pushAll.tidy).1 hx with hx | ⟨hmem, -⟩
      · exact hx
      · exact absurd hmem hdirty
    have hlt : q < s.states.length := by
      have := Lookaheads.lt_length_of_mem_state hx'
      rwa [h.pushAll.tidy.length, ← h.tidy.length] at this
    have hsame : q ∉ (Cfg.pushAll s).2 := fun hmem =>
      hdirty (List.mem_filter.2 ⟨List.mem_range.2 hlt, by simpa using hmem⟩)
    rw [hpassed.same q hsame] at hx'
    exact grows_passed h q y (hclosed q x hx' y hy)

/-- A pass after which another one is needed makes the sets weigh more. -/
theorem weight_lt_passed {s : Lookaheads} (h : g.Underway s) (hgrown : (pushAll s).2 ≠ []) :
    s.weight g.collection.states.size < (g.passed s).weight g.collection.states.size := by
  obtain ⟨hpassed, -⟩ := Lookaheads.passed_pushAll h.tidy h.targets_lt
  obtain ⟨q, hq⟩ := List.exists_mem_of_ne_nil _ hgrown
  rcases hpassed.fresh q hq with hq | ⟨x, hx, hnew⟩
  · exact absurd hq List.not_mem_nil
  · have hlt : q < g.collection.states.size := by
      rw [← hpassed.tidy.length]
      exact Lookaheads.lt_length_of_mem_state hx
    have hx' : x ∈ (g.passed s).state q :=
      (mem_state_closeSets h.pushAll.tidy).2 (Or.inl hx)
    exact Lookaheads.weight_lt h.tidy (grows_passed h) hlt hx' hnew

/-- With fuel for all that can be added, the passes go on until the edges have nothing more to pass
on; nothing leaves the sets meanwhile. -/
theorem propagate_settles {s : Lookaheads} (h : g.Underway s) (hclosed : g.Closed s)
    (hin : ∀ q, ∀ x ∈ s.state q, g.Proper q x) {fuel : Nat}
    (hfuel : g.collection.states.size * (g.itemCount * (g.terminals.length + 1)) <
      fuel + s.weight g.collection.states.size) :
    g.Closed (g.propagate g.firstSets fuel s).1 ∧ g.Stable (g.propagate g.firstSets fuel s).1 ∧
      ∀ q, ∀ x ∈ s.state q, x ∈ (g.propagate g.firstSets fuel s).1.state q := by
  induction fuel generalizing s with
  | zero =>
    have := weight_le h hin
    omega
  | succ fuel ih =>
    obtain ⟨hpassed, hdone⟩ := Lookaheads.passed_pushAll h.tidy h.targets_lt
    rw [propagate_succ]
    split
    · next hnone =>
      have hsame : ∀ q, (Cfg.pushAll s).1.state q = s.state q := fun q =>
        hpassed.same q (by rw [hnone]; exact List.not_mem_nil)
      refine ⟨?_, ?_, hpassed.grows⟩
      · intro q x hx y hy
        rw [hsame] at hx ⊢
        exact hclosed q x hx y hy
      · intro q x hx t ht
        rw [hsame] at hx
        exact hdone q x hx t (by rw [h.edges]; exact ht)
    · next hgrown =>
      have hweight := weight_lt_passed h hgrown
      obtain ⟨hc, hs, hgrows⟩ := ih h.passed (hclosed.passed h)
        (g.kept_proper.passed h hin) (by omega)
      exact ⟨hc, hs, fun q x hx => hgrows q x (grows_passed h q x hx)⟩

theorem closed_ready : g.Closed g.ready := by
  intro q x hx y hy
  have hmem : ∀ z : LookaheadItem, z ∈ g.ready.state q ↔ _ := fun z =>
    @mem_state_closeSets g g.found g.collection.states.size tidy_spontaneous
      (List.range g.found.states.length) q z
  rcases (hmem x).1 hx with hx | ⟨hq, w, hw, hleads⟩
  · exact (hmem y).2 (Or.inr ⟨List.mem_range.2 (Lookaheads.lt_length_of_mem_state hx), x, hx,
      .single hy⟩)
  · exact (hmem y).2 (Or.inr ⟨hq, w, hw, hleads.tail hy⟩)

theorem lookaheads_settled (g : Cfg) :
    g.Closed g.lookaheads ∧ g.Stable g.lookaheads ∧
      ∀ q, ∀ x ∈ g.ready.state q, x ∈ g.lookaheads.state q := by
  rw [lookaheads_eq]
  refine propagate_settles underway_ready closed_ready g.kept_proper.ready ?_
  rw [propagateBound, Nat.mul_assoc]
  omega

theorem Underway.propagate {s : Lookaheads} (h : g.Underway s) (fuel : Nat) :
    g.Underway (g.propagate g.firstSets fuel s).1 := by
  induction fuel generalizing s with
  | zero => exact h
  | succ fuel ih =>
    rw [propagate_succ]
    split
    · exact h.pushAll
    · exact ih h.passed

/-- No item stands twice in a set under the same lookahead. -/
theorem nodup_lookaheads (g : Cfg) (q : Nat) : (g.lookaheads.state q).Nodup := by
  rw [lookaheads_eq]
  exact (underway_ready.propagate _).tidy.nodup q

/-! ## Nothing is missing -/

/-- The sets are closed. -/
theorem mem_lookaheads_of_awaitedWith {q : Nat} {x y : LookaheadItem}
    (hx : x ∈ g.lookaheads.state q) (hy : y ∈ g.awaitedWith g.firstSets x) :
    y ∈ g.lookaheads.state q :=
  g.lookaheads_settled.1 q x hx y hy

/-- What is put into the sets in the first phase stays there. -/
theorem mem_lookaheads_of_puts {q q' : Nat} {x y : LookaheadItem} (hcomes : g.Comes q x)
    (hlt : q' < g.collection.states.size) (hputs : g.Puts g.collection q x q' y) :
    y ∈ g.lookaheads.state q' := by
  obtain ⟨-, -, hgrows⟩ := g.lookaheads_settled
  refine hgrows q' y ((mem_state_closeSets tidy_spontaneous).2 (Or.inl ?_))
  exact mem_state_spontaneous.2 ⟨hlt, q, x, hcomes, hputs⟩

/-- The start item awaits the end of the input. -/
theorem start_mem_lookaheads (g : Cfg) : ⟨⟨0, 0⟩, none⟩ ∈ g.lookaheads.state 0 := by
  have hkernel : (⟨0, 0⟩ : Item) ∈ g.collection.kernel 0 :=
    List.mem_filter.2 ⟨mem_state_zero.2 .refl, rfl⟩
  exact mem_lookaheads_of_puts (comes_of_mem_kernel hkernel) g.size_collection_pos
    (Or.inl ⟨rfl, rfl, Or.inr rfl⟩)

/-- A member has an edge for its lookahead to travel on, or it came up with its lookahead while a
kernel item of its state was closed. -/
def Carried (g : Cfg) (q : Nat) (x : LookaheadItem) : Prop :=
  g.Comes q ⟨x.item, none⟩ ∨ (x.lookahead ≠ none ∧ g.Comes q x)

theorem kept_carried (g : Cfg) : g.Kept g.Carried where
  put q x hcomes q' y hputs := by
    rcases hputs with ⟨rfl, rfl, -⟩ | ⟨-, rfl, hgoto⟩
    · cases hla : y.lookahead with
      | none =>
        refine Or.inl ?_
        rw [← hla]
        exact hcomes
      | some t => exact Or.inr ⟨by rw [hla]; exact Option.some_ne_none t, hcomes⟩
    · obtain ⟨symbol, hnext, hgoto⟩ := bind_goto?_eq_some_iff.1 hgoto
      exact Or.inl (comes_of_mem_kernel (advance_mem_kernel hcomes.proper.1 hnext hgoto))
  close q x hx y hy := by
    obtain ⟨symbol, hnext, hbegin, hla⟩ := mem_awaitedWith_firstSets.1 hy
    -- The same way through the closure, begun at an item that came up.
    have hway : ∀ la : Lookahead, g.Comes q ⟨x.item, la⟩ →
        (∃ t, g.Begins (g.afterNext x.item) t ∧ y.lookahead = some t) ∨
          (g.Vanishes (g.afterNext x.item) ∧ y.lookahead = la) → g.Comes q y := fun la hcomes hor =>
      hcomes.awaited (mem_awaitedWith_firstSets.2 ⟨symbol, hnext, hbegin, hor⟩)
    rcases hla with ⟨t, ht, hla⟩ | ⟨hvanish, hla⟩
    · refine Or.inr ⟨by rw [hla]; exact Option.some_ne_none t, ?_⟩
      rcases hx with hcomes | ⟨-, hcomes⟩
      · exact hway none hcomes (Or.inl ⟨t, ht, hla⟩)
      · exact hway x.lookahead hcomes (Or.inl ⟨t, ht, hla⟩)
    · rcases hx with hcomes | ⟨hne, hcomes⟩
      · refine Or.inl (hcomes.awaited (mem_awaitedWith_firstSets.2 ?_))
        exact ⟨symbol, hnext, hbegin, Or.inr ⟨hvanish, rfl⟩⟩
      · exact Or.inr ⟨by rw [hla]; exact hne, hway x.lookahead hcomes (Or.inr ⟨hvanish, hla⟩)⟩
  pass q x _ hcomes symbol target hnext hgoto :=
    Or.inl (comes_of_mem_kernel (advance_mem_kernel hcomes.proper.1 hnext hgoto))

/-- Members have successors: along an edge if there is one, else from the first phase. -/
theorem advance_mem_lookaheads {q symbol target : Nat} {x : LookaheadItem}
    (hx : x ∈ g.lookaheads.state q) (hnext : g.nextSymbol? x.item = some symbol)
    (hgoto : g.collection.goto? q symbol = some target) :
    ⟨x.item.advance, x.lookahead⟩ ∈ g.lookaheads.state target := by
  rcases lookaheads_induct g.kept_carried hx with hcomes | ⟨hne, hcomes⟩
  · obtain ⟨-, hstable, -⟩ := g.lookaheads_settled
    exact hstable q x hx ⟨target, x.item.advance⟩
      (mem_targets_found.2 ⟨hcomes, rfl, symbol, hnext, hgoto⟩)
  · exact mem_lookaheads_of_puts hcomes (goto?_lt hgoto).2.2
      (Or.inr ⟨hne, rfl, bind_goto?_eq_some_iff.2 ⟨symbol, hnext, hgoto⟩⟩)

end Cfg

end ShiftReduce
