import Mathlib.Data.List.Sublists
import ShiftReduce.Collection
import ShiftReduce.Proofs.Closure
import ShiftReduce.Proofs.Numbering

/-!
# The states of the collection

When the collection is finished every state has been taken up: states are sublists of the numbered
items, so there are never more of them than the fuel allows for.  The transitions then say exactly
how the states hang together, and all that is needed of the construction later on is in the last
part of this module.

* `Collection.Consistent`: what holds of the collection before and after a state is taken up;
* `Cfg.length_gotos_collection`: every state is taken up;
* `Cfg.mem_state_zero`, `Cfg.mem_state_of_goto?`, `Cfg.exists_goto?`: states and transitions;
* `Cfg.goto?_ne_zero`: no transition leads to the start;
* `Cfg.mem_or_awaited`, `Cfg.exists_mem_of_advanced`: where the items of a state come from;
* `Collection.walk?`, `Cfg.exists_walk?`: every state is reached along some string of symbols.
-/

namespace ShiftReduce

variable {g : Cfg}

theorem getElem?_concat_eq_some {α : Type} {l : List α} {a b : α} {i : Nat}
    (h : (l ++ [a])[i]? = some b) : l[i]? = some b ∨ (i = l.length ∧ b = a) := by
  by_cases hi : i < l.length
  · rw [List.getElem?_append_left hi] at h
    exact Or.inl h
  · have hlt : i < (l ++ [a]).length := (List.getElem?_eq_some_iff.1 h).1
    rw [List.length_append, List.length_singleton] at hlt
    have hlast : i = l.length := by omega
    rw [hlast, List.getElem?_concat_length] at h
    cases h
    exact Or.inr ⟨hlast, rfl⟩

/-! ## Closing a kernel -/

theorem Cfg.mem_closeState {items : Numbering Item} {kernel : List Item} {item : Item} :
    item ∈ (g.closeState items kernel).2 ↔ item ∈ g.closure kernel := by
  simp only [closeState, Numbering.mem_inOrder, Numbering.mem_entries_insertAll]
  exact ⟨fun h => h.2, fun h => ⟨Or.inr h, h⟩⟩

theorem Cfg.extends_closeState (items : Numbering Item) (kernel : List Item) :
    items.Extends (g.closeState items kernel).1 :=
  items.extends_insertAll _

theorem Cfg.closure_subset_allItems {kernel : List Item} (h : ∀ k ∈ kernel, k ∈ g.allItems) :
    ∀ item ∈ g.closure kernel, item ∈ g.allItems := by
  intro item hitem
  obtain ⟨k, hk, hleads⟩ := mem_closure.1 hitem
  refine hleads.induct (h k hk) ?_
  intro i j _ hj
  obtain ⟨symbol, -, hbegin⟩ := mem_awaited.1 hj
  exact mem_allItems_of_mem_beginningsOf hbegin

theorem Cfg.moved_subset_allItems {state : List Item} {symbol : Nat} :
    ∀ item ∈ g.moved state symbol, item ∈ g.allItems := by
  intro item hitem
  obtain ⟨i, -, hnext, rfl⟩ := mem_moved.1 hitem
  exact advance_mem_allItems hnext

/-- Numbered items are items of the grammar, and states are arranged by their numbers. -/
structure Collection.Numbered (g : Cfg) (c : Collection) : Prop where
  items : ∀ item ∈ c.items.entries, item ∈ g.allItems
  arranged : ∀ state ∈ c.states.entries, state.Sublist c.items.entries

/-- A closed kernel of items of the grammar can be added as a state. -/
theorem Collection.Numbered.close {c : Collection} (h : c.Numbered g) (kernel : List Item)
    (hkernel : ∀ k ∈ kernel, k ∈ g.allItems) :
    Collection.Numbered g { c with
      items := (g.closeState c.items kernel).1
      states := c.states.insert (g.closeState c.items kernel).2 } where
  items item hitem := by
    rcases Numbering.mem_entries_insertAll.1 hitem with hitem | hitem
    · exact h.items item hitem
    · exact Cfg.closure_subset_allItems hkernel item hitem
  arranged state hstate := by
    rcases Numbering.mem_entries_insert.1 hstate with hstate | rfl
    · exact (h.arranged state hstate).trans (Cfg.extends_closeState _ _).sublist
    · exact Numbering.inOrder_sublist _ _

/-- There are no more states than sets of items. -/
theorem Collection.Numbered.size_le {c : Collection} (h : c.Numbered g) :
    c.states.size ≤ 2 ^ g.itemCount := by
  have hitems : c.items.entries.length ≤ g.itemCount :=
    (List.subperm_of_subset c.items.nodup h.items).length_le
  have hstates : c.states.entries.length ≤ c.items.entries.sublists.length :=
    (List.subperm_of_subset c.states.nodup fun state hstate =>
      List.mem_sublists.2 (h.arranged state hstate)).length_le
  rw [List.length_sublists] at hstates
  exact Nat.le_trans hstates (Nat.pow_le_pow_right (by omega) hitems)

/-! ## Taking up a state -/

/-- The target that a state should have for a symbol: none if no dot can move over it, else a state
that holds the closed successors. -/
def Cfg.Aims (g : Cfg) (states : Numbering (List Item)) (state : List Item) (symbol : Nat) :
    Option Nat → Prop
  | none => g.moved state symbol = []
  | some q => g.moved state symbol ≠ [] ∧
      ∃ target, states.get? q = some target ∧
        ∀ item, item ∈ target ↔ item ∈ g.closure (g.moved state symbol)

theorem Cfg.Aims.mono {states states' : Numbering (List Item)} (hext : states.Extends states')
    {state : List Item} {symbol : Nat} {target : Option Nat}
    (h : g.Aims states state symbol target) : g.Aims states' state symbol target := by
  cases target with
  | none => exact h
  | some q =>
    obtain ⟨hne, items, hget, hmem⟩ := h
    exact ⟨hne, items, hext.get?_eq hget, hmem⟩

/-- What holds while the symbols are followed from a state of `c`. -/
structure Collection.Following (g : Cfg) (c : Collection) (state : List Item)
    (acc : Collection × List (Option Nat)) : Prop where
  numbered : acc.1.Numbered g
  states : c.states.Extends acc.1.states
  gotos : acc.1.gotos = c.gotos
  aims : ∀ symbol target, acc.2[symbol]? = some target →
    g.Aims acc.1.states state symbol target
  /-- Every new state is the target of a symbol. -/
  fresh : ∀ q, c.states.size ≤ q → q < acc.1.states.size → some q ∈ acc.2

theorem Collection.Following.follow {c : Collection} {state : List Item}
    {acc : Collection × List (Option Nat)} (h : Following g c state acc) :
    Following g c state (g.follow state acc acc.2.length) := by
  rw [Cfg.follow]
  split
  · next hmoved =>
    refine ⟨h.numbered, h.states, h.gotos, ?_, ?_⟩
    · intro symbol target ht
      rcases getElem?_concat_eq_some ht with ht | ⟨rfl, rfl⟩
      · exact h.aims symbol target ht
      · exact hmoved
    · intro q hq hlt
      exact List.mem_append_left _ (h.fresh q hq hlt)
  · next item kernel hmoved =>
    have hkernel : ∀ k ∈ item :: kernel, k ∈ g.allItems := by
      rw [← hmoved]
      exact Cfg.moved_subset_allItems
    have hext := acc.1.states.extends_insert (g.closeState acc.1.items (item :: kernel)).2
    refine ⟨h.numbered.close _ hkernel, h.states.trans hext, h.gotos, ?_, ?_⟩
    · intro symbol target ht
      rcases getElem?_concat_eq_some ht with ht | ⟨rfl, rfl⟩
      · exact (h.aims symbol target ht).mono hext
      · refine ⟨by rw [hmoved]; simp, _, Numbering.get?_insert_number _ _, ?_⟩
        intro i
        rw [hmoved]
        exact Cfg.mem_closeState
    · intro q hq hlt
      by_cases hold : q < acc.1.states.size
      · exact List.mem_append_left _ (h.fresh q hq hold)
      · refine List.mem_append_right _ (List.mem_singleton.2 ?_)
        rw [Numbering.eq_number_of_lt_size_insert hlt hold]

theorem Collection.Following.foldl {c : Collection} {state : List Item}
    {acc : Collection × List (Option Nat)} (h : Following g c state acc) (count : Nat) :
    Following g c state ((List.range' acc.2.length count).foldl (g.follow state) acc) ∧
      ((List.range' acc.2.length count).foldl (g.follow state) acc).2.length =
        acc.2.length + count := by
  induction count generalizing acc with
  | zero => exact ⟨h, rfl⟩
  | succ count ih =>
    have hlength : (g.follow state acc acc.2.length).2.length = acc.2.length + 1 := by
      rw [Cfg.follow]
      split <;> simp
    obtain ⟨hfollow, hcount⟩ := ih h.follow
    rw [hlength] at hfollow hcount
    rw [List.range'_succ, List.foldl_cons]
    exact ⟨hfollow, by omega⟩

/-- While symbols are followed, states are added and transitions are left alone. -/
theorem Cfg.foldl_follow (state : List Item) (symbols : List Nat)
    (acc : Collection × List (Option Nat)) :
    acc.1.states.Extends (symbols.foldl (g.follow state) acc).1.states ∧
      (symbols.foldl (g.follow state) acc).1.gotos = acc.1.gotos := by
  induction symbols generalizing acc with
  | nil => exact ⟨Numbering.Extends.refl _, rfl⟩
  | cons symbol symbols ih =>
    have hstep : acc.1.states.Extends (g.follow state acc symbol).1.states ∧
        (g.follow state acc symbol).1.gotos = acc.1.gotos := by
      rw [follow]
      split
      · exact ⟨Numbering.Extends.refl _, rfl⟩
      · exact ⟨Numbering.extends_insert _ _, rfl⟩
    obtain ⟨hextends, hgotos⟩ := ih (g.follow state acc symbol)
    exact ⟨hstep.1.trans hextends, hgotos.trans hstep.2⟩

theorem Cfg.extends_takeUp (c : Collection) (state : List Item) :
    c.states.Extends (g.takeUp c state).states :=
  (foldl_follow state _ (c, [])).1

theorem Cfg.length_gotos_takeUp (c : Collection) (state : List Item) :
    (g.takeUp c state).gotos.length = c.gotos.length + 1 := by
  rw [takeUp, (foldl_follow state _ (c, [])).2, List.length_append, List.length_singleton]

/-- What holds of a collection before and after a state is taken up. -/
structure Collection.Consistent (g : Cfg) (c : Collection) : Prop where
  numbered : c.Numbered g
  start : ∃ state, c.states.get? 0 = some state ∧ ∀ item, item ∈ state ↔ item ∈ g.closure [⟨0, 0⟩]
  rows : ∀ q row, c.gotos[q]? = some row → row.length = g.symbolCount ∧
    ∃ state, c.states.get? q = some state ∧
      ∀ symbol target, row[symbol]? = some target → g.Aims c.states state symbol target
  length_le : c.gotos.length ≤ c.states.size
  /-- Every state but the first is the target of an earlier one. -/
  reached : ∀ q, 0 < q → q < c.states.size →
    ∃ p < q, ∃ (row : List (Option Nat)) (symbol : Nat),
      c.gotos[p]? = some row ∧ row[symbol]? = some (some q)

theorem Collection.Consistent.takeUp {c : Collection} (h : c.Consistent g) {state : List Item}
    (hstate : c.states.get? c.gotos.length = some state) : (g.takeUp c state).Consistent g := by
  have hstart : Following g c state (c, []) :=
    ⟨h.numbered, Numbering.Extends.refl _, rfl, by simp, fun q hq hlt => by
      exact absurd hlt (Nat.not_lt.2 hq)⟩
  obtain ⟨hfollow, hlength⟩ := hstart.foldl g.symbolCount
  rw [List.length_nil, ← List.range_eq_range', Nat.zero_add] at hlength
  rw [List.length_nil, ← List.range_eq_range'] at hfollow
  rw [Cfg.takeUp]
  generalize (List.range g.symbolCount).foldl (g.follow state) (c, []) = acc at hfollow hlength
  have hgotos : acc.1.gotos = c.gotos := hfollow.gotos
  have hlt : c.gotos.length < c.states.size := Numbering.lt_size_of_get? hstate
  refine ⟨⟨hfollow.numbered.items, hfollow.numbered.arranged⟩, ?_, ?_, ?_, ?_⟩
  · obtain ⟨first, hfirst, hmem⟩ := h.start
    exact ⟨first, hfollow.states.get?_eq hfirst, hmem⟩
  · intro q row hrow
    rw [hgotos] at hrow
    rcases getElem?_concat_eq_some hrow with hrow | ⟨rfl, rfl⟩
    · obtain ⟨hlen, s, hs, haims⟩ := h.rows q row hrow
      exact ⟨hlen, s, hfollow.states.get?_eq hs, fun symbol target ht =>
        (haims symbol target ht).mono hfollow.states⟩
    · exact ⟨hlength, state, hfollow.states.get?_eq hstate, hfollow.aims⟩
  · rw [hgotos, List.length_append, List.length_singleton]
    exact Nat.le_trans hlt hfollow.states.size_le
  · intro q hpos hq
    rw [hgotos]
    by_cases hold : q < c.states.size
    · obtain ⟨p, hp, row, symbol, hrow, htarget⟩ := h.reached q hpos hold
      refine ⟨p, hp, row, symbol, ?_, htarget⟩
      rw [List.getElem?_append_left (List.getElem?_eq_some_iff.1 hrow).1]
      exact hrow
    · obtain ⟨symbol, hsymbol⟩ := List.getElem?_of_mem (hfollow.fresh q (Nat.not_lt.1 hold) hq)
      exact ⟨c.gotos.length, by omega, acc.2, symbol, List.getElem?_concat_length, hsymbol⟩

theorem Cfg.consistent_collectionSeed (g : Cfg) : g.collectionSeed.Consistent g := by
  have hzero : (⟨0, 0⟩ : Item) ∈ g.allItems := by
    obtain ⟨rule, hrule, -⟩ := g.rule_zero
    exact mem_allItems.2 ⟨rule, hrule, Nat.zero_le _⟩
  have hempty : Collection.Numbered g ⟨Numbering.empty, Numbering.empty, []⟩ :=
    ⟨fun item hitem => absurd hitem List.not_mem_nil, fun s hs => absurd hs List.not_mem_nil⟩
  have hclose := hempty.close [⟨0, 0⟩] (by simpa using hzero)
  refine ⟨⟨hclose.items, hclose.arranged⟩, ?_, ?_, ?_, ?_⟩
  · exact ⟨_, Numbering.get?_insert_number Numbering.empty _, fun item => mem_closeState⟩
  · intro q row hrow
    simp [collectionSeed] at hrow
  · exact Nat.zero_le _
  · intro q hpos hq
    have hsize : g.collectionSeed.states.size = 1 := rfl
    omega

theorem Collection.Consistent.collect {c : Collection} (h : c.Consistent g) (fuel : Nat) :
    (g.collect fuel c).Consistent g := by
  induction fuel generalizing c with
  | zero => exact h
  | succ fuel ih =>
    rw [Cfg.collect]
    split
    · exact h
    · next state hstate => exact ih (h.takeUp hstate)

/-- With fuel for as many states as there can be, every state is taken up. -/
theorem Collection.Consistent.length_gotos_collect {c : Collection} (h : c.Consistent g)
    {fuel : Nat} (hfuel : 2 ^ g.itemCount ≤ fuel + c.gotos.length) :
    (g.collect fuel c).gotos.length = (g.collect fuel c).states.size := by
  induction fuel generalizing c with
  | zero =>
    have hsize := h.numbered.size_le
    have hle := h.length_le
    rw [Cfg.collect]
    omega
  | succ fuel ih =>
    rw [Cfg.collect]
    split
    · next hnone =>
      have hle := h.length_le
      have hge : c.states.size ≤ c.gotos.length := List.getElem?_eq_none_iff.1 hnone
      omega
    · next state hstate =>
      have hlength := Cfg.length_gotos_takeUp (g := g) c state
      exact ih (h.takeUp hstate) (by omega)

/-! ## The finished collection -/

namespace Collection

variable {c : Collection}

theorem state_eq_of_get? {q : Nat} {state : List Item} (h : c.states.get? q = some state) :
    c.state q = state := by
  rw [Collection.state, h, Option.getD_some]

theorem state_eq_nil_of_le {q : Nat} (h : c.states.size ≤ q) : c.state q = [] := by
  have : c.states.get? q = none := List.getElem?_eq_none h
  rw [Collection.state, this, Option.getD_none]

theorem lt_size_of_mem_state {q : Nat} {item : Item} (h : item ∈ c.state q) :
    q < c.states.size := by
  by_contra hq
  rw [state_eq_nil_of_le (Nat.not_lt.1 hq)] at h
  exact absurd h List.not_mem_nil

theorem goto?_eq_some_iff {q symbol target : Nat} :
    c.goto? q symbol = some target ↔
      ∃ row : List (Option Nat), c.gotos[q]? = some row ∧ row[symbol]? = some (some target) := by
  rw [Collection.goto?]
  cases c.gotos[q]? with
  | none => simp
  | some row => simp [Option.join_eq_some_iff]

/-- The state that a string of symbols leads to from the start. -/
def walk? (c : Collection) (word : List Nat) : Option Nat := word.foldlM c.goto? 0

@[simp]
theorem walk?_nil : c.walk? [] = some 0 := rfl

@[simp]
theorem walk?_concat (word : List Nat) (symbol : Nat) :
    c.walk? (word ++ [symbol]) = (c.walk? word).bind (c.goto? · symbol) := by
  simp [walk?, List.foldlM_append]

end Collection

namespace Cfg

theorem consistent_collection (g : Cfg) : g.collection.Consistent g :=
  g.consistent_collectionSeed.collect _

theorem length_gotos_collection (g : Cfg) :
    g.collection.gotos.length = g.collection.states.size :=
  g.consistent_collectionSeed.length_gotos_collect (Nat.le_add_right _ _)

theorem size_collection_pos (g : Cfg) : 0 < g.collection.states.size := by
  obtain ⟨state, hstate, -⟩ := g.consistent_collection.start
  exact Numbering.lt_size_of_get? hstate

/-- The start state holds the start item and all that it awaits. -/
theorem mem_state_zero {item : Item} :
    item ∈ g.collection.state 0 ↔ Leads g.awaited ⟨0, 0⟩ item := by
  obtain ⟨state, hstate, hmem⟩ := g.consistent_collection.start
  rw [Collection.state_eq_of_get? hstate, hmem, mem_closure]
  simp

/-- A transition leads to the closed successors of a state. -/
theorem mem_state_of_goto? {q symbol target : Nat}
    (h : g.collection.goto? q symbol = some target) {item : Item} :
    item ∈ g.collection.state target ↔
      ∃ k ∈ g.moved (g.collection.state q) symbol, Leads g.awaited k item := by
  obtain ⟨row, hrow, htarget⟩ := Collection.goto?_eq_some_iff.1 h
  obtain ⟨-, state, hstate, haims⟩ := g.consistent_collection.rows q row hrow
  obtain ⟨-, items, hget, hmem⟩ := haims symbol (some target) htarget
  rw [Collection.state_eq_of_get? hget, Collection.state_eq_of_get? hstate, hmem, mem_closure]

theorem goto?_lt {q symbol target : Nat} (h : g.collection.goto? q symbol = some target) :
    q < g.collection.states.size ∧ symbol < g.symbolCount ∧
      target < g.collection.states.size := by
  obtain ⟨row, hrow, htarget⟩ := Collection.goto?_eq_some_iff.1 h
  obtain ⟨hlen, state, hstate, haims⟩ := g.consistent_collection.rows q row hrow
  obtain ⟨-, items, hget, -⟩ := haims symbol (some target) htarget
  exact ⟨Numbering.lt_size_of_get? hstate, hlen ▸ (List.getElem?_eq_some_iff.1 htarget).1,
    Numbering.lt_size_of_get? hget⟩

/-- There is a transition over every symbol that stands after a dot. -/
theorem exists_goto? {q symbol : Nat} {item : Item} (hitem : item ∈ g.collection.state q)
    (hnext : g.nextSymbol? item = some symbol) :
    ∃ target, g.collection.goto? q symbol = some target := by
  have hq := Collection.lt_size_of_mem_state hitem
  rw [← g.length_gotos_collection] at hq
  have hrow : g.collection.gotos[q]? = some g.collection.gotos[q] := List.getElem?_eq_getElem hq
  obtain ⟨hlen, state, hstate, haims⟩ := g.consistent_collection.rows q _ hrow
  have hsymbol : symbol < g.collection.gotos[q].length := hlen ▸ lt_symbolCount_of_nextSymbol? hnext
  have htarget := haims symbol _ (List.getElem?_eq_getElem hsymbol)
  cases hcell : g.collection.gotos[q][symbol] with
  | none =>
    rw [hcell] at htarget
    have hmoved : item.advance ∈ g.moved state symbol := by
      rw [← Collection.state_eq_of_get? hstate]
      exact mem_moved.2 ⟨item, hitem, hnext, rfl⟩
    rw [show g.moved state symbol = [] from htarget] at hmoved
    exact absurd hmoved List.not_mem_nil
  | some target =>
    refine ⟨target, Collection.goto?_eq_some_iff.2 ⟨_, hrow, ?_⟩⟩
    rw [List.getElem?_eq_getElem hsymbol, hcell]

/-- A transition moves some dot. -/
theorem exists_next_of_goto? {q symbol target : Nat}
    (h : g.collection.goto? q symbol = some target) :
    ∃ item ∈ g.collection.state q, g.nextSymbol? item = some symbol := by
  obtain ⟨row, hrow, htarget⟩ := Collection.goto?_eq_some_iff.1 h
  obtain ⟨-, state, hstate, haims⟩ := g.consistent_collection.rows q row hrow
  obtain ⟨hne, -⟩ := haims symbol (some target) htarget
  obtain ⟨k, hk⟩ := List.exists_mem_of_ne_nil _ hne
  obtain ⟨item, hitem, hnext, -⟩ := mem_moved.1 hk
  exact ⟨item, by rw [Collection.state_eq_of_get? hstate]; exact hitem, hnext⟩

theorem advance_mem_state {q symbol target : Nat}
    (h : g.collection.goto? q symbol = some target) {item : Item}
    (hitem : item ∈ g.collection.state q) (hnext : g.nextSymbol? item = some symbol) :
    item.advance ∈ g.collection.state target :=
  (mem_state_of_goto? h).2 ⟨item.advance, mem_moved.2 ⟨item, hitem, hnext, rfl⟩, .refl⟩

/-- Every state is reached along some string of symbols. -/
theorem exists_walk? {q : Nat} (h : q < g.collection.states.size) :
    ∃ word, g.collection.walk? word = some q := by
  induction q using Nat.strong_induction_on with
  | _ q ih =>
    by_cases hq : q = 0
    · exact ⟨[], by rw [hq, Collection.walk?_nil]⟩
    · obtain ⟨p, hp, row, symbol, hrow, htarget⟩ :=
        g.consistent_collection.reached q (Nat.pos_of_ne_zero hq) h
      obtain ⟨word, hword⟩ := ih p hp (Nat.lt_trans hp h)
      refine ⟨word ++ [symbol], ?_⟩
      rw [Collection.walk?_concat, hword, Option.bind_some]
      exact Collection.goto?_eq_some_iff.2 ⟨row, hrow, htarget⟩

/-- A state other than the start state is entered by a transition. -/
theorem exists_goto?_to {q : Nat} (h : q < g.collection.states.size) (hq : q ≠ 0) :
    ∃ p symbol, g.collection.goto? p symbol = some q := by
  obtain ⟨p, -, row, symbol, hrow, htarget⟩ :=
    g.consistent_collection.reached q (Nat.pos_of_ne_zero hq) h
  exact ⟨p, symbol, Collection.goto?_eq_some_iff.2 ⟨row, hrow, htarget⟩⟩

/-! ## Where the items of a state come from -/

theorem position_eq_zero_of_mem_awaited {item next : Item} (h : next ∈ g.awaited item) :
    next.position = 0 := by
  obtain ⟨symbol, -, hbegin⟩ := mem_awaited.1 h
  exact (mem_beginningsOf.1 hbegin).1

/-- What is led to is where it started or is awaited by something that is led to. -/
theorem eq_or_awaited_of_leads {k item : Item} (h : Leads g.awaited k item) :
    item = k ∨ ∃ i, Leads g.awaited k i ∧ item ∈ g.awaited i := by
  rcases Relation.ReflTransGen.cases_tail h with rfl | ⟨i, hi, hitem⟩
  · exact Or.inl rfl
  · exact Or.inr ⟨i, hi, hitem⟩

/-- An item of a state is awaited by another one, unless it is the start item or its dot has
moved. -/
theorem mem_or_awaited {q : Nat} {item : Item} (h : item ∈ g.collection.state q) :
    (q = 0 ∧ item = ⟨0, 0⟩) ∨ 0 < item.position ∨
      ∃ i ∈ g.collection.state q, item ∈ g.awaited i := by
  by_cases hq : q = 0
  · subst hq
    rcases eq_or_awaited_of_leads (mem_state_zero.1 h) with rfl | ⟨i, hi, hitem⟩
    · exact Or.inl ⟨rfl, rfl⟩
    · exact Or.inr (Or.inr ⟨i, mem_state_zero.2 hi, hitem⟩)
  · obtain ⟨p, symbol, hgoto⟩ := exists_goto?_to (Collection.lt_size_of_mem_state h) hq
    obtain ⟨k, hk, hleads⟩ := (mem_state_of_goto? hgoto).1 h
    rcases eq_or_awaited_of_leads hleads with rfl | ⟨i, hi, hitem⟩
    · obtain ⟨i, -, -, rfl⟩ := mem_moved.1 hk
      exact Or.inr (Or.inl (Nat.succ_pos _))
    · exact Or.inr (Or.inr ⟨i, (mem_state_of_goto? hgoto).2 ⟨k, hk, hi⟩, hitem⟩)

theorem mem_state_of_awaited {q : Nat} {item next : Item} (h : item ∈ g.collection.state q)
    (hnext : next ∈ g.awaited item) : next ∈ g.collection.state q := by
  by_cases hq : q = 0
  · subst hq
    exact mem_state_zero.2 ((mem_state_zero.1 h).tail hnext)
  · obtain ⟨p, symbol, hgoto⟩ := exists_goto?_to (Collection.lt_size_of_mem_state h) hq
    obtain ⟨k, hk, hleads⟩ := (mem_state_of_goto? hgoto).1 h
    exact (mem_state_of_goto? hgoto).2 ⟨k, hk, hleads.tail hnext⟩

/-- A moved dot comes from the state before. -/
theorem exists_mem_of_advanced {q symbol target : Nat}
    (h : g.collection.goto? q symbol = some target) {item : Item}
    (hitem : item ∈ g.collection.state target) (hpos : 0 < item.position) :
    ∃ i ∈ g.collection.state q, g.nextSymbol? i = some symbol ∧ item = i.advance := by
  obtain ⟨k, hk, hleads⟩ := (mem_state_of_goto? h).1 hitem
  rcases eq_or_awaited_of_leads hleads with rfl | ⟨i, -, hawaited⟩
  · exact mem_moved.1 hk
  · have := position_eq_zero_of_mem_awaited hawaited
    omega

/-- States are arranged by the numbers of their items. -/
theorem state_sublist (g : Cfg) (q : Nat) :
    (g.collection.state q).Sublist g.collection.items.entries := by
  by_cases hq : q < g.collection.states.size
  · obtain ⟨state, hstate⟩ := Numbering.exists_get?_of_lt hq
    rw [Collection.state_eq_of_get? hstate]
    exact g.consistent_collection.numbered.arranged state (List.mem_of_getElem? hstate)
  · rw [Collection.state_eq_nil_of_le (Nat.not_lt.1 hq)]
    exact List.nil_sublist _

theorem state_subset_allItems {q : Nat} {item : Item} (h : item ∈ g.collection.state q) :
    item ∈ g.allItems :=
  g.consistent_collection.numbered.items item ((g.state_sublist q).subset h)

/-- No dot has moved in the start state, so no transition leads there. -/
theorem goto?_ne_zero {q symbol : Nat} : g.collection.goto? q symbol ≠ some 0 := by
  intro h
  obtain ⟨item, hitem, hnext⟩ := exists_next_of_goto? h
  have hmem := advance_mem_state h hitem hnext
  rcases eq_or_awaited_of_leads (mem_state_zero.1 hmem) with heq | ⟨i, -, hawaited⟩
  · exact absurd (congrArg Item.position heq) (Nat.succ_ne_zero _)
  · exact absurd (position_eq_zero_of_mem_awaited hawaited) (Nat.succ_ne_zero _)

end Cfg

end ShiftReduce
