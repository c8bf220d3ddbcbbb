import Mathlib.Order.Bounds.Defs
import ShiftReduce.Proofs.Lookaheads.Canonical
import ShiftReduce.Proofs.Table

/-!
# The collection is the subset construction

Dotted rules are the states of a nondeterministic automaton: a dot moves over a symbol, and in front
of a nonterminal the automaton may turn to the beginning of any of its rules.  The items that it can
be in after a string are the valid items of the string.  The states of the collection are the sets
of valid items, one for each such set that is not empty, and following transitions along a string
leads to the set of the string.

Unlike the valid items of the canonical sets these carry no lookaheads, and nothing is asked of the
grammar.

* `Cfg.Valid`: the items that are valid for a string;
* `Cfg.walk?_ne_none_iff_valid`, `Cfg.mem_state_iff_valid`: transitions and states by valid items;
* `Cfg.closeState_kernel`: closing the kernel of a state gives the state back;
* `Cfg.IsSubsetConstruction`: all of this together, as `Grammar.isSubsetConstruction_automaton` has
  it, and with it the ranks of transitions.
-/

namespace ShiftReduce

namespace Cfg

variable {g : Cfg}

/-! ## Valid items -/

/-- The item is valid for a string of symbols. -/
inductive Valid (g : Cfg) : List Nat → Item → Prop
  /-- The start item is valid for the empty string. -/
  | start : Valid g [] ⟨0, 0⟩
  /-- The dot moves over a symbol, which joins the string. -/
  | move {word : List Nat} {item : Item} {symbol : Nat} (h : Valid g word item)
    (hnext : g.nextSymbol? item = some symbol) : Valid g (word ++ [symbol]) item.advance
  /-- The nonterminal after the dot is expanded. -/
  | expand {word : List Nat} {item : Item} {production : Nat} {rule : Rule} (h : Valid g word item)
    (hrule : g.rules[production]? = some rule) (hnext : g.nextSymbol? item = some rule.left) :
    Valid g word ⟨production, 0⟩

theorem Valid.awaited {word : List Nat} {item next : Item} (h : g.Valid word item)
    (hnext : next ∈ g.awaited item) : g.Valid word next := by
  obtain ⟨symbol, hsymbol, hbegin⟩ := mem_awaited.1 hnext
  obtain ⟨hzero, rule, hrule, rfl⟩ := mem_beginningsOf.1 hbegin
  have hvalid := h.expand hrule hsymbol
  rw [← hzero] at hvalid
  exact hvalid

theorem Valid.leads {word : List Nat} {item next : Item} (h : g.Valid word item)
    (hleads : Leads g.awaited item next) : g.Valid word next :=
  hleads.induct h fun _ _ hi hj => hi.awaited hj

/-- A string with a valid item leads to a state that holds the item. -/
theorem Valid.exists_mem_state {word : List Nat} {item : Item} (h : g.Valid word item) :
    ∃ q, g.collection.walk? word = some q ∧ item ∈ g.collection.state q := by
  induction h with
  | start => exact ⟨0, Collection.walk?_nil, mem_state_zero.2 .refl⟩
  | @move word item symbol _ hnext ih =>
    obtain ⟨q, hwalk, hitem⟩ := ih
    obtain ⟨target, hgoto⟩ := exists_goto? hitem hnext
    refine ⟨target, ?_, advance_mem_state hgoto hitem hnext⟩
    rw [Collection.walk?_concat, hwalk, Option.bind_some, hgoto]
  | @expand word item production rule _ hrule hnext ih =>
    obtain ⟨q, hwalk, hitem⟩ := ih
    refine ⟨q, hwalk, mem_state_of_awaited hitem (mem_awaited.2 ⟨rule.left, hnext, ?_⟩)⟩
    exact mem_beginningsOf.2 ⟨rfl, rule, hrule, rfl⟩

/-- The items of a state are valid for every string that leads there. -/
theorem valid_of_mem_state {word : List Nat} {q : Nat} (hwalk : g.collection.walk? word = some q)
    {item : Item} (hitem : item ∈ g.collection.state q) : g.Valid word item := by
  induction word using List.reverseRecOn generalizing q item with
  | nil =>
    cases hwalk
    exact Valid.start.leads (mem_state_zero.1 hitem)
  | append_singleton word symbol ih =>
    rw [Collection.walk?_concat, Option.bind_eq_some_iff] at hwalk
    obtain ⟨p, hwalk, hgoto⟩ := hwalk
    obtain ⟨k, hk, hleads⟩ := (mem_state_of_goto? hgoto).1 hitem
    obtain ⟨i, hi, hnext, rfl⟩ := mem_moved.1 hk
    exact ((ih hwalk hi).move hnext).leads hleads

/-- A state holds the valid items of any string that leads there. -/
theorem mem_state_iff_valid {word : List Nat} {q : Nat} (hwalk : g.collection.walk? word = some q)
    {item : Item} : item ∈ g.collection.state q ↔ g.Valid word item := by
  constructor
  · exact valid_of_mem_state hwalk
  · intro h
    obtain ⟨q', hwalk', hitem⟩ := h.exists_mem_state
    rw [hwalk] at hwalk'
    cases hwalk'
    exact hitem

/-- The strings that lead somewhere are those with a valid item. -/
theorem walk?_ne_none_iff_valid {word : List Nat} :
    (∃ q, g.collection.walk? word = some q) ↔ ∃ item, g.Valid word item := by
  constructor
  · rintro ⟨q, hwalk⟩
    obtain ⟨item, hitem⟩ := exists_mem_state_of_walk? hwalk
    exact ⟨item, valid_of_mem_state hwalk hitem⟩
  · rintro ⟨item, hvalid⟩
    obtain ⟨q, hwalk, -⟩ := hvalid.exists_mem_state
    exact ⟨q, hwalk⟩

/-! ## States and their kernels -/

theorem nodup_state (g : Cfg) (q : Nat) : (g.collection.state q).Nodup :=
  (g.state_sublist q).nodup g.collection.items.nodup

/-- The items of a state follow from its kernel. -/
theorem mem_closure_kernel {q : Nat} {item : Item} :
    item ∈ g.closure (g.collection.kernel q) ↔ item ∈ g.collection.state q := by
  have hkernel : ∀ k ∈ g.collection.kernel q, k ∈ g.collection.state q := fun k hk =>
    (List.mem_filter.1 hk).1
  rw [mem_closure]
  constructor
  · rintro ⟨k, hk, hleads⟩
    exact hleads.induct (hkernel k hk) fun _ _ hi hj => mem_state_of_awaited hi hj
  · intro hitem
    by_cases hq : q = 0
    · subst hq
      refine ⟨⟨0, 0⟩, List.mem_filter.2 ⟨mem_state_zero.2 .refl, rfl⟩, mem_state_zero.1 hitem⟩
    · -- What a transition moved makes up the kernel.
      obtain ⟨p, symbol, hgoto⟩ := exists_goto?_to (Collection.lt_size_of_mem_state hitem) hq
      obtain ⟨k, hk, hleads⟩ := (mem_state_of_goto? hgoto).1 hitem
      refine ⟨k, List.mem_filter.2 ⟨(mem_state_of_goto? hgoto).2 ⟨k, hk, .refl⟩, ?_⟩, hleads⟩
      obtain ⟨i, -, -, rfl⟩ := mem_moved.1 hk
      simp [Collection.isKernel, Item.advance]

/-- Closing the kernel of a state numbers no item anew and gives the state back. -/
theorem closeState_kernel (g : Cfg) (q : Nat) :
    g.closeState g.collection.items (g.collection.kernel q) =
      (g.collection.items, g.collection.state q) := by
  have hsub : ∀ item ∈ g.closure (g.collection.kernel q), item ∈ g.collection.items.entries :=
    fun item hitem => (g.state_sublist q).subset (mem_closure_kernel.1 hitem)
  have hnodup := g.collection.items.nodup
  rw [closeState, Numbering.insertAll_eq_self hsub]
  refine congrArg (g.collection.items, ·) ?_
  rw [← hnodup.perm_iff_eq_of_sublist (Numbering.inOrder_sublist _ _) (g.state_sublist q),
    List.perm_ext_iff_of_nodup (Numbering.nodup_inOrder _ _) (g.nodup_state q)]
  intro item
  rw [Numbering.mem_inOrder, mem_closure_kernel]
  exact ⟨fun h => h.2, fun h => ⟨(g.state_sublist q).subset h, h⟩⟩

/-- All transitions into a state are over the same symbol. -/
theorem symbol_eq_of_goto? {p p' q symbol symbol' : Nat}
    (h : g.collection.goto? p symbol = some q) (h' : g.collection.goto? p' symbol' = some q) :
    symbol = symbol' := by
  obtain ⟨item, hitem, hnext⟩ := exists_next_of_goto? h
  obtain ⟨i, -, hnext', heq⟩ :=
    exists_mem_of_advanced h' (advance_mem_state h hitem hnext) (Nat.succ_pos _)
  obtain ⟨production, position⟩ := item
  obtain ⟨production', position'⟩ := i
  simp only [Item.advance, Item.mk.injEq, Nat.add_right_cancel_iff] at heq
  obtain ⟨rfl, rfl⟩ := heq
  rw [hnext] at hnext'
  exact Option.some.inj hnext'

/-! ## The construction as a whole -/

/-- The states and transitions of a collection are those of the subset construction. -/
structure IsSubsetConstruction (g : Cfg) (c : Collection) : Prop where
  /-- The strings that lead somewhere are those with a valid item. -/
  defined : ∀ word, (∃ q, c.walk? word = some q) ↔ ∃ item, g.Valid word item
  /-- The state reached holds exactly the valid items. -/
  exact : ∀ word q, c.walk? word = some q → ∀ item, item ∈ c.state q ↔ g.Valid word item
  /-- No state lists an item twice. -/
  nodup : ∀ q, (c.state q).Nodup
  /-- Different states hold different items. -/
  distinct : ∀ p q, p < c.states.size → q < c.states.size →
    (∀ item, item ∈ c.state p ↔ item ∈ c.state q) → p = q
  /-- Every state is reached from the start. -/
  reached : ∀ q, q < c.states.size → ∃ word, c.walk? word = some q
  /-- No transition leads to the start. -/
  start : ∀ q symbol, c.goto? q symbol ≠ some 0
  /-- All transitions into a state are over the same symbol. -/
  entered : ∀ p p' q symbol symbol', c.goto? p symbol = some q → c.goto? p' symbol' = some q →
    symbol = symbol'
  /-- Closing the kernel of a state gives the state back. -/
  closed : ∀ q, g.closeState c.items (c.kernel q) = (c.items, c.state q)

theorem isSubsetConstruction_collection (g : Cfg) : g.IsSubsetConstruction g.collection where
  defined _ := walk?_ne_none_iff_valid
  exact _ _ hwalk _ := mem_state_iff_valid hwalk
  nodup := g.nodup_state
  distinct _ _ hp hq h := eq_of_state_eq hp hq h
  reached _ hq := exists_walk? hq
  start _ _ := goto?_ne_zero
  entered _ _ _ _ _ h h' := symbol_eq_of_goto? h h'
  closed := g.closeState_kernel

end Cfg

namespace Grammar

variable {α : Type} {g : Grammar α}

/-! ## The ranks of transitions -/

/-- There are ranks where there are transitions. -/
theorem gotoRank?_isSome_iff {q symbol : Nat} :
    (g.gotoRank? (g.cfg.collection.state q) symbol).isSome ↔
      (g.cfg.collection.goto? q symbol).isSome := by
  constructor
  · intro h
    obtain ⟨rank, hrank⟩ := Option.isSome_iff_exists.1 h
    rw [gotoRank?, List.min?_eq_some_iff] at hrank
    obtain ⟨item, hitem, -⟩ := List.mem_map.1 hrank.1
    obtain ⟨hmem, hawaits⟩ := List.mem_filter.1 hitem
    obtain ⟨target, hgoto⟩ := Cfg.exists_goto? hmem (of_decide_eq_true hawaits)
    rw [hgoto]
    rfl
  · intro h
    obtain ⟨target, hgoto⟩ := Option.isSome_iff_exists.1 h
    exact Option.isSome_iff_ne_none.2 (gotoRank?_ne_none hgoto)

/-- The rank of a transition is the least rank of a production that takes part in it. -/
theorem gotoRank?_eq_some_iff {state : List Item} {symbol rank : Nat} :
    g.gotoRank? state symbol = some rank ↔
      IsLeast {r | ∃ item ∈ state, g.cfg.nextSymbol? item = some symbol ∧
        r = g.rank item.production} rank := by
  have hmem : ∀ r, r ∈ (state.filter (g.cfg.awaits symbol)).map (fun item => g.rank item.production)
      ↔ ∃ item ∈ state, g.cfg.nextSymbol? item = some symbol ∧ r = g.rank item.production := by
    intro r
    simp only [List.mem_map, List.mem_filter, Cfg.awaits, decide_eq_true_eq, and_assoc,
      eq_comm (a := r)]
  rw [gotoRank?, List.min?_eq_some_iff, hmem]
  refine and_congr_right fun _ => ?_
  simp only [hmem]
  exact ⟨fun h r hr => h r hr, fun h r hr => h hr⟩

/-- The collection of an automaton is the subset construction over the dotted rules, and a
transition has the least rank among the productions that take part in it. -/
theorem isSubsetConstruction_automaton (g : Grammar α) :
    g.cfg.IsSubsetConstruction g.automaton.collection ∧
      ∀ q symbol,
        ((g.gotoRank? (g.automaton.collection.state q) symbol).isSome ↔
          (g.automaton.collection.goto? q symbol).isSome) ∧
        ∀ rank, g.gotoRank? (g.automaton.collection.state q) symbol = some rank ↔
          IsLeast {r | ∃ item ∈ g.automaton.collection.state q,
            g.cfg.nextSymbol? item = some symbol ∧ r = g.rank item.production} rank := by
  rw [g.collection_automaton]
  exact ⟨g.cfg.isSubsetConstruction_collection, fun _ _ =>
    ⟨gotoRank?_isSome_iff, fun _ => gotoRank?_eq_some_iff⟩⟩

end Grammar

end ShiftReduce
