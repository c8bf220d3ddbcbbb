import ShiftReduce.Automaton
import ShiftReduce.Proofs.Lookaheads.Settled

/-!
# The lookahead sets are the merged canonical sets

The canonical LR(1) set of a string of symbols holds the items that are valid for it, each with the
lookaheads under which it is.  Strings that lead to the same state have sets with the same items,
and the lookahead set of the state is what all of them hold together.

One half holds of every grammar: no valid item is missing.  The other half holds when every
nonterminal derives a string of terminals; it is enough that it vanishes or begins with a terminal.
Without that, the placeholder of the first phase can stand for a lookahead that no string makes
valid, and what follows from it is there all the same.

* `Cfg.ValidItem`: the items that are valid for a string;
* `Cfg.ValidItem.derives`: a string with a valid item goes on to something derived;
* `Cfg.exists_mem_lookaheads_of_validItem`: no valid item is missing;
* `Cfg.Anchored.exists_validItem_of_mem_lookaheads`: no other item is there;
* `Cfg.HasCore`, `Cfg.Productive.walk?_eq_some_iff_hasCore`: the strings of a state by the items of
  their canonical sets;
* `Grammar.lookaheads_merge_canonical`: all of this about the automaton of a grammar.
-/

namespace ShiftReduce

namespace Cfg

variable {g : Cfg}

/-! ## Valid items -/

/-- The item with lookahead is valid for a string of symbols. -/
inductive ValidItem (g : Cfg) : List Nat → LookaheadItem → Prop
  /-- The start item before the end of the input is valid for the empty string. -/
  | start : ValidItem g [] ⟨⟨0, 0⟩, none⟩
  /-- The dot moves over a symbol, which joins the string. -/
  | move {word : List Nat} {x : LookaheadItem} {symbol : Nat} (h : ValidItem g word x)
    (hnext : g.nextSymbol? x.item = some symbol) :
    ValidItem g (word ++ [symbol]) ⟨x.item.advance, x.lookahead⟩
  /-- The symbol after the dot is expanded, under whatever can follow it. -/
  | expand {word : List Nat} {x : LookaheadItem} {production : Nat} {rule : Rule}
    {la : Lookahead} (h : ValidItem g word x) (hrule : g.rules[production]? = some rule)
    (hnext : g.nextSymbol? x.item = some rule.left)
    (hla : (∃ t, g.Begins (g.afterNext x.item) t ∧ la = some t) ∨
      (g.Vanishes (g.afterNext x.item) ∧ la = x.lookahead)) :
    ValidItem g word ⟨⟨production, 0⟩, la⟩

/-- What a valid item awaits is valid for the same string. -/
theorem ValidItem.awaited {word : List Nat} {x y : LookaheadItem} (h : g.ValidItem word x)
    (hy : y ∈ g.awaitedWith g.firstSets x) : g.ValidItem word y := by
  obtain ⟨symbol, hnext, hbegin, hla⟩ := mem_awaitedWith_firstSets.1 hy
  obtain ⟨hzero, rule, hrule, rfl⟩ := mem_beginningsOf.1 hbegin
  have hvalid := h.expand hrule hnext hla
  rw [← hzero] at hvalid
  exact hvalid

/-- A string for which an item is valid goes on, by what the item still awaits and then something
else, to a string that the start symbol derives. -/
theorem ValidItem.derives {word : List Nat} {x : LookaheadItem} (h : g.ValidItem word x) :
    ∃ after : List Nat, (∀ s ∈ after, s < g.symbolCount) ∧
      g.Derives [0] (word ++ (g.ahead x.item ++ after)) := by
  induction h with
  | start =>
    obtain ⟨rule, hrule, hleft⟩ := g.rule_zero
    refine ⟨[], by simp, ?_⟩
    have hderives := Derives.rule (List.mem_of_getElem? hrule)
    rw [hleft] at hderives
    simpa [ahead_eq hrule] using hderives
  | @move word x symbol _ hnext ih =>
    obtain ⟨after, hafter, hderives⟩ := ih
    refine ⟨after, hafter, ?_⟩
    rw [ahead_eq_cons hnext] at hderives
    simpa using hderives
  | @expand word x production rule la _ hrule hnext _ ih =>
    obtain ⟨after, hafter, hderives⟩ := ih
    refine ⟨g.afterNext x.item ++ after, ?_, ?_⟩
    · intro s hs
      rcases List.mem_append.1 hs with hs | hs
      · exact afterNext_lt hs
      · exact hafter s hs
    · rw [ahead_eq_cons hnext] at hderives
      have hstep := (Derives.rule (List.mem_of_getElem? hrule)).context word
        (g.afterNext x.item ++ after)
      rw [ahead_eq hrule, List.drop_zero]
      exact hderives.trans hstep

/-- What a valid item still awaits occurs in something derived. -/
theorem ValidItem.occurs {word : List Nat} {x : LookaheadItem} (h : g.ValidItem word x) {s : Nat}
    (hs : s ∈ g.ahead x.item) : g.Occurs s := by
  obtain ⟨after, -, hderives⟩ := h.derives
  obtain ⟨u, v, huv⟩ := List.append_of_mem hs
  rw [huv] at hderives
  exact ⟨word ++ u, v ++ after, by simpa using hderives⟩

/-! ## No valid item is missing -/

/-- A string with a valid item leads to a state, and the item belongs to the state's set. -/
theorem exists_mem_lookaheads_of_validItem {word : List Nat} {x : LookaheadItem}
    (h : g.ValidItem word x) :
    ∃ q, g.collection.walk? word = some q ∧ x ∈ g.lookaheads.state q := by
  induction h with
  | start => exact ⟨0, Collection.walk?_nil, g.start_mem_lookaheads⟩
  | @move word x symbol _ hnext ih =>
    obtain ⟨q, hwalk, hx⟩ := ih
    obtain ⟨target, hgoto⟩ := exists_goto? (proper_of_mem hx).1 hnext
    refine ⟨target, ?_, advance_mem_lookaheads hx hnext hgoto⟩
    rw [Collection.walk?_concat, hwalk, Option.bind_some, hgoto]
  | @expand word x production rule la _ hrule hnext hla ih =>
    obtain ⟨q, hwalk, hx⟩ := ih
    refine ⟨q, hwalk, mem_lookaheads_of_awaitedWith hx (mem_awaitedWith_firstSets.2 ?_)⟩
    exact ⟨rule.left, hnext, mem_beginningsOf.2 ⟨rfl, rule, hrule, rfl⟩, hla⟩

theorem ValidItem.mem_lookaheads {word : List Nat} {x : LookaheadItem} {q : Nat}
    (h : g.ValidItem word x) (hwalk : g.collection.walk? word = some q) :
    x ∈ g.lookaheads.state q := by
  obtain ⟨q', hwalk', hx⟩ := exists_mem_lookaheads_of_validItem h
  rw [hwalk] at hwalk'
  cases hwalk'
  exact hx

theorem ValidItem.mem_state {word : List Nat} {x : LookaheadItem} {q : Nat}
    (h : g.ValidItem word x) (hwalk : g.collection.walk? word = some q) :
    x.item ∈ g.collection.state q :=
  (proper_of_mem (h.mem_lookaheads hwalk)).1

/-! ## No other item is there -/

/-- Along any way through a closed state, validity under some lookahead is kept. -/
theorem Anchored.exists_validItem_of_leads (hanchored : g.Anchored) {word : List Nat}
    {item next : Item} (hleads : Leads g.awaited item next)
    (h : ∃ la, g.ValidItem word ⟨item, la⟩) : ∃ la, g.ValidItem word ⟨next, la⟩ := by
  refine hleads.induct (P := fun i => ∃ la, g.ValidItem word ⟨i, la⟩) h ?_
  intro i j hi hj
  obtain ⟨la, hvalid⟩ := hi
  obtain ⟨symbol, hnext, hbegin⟩ := mem_awaited.1 hj
  have hafter : ∀ s ∈ g.afterNext i, s < g.symbolCount ∧ g.Occurs s := fun s hs =>
    ⟨afterNext_lt hs, hvalid.occurs (ahead_eq_cons hnext ▸ List.mem_cons_of_mem _ hs)⟩
  rcases hanchored.vanishes_or_begins hafter with hvanish | ⟨t, ht⟩
  · exact ⟨la, hvalid.awaited
      (mem_awaitedWith_firstSets.2 ⟨symbol, hnext, hbegin, Or.inr ⟨hvanish, rfl⟩⟩)⟩
  · exact ⟨some t, hvalid.awaited
      (mem_awaitedWith_firstSets.2 ⟨symbol, hnext, hbegin, Or.inl ⟨t, ht, rfl⟩⟩)⟩

/-- Every item of a state is valid for every string that leads there. -/
theorem Anchored.exists_validItem_of_mem_state (hanchored : g.Anchored) {word : List Nat} {q : Nat}
    (hwalk : g.collection.walk? word = some q) {item : Item}
    (hitem : item ∈ g.collection.state q) : ∃ la, g.ValidItem word ⟨item, la⟩ := by
  induction word using List.reverseRecOn generalizing q item with
  | nil =>
    cases hwalk
    exact hanchored.exists_validItem_of_leads (mem_state_zero.1 hitem) ⟨none, .start⟩
  | append_singleton word symbol ih =>
    rw [Collection.walk?_concat, Option.bind_eq_some_iff] at hwalk
    obtain ⟨p, hwalk, hgoto⟩ := hwalk
    obtain ⟨k, hk, hleads⟩ := (mem_state_of_goto? hgoto).1 hitem
    obtain ⟨i, hi, hnext, rfl⟩ := mem_moved.1 hk
    obtain ⟨la, hvalid⟩ := ih hwalk hi
    exact hanchored.exists_validItem_of_leads hleads ⟨la, hvalid.move hnext⟩

theorem eq_nil_of_walk?_eq_zero {word : List Nat} (h : g.collection.walk? word = some 0) :
    word = [] := by
  induction word using List.reverseRecOn with
  | nil => rfl
  | append_singleton word symbol _ =>
    rw [Collection.walk?_concat, Option.bind_eq_some_iff] at h
    obtain ⟨p, -, hgoto⟩ := h
    exact absurd hgoto goto?_ne_zero

/-- The only kernel item of the start state is the start item. -/
theorem eq_start_of_mem_kernel_zero {k : Item} (h : k ∈ g.collection.kernel 0) : k = ⟨0, 0⟩ := by
  obtain ⟨hmem, hkernel⟩ := List.mem_filter.1 h
  rcases eq_or_awaited_of_leads (mem_state_zero.1 hmem) with rfl | ⟨i, -, hawaited⟩
  · rfl
  · have hzero : k.position = 0 := position_eq_zero_of_mem_awaited hawaited
    have hproduction : k.production = 0 := by simpa [Collection.isKernel, hzero] using hkernel
    obtain ⟨production, position⟩ := k
    cases hzero
    cases hproduction
    rfl

/-- The lookahead under which a kernel item is valid takes the place of the placeholder; in the
start state the placeholder is meant literally. -/
theorem Anchored.exists_validItem_of_comes (hanchored : g.Anchored) {q : Nat} {x : LookaheadItem}
    (h : g.Comes q x) {word : List Nat} (hwalk : g.collection.walk? word = some q) :
    ∃ la, (q = 0 → la = none) ∧ g.ValidItem word ⟨x.item, x.lookahead.or la⟩ := by
  refine h.induct
    (P := fun x => ∃ la, (q = 0 → la = none) ∧ g.ValidItem word ⟨x.item, x.lookahead.or la⟩)
    ?_ ?_
  · intro k hk
    by_cases hq : q = 0
    · subst hq
      cases eq_nil_of_walk?_eq_zero hwalk
      cases eq_start_of_mem_kernel_zero hk
      exact ⟨none, fun _ => rfl, .start⟩
    · obtain ⟨la, hvalid⟩ :=
        hanchored.exists_validItem_of_mem_state hwalk (List.mem_filter.1 hk).1
      exact ⟨la, fun h => absurd h hq, hvalid⟩
  · intro y z hy hz
    obtain ⟨la, hzero, hvalid⟩ := hy
    obtain ⟨symbol, hnext, hbegin, hla⟩ := mem_awaitedWith_firstSets.1 hz
    refine ⟨la, hzero, hvalid.awaited
      (mem_awaitedWith_firstSets.2 ⟨symbol, hnext, hbegin, ?_⟩)⟩
    rcases hla with ⟨t, ht, hla⟩ | ⟨hvanish, hla⟩
    · exact Or.inl ⟨t, ht, by rw [hla, Option.some_or]⟩
    · exact Or.inr ⟨hvanish, by rw [hla]⟩

theorem Anchored.validItem_of_comes (hanchored : g.Anchored) {q : Nat} {x : LookaheadItem}
    (h : g.Comes q x) (hx : x.lookahead ≠ none ∨ q = 0) {word : List Nat}
    (hwalk : g.collection.walk? word = some q) : g.ValidItem word x := by
  obtain ⟨la, hzero, hvalid⟩ := hanchored.exists_validItem_of_comes h hwalk
  have hor : x.lookahead.or la = x.lookahead := by
    cases hlook : x.lookahead with
    | some t => exact Option.some_or
    | none =>
      rcases hx with hne | hq
      · exact absurd hlook hne
      · exact hzero hq
  rw [hor] at hvalid
  exact hvalid

/-- Every item of a set is valid for some string that leads to its state. -/
theorem Anchored.exists_validItem_of_mem_lookaheads (hanchored : g.Anchored) {q : Nat}
    {x : LookaheadItem} (h : x ∈ g.lookaheads.state q) :
    ∃ word, g.collection.walk? word = some q ∧ g.ValidItem word x := by
  have hmove : ∀ {q symbol target : Nat} {x : LookaheadItem},
      (∃ word, g.collection.walk? word = some q ∧ g.ValidItem word x) →
      g.nextSymbol? x.item = some symbol → g.collection.goto? q symbol = some target →
      ∃ word, g.collection.walk? word = some target ∧
        g.ValidItem word ⟨x.item.advance, x.lookahead⟩ := by
    rintro q symbol target x ⟨word, hwalk, hvalid⟩ hnext hgoto
    refine ⟨word ++ [symbol], ?_, hvalid.move hnext⟩
    rw [Collection.walk?_concat, hwalk, Option.bind_some, hgoto]
  refine @lookaheads_induct g
    (fun q x => ∃ word, g.collection.walk? word = some q ∧ g.ValidItem word x) ?_ q x h
  constructor
  · intro q x hcomes q' y hputs
    obtain ⟨word, hwalk⟩ := exists_walk? hcomes.lt
    rcases hputs with ⟨rfl, rfl, hor⟩ | ⟨hne, rfl, hgoto⟩
    · exact ⟨word, hwalk, hanchored.validItem_of_comes hcomes hor hwalk⟩
    · obtain ⟨symbol, hnext, hgoto⟩ := bind_goto?_eq_some_iff.1 hgoto
      exact hmove ⟨word, hwalk, hanchored.validItem_of_comes hcomes (Or.inl hne) hwalk⟩ hnext hgoto
  · rintro q x ⟨word, hwalk, hvalid⟩ y hy
    exact ⟨word, hwalk, hvalid.awaited hy⟩
  · intro q x hx _ symbol target hnext hgoto
    exact hmove hx hnext hgoto

/-- In particular this is so when every nonterminal derives a string of terminals. -/
theorem Productive.exists_validItem_of_mem_state (hprod : g.Productive) {word : List Nat} {q : Nat}
    (hwalk : g.collection.walk? word = some q) {item : Item}
    (hitem : item ∈ g.collection.state q) : ∃ la, g.ValidItem word ⟨item, la⟩ :=
  hprod.anchored.exists_validItem_of_mem_state hwalk hitem

theorem Productive.exists_validItem_of_mem_lookaheads (hprod : g.Productive) {q : Nat}
    {x : LookaheadItem} (h : x ∈ g.lookaheads.state q) :
    ∃ word, g.collection.walk? word = some q ∧ g.ValidItem word x :=
  hprod.anchored.exists_validItem_of_mem_lookaheads h

/-! ## Strings by their cores -/

/-- The items that are valid for a string, under whatever lookaheads, are the given ones. -/
def HasCore (g : Cfg) (word : List Nat) (items : List Item) : Prop :=
  ∀ item, item ∈ items ↔ ∃ la, g.ValidItem word ⟨item, la⟩

theorem exists_mem_state_of_walk? {word : List Nat} {q : Nat}
    (hwalk : g.collection.walk? word = some q) : ∃ item, item ∈ g.collection.state q := by
  cases word using List.reverseRecOn with
  | nil =>
    cases hwalk
    exact ⟨⟨0, 0⟩, mem_state_zero.2 .refl⟩
  | append_singleton word symbol =>
    rw [Collection.walk?_concat, Option.bind_eq_some_iff] at hwalk
    obtain ⟨p, -, hgoto⟩ := hwalk
    obtain ⟨item, hitem, hnext⟩ := exists_next_of_goto? hgoto
    exact ⟨item.advance, advance_mem_state hgoto hitem hnext⟩

/-- A canonical set has the items of the state that its string leads to. -/
theorem Productive.hasCore_of_walk? (hprod : g.Productive) {word : List Nat} {q : Nat}
    (hwalk : g.collection.walk? word = some q) : g.HasCore word (g.collection.state q) :=
  fun _ => ⟨hprod.exists_validItem_of_mem_state hwalk, fun ⟨_, hvalid⟩ => hvalid.mem_state hwalk⟩

/-- States with the same items are the same. -/
theorem eq_of_state_eq {p q : Nat} (hp : p < g.collection.states.size)
    (hq : q < g.collection.states.size)
    (h : ∀ item, item ∈ g.collection.state p ↔ item ∈ g.collection.state q) : p = q := by
  obtain ⟨a, ha⟩ := Numbering.exists_get?_of_lt hp
  obtain ⟨b, hb⟩ := Numbering.exists_get?_of_lt hq
  rw [Collection.state_eq_of_get? ha, Collection.state_eq_of_get? hb] at h
  have hnumbered := g.consistent_collection.numbered
  have hasub := hnumbered.arranged a (List.mem_of_getElem? ha)
  have hbsub := hnumbered.arranged b (List.mem_of_getElem? hb)
  have hnodup := g.collection.items.nodup
  have hab : a = b := by
    rw [← hnodup.perm_iff_eq_of_sublist hasub hbsub]
    exact (List.perm_ext_iff_of_nodup (hasub.nodup hnodup) (hbsub.nodup hnodup)).2 h
  rw [← hab] at hb
  exact Numbering.get?_inj ha hb

/-- The strings with an item valid that have the items of a state as their core are those that lead
to it. -/
theorem Productive.walk?_eq_some_iff_hasCore (hprod : g.Productive) {word : List Nat} {q : Nat} :
    g.collection.walk? word = some q ↔
      g.HasCore word (g.collection.state q) ∧ ∃ x, g.ValidItem word x := by
  constructor
  · intro hwalk
    have hcore := hprod.hasCore_of_walk? hwalk
    obtain ⟨item, hitem⟩ := exists_mem_state_of_walk? hwalk
    obtain ⟨la, hvalid⟩ := (hcore item).1 hitem
    exact ⟨hcore, _, hvalid⟩
  · rintro ⟨hcore, x, hvalid⟩
    obtain ⟨p, hwalk, -⟩ := exists_mem_lookaheads_of_validItem hvalid
    have hcore' := hprod.hasCore_of_walk? hwalk
    have hx : x.item ∈ g.collection.state q := (hcore x.item).2 ⟨x.lookahead, hvalid⟩
    have hpq : p = q := eq_of_state_eq
      (Collection.lt_size_of_mem_state (hvalid.mem_state hwalk))
      (Collection.lt_size_of_mem_state hx) fun item => (hcore' item).trans (hcore item).symm
    rw [← hpq]
    exact hwalk

end Cfg

/-- The lookahead set of a state of the automaton holds every item that is valid for a string of
symbols leading to the state.  If every nonterminal derives a string of terminals it holds nothing
else: it is the union of the canonical sets of the strings that lead to the state, and these are the
canonical sets that have the items of the state as their core. -/
theorem Grammar.lookaheads_merge_canonical {α : Type} (g : Grammar α) (q : Nat) :
    (∀ word x, g.automaton.collection.walk? word = some q → g.cfg.ValidItem word x →
      x ∈ g.automaton.lookaheads.state q) ∧
    (g.cfg.Productive →
      (∀ x, x ∈ g.automaton.lookaheads.state q ↔
        ∃ word, g.automaton.collection.walk? word = some q ∧ g.cfg.ValidItem word x) ∧
      (∀ x, x ∈ g.automaton.lookaheads.state q ↔
        ∃ word, g.cfg.HasCore word (g.automaton.collection.state q) ∧ g.cfg.ValidItem word x)) := by
  rw [g.collection_automaton, g.lookaheads_automaton]
  refine ⟨fun word x hwalk hvalid => hvalid.mem_lookaheads hwalk, ?_⟩
  intro hprod
  have hmem : ∀ x, x ∈ g.cfg.lookaheads.state q ↔
      ∃ word, g.cfg.collection.walk? word = some q ∧ g.cfg.ValidItem word x := fun x =>
    ⟨hprod.exists_validItem_of_mem_lookaheads, fun ⟨_, hwalk, hvalid⟩ =>
      hvalid.mem_lookaheads hwalk⟩
  refine ⟨hmem, ?_⟩
  intro x
  rw [hmem]
  constructor
  · rintro ⟨word, hwalk, hvalid⟩
    exact ⟨word, hprod.hasCore_of_walk? hwalk, hvalid⟩
  · rintro ⟨word, hcore, hvalid⟩
    exact ⟨word, hprod.walk?_eq_some_iff_hasCore.2 ⟨hcore, x, hvalid⟩, hvalid⟩

/-- After an item the vanishing rule is valid before the end of the input. -/
theorem Grammar.lookaheads_merge_canonical_anyNumber :
    anyNumber.cfg.Productive ∧
      ∃ word, anyNumber.automaton.collection.walk? word = some 2 ∧
        anyNumber.cfg.ValidItem word ⟨⟨2, 0⟩, none⟩ :=
  ⟨Cfg.productive_anyNumber,
    (((lookaheads_merge_canonical anyNumber 2).2 Cfg.productive_anyNumber).1 _).1
      (by decide +kernel)⟩

end ShiftReduce
