import ShiftReduce.Proofs.Parser.Heights
import ShiftReduce.Proofs.Parser.Vanishing

/-!
# Tables without competition come to an end

With empty rules a reduction can make the stack higher, so no measure of the stack alone goes down.
But every reduction has a reason: in the current set an item is complete under the lookahead, and
behind it there is an item whose dot has moved, or the start item, that the lookahead comes next
for.  If it begins what this item awaits, the reductions end in a shift.  Otherwise all that the
item awaits vanishes, and as no other action competes, the item gets reduced.  That takes the stack
down by as many states as the dot has moved over and puts up one.  Only a dot that has moved over a
single symbol leaves the height as it is, with the last symbol replaced.  This cannot come round to
the same symbol, because the stack settles wherever a symbol stands that was awaited before the
lookahead.

* `Cfg.Ready`, `Cfg.ValidItem.exists_moved`: why a complete item may be reduced;
* `Parser.settles_of_validItem`: where an item is ready, the stack of its string settles;
* `Cfg.Becomes`, `Parser.not_becomes_self`: symbols that are replaced on the stack;
* `Parser.Lowers`, `Parser.settles_of_path`: every stack settles;
* `Parser.every_run_ends`: so every run ends, if every nonterminal that occurs vanishes or begins
  with a terminal;
* `Parser.not_ends_circling`: without this a run can go on for ever.
-/

namespace ShiftReduce

namespace Cfg

variable {g : Cfg}

/-! ## Why an item is ready -/

/-- The lookahead is what comes next for the item: it begins what the item awaits, or this can
vanish and it is the lookahead of the item. -/
def Ready (g : Cfg) (la : Lookahead) (x : LookaheadItem) : Prop :=
  (∃ t, g.Begins (g.ahead x.item) t ∧ la = some t) ∨
    (g.Vanishes (g.ahead x.item) ∧ la = x.lookahead)

/-- The dot moves over several symbols, which join the string. -/
theorem ValidItem.moves {word : List Nat} {x : LookaheadItem} (h : g.ValidItem word x)
    {u v : List Nat} (hahead : g.ahead x.item = u ++ v) :
    g.ValidItem (word ++ u)
      ⟨⟨x.item.production, x.item.position + u.length⟩, x.lookahead⟩ := by
  induction u generalizing word x with
  | nil => simpa using h
  | cons symbol u ih =>
    obtain ⟨hnext, hafter⟩ := nextSymbol?_of_drop_eq_cons hahead
    have hmoved := ih (h.move hnext) hafter
    rw [List.append_assoc, List.singleton_append] at hmoved
    have hposition : x.item.position + (u.length + 1) = x.item.position + 1 + u.length := by omega
    rw [List.length_cons, hposition]
    exact hmoved

/-- A path over the string with these symbols leads to where the dot has moved over them. -/
theorem ValidItem.moves_mem_lookaheads {word : List Nat} {x : LookaheadItem}
    (h : g.ValidItem word x) {u v : List Nat} (hahead : g.ahead x.item = u ++ v)
    {states : List Nat} (hpath : g.Path states (word ++ u).reverse) :
    ⟨⟨x.item.production, x.item.position + u.length⟩, x.lookahead⟩ ∈
      g.lookaheads.state (states.headD 0) := by
  have hwalk := hpath.walk?_eq
  rw [List.reverse_reverse] at hwalk
  exact (h.moves hahead).mem_lookaheads hwalk

/-- Behind a valid item that is ready there is one for the same string that awaits what begins with
the lookahead, or one whose dot has moved or that is the start item, and that awaits only what
vanishes under the lookahead. -/
theorem ValidItem.exists_moved {word : List Nat} {x : LookaheadItem} {la : Lookahead}
    (h : g.ValidItem word x) (hready : g.Ready la x) :
    (∃ y t, g.ValidItem word y ∧ g.Begins (g.ahead y.item) t ∧ la = some t) ∨
      ∃ y, g.ValidItem word y ∧ g.Vanishes (g.ahead y.item) ∧ la = y.lookahead ∧
        (y.item.production = 0 ∨ 0 < y.item.position) := by
  induction h with
  | start =>
    rcases hready with ⟨t, ht, hla⟩ | ⟨hvanish, hla⟩
    · exact Or.inl ⟨_, t, .start, ht, hla⟩
    · exact Or.inr ⟨_, .start, hvanish, hla, Or.inl rfl⟩
  | move h hnext =>
    rcases hready with ⟨t, ht, hla⟩ | ⟨hvanish, hla⟩
    · exact Or.inl ⟨_, t, h.move hnext, ht, hla⟩
    · exact Or.inr ⟨_, h.move hnext, hvanish, hla, Or.inr (Nat.succ_pos _)⟩
  | @expand word x production rule la' h hrule hnext hla' ih =>
    rcases hready with ⟨t, ht, hla⟩ | ⟨hvanish, hla⟩
    · exact Or.inl ⟨_, t, h.expand hrule hnext hla', ht, hla⟩
    · -- The left side vanishes, so the item that awaits it is ready already.
      have hleft : g.Vanishes [rule.left] := by
        rw [ahead_eq hrule, List.drop_zero] at hvanish
        exact (Derives.rule (List.mem_of_getElem? hrule)).trans hvanish
      refine ih ?_
      rw [Ready, ahead_eq_cons hnext]
      rcases hla' with ⟨t, ht, hlook⟩ | ⟨hafter, hlook⟩
      · exact Or.inl ⟨t, ht.append_right hleft, hla.trans hlook⟩
      · exact Or.inr ⟨hleft.append hafter, hla.trans hlook⟩

/-! ## Reductions in place -/

/-- The symbol can be reduced to the left side of a rule, the rest of which vanishes. -/
def Becomes (g : Cfg) (symbol left : Nat) : Prop :=
  ∃ rule ∈ g.rules, rule.left = left ∧ ∃ rest, rule.right = symbol :: rest ∧ g.Vanishes rest

/-- After the string the symbol is awaited, and then the lookahead after nothing but what vanishes.
-/
def Awaits (g : Cfg) (word : List Nat) (la : Lookahead) (symbol : Nat) : Prop :=
  ∃ x, g.ValidItem word x ∧ x.lookahead = la ∧ g.nextSymbol? x.item = some symbol ∧
    g.Vanishes (g.afterNext x.item)

/-- What becomes an awaited symbol is awaited as well, at the beginning of the rule. -/
theorem Awaits.expand {word : List Nat} {la : Lookahead} {symbol left : Nat}
    (h : g.Awaits word la left) (hbecomes : g.Becomes symbol left) :
    ∃ production rule rest, g.rules[production]? = some rule ∧ rule.left = left ∧
      rule.right = symbol :: rest ∧ g.Vanishes rest ∧
      g.ValidItem word ⟨⟨production, 0⟩, la⟩ := by
  obtain ⟨x, hvalid, rfl, hnext, hafter⟩ := h
  obtain ⟨rule, hmem, rfl, rest, hright, hrest⟩ := hbecomes
  obtain ⟨production, hrule⟩ := List.getElem?_of_mem hmem
  exact ⟨production, rule, rest, hrule, rfl, hright, hrest,
    hvalid.expand hrule hnext (Or.inr ⟨hafter, rfl⟩)⟩

theorem Awaits.of_becomes {word : List Nat} {la : Lookahead} {symbol left : Nat}
    (h : g.Awaits word la left) (hbecomes : g.Becomes symbol left) : g.Awaits word la symbol := by
  obtain ⟨production, rule, rest, hrule, -, hright, hrest, hvalid⟩ := h.expand hbecomes
  have hahead : g.ahead ⟨production, 0⟩ = symbol :: rest := by
    rw [ahead_eq hrule, List.drop_zero, hright]
  obtain ⟨hnext, hafter⟩ := nextSymbol?_of_drop_eq_cons hahead
  exact ⟨_, hvalid, rfl, hnext, hafter ▸ hrest⟩

/-- An item whose dot has moved over one symbol comes from one that awaits the symbol. -/
theorem ValidItem.awaits {word : List Nat} {production : Nat} {la : Lookahead}
    (h : g.ValidItem word ⟨⟨production, 1⟩, la⟩) {rule : Rule}
    (hrule : g.rules[production]? = some rule) {symbol : Nat} {rest : List Nat}
    (hright : rule.right = symbol :: rest) (hrest : g.Vanishes rest) :
    ∃ before, g.Awaits before la symbol := by
  generalize hy : (⟨⟨production, 1⟩, la⟩ : LookaheadItem) = y at h
  cases h with
  | start => cases hy
  | expand => cases hy
  | @move before x s h hnext =>
    obtain ⟨⟨production', k⟩, la'⟩ := x
    simp only [Item.advance, LookaheadItem.mk.injEq, Item.mk.injEq] at hy
    obtain ⟨⟨rfl, hk⟩, rfl⟩ := hy
    obtain rfl : k = 0 := by omega
    have hahead : g.ahead ⟨production, 0⟩ = symbol :: rest := by
      rw [ahead_eq hrule, List.drop_zero, hright]
    obtain ⟨hnext', hafter⟩ := nextSymbol?_of_drop_eq_cons hahead
    exact ⟨before, _, h, rfl, hnext', hafter ▸ hrest⟩

/-- Below an item whose dot has moved over one symbol lies this symbol, the first of the rule. -/
theorem Path.pop_one {states symbols : List Nat} (h : g.Path states symbols) {production : Nat}
    {rule : Rule} (hrule : g.rules[production]? = some rule)
    (hitem : ⟨production, 1⟩ ∈ g.collection.state (states.headD 0)) :
    ∃ symbol below rest, symbols = symbol :: below ∧ rule.right = symbol :: rest := by
  obtain ⟨hle, htake, -⟩ := h.pop hrule hitem
  rw [h.length_eq] at hle
  cases symbols with
  | nil => exact absurd hle (Nat.not_succ_le_zero 0)
  | cons symbol below =>
    cases hright : rule.right with
    | nil => simp [hright] at htake
    | cons first rest =>
      rw [hright] at htake
      obtain rfl : symbol = first := by simpa using htake
      exact ⟨symbol, below, rest, rfl, rfl⟩

end Cfg

namespace Parser

variable {α ε : Type} {p : Parser α}

section Decided

variable (hdecided : p.grammar.Decided) (hstart : ∀ rule ∈ p.grammar.cfg.rules, 0 ∉ rule.right)
  (hanchored : p.grammar.cfg.Anchored)

include hdecided hstart hanchored

/-- Where an item of the current set is ready, the stack settles, or the item is reduced. -/
theorem settles_or_reduced {la la' : Lookahead} {states symbols : List Nat}
    (h : p.grammar.cfg.Path states symbols) {production k : Nat} {rule : Rule}
    (hrule : p.grammar.cfg.rules[production]? = some rule)
    (hx : ⟨⟨production, k⟩, la'⟩ ∈ p.grammar.cfg.lookaheads.state (states.headD 0))
    (hready : p.grammar.cfg.Ready la ⟨⟨production, k⟩, la'⟩) :
    Settles (p.restack la) states ∨ la = la' ∧ production ≠ 0 ∧
      ∃ states', p.grammar.cfg.Path states' (rule.left :: symbols.drop k) ∧
        Relation.TransGen (fun σ τ => p.restack la σ = some τ) states states' := by
  rcases hready with ⟨t, ht, rfl⟩ | ⟨hvanish, rfl⟩
  · exact Or.inl (settles_of_starts hdecided hstart hanchored ht.starts h
      (Cfg.proper_of_mem hx).1 rfl)
  · rw [Cfg.ahead_eq hrule] at hvanish
    rcases exists_reduced hdecided hstart h hrule hx hvanish with ⟨-, hsettles⟩ | hreduced
    · exact Or.inl hsettles
    · exact Or.inr ⟨rfl, hreduced⟩

/-- The stack of a string settles under a lookahead that a valid item is ready for, wherever its dot
stands. -/
theorem settles_of_validItem {word : List Nat} {x : LookaheadItem}
    (h : p.grammar.cfg.ValidItem word x) {la : Lookahead} {u v : List Nat}
    (hahead : p.grammar.cfg.ahead x.item = u ++ v) {states : List Nat}
    (hpath : p.grammar.cfg.Path states (word ++ u).reverse)
    (hready : p.grammar.cfg.Ready la
      ⟨⟨x.item.production, x.item.position + u.length⟩, x.lookahead⟩) :
    Settles (p.restack la) states := by
  induction h generalizing u v states with
  | start =>
    have hx := Cfg.ValidItem.start.moves_mem_lookaheads hahead hpath
    obtain ⟨rule, hrule, -⟩ := p.grammar.cfg.rule_zero
    rcases settles_or_reduced hdecided hstart hanchored hpath hrule hx hready with
      hsettles | ⟨-, hne, -⟩
    · exact hsettles
    · exact absurd rfl hne
  | @move word x symbol _ hnext ih =>
    refine ih (u := symbol :: u) (v := v) ?_ ?_ ?_
    · rw [Cfg.ahead_eq_cons hnext, List.cons_append]
      exact congrArg (symbol :: ·) hahead
    · simpa using hpath
    · have hposition : x.item.position + (symbol :: u).length = x.item.position + 1 + u.length := by
        rw [List.length_cons]
        omega
      rw [hposition]
      exact hready
  | @expand word x production rule la' h hrule hnext hla' ih =>
    have hx := (h.expand hrule hnext hla').moves_mem_lookaheads hahead hpath
    rcases settles_or_reduced hdecided hstart hanchored hpath hrule hx hready with
      hsettles | ⟨rfl, -, states', hpath', hreduced⟩
    · exact hsettles
    · -- Now the dot moves over the left side, and the item that awaits it is ready.
      refine .of_changes hreduced.to_reflTransGen (ih (u := [rule.left])
        (v := p.grammar.cfg.afterNext x.item) (Cfg.ahead_eq_cons hnext) ?_ hla')
      simpa [List.drop_append] using hpath'

omit hanchored in
/-- A symbol that becomes an awaited one is reduced to it. -/
theorem exists_becomes {word : List Nat} {la : Lookahead} {symbol left : Nat}
    (h : p.grammar.cfg.Awaits word la left) (hbecomes : p.grammar.cfg.Becomes symbol left)
    {states : List Nat} (hpath : p.grammar.cfg.Path states (word ++ [symbol]).reverse) :
    ∃ states', p.grammar.cfg.Path states' (word ++ [left]).reverse ∧
      Relation.TransGen (fun σ τ => p.restack la σ = some τ) states states' := by
  obtain ⟨production, rule, rest, hrule, rfl, hright, hrest, hvalid⟩ := h.expand hbecomes
  have hahead : p.grammar.cfg.ahead ⟨production, 0⟩ = [symbol] ++ rest := by
    rw [Cfg.ahead_eq hrule, List.drop_zero, hright, List.singleton_append]
  have hx := hvalid.moves_mem_lookaheads hahead hpath
  have hvanish : p.grammar.cfg.Vanishes (rule.right.drop ([symbol] : List Nat).length) := by
    rw [hright]
    exact hrest
  rcases exists_reduced hdecided hstart hpath hrule hx hvanish with
    ⟨hzero, -⟩ | ⟨-, states', hpath', hreduced⟩
  · obtain ⟨x, -, -, hnext, -⟩ := h
    rw [hzero] at hrule
    exact absurd (Cfg.left_eq_zero hrule) (Cfg.ne_zero_of_nextSymbol? hstart hnext)
  · refine ⟨states', ?_, hreduced⟩
    simpa using hpath'

omit hanchored in
theorem exists_becomes_many {word : List Nat} {la : Lookahead} {symbol other : Nat}
    (h : p.grammar.cfg.Awaits word la other)
    (hbecomes : Relation.TransGen p.grammar.cfg.Becomes symbol other)
    {states : List Nat} (hpath : p.grammar.cfg.Path states (word ++ [symbol]).reverse) :
    ∃ states', p.grammar.cfg.Path states' (word ++ [other]).reverse ∧
      Relation.TransGen (fun σ τ => p.restack la σ = some τ) states states' := by
  induction hbecomes with
  | single hstep => exact exists_becomes hdecided hstart h hstep hpath
  | tail _ hstep ih =>
    obtain ⟨states', hpath', hreduced⟩ := ih (h.of_becomes hstep)
    obtain ⟨states'', hpath'', hreduced'⟩ := exists_becomes hdecided hstart h hstep hpath'
    exact ⟨states'', hpath'', hreduced.trans hreduced'⟩

/-- An awaited symbol does not become itself: it would do so for ever, but its stack settles. -/
theorem not_becomes_self {word : List Nat} {la : Lookahead} {symbol : Nat}
    (h : p.grammar.cfg.Awaits word la symbol) :
    ¬ Relation.TransGen p.grammar.cfg.Becomes symbol symbol := by
  intro hself
  obtain ⟨x, hvalid, hla, hnext, hafter⟩ := id h
  obtain ⟨q, hwalk, -⟩ := Cfg.exists_mem_lookaheads_of_validItem (hvalid.move hnext)
  obtain ⟨states, hpath⟩ := Cfg.exists_path_of_walk? hwalk
  have hsettles : Settles (p.restack la) states :=
    settles_of_validItem hdecided hstart hanchored hvalid (u := [symbol])
      (Cfg.ahead_eq_cons hnext) hpath (Or.inr ⟨hafter, hla.symm⟩)
  obtain ⟨states', hpath', hreduced⟩ := exists_becomes_many hdecided hstart h hself hpath
  rw [hpath'.unique hpath] at hreduced
  exact hsettles.not_transGen_self hreduced

/-! ## All stacks -/

/-- The stack goes on to a lower one, or to one of the same height whose last symbol the last symbol
has become. -/
def Lowers (p : Parser α) (la : Lookahead) (states symbols : List Nat) : Prop :=
  ∃ states' symbols', p.grammar.cfg.Path states' symbols' ∧
    Changes (p.restack la) states states' ∧
    (states'.length < states.length ∨ states'.length = states.length ∧
      p.grammar.cfg.climb p.grammar.cfg.Becomes (symbols'.headD 0) <
        p.grammar.cfg.climb p.grammar.cfg.Becomes (symbols.headD 0))

/-- An item of the current set that awaits only what vanishes takes the stack down by as many states
as its dot has moved over, and puts up one. -/
theorem settles_or_lowers_of_moved {la : Lookahead} {states symbols : List Nat}
    (h : p.grammar.cfg.Path states symbols) {word : List Nat}
    (hwalk : p.grammar.cfg.collection.walk? word = some (states.headD 0)) {production k : Nat}
    (hvalid : p.grammar.cfg.ValidItem word ⟨⟨production, k⟩, la⟩)
    (hvanish : p.grammar.cfg.Vanishes (p.grammar.cfg.ahead ⟨production, k⟩))
    (hmoved : production = 0 ∨ 0 < k) :
    Settles (p.restack la) states ∨ p.Lowers la states symbols := by
  have hx := hvalid.mem_lookaheads hwalk
  have hitem := (Cfg.proper_of_mem hx).1
  obtain ⟨rule, hrule, -⟩ := Cfg.mem_allItems.1 (Cfg.state_subset_allItems hitem)
  rw [Cfg.ahead_eq hrule] at hvanish
  rcases exists_reduced hdecided hstart h hrule hx hvanish with
    ⟨-, hsettles⟩ | ⟨hne, states', hpath', hreduced⟩
  · exact Or.inl hsettles
  · have hpos : 0 < k := hmoved.resolve_left hne
    have hle := (h.pop hrule hitem).1
    have hlength := h.length_eq
    have hlength' : states'.length = symbols.length - k + 1 := by simpa using hpath'.length_eq
    refine Or.inr ⟨states', _, hpath', hreduced.to_reflTransGen, ?_⟩
    by_cases hone : k = 1
    · -- The rule begins with the last symbol, and the rest of it vanishes.
      subst hone
      obtain ⟨symbol, below, rest, rfl, hright⟩ := h.pop_one hrule hitem
      have hrest : p.grammar.cfg.Vanishes rest := by simpa [hright] using hvanish
      obtain ⟨before, hawaits⟩ := hvalid.awaits hrule hright hrest
      have hmem : rule ∈ p.grammar.cfg.rules := List.mem_of_getElem? hrule
      refine Or.inr ⟨by omega, ?_⟩
      exact Cfg.climb_lt_climb ⟨rule, hmem, rfl, rest, hright, hrest⟩
        (Cfg.mem_nonterminals_of_mem hmem) (not_becomes_self hdecided hstart hanchored hawaits)
    · exact Or.inl (by omega)

theorem settles_or_lowers (la : Lookahead) {states symbols : List Nat}
    (h : p.grammar.cfg.Path states symbols) :
    Settles (p.restack la) states ∨ p.Lowers la states symbols := by
  cases hτ : p.restack la states with
  | none => exact Or.inl ⟨0, .here hτ⟩
  | some τ =>
    obtain ⟨production, -, -, haction, -⟩ := restack_eq_some_iff.1 hτ
    obtain ⟨rule, hrule, hdone⟩ := p.mem_lookaheads_of_reduce haction
    obtain ⟨word, hwalk, hvalid⟩ := hanchored.exists_validItem_of_mem_lookaheads hdone
    have hready : p.grammar.cfg.Ready la ⟨⟨production, rule.right.length⟩, la⟩ := by
      refine Or.inr ⟨?_, rfl⟩
      rw [Cfg.ahead_eq hrule, List.drop_length]
      exact Cfg.Derives.refl []
    rcases hvalid.exists_moved hready with ⟨y, t, hy, ht, rfl⟩ | ⟨y, hy, hvanish, rfl, hmoved⟩
    · exact Or.inl (settles_of_starts hdecided hstart hanchored ht.starts h
        (hy.mem_state hwalk) rfl)
    · exact settles_or_lowers_of_moved hdecided hstart hanchored h hwalk hy hvanish hmoved

/-- Every stack on a path settles. -/
theorem settles_of_path (la : Lookahead) (states symbols : List Nat)
    (h : p.grammar.cfg.Path states symbols) : Settles (p.restack la) states := by
  rcases settles_or_lowers hdecided hstart hanchored la h with
    hsettles | ⟨states', symbols', h', hchanges, hlower⟩
  · exact hsettles
  · exact .of_changes hchanges (settles_of_path la states' symbols' h')
termination_by (states.length, p.grammar.cfg.climb p.grammar.cfg.Becomes (symbols.headD 0))
decreasing_by
  rcases hlower with hlength | ⟨hlength, hclimb⟩
  · exact Prod.Lex.left _ _ hlength
  · rw [hlength]
    exact Prod.Lex.right _ hclimb

end Decided

/-- If no cell has several candidates, the start symbol is on no right side and every nonterminal
that occurs vanishes or begins with a terminal, then every run ends, over sentences and all other
sources. -/
theorem every_run_ends {g : Grammar α} (hdecided : g.Decided)
    (hstart : ∀ rule ∈ g.cfg.rules, 0 ∉ rule.right) (hanchored : g.cfg.Anchored) (trim : Bool) :
    ∃ p : Parser α, Parser.build g trim = .ok p ∧ ∀ source : List (Pull α ε),
      ∃ o : Outcome α ε, p.Ends (start source) o ∧ p.parse source = o ∧ o.verdict.Final := by
  obtain ⟨p, hp⟩ := exists_build_eq_ok hdecided trim
  obtain ⟨rfl, -⟩ := build_eq_ok hp
  refine ⟨p, hp, fun source => ?_⟩
  obtain ⟨o, ho⟩ := exists_ends_of_settles (settles_of_path hdecided hstart hanchored) source
  exact ⟨o, ho, parse_eq_of_ends ho, ho.final⟩

end Parser

/-! ## A tail that does not end -/

/-- The nonterminal `1` stands for any number of terminals `3` and tails `2`.  A tail is terminals
`4` without end, so it derives no string of terminals. -/
def Grammar.endless : Grammar Nat where
  symbols := ⟨["start", "items", "tail", "item", "more"], by decide⟩
  cfg := {
    symbolCount := 5
    rules := [⟨0, [1]⟩, ⟨1, []⟩, ⟨1, [1, 3]⟩, ⟨1, [1, 2]⟩, ⟨2, [4, 2]⟩]
    inRange := by decide
    startFirst := ⟨[1], [⟨1, []⟩, ⟨1, [1, 3]⟩, ⟨1, [1, 2]⟩, ⟨2, [4, 2]⟩], rfl, by decide⟩ }
  hooks := [none, none, none, none, none]
  ranks := [0, 0, 0, 0, 0]
  associativities := [.none]
  symbolCount_eq := rfl
  hooks_length := rfl
  ranks_length := rfl
  ranks_lt := by decide

theorem Grammar.anchored_endless : endless.cfg.Anchored := by
  have hitems : endless.cfg.Derives [1] [] := @Cfg.Derives.rule endless.cfg ⟨1, []⟩ (by decide)
  have hstart : endless.cfg.Derives [0] [1] := @Cfg.Derives.rule endless.cfg ⟨0, [1]⟩ (by decide)
  have htail : endless.cfg.Derives [2] [4, 2] :=
    @Cfg.Derives.rule endless.cfg ⟨2, [4, 2]⟩ (by decide)
  intro symbol hsymbol _
  obtain ⟨rule, hrule, rfl⟩ := Cfg.isNonterminal_iff.1 hsymbol
  simp only [endless, List.mem_cons, List.not_mem_nil, or_false] at hrule
  rcases hrule with rfl | rfl | rfl | rfl | rfl
  · exact Or.inl (hstart.trans hitems)
  · exact Or.inl hitems
  · exact Or.inl hitems
  · exact Or.inl hitems
  · exact Or.inr ⟨4, by decide, [2], htail⟩

set_option maxRecDepth 4000 in
/-- A tail has been begun, and what comes next does not go on with it. -/
theorem Parser.every_run_ends_endless :
    ∃ p : Parser Nat, Parser.build Grammar.endless true = .ok p ∧
      ∃ o : Outcome Nat String,
        p.Ends (start ([Tree.scalar 3 7, Tree.scalar 4 0, Tree.scalar 3 8].map .token)) o ∧
        o.verdict = .rejected ((Tree.scalar 3 8).withState Tree.errorState) ∧
        o.verdict.Final := by
  obtain ⟨p, hp, hruns⟩ := every_run_ends (g := Grammar.endless) (ε := String) (by decide +kernel)
    (by decide) Grammar.anchored_endless true
  obtain ⟨o, ho, hparse, hfinal⟩ :=
    hruns ([Tree.scalar 3 7, Tree.scalar 4 0, Tree.scalar 3 8].map .token)
  refine ⟨p, hp, o, ho, ?_, hfinal⟩
  cases hp
  rw [← hparse]
  rfl

/-! ## A reduction that goes on for ever -/

/-- Nothing is derived from the nonterminal `4` but more of it.  So what comes after a nonterminal
`3` is not known, and it is not known either that `5` vanishes before a terminal `7`.  All the same
`7` may follow the nonterminal `2`, which is reduced to itself. -/
def Grammar.circling : Grammar Nat where
  symbols := ⟨["start", "s", "a", "y", "u", "d", "item", "more"], by decide⟩
  cfg := {
    symbolCount := 8
    rules := [⟨0, [1]⟩, ⟨1, [2, 3, 4]⟩, ⟨2, [2]⟩, ⟨2, [6]⟩, ⟨3, [5, 7]⟩, ⟨5, []⟩, ⟨4, [4, 7]⟩]
    inRange := by decide
    startFirst := ⟨[1], [⟨1, [2, 3, 4]⟩, ⟨2, [2]⟩, ⟨2, [6]⟩, ⟨3, [5, 7]⟩, ⟨5, []⟩, ⟨4, [4, 7]⟩],
      rfl, by decide⟩ }
  hooks := [none, none, none, none, none, none, none]
  ranks := [0, 0, 0, 0, 0, 0, 0]
  associativities := [.none]
  symbolCount_eq := rfl
  hooks_length := rfl
  ranks_length := rfl
  ranks_lt := by decide

/-- A run that comes to a stack which is reduced to itself does not end. -/
theorem Parser.Reachable.not_ends {α ε : Type} {p : Parser α} {source : List (Pull α ε)}
    {c : Config α ε} (hc : p.Reachable source c)
    (hself : p.restack c.lookahead (statesOf c) = some (statesOf c)) (o : Outcome α ε) :
    ¬ p.Ends (Parser.start source) o := by
  intro ho
  obtain ⟨n, -, hstops, -⟩ := exists_stretch (hc.ends ho) rfl
  exact Settles.not_transGen_self ⟨n, hstops⟩ (.single hself)

set_option maxRecDepth 4000 in
/-- Without the anchors runs can go on for ever, also where no cell has several candidates. -/
theorem Parser.not_ends_circling :
    Grammar.circling.Decided ∧ (∀ rule ∈ Grammar.circling.cfg.rules, 0 ∉ rule.right) ∧
      ∃ p : Parser Nat, Parser.build Grammar.circling true = .ok p ∧ ∀ o : Outcome Nat String,
        ¬ p.Ends (start ([Tree.scalar 6 0, Tree.scalar 7 0].map .token)) o := by
  have hreachable : ∃ (p : Parser Nat) (c : Config Nat String),
      Parser.build Grammar.circling true = .ok p ∧
      p.Reachable ([Tree.scalar 6 0, Tree.scalar 7 0].map .token) c ∧
      p.restack c.lookahead (statesOf c) = some (statesOf c) :=
    ⟨_, _, rfl, .step (.step (.start rfl) rfl) rfl, by decide +kernel⟩
  obtain ⟨p, c, hp, hc, hself⟩ := hreachable
  exact ⟨by decide +kernel, by decide, p, hp, fun o => hc.not_ends hself o⟩

end ShiftReduce
