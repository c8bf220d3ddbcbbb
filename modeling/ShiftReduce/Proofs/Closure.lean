import ShiftReduce.LookaheadItem
import ShiftReduce.Proofs.FirstSets
import ShiftReduce.Proofs.Worklist

/-!
# What closing finds

Closing a list of items, with or without lookaheads, adds exactly what they await, directly or
through each other.

* `Cfg.mem_allItems`, `Cfg.nextSymbol?_eq_some_iff`, `Cfg.mem_awaited`, `Cfg.mem_moved`,
  `Cfg.mem_awaitedWith`: the operations on items by membership;
* `Cfg.mem_closure`, `Cfg.mem_closureWith`: closed lists as what their beginnings lead to.
-/

namespace ShiftReduce.Cfg

variable {g : Cfg}

/-! ## Items -/

theorem mem_allItems {item : Item} :
    item ∈ g.allItems ↔
      ∃ rule, g.rules[item.production]? = some rule ∧ item.position ≤ rule.right.length := by
  simp only [allItems, List.mem_flatMap, List.mem_map, List.mem_range, Prod.exists]
  constructor
  · rintro ⟨rule, p, hmem, k, hk, rfl⟩
    exact ⟨rule, List.mk_mem_zipIdx_iff_getElem?.1 hmem, by simpa using Nat.le_of_lt_succ hk⟩
  · rintro ⟨rule, hrule, hk⟩
    exact ⟨rule, item.production, List.mk_mem_zipIdx_iff_getElem?.2 hrule, item.position,
      Nat.lt_succ_of_le hk, rfl⟩

theorem rightOf_eq {item : Item} {rule : Rule} (h : g.rules[item.production]? = some rule) :
    g.rightOf item = rule.right := by
  rw [rightOf, h, Option.map_some, Option.getD_some]

theorem nextSymbol?_eq_some_iff {item : Item} {symbol : Nat} :
    g.nextSymbol? item = some symbol ↔
      ∃ rule, g.rules[item.production]? = some rule ∧
        rule.right[item.position]? = some symbol := by
  rw [nextSymbol?]
  cases hrule : g.rules[item.production]? with
  | none => simp [rightOf, hrule]
  | some rule => simp [rightOf_eq hrule]

/-- A symbol after a dot is a symbol of the grammar. -/
theorem lt_symbolCount_of_nextSymbol? {item : Item} {symbol : Nat}
    (h : g.nextSymbol? item = some symbol) : symbol < g.symbolCount := by
  obtain ⟨rule, hrule, hsymbol⟩ := nextSymbol?_eq_some_iff.1 h
  exact (g.inRange rule (List.mem_of_getElem? hrule)).2 symbol (List.mem_of_getElem? hsymbol)

/-- The start symbol is never awaited if it is on no right side. -/
theorem ne_zero_of_nextSymbol? (hstart : ∀ rule ∈ g.rules, 0 ∉ rule.right) {item : Item}
    {symbol : Nat} (h : g.nextSymbol? item = some symbol) : symbol ≠ 0 := by
  obtain ⟨rule, hrule, hsymbol⟩ := nextSymbol?_eq_some_iff.1 h
  rintro rfl
  exact hstart rule (List.mem_of_getElem? hrule) (List.mem_of_getElem? hsymbol)

theorem advance_mem_allItems {item : Item} {symbol : Nat}
    (h : g.nextSymbol? item = some symbol) : item.advance ∈ g.allItems := by
  obtain ⟨rule, hrule, hsymbol⟩ := nextSymbol?_eq_some_iff.1 h
  exact mem_allItems.2 ⟨rule, hrule, (List.getElem?_eq_some_iff.1 hsymbol).1⟩

/-- The dot of a complete item of the grammar stands at the end of its rule. -/
theorem position_eq_of_isComplete {item : Item} {rule : Rule} (hmem : item ∈ g.allItems)
    (hrule : g.rules[item.production]? = some rule) (h : g.isComplete item = true) :
    item.position = rule.right.length := by
  obtain ⟨rule', hrule', hle⟩ := mem_allItems.1 hmem
  rw [hrule] at hrule'
  cases hrule'
  rw [isComplete, Option.isNone_iff_eq_none, nextSymbol?, rightOf_eq hrule,
    List.getElem?_eq_none_iff] at h
  omega

theorem isComplete_of_drop_eq_nil {item : Item}
    (h : (g.rightOf item).drop item.position = []) : g.isComplete item = true := by
  rw [isComplete, nextSymbol?, ← List.head?_drop, h]
  rfl

theorem isComplete_end {production : Nat} {rule : Rule}
    (hrule : g.rules[production]? = some rule) :
    g.isComplete ⟨production, rule.right.length⟩ = true := by
  rw [isComplete, nextSymbol?, @rightOf_eq g ⟨production, rule.right.length⟩ rule hrule]
  simp

theorem mem_beginningsOf {symbol : Nat} {item : Item} :
    item ∈ g.beginningsOf symbol ↔
      item.position = 0 ∧ ∃ rule, g.rules[item.production]? = some rule ∧ rule.left = symbol := by
  simp only [beginningsOf, List.mem_map, mem_rulesOf]
  constructor
  · rintro ⟨p, hp, rfl⟩
    exact ⟨rfl, hp⟩
  · rintro ⟨hzero, hrule⟩
    exact ⟨item.production, hrule, by rw [← hzero]⟩

theorem mem_awaited {item next : Item} :
    next ∈ g.awaited item ↔
      ∃ symbol, g.nextSymbol? item = some symbol ∧ next ∈ g.beginningsOf symbol := by
  rw [awaited]
  cases g.nextSymbol? item with
  | none => simp
  | some symbol => simp

theorem mem_moved {state : List Item} {symbol : Nat} {item : Item} :
    item ∈ g.moved state symbol ↔
      ∃ i ∈ state, g.nextSymbol? i = some symbol ∧ item = i.advance := by
  simp only [moved, awaits, List.mem_map, List.mem_filter, decide_eq_true_eq, and_assoc]
  constructor
  · rintro ⟨i, hi, hnext, rfl⟩
    exact ⟨i, hi, hnext, rfl⟩
  · rintro ⟨i, hi, hnext, rfl⟩
    exact ⟨i, hi, hnext, rfl⟩

/-! ## Closed lists of items -/

theorem mem_allItems_of_mem_beginningsOf {symbol : Nat} {item : Item}
    (h : item ∈ g.beginningsOf symbol) : item ∈ g.allItems := by
  obtain ⟨hzero, rule, hrule, -⟩ := mem_beginningsOf.1 h
  exact mem_allItems.2 ⟨rule, hrule, by omega⟩

/-- The items that begin a rule. -/
def beginnings (g : Cfg) : List Item := (List.range g.rules.length).map (⟨·, 0⟩)

/-- Only beginnings of rules are awaited, so closing adds no more items than there are rules. -/
theorem mem_beginnings_of_awaited {item next : Item} (h : next ∈ g.awaited item) :
    next ∈ g.beginnings := by
  obtain ⟨symbol, -, hbegin⟩ := mem_awaited.1 h
  obtain ⟨hzero, rule, hrule, -⟩ := mem_beginningsOf.1 hbegin
  have hlt : next.production < g.rules.length := (List.getElem?_eq_some_iff.1 hrule).1
  exact List.mem_map.2 ⟨next.production, List.mem_range.2 hlt, by rw [← hzero]⟩

@[simp]
theorem length_beginnings (g : Cfg) : g.beginnings.length = g.rules.length := by
  simp [beginnings]

theorem mem_closure {kernel : List Item} {item : Item} :
    item ∈ g.closure kernel ↔ ∃ k ∈ kernel, Leads g.awaited k item :=
  mem_explore_iff (fun _ _ _ h => ⟨mem_beginnings_of_awaited h, trivial⟩) (fun _ _ => trivial)
    (by rw [length_beginnings])

/-! ## Closed lists of items with lookaheads -/

/-- What comes after the symbol after the dot. -/
def afterNext (g : Cfg) (item : Item) : List Nat := (g.rightOf item).drop (item.position + 1)

/-- What is left of a right side is the symbol after the dot and what comes after that. -/
theorem nextSymbol?_of_drop_eq_cons {item : Item} {symbol : Nat} {symbols : List Nat}
    (h : (g.rightOf item).drop item.position = symbol :: symbols) :
    g.nextSymbol? item = some symbol ∧ g.afterNext item = symbols := by
  constructor
  · rw [nextSymbol?, ← List.head?_drop, h, List.head?_cons]
  · rw [afterNext, ← List.tail_drop, h, List.tail_cons]

/-- What comes after the dot. -/
def ahead (g : Cfg) (item : Item) : List Nat := (g.rightOf item).drop item.position

theorem ahead_eq {production k : Nat} {rule : Rule} (h : g.rules[production]? = some rule) :
    g.ahead ⟨production, k⟩ = rule.right.drop k := by
  rw [ahead, @rightOf_eq g ⟨production, k⟩ rule h]

@[simp]
theorem ahead_advance (item : Item) : g.ahead item.advance = g.afterNext item := rfl

theorem ahead_eq_cons {item : Item} {symbol : Nat} (h : g.nextSymbol? item = some symbol) :
    g.ahead item = symbol :: g.afterNext item := by
  obtain ⟨hlt, hget⟩ := List.getElem?_eq_some_iff.1 h
  rw [ahead, List.drop_eq_getElem_cons hlt, hget, afterNext]

theorem afterNext_lt {item : Item} {s : Nat} (h : s ∈ g.afterNext item) : s < g.symbolCount := by
  have hmem : s ∈ g.rightOf item := List.mem_of_mem_drop h
  cases hrule : g.rules[item.production]? with
  | none => simp [rightOf, hrule] at hmem
  | some rule =>
    rw [rightOf_eq hrule] at hmem
    exact (g.inRange rule (List.mem_of_getElem? hrule)).2 s hmem

theorem mem_awaitedWith {sets : FirstSets} {x y : LookaheadItem} :
    y ∈ g.awaitedWith sets x ↔
      ∃ symbol, g.nextSymbol? x.item = some symbol ∧ y.item ∈ g.beginningsOf symbol ∧
        y.lookahead ∈ sets.firstBefore (g.afterNext x.item) x.lookahead := by
  rw [awaitedWith]
  cases g.nextSymbol? x.item with
  | none => simp
  | some symbol =>
    simp only [List.mem_flatMap, List.mem_map, Option.some.injEq, exists_eq_left']
    constructor
    · rintro ⟨item, hitem, la, hla, rfl⟩
      exact ⟨hitem, hla⟩
    · rintro ⟨hitem, hla⟩
      exact ⟨y.item, hitem, y.lookahead, hla, rfl⟩

/-- What an item with lookahead awaits, it awaits without lookaheads. -/
theorem awaited_of_awaitedWith {sets : FirstSets} {x y : LookaheadItem}
    (h : y ∈ g.awaitedWith sets x) : y.item ∈ g.awaited x.item := by
  obtain ⟨symbol, hnext, hbegin, -⟩ := mem_awaitedWith.1 h
  exact mem_awaited.2 ⟨symbol, hnext, hbegin⟩

/-- What is awaited goes by derivations: beginnings under the terminals that can follow. -/
theorem mem_awaitedWith_firstSets {x y : LookaheadItem} :
    y ∈ g.awaitedWith g.firstSets x ↔
      ∃ symbol, g.nextSymbol? x.item = some symbol ∧ y.item ∈ g.beginningsOf symbol ∧
        ((∃ t, g.Begins (g.afterNext x.item) t ∧ y.lookahead = some t) ∨
          (g.Vanishes (g.afterNext x.item) ∧ y.lookahead = x.lookahead)) := by
  simp only [mem_awaitedWith, mem_firstBefore_firstSets]

/-- The lookaheads that can come up when `seeds` are closed: symbols, and those of the seeds. -/
def lookaheadsFrom (g : Cfg) (seeds : List LookaheadItem) : List Lookahead :=
  (List.range g.symbolCount).map some ++ seeds.map LookaheadItem.lookahead

theorem mem_lookaheadsFrom {seeds : List LookaheadItem} {x : LookaheadItem} (h : x ∈ seeds) :
    x.lookahead ∈ g.lookaheadsFrom seeds :=
  List.mem_append_right _ (List.mem_map_of_mem h)

/-- The beginnings of all rules under all these lookaheads. -/
def beginningsFrom (g : Cfg) (seeds : List LookaheadItem) : List LookaheadItem :=
  g.beginnings.flatMap fun item => (g.lookaheadsFrom seeds).map (⟨item, ·⟩)

@[simp]
theorem length_beginningsFrom (g : Cfg) (seeds : List LookaheadItem) :
    (g.beginningsFrom seeds).length = g.rules.length * (g.symbolCount + seeds.length) := by
  simp [beginningsFrom, lookaheadsFrom, List.length_flatMap]

theorem mem_beginningsFrom_of_awaitedWith {seeds : List LookaheadItem} {x y : LookaheadItem}
    (hx : x.lookahead ∈ g.lookaheadsFrom seeds) (h : y ∈ g.awaitedWith g.firstSets x) :
    y ∈ g.beginningsFrom seeds ∧ y.lookahead ∈ g.lookaheadsFrom seeds := by
  have hitem := mem_beginnings_of_awaited (awaited_of_awaitedWith h)
  have hmem : y.lookahead ∈ g.lookaheadsFrom seeds := by
    obtain ⟨-, -, -, ⟨t, ht, hla⟩ | ⟨-, hla⟩⟩ := mem_awaitedWith_firstSets.1 h
    · rw [hla]
      exact List.mem_append_left _
        (List.mem_map_of_mem (List.mem_range.2 (isTerminal_iff.1 ht.1).1))
    · rw [hla]
      exact hx
  exact ⟨List.mem_flatMap.2 ⟨y.item, hitem, List.mem_map_of_mem hmem⟩, hmem⟩

theorem mem_closureWith {seeds : List LookaheadItem} {y : LookaheadItem} :
    y ∈ g.closureWith g.firstSets seeds ↔
      ∃ x ∈ seeds, Leads (g.awaitedWith g.firstSets) x y := by
  refine mem_explore_iff (fun _ hx _ => mem_beginningsFrom_of_awaitedWith hx)
    (fun _ => mem_lookaheadsFrom) ?_
  rw [length_beginningsFrom]
  exact Nat.add_le_add_left (Nat.mul_le_mul_left _ (Nat.le_succ _)) _

end ShiftReduce.Cfg
