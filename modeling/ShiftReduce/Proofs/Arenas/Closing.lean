import ShiftReduce.Proofs.Arenas.Basic
import ShiftReduce.Proofs.Loops.Construction

/-!
# Closing adds what it must and disturbs nothing

Items are closed by their numbers: what an item awaits is numbered when it comes up, in the same
numbering that is being read, and its number is queued unless it has been queued before.  With
lookaheads there are two numberings, of the items and of their refinements by a lookahead, and the
second refers to the first by number.

Either way the outcome is the least closed set, so closing is idempotent and monotone and agrees
with unions.  Numbers that were given before keep their values.

* `Cfg.Expands`, `Cfg.ExpandsWith`: what an item adds, without lookaheads and with them;
* `Cfg.itemArena`, `Cfg.ClosesItems`: items by their numbers, and the loop that closes them;
* `Refinements`, `Cfg.refinedArena`, `Cfg.ClosesRefined`: the same with lookaheads;
* `Grammar.closing_is_least`: both loops.
-/

namespace ShiftReduce

theorem Numbering.number_eq_of_get? {α : Type} [DecidableEq α] {n : Numbering α} {i : Nat} {a : α}
    (h : n.get? i = some a) : n.number a = i :=
  get?_inj (get?_number (List.mem_of_getElem? h)) h

namespace Cfg

variable {g : Cfg}

/-! ## What items add -/

/-- An item adds the beginnings of the rules of the nonterminal after its dot. -/
def Expands (g : Cfg) (item next : Item) : Prop :=
  next.position = 0 ∧
    ∃ rule, g.rules[next.production]? = some rule ∧ g.nextSymbol? item = some rule.left

/-- With a lookahead, it adds them under every lookahead of what comes after that nonterminal. -/
def ExpandsWith (g : Cfg) (sets : FirstSets) (x y : LookaheadItem) : Prop :=
  g.Expands x.item y.item ∧ y.lookahead ∈ sets.firstBefore (g.afterNext x.item) x.lookahead

theorem mem_awaited_iff_expands {item next : Item} :
    next ∈ g.awaited item ↔ g.Expands item next := by
  simp only [mem_awaited, mem_beginningsOf, Expands]
  constructor
  · rintro ⟨symbol, hsymbol, hzero, rule, hrule, rfl⟩
    exact ⟨hzero, rule, hrule, hsymbol⟩
  · rintro ⟨hzero, rule, hrule, hsymbol⟩
    exact ⟨rule.left, hsymbol, hzero, rule, hrule, rfl⟩

theorem production_lt_of_mem_awaited {item next : Item} (h : next ∈ g.awaited item) :
    next.production < g.rules.length := by
  obtain ⟨-, rule, hrule, -⟩ := mem_awaited_iff_expands.1 h
  exact (List.getElem?_eq_some_iff.1 hrule).1

theorem awaitedWith_eq (sets : FirstSets) (x : LookaheadItem) :
    g.awaitedWith sets x = (g.awaited x.item).flatMap fun item =>
      (sets.firstBefore (g.afterNext x.item) x.lookahead).map (⟨item, ·⟩) := by
  rw [awaitedWith, awaited]
  cases g.nextSymbol? x.item <;> rfl

theorem mem_awaitedWith_iff_expandsWith {sets : FirstSets} {x y : LookaheadItem} :
    y ∈ g.awaitedWith sets x ↔ g.ExpandsWith sets x y := by
  rw [awaitedWith_eq, ExpandsWith, ← mem_awaited_iff_expands, List.mem_flatMap]
  constructor
  · rintro ⟨item, hitem, hy⟩
    obtain ⟨la, hla, rfl⟩ := List.mem_map.1 hy
    exact ⟨hitem, hla⟩
  · rintro ⟨hitem, hla⟩
    exact ⟨y.item, hitem, List.mem_map.2 ⟨y.lookahead, hla, rfl⟩⟩

/-- Closing a list of items gives the least closed set. -/
theorem isClosure_closure (g : Cfg) (kernel : List Item) :
    IsClosure g.Expands {i | i ∈ kernel} {i | i ∈ g.closure kernel} := by
  have hleads := isClosure_leads g.awaited {i | i ∈ kernel}
  simp only [mem_awaited_iff_expands, Set.mem_ofPred_eq, ← mem_closure] at hleads
  exact hleads

theorem isClosure_closureWith (g : Cfg) (seeds : List LookaheadItem) :
    IsClosure (g.ExpandsWith g.firstSets) {x | x ∈ seeds}
      {x | x ∈ g.closureWith g.firstSets seeds} := by
  have hleads := isClosure_leads (g.awaitedWith g.firstSets) {x | x ∈ seeds}
  simp only [mem_awaitedWith_iff_expandsWith, Set.mem_ofPred_eq, ← mem_closureWith] at hleads
  exact hleads

/-! ## Items by their numbers -/

/-- The items of the grammar's rules by their numbers. -/
def itemArena (g : Cfg) : Arena (Numbering Item) Item where
  value? items id := (items.get? id).filter fun item => decide (item.production < g.rules.length)
  Later := Numbering.Extends
  refl := Numbering.Extends.refl
  trans _ _ _ := Numbering.Extends.trans
  keeps _ _ h _ _ hitem := by
    rw [Option.filter_eq_some_iff] at hitem ⊢
    exact ⟨h.get?_eq hitem.1, hitem.2⟩
  single _ _ _ _ hi hj := by
    rw [Option.filter_eq_some_iff] at hi hj
    exact Numbering.get?_inj hi.1 hj.1

theorem itemArena_value?_eq_some_iff {items : Numbering Item} {id : Nat} {item : Item} :
    g.itemArena.value? items id = some item ↔
      items.get? id = some item ∧ item.production < g.rules.length := by
  simp only [itemArena, Option.filter_eq_some_iff, decide_eq_true_eq]

/-- In a numbering of items of the grammar's rules, all numbers stand for items. -/
theorem known_of_lt_size {items : Numbering Item}
    (hitems : ∀ item ∈ items.entries, item.production < g.rules.length) {kernel : List Nat}
    (hkernel : ∀ id ∈ kernel, id < items.size) : g.itemArena.Known items kernel := by
  intro id hid
  obtain ⟨item, hitem⟩ := Numbering.exists_get?_of_lt (hkernel id hid)
  exact ⟨item, itemArena_value?_eq_some_iff.2 ⟨hitem, hitems item (List.mem_of_getElem? hitem)⟩⟩

/-- Gives an item its number and offers this to the queue. -/
def enter (acc : Numbering Item × Queue Nat) (item : Item) : Numbering Item × Queue Nat :=
  (acc.1.insert item, acc.2.offer (acc.1.number item))

/-- Takes the number of an item from the queue and enters the items that this one awaits.  Nothing
is taken if the number has no item, or its item no rule. -/
def takeItem? (g : Cfg) (acc : Numbering Item × Queue Nat) :
    Option (Nat × (Numbering Item × Queue Nat)) :=
  match acc.2.waiting with
  | [] => none
  | id :: rest =>
    (g.itemArena.value? acc.1 id).map fun item =>
      (id, (g.awaited item).foldl enter (acc.1, { acc.2 with waiting := rest }))

/-- Closing items by their numbers: all numbers of `kernel` are queued, repetitions included, and
`closed` are the numbers that are taken until none waits. -/
def ClosesItems (g : Cfg) :
    Numbering Item → List Nat → Numbering Item → List Nat → Prop :=
  ClosesBy g.takeItem? fun kernel => ⟨kernel, kernel⟩

theorem value?_insert_number {item : Item} (h : item.production < g.rules.length)
    (items : Numbering Item) :
    g.itemArena.value? (items.insert item) (items.number item) = some item :=
  itemArena_value?_eq_some_iff.2 ⟨items.get?_insert_number item, h⟩

/-- Entering items is offering them. -/
theorem mirrors_foldl_enter (acc : Numbering Item × Queue Nat) {new : List Item}
    (hnew : ∀ item ∈ new, item.production < g.rules.length) {q : Queue Item}
    (h : Mirrors g.itemArena acc.1 acc.2 q) :
    acc.1.Extends (new.foldl enter acc).1 ∧
      Mirrors g.itemArena (new.foldl enter acc).1 (new.foldl enter acc).2
        (new.foldl Queue.offer q) := by
  induction new generalizing acc q with
  | nil => exact ⟨Numbering.Extends.refl _, h⟩
  | cons item new ih =>
    have hextends : acc.1.Extends (enter acc item).1 := acc.1.extends_insert item
    have hentered : Mirrors g.itemArena (enter acc item).1 (enter acc item).2 (q.offer item) :=
      (h.later hextends).offer (value?_insert_number (hnew item List.mem_cons_self) acc.1)
    obtain ⟨hrest, hmirrors⟩ :=
      ih (enter acc item) (fun i hi => hnew i (List.mem_cons_of_mem item hi)) hentered
    exact ⟨hextends.trans hrest, hmirrors⟩

/-- Taking the number of an item is taking the item. -/
theorem exists_takeItem?_eq_some {items : Numbering Item} {id : Nat} (rest seen : List Nat)
    {item : Item} {q : Queue Item} (hitem : g.itemArena.value? items id = some item)
    (h : Mirrors g.itemArena items ⟨rest, seen⟩ q) :
    ∃ acc, g.takeItem? (items, ⟨id :: rest, seen⟩) = some (id, acc) ∧
      g.itemArena.Later items acc.1 ∧
      Mirrors g.itemArena acc.1 acc.2 ((g.awaited item).foldl Queue.offer q) := by
  have hnew : ∀ next ∈ g.awaited item, next.production < g.rules.length :=
    fun _ => production_lt_of_mem_awaited
  refine ⟨_, ?_, mirrors_foldl_enter (items, ⟨rest, seen⟩) hnew h⟩
  simp only [takeItem?, hitem, Option.map_some]

/-- Closing by numbers comes to an end, and what it lists are the numbers of the closed items. -/
theorem exists_closesItems {items : Numbering Item} {kernel : List Nat} {ks : List Item}
    (h : g.itemArena.Lists items kernel ks) :
    ∃ items' closed, g.ClosesItems items kernel items' closed ∧ items.Extends items' ∧
      g.itemArena.Lists items' closed (g.closure ks) := by
  have hstart : Mirrors g.itemArena items ⟨kernel, kernel⟩ ⟨ks, ks⟩ := ⟨h, h⟩
  obtain ⟨q, hdrains⟩ := drains_closure (g := g) ks
  obtain ⟨items', seen, closed, hcloses, hlater, hlists⟩ :=
    hdrains.mirror (fun _ _ => rfl) (fun _ _ rest seen _ _ => exists_takeItem?_eq_some rest seen)
      hstart
  exact ⟨items', closed, ⟨seen, hcloses⟩, hlater, hlists⟩

/-- The numbers given come first, and the added ones after them, each once. -/
theorem exists_added {items items' : Numbering Item} {kernel closed : List Nat} {ks : List Item}
    (hks : g.itemArena.Lists items kernel ks) (hextends : items.Extends items')
    (hclosed : g.itemArena.Lists items' closed (g.closure ks)) :
    ∃ added, closed = kernel ++ added ∧ added.Nodup ∧ ∀ id ∈ added, id ∉ kernel := by
  obtain ⟨new, hclosure, hnodup, hnew⟩ := lengthens_closure (g := g) ks
  have hkernel : g.itemArena.Lists items' kernel ks := hks.later hextends
  rw [hclosure] at hclosed
  obtain ⟨added, rfl, hadded⟩ := hclosed.append hkernel
  refine ⟨added, rfl, hadded.nodup_iff.2 hnodup, fun id hid hmem => ?_⟩
  obtain ⟨item, hitem⟩ := hadded.known id hid
  exact hnew item ((hadded.mem_iff hitem).1 hid) ((hkernel.mem_iff hitem).1 hmem)

/-- Entering items changes nothing if they have numbers that have been let in. -/
theorem foldl_enter_eq_self {items : Numbering Item} {seen : List Nat} (waiting : List Nat)
    {new : List Item} (hnew : ∀ next ∈ new, next ∈ g.itemArena.values items seen) :
    new.foldl enter (items, ⟨waiting, seen⟩) = (items, ⟨waiting, seen⟩) := by
  induction new with
  | nil => rfl
  | cons next new ih =>
    obtain ⟨id, hid, hvalue⟩ := hnew next List.mem_cons_self
    have hget := (itemArena_value?_eq_some_iff.1 hvalue).1
    have hinsert : items.insert next = items :=
      Numbering.ext (Numbering.entries_insert_of_mem (List.mem_of_getElem? hget))
    rw [List.foldl_cons, enter, hinsert, Numbering.number_eq_of_get? hget, Queue.offer, if_pos hid]
    exact ih fun i hi => hnew i (List.mem_cons_of_mem next hi)

/-- Nothing happens to a numbering and a queue while numbers are taken that have all been closed. -/
theorem closesItems_self {items : Numbering Item} {closed : List Nat}
    (hknown : g.itemArena.Known items closed)
    (hclosed : ∀ item ∈ g.itemArena.values items closed, ∀ next ∈ g.awaited item,
      next ∈ g.itemArena.values items closed) : g.ClosesItems items closed items closed := by
  have hdrains : ∀ rest : List Nat, (∀ id ∈ rest, id ∈ closed) →
      Drains g.takeItem? (items, ⟨rest, closed⟩) rest (items, ⟨[], closed⟩) := by
    intro rest hrest
    induction rest with
    | nil => exact .empty rfl
    | cons id rest ih =>
      have hid := hrest id List.mem_cons_self
      obtain ⟨item, hitem⟩ := hknown id hid
      refine .take ?_ (ih fun i hi => hrest i (List.mem_cons_of_mem id hi))
      simp only [takeItem?, hitem, Option.map_some]
      rw [foldl_enter_eq_self rest (hclosed item ⟨id, hid, hitem⟩)]
  exact ⟨closed, hdrains closed fun _ hid => hid⟩

/-- Closing items by their numbers closes them. -/
theorem closesUnder_closesItems (g : Cfg) :
    ClosesUnder g.itemArena g.Expands g.ClosesItems := by
  refine closesUnder_of_closed fun items kernel hkernel => ?_
  obtain ⟨ks, hks⟩ := Arena.exists_lists hkernel
  obtain ⟨items', closed, hcloses, hextends, hlists⟩ := exists_closesItems hks
  refine ⟨items', closed, hcloses, hextends, hlists.known, ?_⟩
  rw [hks.values_eq, hlists.values_eq]
  exact g.isClosure_closure ks

end Cfg

/-! ## Items with lookaheads by their numbers -/

/-- Numbered items, and numbered refinements by a lookahead of items that are told by number. -/
structure Refinements where
  items : Numbering Item
  refined : Numbering (Nat × Lookahead)

namespace Cfg

variable {g : Cfg} {sets : FirstSets}

/-- The refined items by their numbers. -/
def refinedArena (g : Cfg) : Arena Refinements LookaheadItem where
  value? s id := (s.refined.get? id).bind fun r =>
    (g.itemArena.value? s.items r.1).map (⟨·, r.2⟩)
  Later s t := s.items.Extends t.items ∧ s.refined.Extends t.refined
  refl s := ⟨Numbering.Extends.refl _, Numbering.Extends.refl _⟩
  trans _ _ _ hst htu := ⟨hst.1.trans htu.1, hst.2.trans htu.2⟩
  keeps s t h id x hx := by
    obtain ⟨r, hr, hx⟩ := Option.bind_eq_some_iff.1 hx
    obtain ⟨item, hitem, rfl⟩ := Option.map_eq_some_iff.1 hx
    refine Option.bind_eq_some_iff.2 ⟨r, h.2.get?_eq hr, Option.map_eq_some_iff.2 ?_⟩
    exact ⟨item, g.itemArena.keeps _ _ h.1 _ _ hitem, rfl⟩
  single s i j x hi hj := by
    obtain ⟨⟨p, la⟩, hp, hx⟩ := Option.bind_eq_some_iff.1 hi
    obtain ⟨item, hitem, rfl⟩ := Option.map_eq_some_iff.1 hx
    obtain ⟨⟨p', la'⟩, hp', hx'⟩ := Option.bind_eq_some_iff.1 hj
    obtain ⟨item', hitem', hsame⟩ := Option.map_eq_some_iff.1 hx'
    cases hsame
    cases g.itemArena.single _ _ _ _ hitem hitem'
    exact Numbering.get?_inj hp hp'

theorem refinedArena_value?_eq_some_iff {s : Refinements} {id : Nat} {x : LookaheadItem} :
    g.refinedArena.value? s id = some x ↔
      ∃ i, s.refined.get? id = some (i, x.lookahead) ∧
        g.itemArena.value? s.items i = some x.item := by
  simp only [refinedArena, Option.bind_eq_some_iff, Option.map_eq_some_iff]
  constructor
  · rintro ⟨r, hr, item, hitem, rfl⟩
    exact ⟨r.1, hr, hitem⟩
  · rintro ⟨i, hi, hitem⟩
    exact ⟨(i, x.lookahead), hi, x.item, hitem, rfl⟩

/-- If moreover all refinements are of numbered items, their numbers stand for refined items. -/
theorem known_refined_of_lt_size {s : Refinements}
    (hitems : ∀ item ∈ s.items.entries, item.production < g.rules.length)
    (hrefined : ∀ r ∈ s.refined.entries, r.1 < s.items.size) {seeds : List Nat}
    (hseeds : ∀ id ∈ seeds, id < s.refined.size) : g.refinedArena.Known s seeds := by
  intro id hid
  obtain ⟨r, hr⟩ := Numbering.exists_get?_of_lt (hseeds id hid)
  have hknown : g.itemArena.Known s.items [r.1] :=
    known_of_lt_size hitems (by simpa using hrefined r (List.mem_of_getElem? hr))
  obtain ⟨item, hitem⟩ := hknown r.1 List.mem_cons_self
  exact ⟨⟨item, r.2⟩, refinedArena_value?_eq_some_iff.2 ⟨r.1, hr, hitem⟩⟩

/-- Gives the refinement by a lookahead of the item with number `i` its number, and offers this to
the queue. -/
def enterUnder (i : Nat) (acc : Refinements × Queue Nat) (la : Lookahead) :
    Refinements × Queue Nat :=
  ({ acc.1 with refined := acc.1.refined.insert (i, la) },
    acc.2.offer (acc.1.refined.number (i, la)))

/-- Gives an item its number and enters its refinements by the given lookaheads. -/
def enterRefined (lookaheads : List Lookahead) (acc : Refinements × Queue Nat) (item : Item) :
    Refinements × Queue Nat :=
  lookaheads.foldl (enterUnder (acc.1.items.number item))
    ({ acc.1 with items := acc.1.items.insert item }, acc.2)

/-- Takes the number of a refined item from the queue and enters the items that this one awaits,
under every lookahead of what comes after the symbol after its dot.  Nothing is taken if the number
has no refined item. -/
def takeRefined? (g : Cfg) (sets : FirstSets) (acc : Refinements × Queue Nat) :
    Option (Nat × (Refinements × Queue Nat)) :=
  match acc.2.waiting with
  | [] => none
  | id :: rest =>
    (g.refinedArena.value? acc.1 id).map fun x =>
      let lookaheads := sets.firstBefore (g.afterNext x.item) x.lookahead
      (id, (g.awaited x.item).foldl (enterRefined lookaheads)
        (acc.1, { acc.2 with waiting := rest }))

/-- Closing refined items by their numbers: the numbers of `seeds` are queued, each once, and
`closed` are the numbers that are taken until none waits. -/
def ClosesRefined (g : Cfg) (sets : FirstSets) :
    Refinements → List Nat → Refinements → List Nat → Prop :=
  ClosesBy (g.takeRefined? sets) fun seeds => seeds.foldl Queue.offer Queue.empty

theorem mirrors_foldl_enterUnder {i : Nat} {item : Item} (lookaheads : List Lookahead)
    (acc : Refinements × Queue Nat) {q : Queue LookaheadItem}
    (hitem : g.itemArena.value? acc.1.items i = some item)
    (h : Mirrors g.refinedArena acc.1 acc.2 q) :
    g.refinedArena.Later acc.1 (lookaheads.foldl (enterUnder i) acc).1 ∧
      Mirrors g.refinedArena (lookaheads.foldl (enterUnder i) acc).1
        (lookaheads.foldl (enterUnder i) acc).2
        ((lookaheads.map (⟨item, ·⟩)).foldl Queue.offer q) := by
  induction lookaheads generalizing acc q with
  | nil => exact ⟨g.refinedArena.refl _, h⟩
  | cons la lookaheads ih =>
    have hlater : g.refinedArena.Later acc.1 (enterUnder i acc la).1 :=
      ⟨Numbering.Extends.refl _, acc.1.refined.extends_insert _⟩
    have hvalue : g.refinedArena.value? (enterUnder i acc la).1 (acc.1.refined.number (i, la)) =
        some ⟨item, la⟩ :=
      refinedArena_value?_eq_some_iff.2 ⟨i, acc.1.refined.get?_insert_number (i, la), hitem⟩
    have hentered : Mirrors g.refinedArena (enterUnder i acc la).1 (enterUnder i acc la).2
        (q.offer ⟨item, la⟩) := (h.later hlater).offer hvalue
    obtain ⟨hrest, hmirrors⟩ := ih (enterUnder i acc la) hitem hentered
    exact ⟨g.refinedArena.trans _ _ _ hlater hrest, hmirrors⟩

/-- Entering items under lookaheads is offering their refinements. -/
theorem mirrors_foldl_enterRefined (lookaheads : List Lookahead) (acc : Refinements × Queue Nat)
    {new : List Item} (hnew : ∀ item ∈ new, item.production < g.rules.length)
    {q : Queue LookaheadItem} (h : Mirrors g.refinedArena acc.1 acc.2 q) :
    g.refinedArena.Later acc.1 (new.foldl (enterRefined lookaheads) acc).1 ∧
      Mirrors g.refinedArena (new.foldl (enterRefined lookaheads) acc).1
        (new.foldl (enterRefined lookaheads) acc).2
        ((new.flatMap fun item => lookaheads.map (⟨item, ·⟩)).foldl Queue.offer q) := by
  induction new generalizing acc q with
  | nil => exact ⟨g.refinedArena.refl _, h⟩
  | cons item new ih =>
    have hlater : g.refinedArena.Later acc.1
        { acc.1 with items := acc.1.items.insert item } :=
      ⟨acc.1.items.extends_insert item, Numbering.Extends.refl _⟩
    obtain ⟨hunder, hentered⟩ := mirrors_foldl_enterUnder lookaheads
      ({ acc.1 with items := acc.1.items.insert item }, acc.2)
      (value?_insert_number (hnew item List.mem_cons_self) acc.1.items) (h.later hlater)
    obtain ⟨hrest, hmirrors⟩ := ih (enterRefined lookaheads acc item)
      (fun i hi => hnew i (List.mem_cons_of_mem item hi)) hentered
    rw [List.flatMap_cons, List.foldl_append]
    exact ⟨g.refinedArena.trans _ _ _ hlater (g.refinedArena.trans _ _ _ hunder hrest), hmirrors⟩

/-- Taking the number of a refined item is taking the refined item. -/
theorem exists_takeRefined?_eq_some {s : Refinements} {id : Nat} (rest seen : List Nat)
    {x : LookaheadItem} {q : Queue LookaheadItem} (hx : g.refinedArena.value? s id = some x)
    (h : Mirrors g.refinedArena s ⟨rest, seen⟩ q) :
    ∃ acc, g.takeRefined? sets (s, ⟨id :: rest, seen⟩) = some (id, acc) ∧
      g.refinedArena.Later s acc.1 ∧
      Mirrors g.refinedArena acc.1 acc.2 ((g.awaitedWith sets x).foldl Queue.offer q) := by
  have hnew : ∀ next ∈ g.awaited x.item, next.production < g.rules.length :=
    fun _ => production_lt_of_mem_awaited
  rw [awaitedWith_eq]
  refine ⟨_, ?_, mirrors_foldl_enterRefined _ (s, ⟨rest, seen⟩) hnew h⟩
  simp only [takeRefined?, hx, Option.map_some]

/-- Closing refined items by their numbers comes to an end, and what it lists are the numbers of
what closing the items, each given once, lists. -/
theorem exists_closesRefined {s : Refinements} {seeds : List Nat} {xs : List LookaheadItem}
    (h : g.refinedArena.Lists s seeds xs) :
    ∃ s' closed, g.ClosesRefined g.firstSets s seeds s' closed ∧ g.refinedArena.Later s s' ∧
      g.refinedArena.Lists s' closed (g.closureWith g.firstSets (appendNew [] xs)) := by
  have hempty : Mirrors g.refinedArena s Queue.empty Queue.empty := ⟨.nil, .nil⟩
  obtain ⟨q, hdrains⟩ := drains_closureWith (g := g) xs
  obtain ⟨s', seen, closed, hcloses, hlater, hlists⟩ :=
    hdrains.mirror (fun _ _ => rfl)
      (fun _ _ rest seen _ _ => exists_takeRefined?_eq_some rest seen) (hempty.offers h)
  exact ⟨s', closed, ⟨seen, hcloses⟩, hlater, hlists⟩

/-- Closing refined items by their numbers closes them. -/
theorem closesUnder_closesRefined (g : Cfg) :
    ClosesUnder g.refinedArena (g.ExpandsWith g.firstSets) (g.ClosesRefined g.firstSets) := by
  refine closesUnder_of_closed fun s seeds hseeds => ?_
  obtain ⟨xs, hxs⟩ := Arena.exists_lists hseeds
  obtain ⟨s', closed, hcloses, hlater, hlists⟩ := exists_closesRefined hxs
  refine ⟨s', closed, hcloses, hlater, hlists.known, ?_⟩
  have honce : {x | x ∈ appendNew [] xs} = {x | x ∈ xs} := by
    ext x
    simp
  rw [hxs.values_eq, hlists.values_eq, ← honce]
  exact g.isClosure_closureWith _

end Cfg

/-! ## Both loops -/

namespace Grammar

/-- Closing items by their numbers comes to the least closed set, without lookaheads and with them,
in any store: what was numbered keeps its number, closing again changes nothing, closing more gives
more, and a union is closed by closing its parts.  Without lookaheads the given numbers are listed
first, as they are, and the added ones after them, each once; with lookaheads every number is listed
once.  What the numbers stand for is what closing lists of items lists. -/
theorem closing_is_least {α : Type} (g : Grammar α) :
    ClosesUnder g.cfg.itemArena g.cfg.Expands g.cfg.ClosesItems ∧
    ClosesUnder g.cfg.refinedArena (g.cfg.ExpandsWith g.automaton.first)
      (g.cfg.ClosesRefined g.automaton.first) ∧
    (∀ items kernel items' closed, g.cfg.itemArena.Known items kernel →
      g.cfg.ClosesItems items kernel items' closed →
        (∃ added, closed = kernel ++ added ∧ added.Nodup ∧ ∀ id ∈ added, id ∉ kernel) ∧
        closed.filterMap (g.cfg.itemArena.value? items') =
          g.cfg.closure (kernel.filterMap (g.cfg.itemArena.value? items)) ∧
        g.cfg.ClosesItems items' closed items' closed) ∧
    ∀ s seeds s' closed, g.cfg.refinedArena.Known s seeds →
      g.cfg.ClosesRefined g.automaton.first s seeds s' closed →
        closed.Nodup ∧
        closed.filterMap (g.cfg.refinedArena.value? s') =
          g.cfg.closureWith g.automaton.first
            (appendNew [] (seeds.filterMap (g.cfg.refinedArena.value? s))) := by
  rw [first_automaton]
  refine ⟨g.cfg.closesUnder_closesItems, g.cfg.closesUnder_closesRefined, ?_, ?_⟩
  · intro items kernel items' closed hkernel hcloses
    obtain ⟨ks, hks⟩ := Arena.exists_lists hkernel
    obtain ⟨items', closed, hcloses', hextends, hlists⟩ := Cfg.exists_closesItems hks
    obtain ⟨rfl, rfl⟩ := hcloses.unique hcloses'
    refine ⟨Cfg.exists_added hks hextends hlists, ?_, ?_⟩
    · rw [hlists.filterMap_eq, hks.filterMap_eq]
    · refine Cfg.closesItems_self hlists.known fun item hitem next hnext => ?_
      have hleast := (g.cfg.closesUnder_closesItems.closed hkernel hcloses).least
      exact hleast.1.2 item hitem next (Cfg.mem_awaited_iff_expands.1 hnext)
  · intro s seeds s' closed hseeds hcloses
    obtain ⟨xs, hxs⟩ := Arena.exists_lists hseeds
    obtain ⟨s', closed, hcloses', -, hlists⟩ := Cfg.exists_closesRefined hxs
    obtain ⟨rfl, rfl⟩ := hcloses.unique hcloses'
    have hnodup : (appendNew [] xs).Nodup := (lengthens_appendNew [] xs).nodup List.nodup_nil
    refine ⟨hlists.nodup_iff.2 (Cfg.nodup_closureWith hnodup), ?_⟩
    rw [hlists.filterMap_eq, hxs.filterMap_eq]

/-- What the items in front of the last of any number of terminals await is numbered behind what has
a number already; with lookaheads, two items are closed together as they are one by one. -/
theorem closing_is_least_anyNumber :
    ∃ (items : Numbering Item) (s : Refinements), items.entries = [⟨1, 1⟩, ⟨0, 0⟩] ∧
      s.items = items ∧ s.refined.entries = [(0, some 2), (1, none)] ∧
      anyNumber.cfg.itemArena.Known items [0] ∧ anyNumber.cfg.refinedArena.Known s [1, 0, 1] ∧
      (∃ items', anyNumber.cfg.ClosesItems items [0] items' [0, 2, 3] ∧ items.Extends items' ∧
        items'.entries = [⟨1, 1⟩, ⟨0, 0⟩, ⟨1, 0⟩, ⟨2, 0⟩] ∧
        anyNumber.cfg.ClosesItems items' [0, 2, 3] items' [0, 2, 3]) ∧
      ∃ s₀ closed₀ s₁ closed₁ s' closed,
        anyNumber.cfg.ClosesRefined anyNumber.automaton.first s [0] s₀ closed₀ ∧
        anyNumber.cfg.ClosesRefined anyNumber.automaton.first s [1] s₁ closed₁ ∧
        anyNumber.cfg.ClosesRefined anyNumber.automaton.first s [1, 0, 1] s' closed ∧
        closed.Nodup ∧ anyNumber.cfg.refinedArena.values s' closed =
          anyNumber.cfg.refinedArena.values s₀ closed₀ ∪
            anyNumber.cfg.refinedArena.values s₁ closed₁ := by
  obtain ⟨hitems, hrefined, hlisted, honce⟩ := closing_is_least anyNumber
  let items : Numbering Item := ⟨[⟨1, 1⟩, ⟨0, 0⟩], by decide⟩
  let s : Refinements := ⟨items, ⟨[(0, some 2), (1, none)], by decide⟩⟩
  have hkernel : anyNumber.cfg.itemArena.Known items [0] :=
    Cfg.known_of_lt_size (by decide) (by decide)
  have hseeds : ∀ seeds : List Nat, (∀ id ∈ seeds, id < 2) →
      anyNumber.cfg.refinedArena.Known s seeds := fun seeds h =>
    Cfg.known_refined_of_lt_size (by decide) (by decide) h
  have hzero := hseeds [0] (by decide)
  have hone := hseeds [1] (by decide)
  have hboth := hseeds [1, 0, 1] (by decide)
  refine ⟨items, s, rfl, rfl, rfl, hkernel, hboth, ?_, ?_⟩
  · have hcloses : anyNumber.cfg.ClosesItems items [0]
        ⟨[⟨1, 1⟩, ⟨0, 0⟩, ⟨1, 0⟩, ⟨2, 0⟩], by decide⟩ [0, 2, 3] :=
      ⟨_, .take rfl (.take rfl (.take rfl (.empty rfl)))⟩
    exact ⟨_, hcloses, (hitems.closed hkernel hcloses).later, rfl,
      (hlisted _ _ _ _ hkernel hcloses).2.2⟩
  · obtain ⟨s₀, closed₀, hcloses₀⟩ := hrefined.ends hzero
    obtain ⟨s₁, closed₁, hcloses₁⟩ := hrefined.ends hone
    obtain ⟨s', closed, hcloses⟩ := hrefined.ends hboth
    have hunion : anyNumber.cfg.refinedArena.values s [1, 0, 1] =
        anyNumber.cfg.refinedArena.values s [0] ∪ anyNumber.cfg.refinedArena.values s [1] :=
      Arena.values_eq_union fun id => by
        simp only [List.mem_cons, List.not_mem_nil, or_false]
        omega
    exact ⟨s₀, closed₀, s₁, closed₁, s', closed, hcloses₀, hcloses₁, hcloses,
      (honce _ _ _ _ hboth hcloses).1,
      hrefined.union hzero hone hboth hunion hcloses₀ hcloses₁ hcloses⟩

end Grammar

end ShiftReduce
