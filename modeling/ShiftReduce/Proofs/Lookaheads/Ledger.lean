import ShiftReduce.Proofs.Lookaheads.Canonical

/-!
# Lookaheads leave the collection alone

The two phases that find the lookahead sets can be made with the collection in hand, so that every
item they come upon is given a number: the beginnings of the rules that a member of a closure
awaits, and the items whose dots have moved over to the next state.  A ledger holds the collection
and what has been numbered anew on the way.

Nothing ever is.  A member of a set refines an item of its state, and states are closed under what
is awaited and under transitions, so whatever comes up has had its number since the collection was
made.  In a productive grammar no item of a state is without a lookahead either.

* `Ledger`: a collection that is numbered on, with `Ledger.enroll` to give an item a number;
* `Ledger.settle`: the two phases with a ledger;
* `Ledger.settle_eq`: they find the same sets and leave the ledger as it was;
* `Grammar.lookaheads_leave_collection_alone`: this, and the items that the members refine.
-/

namespace ShiftReduce

/-- A collection whose items are numbered on, and the items that have been numbered anew. -/
structure Ledger where
  collection : Collection
  fresh : List Item
deriving DecidableEq

namespace Ledger

/-! ## The two phases -/

/-- Gives an item a number. -/
def enroll (l : Ledger) (item : Item) : Ledger where
  collection := { l.collection with items := l.collection.items.insert item }
  fresh := if item ∈ l.collection.items.entries then l.fresh else l.fresh ++ [item]

/-- Reads a worklist of items with lookaheads from index `next` on, and enrolls the beginnings that
each member awaits, under whatever lookaheads. -/
def read (g : Cfg) (sets : FirstSets) :
    Nat → List LookaheadItem → Nat → Ledger → List LookaheadItem × Ledger
  | 0, found, _, l => (found, l)
  | fuel + 1, found, next, l =>
    match found[next]? with
    | none => (found, l)
    | some x =>
      read g sets fuel (appendNew found (g.awaitedWith sets x)) (next + 1)
        ((g.awaited x.item).foldl enroll l)

/-- Closes a list of items with lookaheads. -/
def close (g : Cfg) (sets : FirstSets) (l : Ledger) (seeds : List LookaheadItem) :
    List LookaheadItem × Ledger :=
  let bound := seeds.length + g.rules.length * (g.symbolCount + seeds.length + 1)
  read g sets bound seeds 0 l

/-- What a member of the closure of a kernel item of state `q` contributes; if the dot can move, the
item that this gives is enrolled. -/
def spread (g : Cfg) (q : Nat) (acc : Lookaheads × Ledger) (x : LookaheadItem) :
    Lookaheads × Ledger :=
  (g.spread acc.2.collection q acc.1 x,
    match (g.nextSymbol? x.item).bind (acc.2.collection.goto? q) with
    | none => acc.2
    | some _ => acc.2.enroll x.item.advance)

/-- Closes a kernel item of state `q` under the placeholder and spreads the result. -/
def spontaneousFrom (g : Cfg) (sets : FirstSets) (q : Nat) (acc : Lookaheads × Ledger)
    (item : Item) : Lookaheads × Ledger :=
  let closed := acc.2.close g sets [⟨item, none⟩]
  let items := acc.1.items.insertAll closed.1
  (items.inOrder closed.1).foldl (spread g q) ({ acc.1 with items := items }, closed.2)

/-- The first phase, for given kernels of the states. -/
def spontaneous (g : Cfg) (sets : FirstSets) (l : Ledger) (kernels : List (List Item)) :
    Lookaheads × Ledger :=
  kernels.zipIdx.foldl (fun acc kernel => kernel.1.foldl (spontaneousFrom g sets kernel.2) acc)
    (⟨Numbering.empty, List.replicate l.collection.states.size [], []⟩, l)

/-- Closes the set of a state. -/
def closeSet (g : Cfg) (sets : FirstSets) (acc : Lookaheads × Ledger) (q : Nat) :
    Lookaheads × Ledger :=
  let closed := acc.2.close g sets (acc.1.ordered q)
  let items := acc.1.items.insertAll closed.1
  ({ acc.1 with items := items, states := acc.1.states.set q (items.inOrder closed.1) }, closed.2)

/-- Passes lookaheads along the edges and closes what has grown, until nothing grows; at most
`fuel` passes are made, and they are counted. -/
def propagate (g : Cfg) (sets : FirstSets) :
    Nat → Lookaheads × Ledger → (Lookaheads × Nat) × Ledger
  | 0, acc => ((acc.1, 0), acc.2)
  | fuel + 1, acc =>
    let pushed := Cfg.pushAll acc.1
    if pushed.2.isEmpty then ((pushed.1, 1), acc.2)
    else
      let dirty := (List.range acc.1.states.length).filter (· ∈ pushed.2)
      let settled := propagate g sets fuel (dirty.foldl (closeSet g sets) (pushed.1, acc.2))
      ((settled.1.1, settled.1.2 + 1), settled.2)

/-- The result of both phases, the number of passes of the second, and the ledger afterwards. -/
def settle (g : Cfg) (sets : FirstSets) (l : Ledger) (kernels : List (List Item)) :
    (Lookaheads × Nat) × Ledger :=
  let found := spontaneous g sets l kernels
  let closed := (List.range found.1.states.length).foldl (closeSet g sets) found
  propagate g sets (g.propagateBound l.collection.states.size) closed

/-! ## Nothing is numbered anew -/

theorem enroll_eq_self {l : Ledger} {item : Item} (h : item ∈ l.collection.items.entries) :
    l.enroll item = l := by
  have hinsert : l.collection.items.insert item = l.collection.items :=
    Numbering.ext (Numbering.entries_insert_of_mem h)
  rw [enroll, hinsert, if_pos h]

/-- A fold that leaves the second component alone, as long as the first has a property that is
kept. -/
theorem foldl_eq_of_kept {β γ : Type} {f : β → γ → β} {F : β × Ledger → γ → β × Ledger}
    {l : Ledger} {P : β → Prop} {as : List γ}
    (h : ∀ b, P b → ∀ a ∈ as, F (b, l) a = (f b a, l) ∧ P (f b a)) {b : β} (hb : P b) :
    as.foldl F (b, l) = (as.foldl f b, l) := by
  induction as generalizing b with
  | nil => rfl
  | cons a as ih =>
    obtain ⟨heq, hkept⟩ := h b hb a List.mem_cons_self
    rw [List.foldl_cons, heq, List.foldl_cons]
    exact ih (fun b hb c hc => h b hb c (List.mem_cons_of_mem _ hc)) hkept

/-- A fold that always leaves the second component alone. -/
theorem foldl_eq_of_forall {β γ : Type} {f : β → γ → β} {F : β × Ledger → γ → β × Ledger}
    {l : Ledger} {as : List γ} (h : ∀ b, ∀ a ∈ as, F (b, l) a = (f b a, l)) (b : β) :
    as.foldl F (b, l) = (as.foldl f b, l) :=
  foldl_eq_of_kept (P := fun _ => True) (fun b _ a ha => ⟨h b a ha, trivial⟩) trivial

variable {g : Cfg} {fresh : List Item} {q : Nat}

theorem foldl_enroll_eq_self {items : List Item}
    (h : ∀ item ∈ items, item ∈ g.collection.state q) :
    items.foldl enroll ⟨g.collection, fresh⟩ = ⟨g.collection, fresh⟩ := by
  induction items with
  | nil => rfl
  | cons item items ih =>
    have hmem : item ∈ g.collection.items.entries :=
      (g.state_sublist q).subset (h item List.mem_cons_self)
    rw [List.foldl_cons, enroll_eq_self hmem]
    exact ih fun i hi => h i (List.mem_cons_of_mem _ hi)

/-- Items of a state await items of the state only, so reading them numbers nothing anew. -/
theorem read_eq (sets : FirstSets) (fuel next : Nat) {found : List LookaheadItem}
    (h : ∀ x ∈ found, x.item ∈ g.collection.state q) :
    read g sets fuel found next ⟨g.collection, fresh⟩ =
      (explore (g.awaitedWith sets) fuel found next, ⟨g.collection, fresh⟩) := by
  induction fuel generalizing found next with
  | zero => rfl
  | succ fuel ih =>
    rw [read, explore]
    cases hx : found[next]? with
    | none => rfl
    | some x =>
      have hitem := h x (List.mem_of_getElem? hx)
      dsimp only
      rw [foldl_enroll_eq_self fun _ hi => Cfg.mem_state_of_awaited hitem hi]
      refine ih (next + 1) fun y hy => ?_
      rcases mem_appendNew.1 hy with hy | hy
      · exact h y hy
      · exact Cfg.mem_state_of_awaited hitem (Cfg.awaited_of_awaitedWith hy)

theorem close_eq (sets : FirstSets) {seeds : List LookaheadItem}
    (h : ∀ x ∈ seeds, x.item ∈ g.collection.state q) :
    close g sets ⟨g.collection, fresh⟩ seeds =
      (g.closureWith sets seeds, ⟨g.collection, fresh⟩) :=
  read_eq sets _ 0 h

theorem item_mem_state_of_mem_closureWith {seeds : List LookaheadItem}
    (h : ∀ x ∈ seeds, x.item ∈ g.collection.state q) {x : LookaheadItem}
    (hx : x ∈ g.closureWith g.firstSets seeds) : x.item ∈ g.collection.state q := by
  obtain ⟨w, hw, hleads⟩ := Cfg.mem_closureWith.1 hx
  exact hleads.induct (h w hw) fun _ _ hy hz =>
    Cfg.mem_state_of_awaited hy (Cfg.awaited_of_awaitedWith hz)

/-- Where the dot of an item can move, the next state has the item that this gives. -/
theorem spread_eq (s : Lookaheads) {x : LookaheadItem} (hx : x.item ∈ g.collection.state q) :
    spread g q (s, ⟨g.collection, fresh⟩) x =
      (g.spread g.collection q s x, ⟨g.collection, fresh⟩) := by
  refine congrArg (g.spread g.collection q s x, ·) ?_
  dsimp only
  split
  · rfl
  · next target hgoto =>
    obtain ⟨symbol, hnext, hgoto⟩ := Cfg.bind_goto?_eq_some_iff.1 hgoto
    exact enroll_eq_self ((g.state_sublist target).subset (Cfg.advance_mem_state hgoto hx hnext))

theorem spontaneousFrom_eq (s : Lookaheads) {item : Item} (h : item ∈ g.collection.kernel q) :
    spontaneousFrom g g.firstSets q (s, ⟨g.collection, fresh⟩) item =
      (g.spontaneousFrom g.firstSets g.collection q s item, ⟨g.collection, fresh⟩) := by
  have hseeds : ∀ x ∈ [(⟨item, none⟩ : LookaheadItem)], x.item ∈ g.collection.state q := by
    intro x hx
    obtain rfl := List.mem_singleton.1 hx
    exact (List.mem_filter.1 h).1
  rw [spontaneousFrom, close_eq g.firstSets hseeds, Cfg.spontaneousFrom]
  refine foldl_eq_of_forall (fun t x hx => ?_) _
  exact spread_eq t (item_mem_state_of_mem_closureWith hseeds (Numbering.mem_inOrder.1 hx).2)

/-- The first phase, for the kernels that the collection has. -/
theorem spontaneous_eq (g : Cfg) (fresh : List Item) :
    spontaneous g g.firstSets ⟨g.collection, fresh⟩ g.collection.kernels =
      (g.spontaneous g.firstSets g.collection, ⟨g.collection, fresh⟩) := by
  have hkernels : g.collection.kernels.zipIdx =
      (List.range g.collection.states.size).map fun q => (g.collection.kernel q, q) := by
    refine List.ext_getElem ?_ fun q hq hq' => ?_
    · simp [Collection.kernels]
    · simp [Collection.kernels]
  rw [spontaneous, hkernels, List.foldl_map, Cfg.spontaneous]
  refine foldl_eq_of_forall (fun s q _ => ?_) _
  refine foldl_eq_of_forall (fun s item hitem => ?_) s
  exact spontaneousFrom_eq s hitem

/-- The set of a state is closed without numbering anything anew if its members refine items of the
state. -/
theorem closeSet_eq {s : Lookaheads} (h : ∀ x ∈ s.state q, g.Proper q x) :
    closeSet g g.firstSets (s, ⟨g.collection, fresh⟩) q =
      (g.closeSet g.firstSets s q, ⟨g.collection, fresh⟩) := by
  have hmembers : ∀ x ∈ s.ordered q, x.item ∈ g.collection.state q := fun x hx =>
    (h x (Numbering.mem_inOrder.1 hx).2).1
  rw [closeSet, close_eq g.firstSets hmembers, Cfg.closeSet]

theorem closeSets_eq {s : Lookaheads} {count : Nat} (hs : s.Tidy count)
    (hin : ∀ q, ∀ x ∈ s.state q, g.Proper q x) (qs : List Nat) :
    qs.foldl (closeSet g g.firstSets) (s, ⟨g.collection, fresh⟩) =
      (qs.foldl (g.closeSet g.firstSets) s, ⟨g.collection, fresh⟩) := by
  refine foldl_eq_of_kept (P := fun s => s.Tidy count ∧ ∀ q, ∀ x ∈ s.state q, g.Proper q x)
    (fun t ht q _ => ⟨closeSet_eq (ht.2 q), Cfg.tidy_closeSet ht.1 q, ?_⟩) ⟨hs, hin⟩
  exact g.kept_proper.closeSets ht.1 ht.2 [q]

/-- The second phase, from sets whose members refine items of their states. -/
theorem propagate_eq {s : Lookaheads} (hs : g.Underway s)
    (hin : ∀ q, ∀ x ∈ s.state q, g.Proper q x) (fuel : Nat) :
    propagate g g.firstSets fuel (s, ⟨g.collection, fresh⟩) =
      (g.propagate g.firstSets fuel s, ⟨g.collection, fresh⟩) := by
  induction fuel generalizing s with
  | zero => rfl
  | succ fuel ih =>
    rw [propagate, Cfg.propagate]
    dsimp only
    split
    · rfl
    · rw [closeSets_eq hs.pushAll.tidy (g.kept_proper.pushAll hs hin)]
      exact congrArg (fun settled => ((settled.1.1, settled.1.2 + 1), settled.2))
        (ih hs.passed (g.kept_proper.passed hs hin))

/-- With a ledger the phases find the same sets in as many passes, and they leave the ledger as it
was. -/
theorem settle_eq (g : Cfg) (fresh : List Item) :
    settle g g.firstSets ⟨g.collection, fresh⟩ g.collection.kernels =
      ((g.lookaheads, g.lookaheadPasses), ⟨g.collection, fresh⟩) := by
  have hfound : ∀ q, ∀ x ∈ g.found.state q, g.Proper q x := by
    intro q x hx
    obtain ⟨-, q', y, hcomes, hputs⟩ := Cfg.mem_state_spontaneous.1 hx
    exact g.kept_proper.put q' y hcomes q x hputs
  have hsettled : g.settleLookaheads g.firstSets g.collection =
      g.propagate g.firstSets (g.propagateBound g.collection.states.size) g.ready := rfl
  rw [settle, spontaneous_eq, closeSets_eq Cfg.tidy_spontaneous hfound]
  refine (propagate_eq Cfg.underway_ready g.kept_proper.ready _).trans ?_
  rw [Cfg.lookaheads, Cfg.lookaheadPasses, hsettled]

end Ledger

/-! ## What the members refine -/

/-- In a productive grammar every item of a state has a lookahead there. -/
theorem Cfg.Productive.exists_lookahead {g : Cfg} (h : g.Productive) {q : Nat} {item : Item}
    (hitem : item ∈ g.collection.state q) : ∃ la, ⟨item, la⟩ ∈ g.lookaheads.state q := by
  obtain ⟨word, hword⟩ := Cfg.exists_walk? (Collection.lt_size_of_mem_state hitem)
  obtain ⟨la, hvalid⟩ := h.exists_validItem_of_mem_state hword hitem
  exact ⟨la, hvalid.mem_lookaheads hword⟩

namespace Grammar

/-- The phases that find the lookahead sets leave the collection alone: run with a ledger on it and
its kernels they come to the lookahead sets of the grammar, the items, states and transitions are
the same as before, and no item has been numbered anew.  The members of the set of a state refine
items of the state, and all of them when every nonterminal derives a string of terminals. -/
theorem lookaheads_leave_collection_alone {α : Type} (g : Grammar α) :
    Ledger.settle g.cfg g.automaton.first ⟨g.automaton.collection, []⟩
        g.automaton.collection.kernels =
      ((g.automaton.lookaheads, g.automaton.lookaheadPasses), ⟨g.automaton.collection, []⟩) ∧
    (∀ q, ∀ x ∈ g.automaton.lookaheads.state q, x.item ∈ g.automaton.collection.state q) ∧
    (g.cfg.Productive → ∀ q item, item ∈ g.automaton.collection.state q ↔
      ∃ la, ⟨item, la⟩ ∈ g.automaton.lookaheads.state q) := by
  have hrefine : ∀ q, ∀ x ∈ g.cfg.lookaheads.state q, x.item ∈ g.cfg.collection.state q :=
    fun q x hx => (Cfg.proper_of_mem hx).1
  rw [collection_automaton, first_automaton, lookaheads_automaton, lookaheadPasses_automaton]
  refine ⟨Ledger.settle_eq g.cfg [], hrefine, ?_⟩
  intro hproductive q item
  constructor
  · exact hproductive.exists_lookahead
  · rintro ⟨la, hla⟩
    exact hrefine q _ hla

/-- Every item of the grammar for any number of terminals has a lookahead. -/
theorem lookaheads_leave_collection_alone_anyNumber :
    anyNumber.cfg.Productive ∧
    (⟨1, 1⟩ : Item) ∈ anyNumber.automaton.collection.state 2 ∧
    ∃ la, ⟨⟨1, 1⟩, la⟩ ∈ anyNumber.automaton.lookaheads.state 2 := by
  have hmem : (⟨1, 1⟩ : Item) ∈ anyNumber.automaton.collection.state 2 := by decide +kernel
  obtain ⟨-, -, hequal⟩ := anyNumber.lookaheads_leave_collection_alone
  exact ⟨Cfg.productive_anyNumber, hmem, (hequal Cfg.productive_anyNumber 2 ⟨1, 1⟩).1 hmem⟩

end Grammar

end ShiftReduce
