import ShiftReduce.Automaton
import ShiftReduce.Proofs.FirstPass
import ShiftReduce.Proofs.Lookaheads.Settled
import ShiftReduce.Proofs.Loops.Basic

/-!
# The construction comes to an end

Four kinds of loops construct an automaton: passes over the rules find the FIRST sets, states are
taken up from a queue, passes along the edges spread lookaheads, and in the midst of these, items
are closed.  None of them needs a bound to end.  What a pass adds, it adds to sets of bounded size,
and what is let into a queue is a value that has not been let in before, out of finitely many.

* `Cfg.repeats_firstPass`, `Cfg.repeats_passed`: the passes end at the finished sets;
* `Cfg.drains_closure`, `Cfg.drains_closureWith`: what is taken while items are closed;
* `Agenda`, `Cfg.drains_collection`: the queue of states, and the order in which they are taken up;
* `Grammar.construction_is_bounded`: all loops with their bounds.
-/

namespace ShiftReduce

namespace Cfg

variable {g : Cfg}

/-- The number of items counts each rule with every place of the dot. -/
theorem itemCount_eq (g : Cfg) : g.itemCount = (g.rules.map fun r => r.right.length + 1).sum := by
  have hrules : (g.rules.zipIdx.map fun r => r.1.right.length + 1) =
      g.rules.map fun r => r.right.length + 1 := by
    conv_rhs => rw [← List.zipIdx_map_fst 0 g.rules, List.map_map]
    rfl
  simp [itemCount, allItems, List.length_flatMap, hrules]

/-! ## Passes over the rules -/

/-- Passes that end by themselves are those that are made with enough fuel. -/
theorem growFirst_of_repeats {sets found : FirstSets} {n fuel : Nat}
    (h : Repeats (fun s => (g.firstPass s).sets) (fun s => (g.firstPass s).grew = true) sets n
      found) (hfuel : n ≤ fuel) : g.growFirst fuel sets = (found, n) := by
  induction h generalizing fuel with
  | last hlast =>
    cases fuel with
    | zero => omega
    | succ fuel => rw [growFirst, if_neg hlast]
  | next hnext _ ih =>
    cases fuel with
    | zero => omega
    | succ fuel => rw [growFirst, if_pos hnext, ih (by omega)]

/-- The passes over the rules end at the FIRST sets. -/
theorem repeats_firstPass (g : Cfg) :
    Repeats (fun s => (g.firstPass s).sets) (fun s => (g.firstPass s).grew = true) g.firstSeed
        g.firstPasses g.firstSets ∧
      g.firstPasses ≤ g.nonterminals.length * (g.terminals.length + 1) + 1 := by
  have hstep : ∀ sets : FirstSets, sets.Fits g → (g.firstPass sets).grew = true →
      (g.firstPass sets).sets.Fits g ∧ sets.weight g < (g.firstPass sets).sets.weight g := by
    intro sets hsets hgrew
    rw [firstPass_eq hsets, decide_eq_true_eq] at hgrew
    rw [firstPass_eq hsets]
    rcases hsets.firstStep_eq_or_weight_lt with hsame | hlt
    · exact absurd hsame hgrew
    · exact ⟨hsets.firstStep, hlt⟩
  have hends : ∃ n found, Repeats (fun s => (g.firstPass s).sets)
      (fun s => (g.firstPass s).grew = true) g.firstSeed n found ∧
        n + g.firstSeed.weight g ≤ g.nonterminals.length * (g.terminals.length + 1) + 1 :=
    Repeats.exists_of_weight (fun _ hs => hs.weight_le) hstep g.fits_firstSeed
  obtain ⟨n, found, hrepeats, hn⟩ := hends
  have hbound : n ≤ g.firstBound := by
    rw [firstBound]
    omega
  have hfound : g.settleFirst g.firstBound g.firstSeed = (found, n) := by
    rw [← growFirst_eq g.fits_firstSeed, growFirst_of_repeats hrepeats hbound]
  rw [firstPasses, firstSets, hfound]
  exact ⟨hrepeats, hbound⟩

/-! ## Passes along the edges -/

theorem passed_of_none {s : Lookaheads} (h : (pushAll s).2 = []) : g.passed s = (pushAll s).1 := by
  rw [passed, h]
  simp

/-- Passes that end by themselves are those that are made with enough fuel. -/
theorem propagate_of_repeats {s found : Lookaheads} {n fuel : Nat}
    (h : Repeats g.passed (fun s => (pushAll s).2 ≠ []) s n found) (hfuel : n ≤ fuel) :
    g.propagate g.firstSets fuel s = (found, n) := by
  induction h generalizing fuel with
  | last hlast =>
    cases fuel with
    | zero => omega
    | succ fuel =>
      rw [passed_of_none (not_not.1 hlast)]
      simp [propagate, not_not.1 hlast]
  | @next s found n hnext _ ih =>
    cases fuel with
    | zero => omega
    | succ fuel =>
      have hrest : g.propagate g.firstSets fuel (g.passed s) = (found, n) := ih (by omega)
      rw [passed] at hrest
      simp [propagate, hnext, hrest]

/-- The passes along the edges end at the lookahead sets. -/
theorem repeats_passed (g : Cfg) :
    Repeats g.passed (fun s => (pushAll s).2 ≠ []) g.ready g.lookaheadPasses g.lookaheads ∧
      g.lookaheadPasses ≤
        g.collection.states.size * g.itemCount * (g.terminals.length + 1) + 1 := by
  have hstep : ∀ s : Lookaheads, (g.Underway s ∧ ∀ q, ∀ x ∈ s.state q, g.Proper q x) →
      (pushAll s).2 ≠ [] →
        (g.Underway (g.passed s) ∧ ∀ q, ∀ x ∈ (g.passed s).state q, g.Proper q x) ∧
          s.weight g.collection.states.size < (g.passed s).weight g.collection.states.size := by
    rintro s ⟨hs, hproper⟩ hgrown
    exact ⟨⟨hs.passed, g.kept_proper.passed hs hproper⟩, weight_lt_passed hs hgrown⟩
  obtain ⟨n, found, hrepeats, hn⟩ := Repeats.exists_of_weight (fun _ hs => weight_le hs.1 hs.2)
    hstep ⟨underway_ready, g.kept_proper.ready⟩
  have hbound : n ≤ g.propagateBound g.collection.states.size := by
    rw [propagateBound, Nat.mul_assoc]
    omega
  have hfound : g.settleLookaheads g.firstSets g.collection = (found, n) :=
    propagate_of_repeats hrepeats hbound
  rw [lookaheadPasses, lookaheads, hfound]
  exact ⟨hrepeats, hbound⟩

/-! ## Items that are closed -/

/-- While items are closed, they are taken from the queue in the order in which they are listed. -/
theorem drains_closure (kernel : List Item) :
    ∃ q, Drains (Queue.take? g.awaited) ⟨kernel, kernel⟩ (g.closure kernel) q :=
  drains_explore_zero (fun _ _ _ h => ⟨mem_beginnings_of_awaited h, trivial⟩) (fun _ _ => trivial)
    (by rw [length_beginnings]) (Queue.at_self kernel)

/-- The same for items with lookaheads; what is given more than once is let in once. -/
theorem drains_closureWith (seeds : List LookaheadItem) :
    ∃ q, Drains (Queue.take? (g.awaitedWith g.firstSets)) (seeds.foldl Queue.offer Queue.empty)
      (g.closureWith g.firstSets (appendNew [] seeds)) q := by
  refine drains_explore_zero (fun _ hx _ => mem_beginningsFrom_of_awaitedWith hx)
    (fun _ => mem_lookaheadsFrom) ?_ (Queue.at_empty.offers seeds)
  rw [length_beginningsFrom]
  exact Nat.add_le_add_left (Nat.mul_le_mul_left _ (Nat.le_succ _)) _

theorem lengthens_closure (kernel : List Item) : Lengthens kernel (g.closure kernel) :=
  lengthens_explore _ _ _ _

theorem nodup_closureWith {seeds : List LookaheadItem} (h : seeds.Nodup) :
    (g.closureWith g.firstSets seeds).Nodup :=
  (lengthens_explore _ _ _ _).nodup h

end Cfg

/-! ## States that are taken up -/

/-- A collection in the making, and the numbers of the states that wait to be taken up. -/
structure Agenda where
  collection : Collection
  waiting : List Nat

namespace Agenda

variable {g : Cfg}

/-- Follows one symbol from `state`; if this leads to a new state, its number is put on the
agenda. -/
def follow (g : Cfg) (state : List Item) (acc : (Collection × List (Option Nat)) × List Nat)
    (symbol : Nat) : (Collection × List (Option Nat)) × List Nat :=
  (g.follow state acc.1 symbol,
    match g.moved state symbol with
    | [] => acc.2
    | item :: kernel =>
      let target := (g.closeState acc.1.1.items (item :: kernel)).2
      if target ∈ acc.1.1.states.entries then acc.2
      else acc.2 ++ [acc.1.1.states.number target])

/-- Takes up the first state that waits: follows every symbol from it. -/
def take? (g : Cfg) (a : Agenda) : Option (Nat × Agenda) :=
  match a.waiting with
  | [] => none
  | q :: rest =>
    let acc := (List.range g.symbolCount).foldl (follow g (a.collection.state q))
      ((a.collection, []), rest)
    some (q, ⟨{ acc.1.1 with gotos := acc.1.1.gotos ++ [acc.1.2] }, acc.2⟩)

/-- The numbers from `next` on of the states of a collection. -/
def numbersFrom (c : Collection) (next : Nat) : List Nat :=
  List.range' next (c.states.size - next)

theorem numbersFrom_eq_cons {c : Collection} {next : Nat} (h : next < c.states.size) :
    numbersFrom c next = next :: numbersFrom c (next + 1) := by
  have hsize : c.states.size - next = c.states.size - (next + 1) + 1 := by omega
  rw [numbersFrom, hsize, List.range'_succ, numbersFrom]

theorem numbersFrom_eq_nil {c : Collection} {next : Nat} (h : c.states.get? next = none) :
    numbersFrom c next = [] := by
  have hle : c.states.size ≤ next := List.getElem?_eq_none_iff.1 h
  rw [numbersFrom, Nat.sub_eq_zero_of_le hle, List.range'_zero]

/-- The agenda of a collection: the states that have not been taken up. -/
def of (c : Collection) : Agenda := ⟨c, numbersFrom c c.gotos.length⟩

/-- A new state is put at the end of the agenda. -/
theorem follow_snd {state : List Item} {acc : (Collection × List (Option Nat)) × List Nat}
    {next : Nat} (h : acc.2 = numbersFrom acc.1.1 next) (hle : next ≤ acc.1.1.states.size)
    (symbol : Nat) :
    (follow g state acc symbol).2 = numbersFrom (g.follow state acc.1 symbol).1 next := by
  cases hmoved : g.moved state symbol with
  | nil => simpa only [follow, Cfg.follow, hmoved] using h
  | cons item kernel =>
    simp only [follow, Cfg.follow, hmoved]
    generalize (g.closeState acc.1.1.items (item :: kernel)).2 = target
    by_cases hmem : target ∈ acc.1.1.states.entries
    · rw [if_pos hmem, h, numbersFrom, numbersFrom, Numbering.size, Numbering.size,
        Numbering.entries_insert_of_mem hmem]
    · have hsize : acc.1.1.states.size + 1 - next = acc.1.1.states.size - next + 1 := by omega
      have hlast : next + (acc.1.1.states.size - next) = acc.1.1.states.size := by omega
      rw [if_neg hmem, h, numbersFrom, numbersFrom, Numbering.size_insert_of_not_mem hmem, hsize,
        List.range'_1_concat, hlast, Numbering.number_of_not_mem hmem]

theorem foldl_follow {state : List Item} (symbols : List Nat)
    {acc : (Collection × List (Option Nat)) × List Nat} {next : Nat}
    (h : acc.2 = numbersFrom acc.1.1 next) (hle : next ≤ acc.1.1.states.size) :
    symbols.foldl (follow g state) acc =
      (symbols.foldl (g.follow state) acc.1,
        numbersFrom (symbols.foldl (g.follow state) acc.1).1 next) := by
  induction symbols generalizing acc with
  | nil => exact Prod.ext rfl h
  | cons symbol symbols ih =>
    have hextends := (Cfg.foldl_follow (g := g) state [symbol] acc.1).1
    exact ih (follow_snd h hle symbol) (Nat.le_trans hle hextends.size_le)

/-- Taking up the first state on the agenda of a collection leads to the agenda of the collection
in which it has been taken up. -/
theorem take?_of {c : Collection} {state : List Item}
    (hstate : c.states.get? c.gotos.length = some state) :
    take? g (of c) = some (c.gotos.length, of (g.takeUp c state)) := by
  have hlt : c.gotos.length < c.states.size := Numbering.lt_size_of_get? hstate
  have hfold := @foldl_follow g state (List.range g.symbolCount)
    ((c, []), numbersFrom c (c.gotos.length + 1)) _ rfl hlt
  have hof : of (g.takeUp c state) =
      ⟨g.takeUp c state, numbersFrom (g.takeUp c state) (c.gotos.length + 1)⟩ := by
    rw [of, Cfg.length_gotos_takeUp]
  rw [take?, of, numbersFrom_eq_cons hlt, hof]
  simp only [Collection.state_eq_of_get? hstate, hfold]
  rfl

theorem take?_of_eq_none {c : Collection} (h : c.states.get? c.gotos.length = none) :
    take? g (of c) = none := by
  rw [take?, of, numbersFrom_eq_nil h]

end Agenda

namespace Cfg

variable {g : Cfg}

theorem extends_collect (fuel : Nat) (c : Collection) :
    c.states.Extends (g.collect fuel c).states := by
  induction fuel generalizing c with
  | zero => exact Numbering.Extends.refl _
  | succ fuel ih =>
    rw [collect]
    split
    · exact Numbering.Extends.refl _
    · exact (extends_takeUp c _).trans (ih _)

/-- With fuel for as many states as there can be, the states on the agenda are taken up in the
order of their numbers, until none is left. -/
theorem drains_collect {c : Collection} (h : c.Consistent g) {fuel : Nat}
    (hfuel : 2 ^ g.itemCount ≤ fuel + c.gotos.length) :
    Drains (Agenda.take? g) (.of c) (Agenda.numbersFrom (g.collect fuel c) c.gotos.length)
      (.of (g.collect fuel c)) := by
  induction fuel generalizing c with
  | zero =>
    have hnone : c.states.get? c.gotos.length = none := by
      have hsize : c.states.entries.length ≤ 2 ^ g.itemCount := h.numbered.size_le
      exact List.getElem?_eq_none (by omega)
    rw [collect, Agenda.numbersFrom_eq_nil hnone]
    exact .empty (Agenda.take?_of_eq_none hnone)
  | succ fuel ih =>
    rw [collect]
    split
    · next hnone =>
      rw [Agenda.numbersFrom_eq_nil hnone]
      exact .empty (Agenda.take?_of_eq_none hnone)
    · next state hstate =>
      have hlength := length_gotos_takeUp (g := g) c state
      have hrest := ih (h.takeUp hstate) (by omega)
      have hlt : c.gotos.length < (g.collect fuel (g.takeUp c state)).states.size := calc
        c.gotos.length < c.states.size := Numbering.lt_size_of_get? hstate
        _ ≤ (g.takeUp c state).states.size := (extends_takeUp c state).size_le
        _ ≤ (g.collect fuel (g.takeUp c state)).states.size := (extends_collect fuel _).size_le
      rw [hlength] at hrest
      rw [Agenda.numbersFrom_eq_cons hlt]
      exact .take (Agenda.take?_of hstate) hrest

/-- Every state is taken up once, in the order of numbers. -/
theorem drains_collection (g : Cfg) :
    Drains (Agenda.take? g) ⟨g.collectionSeed, [0]⟩ (List.range g.collection.states.size)
      ⟨g.collection, []⟩ := by
  have hdrains : Drains (Agenda.take? g) (.of g.collectionSeed)
      (Agenda.numbersFrom g.collection 0) (.of g.collection) :=
    drains_collect g.consistent_collectionSeed (Nat.le_add_right _ _)
  have hend : Agenda.of g.collection = ⟨g.collection, []⟩ := by
    rw [Agenda.of, Agenda.numbersFrom, g.length_gotos_collection, Nat.sub_self, List.range'_zero]
  have hlist : Agenda.numbersFrom g.collection 0 = List.range g.collection.states.size :=
    List.range_eq_range'.symm
  exact hlist ▸ hend ▸ hdrains

/-- There are no more items in the collection than places of the dot. -/
theorem size_items_collection_le (g : Cfg) : g.collection.items.size ≤ g.itemCount :=
  (List.subperm_of_subset g.collection.items.nodup g.consistent_collection.numbered.items).length_le

end Cfg

namespace Grammar

variable {α : Type}

/-- All loops of the construction end by themselves, within bounds that can be told from the
grammar.  Let there be `N` nonterminals, `T` terminals, `I` items (each rule with every place of the
dot) and `Q` states.  The passes over the rules, each of which reports whether it has added
anything, are at most `N * (T + 1) + 1`, and end at the FIRST sets.  The states on the agenda are
taken up once each, in the order of their numbers, until all of the collection have been; there are
at most `2 ^ I` of them and at most `I` items.  The passes along the edges are at most
`Q * I * (T + 1) + 1`, and end at the lookahead sets.  While items are closed, those that are given
are taken first, as they are, and then others, each of them once; with lookaheads, no item at all is
taken twice. -/
theorem construction_is_bounded (g : Grammar α) :
    let N := g.cfg.nonterminals.length
    let T := g.cfg.terminals.length
    let I := (g.cfg.rules.map fun r => r.right.length + 1).sum
    let Q := g.automaton.collection.states.size
    (Repeats (fun sets => (g.cfg.firstPass sets).sets)
        (fun sets => (g.cfg.firstPass sets).grew = true) g.cfg.firstSeed g.automaton.firstPasses
        g.automaton.first ∧
      g.automaton.firstPasses ≤ N * (T + 1) + 1) ∧
    (Drains (Agenda.take? g.cfg) ⟨g.cfg.collectionSeed, [0]⟩ (List.range Q)
        ⟨g.automaton.collection, []⟩ ∧
      Q ≤ 2 ^ I ∧ g.automaton.collection.items.size ≤ I) ∧
    (Repeats g.cfg.passed (fun sets => (Cfg.pushAll sets).2 ≠ []) g.cfg.ready
        g.automaton.lookaheadPasses g.automaton.lookaheads ∧
      g.automaton.lookaheadPasses ≤ Q * I * (T + 1) + 1) ∧
    (∀ kernel : List Item, ∃ added queue,
      Drains (Queue.take? g.cfg.awaited) ⟨kernel, kernel⟩ (kernel ++ added) queue ∧
        added.Nodup ∧ (∀ item ∈ added, item ∉ kernel) ∧ g.cfg.closure kernel = kernel ++ added) ∧
    ∀ seeds : List LookaheadItem, ∃ taken queue,
      Drains (Queue.take? (g.cfg.awaitedWith g.automaton.first))
          (seeds.foldl Queue.offer Queue.empty) taken queue ∧
        taken.Nodup ∧ (seeds.Nodup → g.cfg.closureWith g.automaton.first seeds = taken) := by
  intro N T I Q
  have hitems : I = g.cfg.itemCount := g.cfg.itemCount_eq.symm
  have hstates : Q = g.cfg.collection.states.size := by rw [← collection_automaton]
  rw [hitems, hstates, first_automaton, firstPasses_automaton, collection_automaton,
    lookaheadPasses_automaton, lookaheads_automaton]
  refine ⟨g.cfg.repeats_firstPass, ⟨g.cfg.drains_collection,
    g.cfg.consistent_collection.numbered.size_le, g.cfg.size_items_collection_le⟩,
    g.cfg.repeats_passed, ?_, ?_⟩
  · intro kernel
    obtain ⟨queue, hdrains⟩ := Cfg.drains_closure (g := g.cfg) kernel
    obtain ⟨added, hclosed, hnodup, hnew⟩ := Cfg.lengthens_closure (g := g.cfg) kernel
    rw [hclosed] at hdrains
    exact ⟨added, queue, hdrains, hnodup, hnew, hclosed⟩
  · intro seeds
    obtain ⟨queue, hdrains⟩ := Cfg.drains_closureWith (g := g.cfg) seeds
    have hnodup : (appendNew [] seeds).Nodup := (lengthens_appendNew [] seeds).nodup List.nodup_nil
    refine ⟨_, queue, hdrains, Cfg.nodup_closureWith hnodup, fun hseeds => ?_⟩
    rw [appendNew_eq_append hseeds (by simp), List.nil_append]

end Grammar

end ShiftReduce
