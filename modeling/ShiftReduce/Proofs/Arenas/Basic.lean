import Mathlib.Data.List.Nodup
import Mathlib.Order.Bounds.Basic
import ShiftReduce.Proofs.Loops.Basic

/-!
# Closing by numbers

A queue can hold numbers in the place of values.  The values are then kept in an arena, a store that
is numbered on while the queue is emptied.  If a number keeps its value and no value has two
numbers, this makes no difference: the numbers that are taken stand for the values that would have
been taken, one by one.

* `IsClosure`: the least set that holds given values and, with every member, what the member adds;
* `Arena`: values by their numbers, and what a store can become;
* `Mirrors`, `Drains.mirror`: a queue of numbers is emptied like the queue of their values;
* `Closed`: what closing numbers comes to;
* `ClosesBy`, `ClosesUnder`: a loop on numbers, and what it does if it closes sets of values, with
  `closesUnder_of_closed` to show that it does.
-/

namespace ShiftReduce

/-! ## Least closed sets -/

section Least

variable {β : Type} {adds : β → β → Prop} {A B S T : Set β}

/-- The least set that holds the seeds and, with every member, what the member adds. -/
def IsClosure (adds : β → β → Prop) (seeds S : Set β) : Prop :=
  IsLeast {T : Set β | seeds ⊆ T ∧ ∀ a ∈ T, ∀ b, adds a b → b ∈ T} S

theorem IsClosure.mono (hS : IsClosure adds A S) (hT : IsClosure adds B T) (h : A ⊆ B) : S ⊆ T :=
  hS.2 ⟨h.trans hT.1.1, hT.1.2⟩

/-- What has been closed is its own closure. -/
theorem IsClosure.self (hS : IsClosure adds A S) : IsClosure adds S S :=
  ⟨⟨subset_rfl, hS.1.2⟩, fun _ hT => hT.1⟩

theorem IsClosure.union (hS : IsClosure adds A S) (hT : IsClosure adds B T) :
    IsClosure adds (A ∪ B) (S ∪ T) := by
  refine ⟨⟨Set.union_subset_union hS.1.1 hT.1.1, ?_⟩, ?_⟩
  · rintro a (ha | ha) b hab
    · exact Or.inl (hS.1.2 a ha b hab)
    · exact Or.inr (hT.1.2 a ha b hab)
  · rintro U ⟨hseeds, hclosed⟩
    obtain ⟨hA, hB⟩ := Set.union_subset_iff.1 hseeds
    exact Set.union_subset (hS.2 ⟨hA, hclosed⟩) (hT.2 ⟨hB, hclosed⟩)

/-- The least set closed under successors is what the seeds lead to. -/
theorem isClosure_leads (successors : β → List β) (seeds : Set β) :
    IsClosure (fun a b => b ∈ successors a) seeds {b | ∃ a ∈ seeds, Leads successors a b} := by
  refine ⟨⟨fun a ha => ⟨a, ha, .refl⟩, ?_⟩, ?_⟩
  · rintro a ⟨seed, hseed, hleads⟩ b hb
    exact ⟨seed, hseed, hleads.tail hb⟩
  · rintro T ⟨hseeds, hclosed⟩ b ⟨a, ha, hleads⟩
    exact hleads.induct (hseeds ha) fun x y hx hy => hclosed x hx y hy

end Least

/-! ## Arenas -/

/-- Values of type `β` by their numbers, in a store of type `σ` that can grow. -/
structure Arena (σ β : Type) where
  /-- The value that a number stands for. -/
  value? : σ → Nat → Option β
  /-- The second store is what the first has become. -/
  Later : σ → σ → Prop
  refl : ∀ s, Later s s
  trans : ∀ s t u, Later s t → Later t u → Later s u
  /-- A number keeps its value. -/
  keeps : ∀ s t, Later s t → ∀ id b, value? s id = some b → value? t id = some b
  /-- No value has two numbers. -/
  single : ∀ s i j b, value? s i = some b → value? s j = some b → i = j

namespace Arena

variable {σ β : Type} (arena : Arena σ β)

/-- The values that the numbers stand for. -/
def values (s : σ) (ids : List Nat) : Set β := {b | ∃ id ∈ ids, arena.value? s id = some b}

/-- Every one of the numbers stands for a value. -/
def Known (s : σ) (ids : List Nat) : Prop := ∀ id ∈ ids, ∃ b, arena.value? s id = some b

/-- The numbers stand for the values, one by one. -/
abbrev Lists (s : σ) (ids : List Nat) (bs : List β) : Prop :=
  List.Forall₂ (fun id b => arena.value? s id = some b) ids bs

variable {arena} {s t : σ} {ids : List Nat} {bs : List β}

theorem biUnique (arena : Arena σ β) (s : σ) :
    Relator.BiUnique fun id b => arena.value? s id = some b :=
  ⟨fun i j b hi hj => arena.single s i j b hi hj, fun _ _ _ hb hc =>
    Option.some.inj (hb.symm.trans hc)⟩

/-- Numbers put together stand for the values put together. -/
theorem values_eq_union {more all : List Nat} (h : ∀ id, id ∈ all ↔ id ∈ ids ∨ id ∈ more) :
    arena.values s all = arena.values s ids ∪ arena.values s more := by
  ext b
  simp only [values, h, or_and_right, exists_or]
  rfl

theorem Lists.later (h : arena.Lists s ids bs) (ht : arena.Later s t) : arena.Lists t ids bs :=
  h.imp fun id b => arena.keeps s t ht id b

theorem exists_lists (h : arena.Known s ids) : ∃ bs, arena.Lists s ids bs := by
  induction ids with
  | nil => exact ⟨[], .nil⟩
  | cons id ids ih =>
    obtain ⟨b, hb⟩ := h id List.mem_cons_self
    obtain ⟨bs, hbs⟩ := ih fun i hi => h i (List.mem_cons_of_mem id hi)
    exact ⟨b :: bs, .cons hb hbs⟩

theorem Lists.known (h : arena.Lists s ids bs) : arena.Known s ids := by
  induction h with
  | nil => simp [Known]
  | cons hb _ ih =>
    intro i hi
    rcases List.mem_cons.1 hi with rfl | hi
    · exact ⟨_, hb⟩
    · exact ih i hi

theorem Lists.mem_iff (h : arena.Lists s ids bs) {id : Nat} {b : β}
    (hb : arena.value? s id = some b) : id ∈ ids ↔ b ∈ bs :=
  List.rel_mem (arena.biUnique s) hb h

theorem Lists.values_eq (h : arena.Lists s ids bs) : arena.values s ids = {b | b ∈ bs} := by
  ext b
  constructor
  · rintro ⟨id, hid, hb⟩
    exact (h.mem_iff hb).1 hid
  · intro hb
    obtain ⟨i, hi, rfl⟩ := List.getElem_of_mem hb
    have hlt : i < ids.length := h.length_eq.symm ▸ hi
    exact ⟨ids[i], List.getElem_mem hlt, h.get hlt hi⟩

theorem Lists.filterMap_eq (h : arena.Lists s ids bs) : ids.filterMap (arena.value? s) = bs := by
  induction h with
  | nil => rfl
  | cons hb _ ih => rw [List.filterMap_cons_some hb, ih]

theorem Lists.nodup_iff (h : arena.Lists s ids bs) : ids.Nodup ↔ bs.Nodup :=
  List.rel_nodup (arena.biUnique s) h

/-- A list that goes on is listed by numbers that go on likewise. -/
theorem Lists.append {cs : List β} {all : List Nat} (h : arena.Lists s all (bs ++ cs))
    (hids : arena.Lists s ids bs) : ∃ more, all = ids ++ more ∧ arena.Lists s more cs := by
  have hfront := List.forall₂_take_append all bs cs h
  have hsame : all.take bs.length = ids :=
    List.left_unique_forall₂' (arena.biUnique s).1 hfront hids
  refine ⟨all.drop bs.length, ?_, List.forall₂_drop_append all bs cs h⟩
  rw [← hsame, List.take_append_drop]

end Arena

/-! ## Queues of numbers -/

section Mirrors

variable {σ β : Type} {arena : Arena σ β} {s t : σ} {ids : Queue Nat} {q : Queue β}

/-- The queue of numbers is the queue of values, number by number. -/
structure Mirrors (arena : Arena σ β) (s : σ) (ids : Queue Nat) (q : Queue β) : Prop where
  waiting : arena.Lists s ids.waiting q.waiting
  seen : arena.Lists s ids.seen q.seen

theorem Mirrors.later (h : Mirrors arena s ids q) (ht : arena.Later s t) : Mirrors arena t ids q :=
  ⟨h.waiting.later ht, h.seen.later ht⟩

variable [DecidableEq β]

theorem Mirrors.offer (h : Mirrors arena s ids q) {id : Nat} {b : β}
    (hb : arena.value? s id = some b) : Mirrors arena s (ids.offer id) (q.offer b) := by
  rw [Queue.offer, Queue.offer]
  by_cases hseen : b ∈ q.seen
  · rw [if_pos hseen, if_pos ((h.seen.mem_iff hb).2 hseen)]
    exact h
  · rw [if_neg hseen, if_neg fun hid => hseen ((h.seen.mem_iff hb).1 hid)]
    exact ⟨List.rel_append h.waiting (.cons hb .nil), .cons hb h.seen⟩

/-- Numbers that are offered one by one, where the store stays as it is. -/
theorem Mirrors.offers (h : Mirrors arena s ids q) {nums : List Nat} {bs : List β}
    (hnums : arena.Lists s nums bs) :
    Mirrors arena s (nums.foldl Queue.offer ids) (bs.foldl Queue.offer q) := by
  induction hnums generalizing ids q with
  | nil => exact h
  | cons hb _ ih => exact ih (h.offer hb)

/-- If taking a number comes to the same as taking its value, then the numbers that are taken until
none is left stand for the values that are. -/
theorem Drains.mirror {take? : σ × Queue Nat → Option (Nat × (σ × Queue Nat))}
    {successors : β → List β} (hempty : ∀ s seen, take? (s, ⟨[], seen⟩) = none)
    (hstep : ∀ s id rest seen b q, arena.value? s id = some b → Mirrors arena s ⟨rest, seen⟩ q →
      ∃ acc, take? (s, ⟨id :: rest, seen⟩) = some (id, acc) ∧ arena.Later s acc.1 ∧
        Mirrors arena acc.1 acc.2 ((successors b).foldl Queue.offer q))
    {q' : Queue β} {bs : List β} (h : Drains (Queue.take? successors) q bs q')
    (hq : Mirrors arena s ids q) :
    ∃ s' seen nums, Drains take? (s, ids) nums (s', ⟨[], seen⟩) ∧ arena.Later s s' ∧
      arena.Lists s' nums bs := by
  induction h generalizing s ids with
  | @empty q hnone =>
    obtain ⟨waiting, seen⟩ := q
    obtain ⟨nums, numsSeen⟩ := ids
    cases waiting with
    | nil =>
      obtain rfl : nums = [] := List.forall₂_nil_right_iff.1 hq.waiting
      exact ⟨s, numsSeen, [], .empty (hempty s numsSeen), arena.refl s, .nil⟩
    | cons b rest => exact absurd hnone (Option.some_ne_none _)
  | @take q r u b bs hsome _ ih =>
    obtain ⟨waiting, seen⟩ := q
    obtain ⟨nums, numsSeen⟩ := ids
    cases waiting with
    | nil => exact absurd hsome (Option.some_ne_none _).symm
    | cons b rest =>
      cases hsome
      obtain ⟨id, numsRest, hb, hrest, rfl⟩ := List.forall₂_cons_right_iff.1 hq.waiting
      obtain ⟨acc, htake, hlater, hacc⟩ := hstep s id numsRest numsSeen b ⟨rest, seen⟩ hb
        ⟨hrest, hq.seen⟩
      obtain ⟨s', last, taken, hdrains, hlater', hlists⟩ := ih hacc
      have hfirst := arena.keeps _ _ (arena.trans _ _ _ hlater hlater') id b hb
      exact ⟨s', last, id :: taken, .take htake hdrains, arena.trans _ _ _ hlater hlater',
        .cons hfirst hlists⟩

end Mirrors

/-! ## What closing comes to -/

/-- The numbers `closed` in the store `s'` are what the numbers `ids` in the store `s` come to when
they are closed under what members add. -/
structure Closed {σ β : Type} (arena : Arena σ β) (adds : β → β → Prop) (s : σ) (ids : List Nat)
    (s' : σ) (closed : List Nat) : Prop where
  /-- What was numbered before keeps its number. -/
  later : arena.Later s s'
  known : arena.Known s' closed
  least : IsClosure adds (arena.values s ids) (arena.values s' closed)

namespace Closed

variable {σ β : Type} {arena : Arena σ β} {adds : β → β → Prop} {s s' t t' u u' : σ}
  {ids more all closed closed' closed'' : List Nat}

/-- Closing what has been closed gives the same numbers. -/
theorem mem_iff_mem (h : Closed arena adds s ids s' closed) {again : List Nat}
    (hagain : ∀ id, id ∈ again ↔ id ∈ closed) (h' : Closed arena adds s' again t closed')
    (id : Nat) : id ∈ closed' ↔ id ∈ closed := by
  have hargument : arena.values s' again = arena.values s' closed := by
    ext b
    simp only [Arena.values, hagain]
  have hleast := h'.least
  rw [hargument] at hleast
  have hvalues : arena.values t closed' = arena.values s' closed :=
    hleast.unique h.least.self
  constructor
  · intro hid
    obtain ⟨b, hb⟩ := h'.known id hid
    have hmem : b ∈ arena.values s' closed := hvalues ▸ ⟨id, hid, hb⟩
    obtain ⟨i, hi, hib⟩ := hmem
    exact arena.single t i id b (arena.keeps _ _ h'.later i b hib) hb ▸ hi
  · intro hid
    obtain ⟨b, hb⟩ := h.known id hid
    have hmem : b ∈ arena.values t closed' := hvalues ▸ ⟨id, hid, hb⟩
    obtain ⟨i, hi, hib⟩ := hmem
    exact arena.single t i id b hib (arena.keeps _ _ h'.later id b hb) ▸ hi

theorem values_subset (h : Closed arena adds s ids s' closed)
    (h' : Closed arena adds t more t' closed')
    (hsubset : arena.values s ids ⊆ arena.values t more) :
    arena.values s' closed ⊆ arena.values t' closed' :=
  h.least.mono h'.least hsubset

theorem values_eq_union (h : Closed arena adds s ids s' closed)
    (h' : Closed arena adds t more t' closed') (h'' : Closed arena adds u all u' closed'')
    (hunion : arena.values u all = arena.values s ids ∪ arena.values t more) :
    arena.values u' closed'' = arena.values s' closed ∪ arena.values t' closed' := by
  have hleast := h''.least
  rw [hunion] at hleast
  exact hleast.unique (h.least.union h'.least)

end Closed

/-! ## Loops that close -/

/-- Taking numbers from the queue that `start` makes of `ids`, until none waits, takes the numbers
`closed` and leads from the store `s` to `s'`. -/
def ClosesBy {σ : Type} (take? : σ × Queue Nat → Option (Nat × (σ × Queue Nat)))
    (start : List Nat → Queue Nat) (s : σ) (ids : List Nat) (s' : σ) (closed : List Nat) : Prop :=
  ∃ seen, Drains take? (s, start ids) closed (s', ⟨[], seen⟩)

theorem ClosesBy.unique {σ : Type} {take? : σ × Queue Nat → Option (Nat × (σ × Queue Nat))}
    {start : List Nat → Queue Nat} {s s₁ s₂ : σ} {ids closed₁ closed₂ : List Nat}
    (h₁ : ClosesBy take? start s ids s₁ closed₁) (h₂ : ClosesBy take? start s ids s₂ closed₂) :
    s₁ = s₂ ∧ closed₁ = closed₂ := by
  obtain ⟨seen₁, hdrains₁⟩ := h₁
  obtain ⟨seen₂, hdrains₂⟩ := h₂
  obtain ⟨hclosed, hend⟩ := hdrains₁.unique hdrains₂
  exact ⟨congrArg Prod.fst hend, hclosed⟩

/-- The loop `Closes`, which takes a store and numbers to a store and numbers, closes sets of values
under what their members add. -/
structure ClosesUnder {σ β : Type} (arena : Arena σ β) (adds : β → β → Prop)
    (Closes : σ → List Nat → σ → List Nat → Prop) : Prop where
  /-- It comes to an end whenever it is given numbers that stand for values. -/
  ends {s : σ} {ids : List Nat} : arena.Known s ids → ∃ s' closed, Closes s ids s' closed
  /-- It has one result only. -/
  determined {s s₁ s₂ : σ} {ids closed₁ closed₂ : List Nat} :
    Closes s ids s₁ closed₁ → Closes s ids s₂ closed₂ → s₁ = s₂ ∧ closed₁ = closed₂
  /-- The result is the least closed set, in a store that has been numbered on. -/
  closed {s s' : σ} {ids closed : List Nat} : arena.Known s ids → Closes s ids s' closed →
    Closed arena adds s ids s' closed
  /-- Closing the result again, its numbers arranged in any way, gives the same numbers. -/
  idempotent {s s' t : σ} {ids closed again closed' : List Nat} : arena.Known s ids →
    Closes s ids s' closed → (∀ id, id ∈ again ↔ id ∈ closed) → Closes s' again t closed' →
      ∀ id, id ∈ closed' ↔ id ∈ closed
  /-- Closing more gives more. -/
  monotone {s s' t t' : σ} {ids more closed closed' : List Nat} : arena.Known s ids →
    arena.Known t more → arena.values s ids ⊆ arena.values t more → Closes s ids s' closed →
      Closes t more t' closed' → arena.values s' closed ⊆ arena.values t' closed'
  /-- Closing a union gives the union of what closing its parts gives. -/
  union {s s' t t' u u' : σ} {ids more all closed closed' closed'' : List Nat} :
    arena.Known s ids → arena.Known t more → arena.Known u all →
      arena.values u all = arena.values s ids ∪ arena.values t more → Closes s ids s' closed →
        Closes t more t' closed' → Closes u all u' closed'' →
          arena.values u' closed'' = arena.values s' closed ∪ arena.values t' closed'

/-- A loop that always comes to the least closed set does all that is asked of closing. -/
theorem closesUnder_of_closed {σ β : Type} {arena : Arena σ β} {adds : β → β → Prop}
    {take? : σ × Queue Nat → Option (Nat × (σ × Queue Nat))} {start : List Nat → Queue Nat}
    (hends : ∀ s ids, arena.Known s ids → ∃ s' closed, ClosesBy take? start s ids s' closed ∧
      Closed arena adds s ids s' closed) :
    ClosesUnder arena adds (ClosesBy take? start) := by
  -- What the loop can come to is the result that there is.
  have hclosed : ∀ {s s' : σ} {ids closed : List Nat}, arena.Known s ids →
      ClosesBy take? start s ids s' closed → Closed arena adds s ids s' closed := by
    intro s s' ids closed hids hcloses
    obtain ⟨t, nums, hcloses', h⟩ := hends s ids hids
    obtain ⟨rfl, rfl⟩ := hcloses.unique hcloses'
    exact h
  refine ⟨?_, ClosesBy.unique, hclosed, ?_, ?_, ?_⟩
  · intro s ids hids
    obtain ⟨s', closed, hcloses, -⟩ := hends s ids hids
    exact ⟨s', closed, hcloses⟩
  · intro s s' t ids closed again closed' hids hcloses hsame hcloses'
    have h := hclosed hids hcloses
    have hagain : arena.Known s' again := fun id hid => h.known id ((hsame id).1 hid)
    exact h.mem_iff_mem hsame (hclosed hagain hcloses')
  · intro s s' t t' ids more closed closed' hids hmore hsubset hcloses hcloses'
    exact (hclosed hids hcloses).values_subset (hclosed hmore hcloses') hsubset
  · intro s s' t t' u u' ids more all closed closed' closed'' hids hmore hall hunion hs ht hu
    exact (hclosed hids hs).values_eq_union (hclosed hmore ht) (hclosed hall hu) hunion

end ShiftReduce
