import ShiftReduce.Proofs.Worklist

/-!
# Loops that end by themselves

A pass is repeated as long as it asks for another one, and a queue is emptied while it is being
filled.  As relations between the beginning and the end of a run, such loops know of no fuel: they
hold of runs that come to an end by themselves, and say how long these are.

A worklist is a queue.  What is taken from it is let in once, so reading a growing list by index
and taking values from the queue come to the same.

* `Repeats`, `Repeats.exists_of_weight`: a pass that adds to a bounded weight whenever it asks for
  another one is not repeated for ever;
* `Drains`: a queue that is emptied, with the values taken from it in order;
* `Queue`, `drains_explore`: the queue of a worklist, and what is taken from it;
* `Lengthens`: what was on a worklist before stays in front, and what is added is added once.
-/

namespace ShiftReduce

/-! ## Repeated passes -/

section Repeats

variable {σ : Type}

/-- `Repeats pass again s n t` says that making the pass from `s` on, until it does not ask for
another one, takes `n` passes and leads to `t`.  Whether it asks is told from where it sets out. -/
inductive Repeats (pass : σ → σ) (again : σ → Prop) : σ → Nat → σ → Prop
  | last {s : σ} (h : ¬ again s) : Repeats pass again s 1 (pass s)
  | next {s t : σ} {n : Nat} (h : again s) (rest : Repeats pass again (pass s) n t) :
      Repeats pass again s (n + 1) t

variable {pass : σ → σ} {again : σ → Prop}

/-- If every pass that asks for another one keeps an invariant and adds to a weight that the
invariant bounds, then the passes come to an end, and there are no more of them than the weight can
grow, and one. -/
theorem Repeats.exists_of_weight {Inv : σ → Prop} {weight : σ → Nat} {bound : Nat}
    (hbound : ∀ s, Inv s → weight s ≤ bound)
    (hstep : ∀ s, Inv s → again s → Inv (pass s) ∧ weight s < weight (pass s)) {s : σ}
    (h : Inv s) : ∃ n t, Repeats pass again s n t ∧ n + weight s ≤ bound + 1 := by
  induction hroom : bound - weight s using Nat.strongRecOn generalizing s with
  | ind room ih =>
    subst hroom
    have hle := hbound s h
    by_cases hagain : again s
    · obtain ⟨hinv, hlt⟩ := hstep s h hagain
      have hle' := hbound (pass s) hinv
      obtain ⟨n, t, hrest, hn⟩ := ih _ (by omega) hinv rfl
      exact ⟨n + 1, t, .next hagain hrest, by omega⟩
    · exact ⟨1, pass s, .last hagain, by omega⟩

end Repeats

/-! ## Queues that are emptied -/

section Drains

variable {σ β : Type}

/-- `Drains take? s bs t` says that taking values from `s` on until there is none left takes the
values `bs`, in this order, and leads to `t`. -/
inductive Drains (take? : σ → Option (β × σ)) : σ → List β → σ → Prop
  | empty {s : σ} (h : take? s = none) : Drains take? s [] s
  | take {s t u : σ} {b : β} {bs : List β} (h : take? s = some (b, t))
      (rest : Drains take? t bs u) : Drains take? s (b :: bs) u

/-- There is only one way to go on. -/
theorem Drains.unique {take? : σ → Option (β × σ)} {s t u : σ} {bs cs : List β}
    (h : Drains take? s bs t) (h' : Drains take? s cs u) : bs = cs ∧ t = u := by
  induction h generalizing cs with
  | empty hnone =>
    cases h' with
    | empty => exact ⟨rfl, rfl⟩
    | take hsome => exact absurd (hnone.symm.trans hsome) (Option.some_ne_none _).symm
  | take hsome _ ih =>
    cases h' with
    | empty hnone => exact absurd (hnone.symm.trans hsome) (Option.some_ne_none _).symm
    | take hsome' hrest =>
      rw [hsome] at hsome'
      cases hsome'
      obtain ⟨rfl, rfl⟩ := ih hrest
      exact ⟨rfl, rfl⟩

end Drains

variable {α : Type}

/-! ## What is added to a worklist -/

/-- The later list begins with the earlier one, and the values after that are new, each once. -/
def Lengthens (found later : List α) : Prop :=
  ∃ added, later = found ++ added ∧ added.Nodup ∧ ∀ a ∈ added, a ∉ found

theorem Lengthens.refl (found : List α) : Lengthens found found :=
  ⟨[], (List.append_nil _).symm, List.nodup_nil, by simp⟩

theorem Lengthens.trans {found later latest : List α} (h : Lengthens found later)
    (h' : Lengthens later latest) : Lengthens found latest := by
  obtain ⟨added, rfl, hnodup, hnew⟩ := h
  obtain ⟨more, rfl, hnodup', hnew'⟩ := h'
  refine ⟨added ++ more, List.append_assoc .., ?_, ?_⟩
  · refine List.nodup_append.2 ⟨hnodup, hnodup', ?_⟩
    rintro a ha b hb rfl
    exact hnew' a hb (List.mem_append_right _ ha)
  · intro a ha
    rcases List.mem_append.1 ha with ha | ha
    · exact hnew a ha
    · exact fun hmem => hnew' a ha (List.mem_append_left _ hmem)

/-- If nothing was there twice before, nothing is there twice afterwards. -/
theorem Lengthens.nodup {found later : List α} (h : Lengthens found later) (hfound : found.Nodup) :
    later.Nodup := by
  obtain ⟨added, rfl, hnodup, hnew⟩ := h
  refine List.nodup_append.2 ⟨hfound, hnodup, ?_⟩
  rintro a ha b hb rfl
  exact hnew a hb ha

variable [DecidableEq α] {successors : α → List α}

theorem lengthens_appendNew (found new : List α) : Lengthens found (appendNew found new) := by
  induction new generalizing found with
  | nil => exact Lengthens.refl found
  | cons b bs ih =>
    rw [appendNew_cons]
    refine Lengthens.trans ?_ (ih _)
    by_cases hb : b ∈ found
    · rw [if_pos hb]
      exact Lengthens.refl found
    · rw [if_neg hb]
      exact ⟨[b], rfl, by simp, by simpa using hb⟩

theorem lengthens_explore (successors : α → List α) (fuel : Nat) (found : List α) (next : Nat) :
    Lengthens found (explore successors fuel found next) := by
  induction fuel generalizing found next with
  | zero => exact Lengthens.refl found
  | succ fuel ih =>
    rw [explore]
    split
    · exact Lengthens.refl found
    · exact (lengthens_appendNew found _).trans (ih _ _)

/-- Values that are all new, none of them twice, are appended as they are. -/
theorem appendNew_eq_append {found new : List α} (hnodup : new.Nodup)
    (hnew : ∀ a ∈ new, a ∉ found) : appendNew found new = found ++ new := by
  induction new generalizing found with
  | nil => exact (List.append_nil _).symm
  | cons b bs ih =>
    obtain ⟨hb, hbs⟩ := List.nodup_cons.1 hnodup
    rw [appendNew_cons, if_neg (hnew b List.mem_cons_self), ih hbs, List.append_assoc,
      List.singleton_append]
    intro a ha hmem
    rcases List.mem_append.1 hmem with hmem | hmem
    · exact hnew a (List.mem_cons_of_mem b ha) hmem
    · exact hb (List.mem_singleton.1 hmem ▸ ha)

/-! ## The queue of a worklist -/

/-- Values that wait to be taken, and all values that have ever been let in. -/
structure Queue (α : Type) where
  waiting : List α
  seen : List α

namespace Queue

/-- The queue without values. -/
def empty : Queue α := ⟨[], []⟩

/-- Lets a value in unless it has been let in before. -/
def offer (q : Queue α) (a : α) : Queue α :=
  if a ∈ q.seen then q else ⟨q.waiting ++ [a], a :: q.seen⟩

/-- Takes the first value that waits and offers its successors. -/
def take? (successors : α → List α) (q : Queue α) : Option (α × Queue α) :=
  match q.waiting with
  | [] => none
  | a :: rest => some (a, (successors a).foldl offer { q with waiting := rest })

/-- The queue stands where the worklist `found` is read at index `next`. -/
structure At (q : Queue α) (found : List α) (next : Nat) : Prop where
  waiting_eq : q.waiting = found.drop next
  mem_seen : ∀ a, a ∈ q.seen ↔ a ∈ found
  next_le : next ≤ found.length

omit [DecidableEq α] in
theorem at_empty : (empty : Queue α).At [] 0 := ⟨rfl, fun _ => Iff.rfl, Nat.le_refl _⟩

omit [DecidableEq α] in
/-- The queue of a whole list, repetitions included. -/
theorem at_self (found : List α) : (⟨found, found⟩ : Queue α).At found 0 :=
  ⟨rfl, fun _ => Iff.rfl, Nat.zero_le _⟩

/-- What is offered waits where it is appended to the worklist. -/
theorem At.offers {q : Queue α} {found : List α} {next : Nat} (h : q.At found next)
    (new : List α) : (new.foldl offer q).At (appendNew found new) next := by
  induction new generalizing q found with
  | nil => exact h
  | cons b bs ih =>
    rw [appendNew_cons, List.foldl_cons]
    apply ih
    rw [offer]
    by_cases hb : b ∈ found
    · rw [if_pos hb, if_pos ((h.mem_seen b).2 hb)]
      exact h
    · rw [if_neg hb, if_neg fun hseen => hb ((h.mem_seen b).1 hseen)]
      refine ⟨?_, ?_, ?_⟩
      · rw [h.waiting_eq, List.drop_append_of_le_length h.next_le]
      · intro a
        rw [List.mem_cons, h.mem_seen, List.mem_append, List.mem_singleton]
        exact or_comm
      · rw [List.length_append]
        exact Nat.le_add_right_of_le h.next_le

theorem take?_eq_none {q : Queue α} {found : List α} {next : Nat} (h : q.At found next)
    (hnone : found[next]? = none) : q.take? successors = none := by
  rw [take?, h.waiting_eq, List.drop_eq_nil_of_le (List.getElem?_eq_none_iff.1 hnone)]

/-- Taking a value is reading it: the queue then stands at the next index. -/
theorem exists_take?_eq_some (successors : α → List α) {q : Queue α} {found : List α} {next : Nat}
    {a : α} (h : q.At found next) (ha : found[next]? = some a) :
    ∃ q' : Queue α, q.take? successors = some (a, q') ∧
      q'.At (appendNew found (successors a)) (next + 1) := by
  obtain ⟨hlt, hget⟩ := List.getElem?_eq_some_iff.1 ha
  have hwaiting : q.waiting = a :: found.drop (next + 1) := by
    rw [h.waiting_eq, List.drop_eq_getElem_cons hlt, hget]
  have hrest : Queue.At { q with waiting := found.drop (next + 1) } found (next + 1) :=
    ⟨rfl, h.mem_seen, hlt⟩
  refine ⟨_, ?_, hrest.offers (successors a)⟩
  rw [take?, hwaiting]

end Queue

/-- With fuel for all that can be added, what is taken from the queue is what the worklist holds in
the end, from where the queue stands. -/
theorem drains_explore {pool : List α} {P : α → Prop}
    (hstep : ∀ a, P a → ∀ b ∈ successors a, b ∈ pool ∧ P b) {fuel next : Nat} {found : List α}
    (hP : ∀ a ∈ found, P a) (hfuel : found.length + (missing pool found).length ≤ fuel + next)
    {q : Queue α} (h : q.At found next) :
    ∃ q', Drains (Queue.take? successors) q ((explore successors fuel found next).drop next)
      q' := by
  induction fuel generalizing found next q with
  | zero =>
    have hnone : found[next]? = none := List.getElem?_eq_none (by omega)
    rw [explore, List.drop_eq_nil_of_le (List.getElem?_eq_none_iff.1 hnone)]
    exact ⟨q, .empty (Queue.take?_eq_none h hnone)⟩
  | succ fuel ih =>
    rw [explore]
    split
    · next hnone =>
      rw [List.drop_eq_nil_of_le (List.getElem?_eq_none_iff.1 hnone)]
      exact ⟨q, .empty (Queue.take?_eq_none h hnone)⟩
    · next a ha =>
      have hPa : P a := hP a (List.mem_of_getElem? ha)
      have hroom : (appendNew found (successors a)).length +
          (missing pool (appendNew found (successors a))).length ≤
            found.length + (missing pool found).length :=
        length_appendNew_add_missing_le fun b hb => (hstep a hPa b hb).1
      have hP' : ∀ b ∈ appendNew found (successors a), P b := by
        intro b hb
        rcases mem_appendNew.1 hb with hb | hb
        · exact hP b hb
        · exact (hstep a hPa b hb).2
      obtain ⟨q', htake, hat⟩ := Queue.exists_take?_eq_some successors h ha
      obtain ⟨q'', hdrains⟩ := ih hP' (by omega) hat
      -- What is read stays where it is, so the list goes on with it.
      have hget : (explore successors fuel (appendNew found (successors a)) (next + 1))[next]? =
          some a := by
        obtain ⟨added, hadded, -⟩ := (lengthens_appendNew found (successors a)).trans
          (lengthens_explore successors fuel _ (next + 1))
        rw [hadded, List.getElem?_append_left (List.getElem?_eq_some_iff.1 ha).1, ha]
      obtain ⟨hlt, hget⟩ := List.getElem?_eq_some_iff.1 hget
      rw [List.drop_eq_getElem_cons hlt, hget]
      exact ⟨q'', .take htake hdrains⟩

/-- A queue that stands at the beginning of a worklist gives what the worklist holds in the end. -/
theorem drains_explore_zero {pool : List α} {P : α → Prop}
    (hstep : ∀ a, P a → ∀ b ∈ successors a, b ∈ pool ∧ P b) {fuel : Nat} {found : List α}
    (hP : ∀ a ∈ found, P a) (hfuel : found.length + pool.length ≤ fuel) {q : Queue α}
    (h : q.At found 0) :
    ∃ q', Drains (Queue.take? successors) q (explore successors fuel found 0) q' := by
  have hroom : (missing pool found).length ≤ pool.length := List.length_filter_le _ _
  exact drains_explore hstep hP (by omega) h

end ShiftReduce
