/-!
# Worklists

A worklist is a list that is read from the front while it grows at the back.  Each member that
is read contributes its successors; those that are not on the list yet are appended to it.  The
list is finished when every member has been read, and it is then closed under successors.

* `appendNew`: appends the values that a list does not hold yet;
* `explore`: reads the whole worklist.
-/

namespace ShiftReduce

variable {α : Type} [DecidableEq α]

/-- `found` followed by the members of `new` that it lacks, each once and in order. -/
def appendNew (found : List α) (new : List α) : List α :=
  new.foldl (fun acc a => if a ∈ acc then acc else acc ++ [a]) found

theorem appendNew_cons (found : List α) (b : α) (bs : List α) :
    appendNew found (b :: bs) = appendNew (if b ∈ found then found else found ++ [b]) bs := rfl

@[simp]
theorem mem_appendNew {found new : List α} {a : α} :
    a ∈ appendNew found new ↔ a ∈ found ∨ a ∈ new := by
  induction new generalizing found with
  | nil => simp [appendNew]
  | cons b bs ih =>
    rw [appendNew_cons, ih]
    by_cases h : b ∈ found
    · rw [if_pos h, List.mem_cons]
      constructor
      · rintro (ha | ha)
        · exact Or.inl ha
        · exact Or.inr (Or.inr ha)
      · rintro (ha | rfl | ha)
        · exact Or.inl ha
        · exact Or.inl h
        · exact Or.inr ha
    · simp [h, or_assoc]

/-- Reads the worklist `found` from index `next` on, appending new successors at its end;
`fuel` bounds how many members are read. -/
def explore (successors : α → List α) : Nat → List α → Nat → List α
  | 0, found, _ => found
  | fuel + 1, found, next =>
    match found[next]? with
    | none => found
    | some a => explore successors fuel (appendNew found (successors a)) (next + 1)

/-- What is on the worklist stays on it. -/
theorem mem_explore_of_mem {successors : α → List α} {fuel next : Nat} {found : List α} {a : α}
    (h : a ∈ found) : a ∈ explore successors fuel found next := by
  induction fuel generalizing found next with
  | zero => exact h
  | succ fuel ih =>
    rw [explore]
    split
    · exact h
    · exact ih (mem_appendNew.2 (Or.inl h))

end ShiftReduce
