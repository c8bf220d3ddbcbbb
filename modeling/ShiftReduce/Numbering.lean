/-!
# Numberings

A numbering is a list of distinct values; the number of a value is its place in that list.
Values are numbered in the order in which they arrive, and a value that arrives again keeps
its first number, so numbers never change once given.

* `Numbering.insert`, `Numbering.insertAll`, `Numbering.extend`: let values arrive;
* `Numbering.number`, `Numbering.number?`, `Numbering.get?`: from values to numbers and back;
* `Numbering.inOrder`: the members of a list, arranged by their numbers.
-/

namespace ShiftReduce

/-- Distinct values, numbered from zero in order of arrival. -/
structure Numbering (α : Type) where
  /-- The values; the one at index `i` has number `i`. -/
  entries : List α
  /-- No value is numbered twice. -/
  nodup : entries.Nodup

namespace Numbering

variable {α : Type}

/-- The numbering without values. -/
def empty : Numbering α := ⟨[], List.nodup_nil⟩

/-- How many values are numbered. -/
def size (n : Numbering α) : Nat := n.entries.length

/-- The value with number `i`. -/
def get? (n : Numbering α) (i : Nat) : Option α := n.entries[i]?

@[ext]
theorem ext {m n : Numbering α} (h : m.entries = n.entries) : m = n := by
  cases m; cases n; cases h; rfl

variable [DecidableEq α]

instance : DecidableEq (Numbering α) := fun m n =>
  if h : m.entries = n.entries then isTrue (ext h) else isFalse fun e => h (e ▸ rfl)

/-- The number of `a`, if it has one. -/
def number? (n : Numbering α) (a : α) : Option Nat := n.entries.idxOf? a

/-- The number of `a`, or the next free number when `a` has none yet. -/
def number (n : Numbering α) (a : α) : Nat := n.entries.idxOf a

/-- Gives `a` the next free number unless it is numbered already. -/
def insert (n : Numbering α) (a : α) : Numbering α :=
  if h : a ∈ n.entries then n
  else ⟨n.entries ++ [a], by
    refine List.nodup_append.2 ⟨n.nodup, by simp, ?_⟩
    intro x hx y hy hxy
    simp only [List.mem_singleton] at hy
    exact h (hy ▸ hxy ▸ hx)⟩

/-- Lets several values arrive, one after the other. -/
def insertAll (n : Numbering α) (as : List α) : Numbering α := as.foldl insert n

/-- Numbers the members of a list in order of first occurrence. -/
def ofList (as : List α) : Numbering α := empty.insertAll as

/-- Lets several values arrive that must all be new; otherwise gives the first that is not. -/
def extend (n : Numbering α) : List α → Except α (Numbering α)
  | [] => .ok n
  | a :: as => if a ∈ n.entries then .error a else (n.insert a).extend as

/-- The numbered values that occur in `as`, by ascending number. -/
def inOrder (n : Numbering α) (as : List α) : List α := n.entries.filter (· ∈ as)

/-! ## The entries after an arrival -/

theorem entries_insert_of_mem {n : Numbering α} {a : α} (h : a ∈ n.entries) :
    (n.insert a).entries = n.entries := by
  simp [insert, h]

theorem entries_insert_of_not_mem {n : Numbering α} {a : α} (h : a ∉ n.entries) :
    (n.insert a).entries = n.entries ++ [a] := by
  simp [insert, h]

@[simp]
theorem mem_entries_insert {n : Numbering α} {a b : α} :
    b ∈ (n.insert a).entries ↔ b ∈ n.entries ∨ b = a := by
  by_cases h : a ∈ n.entries
  · rw [entries_insert_of_mem h]
    constructor
    · exact Or.inl
    · rintro (hb | rfl)
      · exact hb
      · exact h
  · simp [entries_insert_of_not_mem h]

@[simp]
theorem mem_entries_insertAll {n : Numbering α} {as : List α} {b : α} :
    b ∈ (n.insertAll as).entries ↔ b ∈ n.entries ∨ b ∈ as := by
  induction as generalizing n with
  | nil => simp [insertAll]
  | cons a as ih =>
    have step : n.insertAll (a :: as) = (n.insert a).insertAll as := rfl
    rw [step, ih, mem_entries_insert, List.mem_cons, or_assoc]

/-- A number, once given, leads back to its value. -/
theorem get?_number {n : Numbering α} {a : α} (h : a ∈ n.entries) :
    n.get? (n.number a) = some a := by
  have hlt : n.entries.idxOf a < n.entries.length := List.idxOf_lt_length_of_mem h
  rw [get?, number, List.getElem?_eq_getElem hlt, List.getElem_idxOf hlt]

@[simp]
theorem mem_inOrder {n : Numbering α} {as : List α} {a : α} :
    a ∈ n.inOrder as ↔ a ∈ n.entries ∧ a ∈ as := by
  simp [inOrder]

end Numbering

end ShiftReduce
