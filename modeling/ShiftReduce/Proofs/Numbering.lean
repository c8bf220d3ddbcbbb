import Mathlib.Data.List.Nodup
import ShiftReduce.Numbering

/-!
# Numbers are given once

A numbering only grows at its end, so what it says about a value stays true: a number is never given
to another value, and a value that arrives again keeps the one it has.

* `Numbering.Extends`: a numbering followed by further arrivals;
* `Numbering.Extends.get?_eq`: what is kept;
* `Numbering.get?_insert_number`: the number that an arriving value is given;
* `Numbering.entries_ofList`: the members of a list in order of first occurrence.
-/

namespace ShiftReduce.Numbering

variable {α : Type}

/-- The second numbering continues the first. -/
def Extends (m n : Numbering α) : Prop := m.entries <+: n.entries

theorem Extends.refl (n : Numbering α) : n.Extends n := List.prefix_rfl

theorem Extends.trans {l m n : Numbering α} (hlm : l.Extends m) (hmn : m.Extends n) :
    l.Extends n :=
  List.IsPrefix.trans hlm hmn

theorem Extends.size_le {m n : Numbering α} (h : m.Extends n) : m.size ≤ n.size := h.length_le

/-- A number, once given, is never given to another value. -/
theorem Extends.get?_eq {m n : Numbering α} (h : m.Extends n) {i : Nat} {a : α}
    (ha : m.get? i = some a) : n.get? i = some a := by
  obtain ⟨rest, hrest⟩ := h
  have hlt : i < m.entries.length := (List.getElem?_eq_some_iff.1 ha).1
  rw [get?, ← hrest, List.getElem?_append_left hlt]
  exact ha

/-- Different numbers belong to different values. -/
theorem get?_inj {n : Numbering α} {i j : Nat} {a : α} (hi : n.get? i = some a)
    (hj : n.get? j = some a) : i = j := by
  have hlt : i < n.entries.length := (List.getElem?_eq_some_iff.1 hi).1
  exact (List.getElem?_inj hlt n.nodup).1 (hi.trans hj.symm)

theorem exists_get?_of_lt {n : Numbering α} {i : Nat} (h : i < n.size) :
    ∃ a, n.get? i = some a :=
  ⟨n.entries[i], List.getElem?_eq_getElem h⟩

theorem lt_size_of_get? {n : Numbering α} {i : Nat} {a : α} (h : n.get? i = some a) :
    i < n.size :=
  (List.getElem?_eq_some_iff.1 h).1

variable [DecidableEq α]

theorem extends_insert (n : Numbering α) (a : α) : n.Extends (n.insert a) := by
  by_cases h : a ∈ n.entries
  · exact ⟨[], by rw [entries_insert_of_mem h, List.append_nil]⟩
  · rw [Extends, entries_insert_of_not_mem h]
    exact List.prefix_append _ _

theorem extends_insertAll (n : Numbering α) (as : List α) : n.Extends (n.insertAll as) := by
  induction as generalizing n with
  | nil => exact Extends.refl n
  | cons a as ih => exact (extends_insert n a).trans (ih (n.insert a))

/-- Values are numbered in the order in which they first arrive. -/
theorem entries_insertAll (n : Numbering α) (as : List α) :
    (n.insertAll as).entries = n.entries ++ (as.filter (· ∉ n.entries)).eraseDups := by
  induction as generalizing n with
  | nil => exact (List.append_nil _).symm
  | cons a as ih =>
    rw [insertAll, List.foldl_cons, ← insertAll, ih]
    by_cases h : a ∈ n.entries
    · rw [entries_insert_of_mem h, List.filter_cons_of_neg (by simpa using h)]
    · have hlater : (as.filter (· ∉ n.entries ++ [a])) =
          (as.filter (· ∉ n.entries)).filter fun b => !b == a := by
        rw [List.filter_filter]
        refine List.filter_congr fun b _ => ?_
        by_cases hb : b = a <;> simp [hb]
      rw [entries_insert_of_not_mem h, List.filter_cons_of_pos (by simpa using h),
        List.eraseDups_cons, hlater, List.append_assoc, List.singleton_append]

theorem entries_ofList (as : List α) : (ofList as).entries = as.eraseDups := by
  rw [ofList, entries_insertAll]
  simp [empty]

/-- Values that are numbered already change nothing. -/
theorem insertAll_eq_self {n : Numbering α} {as : List α} (h : ∀ a ∈ as, a ∈ n.entries) :
    n.insertAll as = n := by
  induction as with
  | nil => rfl
  | cons a as ih =>
    have hinsert : n.insert a = n := Numbering.ext (entries_insert_of_mem (h a List.mem_cons_self))
    rw [insertAll, List.foldl_cons, hinsert]
    exact ih fun b hb => h b (List.mem_cons_of_mem a hb)

theorem size_insert_of_not_mem {n : Numbering α} {a : α} (h : a ∉ n.entries) :
    (n.insert a).size = n.size + 1 := by
  rw [size, entries_insert_of_not_mem h, List.length_append, List.length_singleton, size]

/-- A value without a number is announced the next free one. -/
theorem number_of_not_mem {n : Numbering α} {a : α} (h : a ∉ n.entries) : n.number a = n.size := by
  rw [number, List.idxOf_eq_length h, size]

/-- An arriving value has the number that was announced for it. -/
theorem get?_insert_number (n : Numbering α) (a : α) :
    (n.insert a).get? (n.number a) = some a := by
  by_cases h : a ∈ n.entries
  · exact (extends_insert n a).get?_eq (get?_number h)
  · rw [number_of_not_mem h, get?, entries_insert_of_not_mem h, size, List.getElem?_concat_length]

/-- The only number that an arrival can add is the one announced for it. -/
theorem eq_number_of_lt_size_insert {n : Numbering α} {a : α} {i : Nat}
    (hi : i < (n.insert a).size) (hnew : ¬ i < n.size) : i = n.number a := by
  by_cases h : a ∈ n.entries
  · rw [size, entries_insert_of_mem h] at hi
    exact absurd hi hnew
  · rw [size_insert_of_not_mem h] at hi
    rw [number_of_not_mem h]
    omega

theorem inOrder_sublist (n : Numbering α) (as : List α) : (n.inOrder as).Sublist n.entries :=
  List.filter_sublist

theorem nodup_inOrder (n : Numbering α) (as : List α) : (n.inOrder as).Nodup :=
  n.nodup.sublist (n.inOrder_sublist as)

end ShiftReduce.Numbering
