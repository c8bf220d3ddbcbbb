import Mathlib.Logic.Basic
import Mathlib.Tactic.SplitIfs
import ShiftReduce.Span

/-!
# The order of positions and the merging of spans

Positions are ordered by line and then by column, and this order is total.  Merging takes the earlier
start and the later end, so it does not matter in which groups spans are merged; where spans follow
each other, merging them leads from the start of the first to the end of the last.

* `Position.atOrBefore_iff`, `Position.compare_eq_lt_iff`: the order;
* `Span.Runs`, `Span.Precedes`: spans that run forward, and spans that follow each other;
* `hull`, `hull_append`: merging any number of spans, in groups;
* `hull_of_pairwise`: merging spans that follow each other.
-/

namespace ShiftReduce

/-! ## The order -/

namespace Position

variable {a b c : Position}

theorem atOrBefore_iff :
    a.atOrBefore b = true ↔ a.line < b.line ∨ a.line = b.line ∧ a.column ≤ b.column := by
  unfold atOrBefore compare
  split_ifs <;> simp <;> omega

theorem compare_eq_lt_iff :
    a.compare b = .lt ↔ a.line < b.line ∨ a.line = b.line ∧ a.column < b.column := by
  unfold compare
  split_ifs <;> simp <;> omega

theorem atOrBefore_of_compare_eq_lt (h : a.compare b = .lt) : a.atOrBefore b = true := by
  rw [compare_eq_lt_iff] at h
  rw [atOrBefore_iff]
  omega

theorem atOrBefore_trans (hab : a.atOrBefore b = true) (hbc : b.atOrBefore c = true) :
    a.atOrBefore c = true := by
  rw [atOrBefore_iff] at *
  omega

theorem compare_eq_lt_of_lt_of_atOrBefore (hab : a.compare b = .lt)
    (hbc : b.atOrBefore c = true) : a.compare c = .lt := by
  rw [atOrBefore_iff] at hbc
  rw [compare_eq_lt_iff] at *
  omega

theorem eq_of_atOrBefore (hab : a.atOrBefore b = true) (hba : b.atOrBefore a = true) : a = b := by
  rw [atOrBefore_iff] at hab hba
  have hline : a.line = b.line := by omega
  have hcolumn : a.column = b.column := by omega
  cases a
  cases b
  exact congrArg₂ mk hline hcolumn

theorem earlier_eq_left (h : a.atOrBefore b = true) : a.earlier b = a := if_pos h

theorem later_eq_right (h : a.atOrBefore b = true) : a.later b = b := by
  unfold later
  split
  · next hba => exact eq_of_atOrBefore h hba
  · rfl

theorem earlier_assoc (a b c : Position) :
    (a.earlier b).earlier c = a.earlier (b.earlier c) := by
  simp only [earlier, atOrBefore_iff]
  split_ifs <;> first | rfl | omega

theorem later_assoc (a b c : Position) : (a.later b).later c = a.later (b.later c) := by
  simp only [later, atOrBefore_iff]
  split_ifs <;> first | rfl | omega

end Position

/-! ## Spans one after the other -/

namespace Span

/-- The span runs forward within a line. -/
structure Runs (s : Span) : Prop where
  line_eq : s.stop.line = s.start.line
  column_lt : s.start.column < s.stop.column

/-- The first span begins earlier than the second one and ends before it or where it begins. -/
structure Precedes (s s' : Span) : Prop where
  lt : s.compare s' = .lt
  apart : s.stop.atOrBefore s'.start = true

variable {s s' : Span}

theorem Runs.start_lt_stop (h : s.Runs) : s.start.compare s.stop = .lt :=
  Position.compare_eq_lt_iff.2 (.inr ⟨h.line_eq.symm, h.column_lt⟩)

theorem precedes_of_runs (h : s.Runs) (hapart : s.stop.atOrBefore s'.start = true) :
    s.Precedes s' where
  lt := by
    rw [compare, Position.compare_eq_lt_of_lt_of_atOrBefore h.start_lt_stop hapart]
  apart := hapart

theorem merge_assoc (a b c : Span) : (a.merge b).merge c = a.merge (b.merge c) := by
  simp only [merge, Position.earlier_assoc, Position.later_assoc]

end Span

/-! ## Merging -/

theorem mergeSpans_none_left (s : Option Span) : mergeSpans none s = s := by
  cases s <;> rfl

theorem mergeSpans_none_right (s : Option Span) : mergeSpans s none = s := by
  cases s <;> rfl

theorem mergeSpans_assoc (a b c : Option Span) :
    mergeSpans (mergeSpans a b) c = mergeSpans a (mergeSpans b c) := by
  cases a with
  | none => rw [mergeSpans_none_left, mergeSpans_none_left]
  | some a =>
    cases b with
    | none => rw [mergeSpans_none_right, mergeSpans_none_left]
    | some b =>
      cases c with
      | none => rfl
      | some c => exact congrArg some (Span.merge_assoc a b c)

/-- The span that covers some spans. -/
def hull (spans : List (Option Span)) : Option Span := spans.foldl mergeSpans none

theorem foldl_mergeSpans (s : Option Span) (spans : List (Option Span)) :
    spans.foldl mergeSpans s = mergeSpans s (hull spans) := by
  induction spans generalizing s with
  | nil => exact (mergeSpans_none_right s).symm
  | cons s' spans ih =>
    have hull_eq : hull (s' :: spans) = mergeSpans s' (hull spans) := by
      rw [hull, List.foldl_cons, mergeSpans_none_left, ih]
    rw [List.foldl_cons, ih, hull_eq, mergeSpans_assoc]

theorem hull_cons (s : Option Span) (spans : List (Option Span)) :
    hull (s :: spans) = mergeSpans s (hull spans) := by
  rw [hull, List.foldl_cons, foldl_mergeSpans, mergeSpans_none_left]

theorem hull_append (spans spans' : List (Option Span)) :
    hull (spans ++ spans') = mergeSpans (hull spans) (hull spans') := by
  rw [hull, List.foldl_append, foldl_mergeSpans]
  rfl

/-- Spans that run forward and follow each other are covered from the start of the first to the end
of the last. -/
theorem hull_of_pairwise {first last : Span} {spans : List Span}
    (hruns : ∀ s ∈ spans, s.Runs) (hpairwise : spans.Pairwise Span.Precedes)
    (hfirst : spans.head? = some first) (hlast : spans.getLast? = some last) :
    hull (spans.map some) = some ⟨first.start, last.stop⟩ := by
  induction spans generalizing first with
  | nil => cases hfirst
  | cons s spans ih =>
    obtain rfl : s = first := Option.some.inj hfirst
    rw [List.map_cons, hull_cons]
    cases spans with
    | nil =>
      cases hlast
      rfl
    | cons s' spans =>
      rw [List.getLast?_cons_cons] at hlast
      obtain ⟨hprecedes, hrest⟩ := List.pairwise_cons.1 hpairwise
      have hmem : last ∈ s' :: spans := List.mem_of_getLast? hlast
      rw [ih (fun u hu => hruns u (List.mem_cons_of_mem _ hu)) hrest rfl hlast]
      have hstart : s.start.atOrBefore s'.start = true :=
        Position.atOrBefore_trans
          (Position.atOrBefore_of_compare_eq_lt (hruns s List.mem_cons_self).start_lt_stop)
          (hprecedes s' List.mem_cons_self).apart
      have hstop : s.stop.atOrBefore last.stop = true :=
        Position.atOrBefore_trans (hprecedes last hmem).apart
          (Position.atOrBefore_of_compare_eq_lt
            (hruns last (List.mem_cons_of_mem _ hmem)).start_lt_stop)
      show some (s.merge ⟨s'.start, last.stop⟩) = _
      rw [Span.merge, Position.earlier_eq_left hstart, Position.later_eq_right hstop]

end ShiftReduce
