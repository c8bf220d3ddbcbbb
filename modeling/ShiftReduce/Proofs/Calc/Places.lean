import Mathlib.Data.List.DropRight
import ShiftReduce.Calc.Lexer
import ShiftReduce.Proofs.Spans

/-!
# Places in a text

A place in a text is told by what stands before it: its line is the number of line feeds, and its
column the number of bytes after the last of them.  A stretch without line feeds that stands there
has, as its span, exactly its bytes in the line.

* `bytesOf`, `placeAfter`, `spanOf`: bytes, and the places of stretches of text;
* `Shows`: the bytes that a span points to;
* `shows_spanOf`: the span of a stretch shows the stretch;
* `placeAfter_atOrBefore`: places come in the order of the text.
-/

namespace ShiftReduce.Calc

variable {before lexeme after : List Char}

/-- The bytes of a text. -/
def bytesOf (text : List Char) : List UInt8 := text.flatMap String.utf8EncodeChar

/-- The place after the beginning `before` of a text. -/
def placeAfter (before : List Char) : Position :=
  ⟨before.count '\n', (bytesOf (before.rtakeWhile (· ≠ '\n'))).length⟩

/-- The span of a stretch that stands after `before`. -/
def spanOf (before lexeme : List Char) : Span := ⟨placeAfter before, placeAfter (before ++ lexeme)⟩

/-- The span lies within a line of the text, and its columns are those of the bytes of `lexeme`. -/
structure Shows (span : Span) (text lexeme : List Char) : Prop where
  runs : span.Runs
  bytes : ∃ line, (text.splitOn '\n')[span.start.line]? = some line ∧
    span.stop.column ≤ (bytesOf line).length ∧
    ((bytesOf line).take span.stop.column).drop span.start.column = bytesOf lexeme

/-! ## Bytes -/

@[simp]
theorem bytesOf_append (a b : List Char) : bytesOf (a ++ b) = bytesOf a ++ bytesOf b :=
  List.flatMap_append

theorem length_bytesOf_singleton (c : Char) : (bytesOf [c]).length = c.utf8Size := by
  simp [bytesOf]

theorem length_bytesOf_pos (h : lexeme ≠ []) : 0 < (bytesOf lexeme).length := by
  obtain ⟨c, cs, rfl⟩ := List.exists_cons_of_ne_nil h
  have hpos := c.utf8Size_pos
  rw [← List.singleton_append, bytesOf_append, List.length_append, length_bytesOf_singleton]
  omega

theorem length_bytesOf_of_utf8Size (h : ∀ c ∈ lexeme, c.utf8Size = 1) :
    (bytesOf lexeme).length = lexeme.length := by
  induction lexeme with
  | nil => rfl
  | cons c cs ih =>
    rw [← List.singleton_append, bytesOf_append, List.length_append, length_bytesOf_singleton,
      h c List.mem_cons_self, ih fun d hd => h d (List.mem_cons_of_mem c hd)]
    simp [Nat.add_comm]

/-! ## Lines -/

/-- A stretch without line feeds goes on with the last line. -/
theorem rtakeWhile_append (h : '\n' ∉ lexeme) :
    (before ++ lexeme).rtakeWhile (· ≠ '\n') = before.rtakeWhile (· ≠ '\n') ++ lexeme := by
  have hall : ∀ c ∈ lexeme.reverse, decide (c ≠ '\n') = true := by
    intro c hc
    exact decide_eq_true (ne_of_mem_of_not_mem (List.mem_reverse.1 hc) h)
  rw [List.rtakeWhile, List.rtakeWhile, List.reverse_append, List.takeWhile_append_of_pos hall,
    List.reverse_append, List.reverse_reverse]

theorem head?_splitOn (text : List Char) :
    (text.splitOn '\n').head? = some (text.takeWhile (· ≠ '\n')) := by
  induction text with
  | nil => rfl
  | cons c cs ih =>
    rw [List.splitOn_cons_eq_if_modifyHead]
    by_cases hc : c = '\n'
    · simp [hc]
    · simp [hc, ih]

theorem length_splitOn (text : List Char) :
    (text.splitOn '\n').length = text.count '\n' + 1 := by
  induction text with
  | nil => rfl
  | cons c cs ih =>
    rw [List.splitOn_cons_eq_if_modifyHead]
    by_cases hc : c = '\n'
    · simp [hc, ih]
    · simp [hc, ih]

/-- The line at the end of a beginning goes on up to the next line feed. -/
theorem getElem?_splitOn_count (before rest : List Char) :
    ((before ++ rest).splitOn '\n')[before.count '\n']? =
      some (before.rtakeWhile (· ≠ '\n') ++ rest.takeWhile (· ≠ '\n')) := by
  induction before using List.reverseRecOn generalizing rest with
  | nil =>
    rw [List.nil_append, List.count_nil, ← List.head?_eq_getElem?, head?_splitOn,
      List.rtakeWhile_nil, List.nil_append]
  | append_singleton before c ih =>
    rw [List.append_assoc, List.singleton_append]
    by_cases hc : c = '\n'
    · subst hc
      have hcount : (before ++ ['\n']).count '\n' = (before.splitOn '\n').length := by
        rw [length_splitOn, List.count_append, List.count_singleton_self]
      rw [List.splitOn_append_cons_self, hcount, List.getElem?_append_right (Nat.le_refl _),
        Nat.sub_self, ← List.head?_eq_getElem?, head?_splitOn, List.rtakeWhile_concat_neg _ _ _
          (by simp), List.nil_append]
    · have hcount : (before ++ [c]).count '\n' = before.count '\n' := by
        rw [List.count_append, List.count_singleton, if_neg (by simpa using hc), Nat.add_zero]
      rw [hcount, ih, List.takeWhile_cons_of_pos (by simpa using hc),
        List.rtakeWhile_concat_pos _ _ _ (by simpa using hc), List.append_assoc,
        List.singleton_append]

/-! ## Places -/

theorem placeAfter_feed (before : List Char) :
    placeAfter (before ++ ['\n']) = ⟨(placeAfter before).line + 1, 0⟩ := by
  simp [placeAfter, bytesOf]

theorem placeAfter_append (h : '\n' ∉ lexeme) :
    placeAfter (before ++ lexeme) =
      { placeAfter before with column := (placeAfter before).column + (bytesOf lexeme).length } := by
  rw [placeAfter, rtakeWhile_append h, bytesOf_append, List.length_append, List.count_append,
    List.count_eq_zero.2 h]
  rfl

/-- Places come in the order of the text. -/
theorem placeAfter_atOrBefore (before after : List Char) :
    (placeAfter before).atOrBefore (placeAfter (before ++ after)) = true := by
  induction after using List.reverseRecOn with
  | nil =>
    rw [List.append_nil, Position.atOrBefore_iff]
    exact .inr ⟨rfl, Nat.le_refl _⟩
  | append_singleton after c ih =>
    rw [← List.append_assoc]
    refine Position.atOrBefore_trans ih (Position.atOrBefore_iff.2 ?_)
    by_cases hc : c = '\n'
    · rw [hc, placeAfter_feed]
      exact .inl (Nat.lt_succ_self _)
    · have hfeed : '\n' ∉ [c] := by simpa using Ne.symm hc
      rw [placeAfter_append hfeed]
      exact .inr ⟨rfl, Nat.le_add_right _ _⟩

/-- A stretch of a line runs forward. -/
theorem runs_spanOf (hne : lexeme ≠ []) (hfeed : '\n' ∉ lexeme) : (spanOf before lexeme).Runs where
  line_eq := by rw [spanOf, placeAfter_append hfeed]
  column_lt := by
    rw [spanOf, placeAfter_append hfeed]
    exact Nat.lt_add_of_pos_right (length_bytesOf_pos hne)

/-- The span of a stretch of a line shows the bytes of the stretch. -/
theorem shows_spanOf (hne : lexeme ≠ []) (hfeed : '\n' ∉ lexeme) :
    Shows (spanOf before lexeme) (before ++ lexeme ++ after) lexeme where
  runs := runs_spanOf hne hfeed
  bytes := by
    have hline := getElem?_splitOn_count (before ++ lexeme) after
    have hcount : (before ++ lexeme).count '\n' = before.count '\n' := by
      rw [List.count_append, List.count_eq_zero.2 hfeed, Nat.add_zero]
    have hstart : (spanOf before lexeme).start.column =
        (bytesOf (before.rtakeWhile (· ≠ '\n'))).length := rfl
    have hstop : (spanOf before lexeme).stop.column =
        (bytesOf (before.rtakeWhile (· ≠ '\n') ++ lexeme)).length := by
      rw [← rtakeWhile_append hfeed]
      rfl
    rw [hcount, rtakeWhile_append hfeed] at hline
    refine ⟨_, hline, ?_, ?_⟩
    · rw [hstop, bytesOf_append _ (List.takeWhile _ _), List.length_append]
      exact Nat.le_add_right _ _
    · rw [hstart, hstop, bytesOf_append _ (List.takeWhile _ _), List.take_left, bytesOf_append,
        List.drop_left]

end ShiftReduce.Calc
