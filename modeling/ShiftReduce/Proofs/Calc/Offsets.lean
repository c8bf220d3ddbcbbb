import ShiftReduce.Proofs.Calc.Places
import ShiftReduce.Proofs.GrammarText.Scanning

/-!
# Reading by byte offsets

The source of a text can be read off with a counter of bytes: a reader knows how many bytes it has
read, the number of the line it is in and the offset at which this line begins, and it gets columns
by subtraction.  The line always begins right after the last line feed that has been read, so the
subtraction never goes below zero, and the answers are those of `pulls`.

* `pullsAt`: the source of a text from some place on, with an equation for each kind of front;
* `Gap`, `pullsAt_gap_append`: what separates tokens;
* `Reader`, `Reader.step`: the reader, and how it reads one piece of the text;
* `Reader.At`, `Reader.exists_at_of_reached`: where it stands in the text;
* `Reader.answers_start`: its answers.
-/

namespace ShiftReduce.Calc

variable {t : Alphabet} {place : Position} {c : Char} {cs text before rest : List Char}

/-! ## Fronts -/

/-- The source of a text that begins at `place`. -/
def pullsAt (t : Alphabet) (place : Position) (text : List Char) : List (Pull Token Error) :=
  pullsFrom t text.length place text

theorem pulls_eq_pullsAt (t : Alphabet) (text : List Char) :
    pulls t text = pullsAt t (placeAfter []) text := rfl

/-- The bound on the number of pieces is never met. -/
theorem pullsFrom_eq_pullsAt {fuel : Nat} (h : text.length ≤ fuel) :
    pullsFrom t fuel place text = pullsAt t place text := by
  induction fuel using Nat.strongRecOn generalizing place text with
  | ind fuel ih =>
    cases text with
    | nil => cases fuel <;> rfl
    | cons c cs =>
      obtain ⟨fuel, rfl⟩ : ∃ n, fuel = n + 1 := ⟨fuel - 1, by simp at h; omega⟩
      have hcs : cs.length ≤ fuel := by simpa using h
      have hrest : ∀ rest : List Char, rest <:+ cs → ∀ place,
          pullsFrom t fuel place rest = pullsFrom t cs.length place rest := by
        intro rest hsuffix place
        rw [ih fuel (Nat.lt_succ_self _) (Nat.le_trans hsuffix.length_le hcs),
          ih cs.length (Nat.lt_succ_of_le hcs) hsuffix.length_le]
      have hself := hrest cs List.suffix_rfl
      have hdrop := hrest (cs.dropWhile Char.isDigit) (List.dropWhile_suffix _)
      rw [pullsAt, List.length_cons, pullsFrom, pullsFrom]
      simp only [hself, hdrop]

theorem pullsAt_nil : pullsAt t place [] = [] := rfl

theorem pullsAt_spacing (hc : Text.isSpacing c = true) :
    pullsAt t place (c :: cs) = pullsAt t { place with column := place.column + 1 } cs := by
  rw [pullsAt, List.length_cons, pullsFrom, if_pos hc]
  rfl

theorem pullsAt_feed :
    pullsAt t place ('\n' :: cs) = pullsAt t ⟨place.line + 1, 0⟩ cs := rfl

theorem not_isSpacing_of_isDigit (hc : c.isDigit = true) : ¬ Text.isSpacing c = true := by
  intro h
  simp only [Text.isSpacing, Bool.or_eq_true, decide_eq_true_eq] at h
  rcases h with ((rfl | rfl) | rfl) | rfl <;> cases hc

theorem ne_feed_of_isDigit (hc : c.isDigit = true) : c ≠ '\n' := by
  rintro rfl
  cases hc

/-- A run of digits is read as a whole. -/
theorem pullsAt_digits (hc : c.isDigit = true) (hcs : ∀ d ∈ cs, d.isDigit = true)
    (hrest : ∀ d ∈ rest.head?, d.isDigit = false) :
    pullsAt t place (c :: cs ++ rest) =
      literal t (c :: cs) (spanFrom place (c :: cs).length) ::
        pullsAt t (spanFrom place (c :: cs).length).stop rest := by
  have htake : (cs ++ rest).takeWhile Char.isDigit = cs := by
    rw [GrammarText.takeWhile_append_of_head hrest, List.takeWhile_eq_self_iff.2 hcs]
  have hdrop : (cs ++ rest).dropWhile Char.isDigit = rest := by
    rw [GrammarText.dropWhile_append_of_head hrest, List.dropWhile_eq_nil_iff.2 hcs,
      List.nil_append]
  rw [List.cons_append, pullsAt, List.length_cons, pullsFrom,
    if_neg (not_isSpacing_of_isDigit hc), if_neg (ne_feed_of_isDigit hc), if_pos hc]
  dsimp only
  rw [htake, hdrop, pullsFrom_eq_pullsAt (by simp)]

/-- Any other character is read by itself. -/
theorem pullsAt_single (hspacing : ¬ Text.isSpacing c = true) (hfeed : c ≠ '\n')
    (hdigit : ¬ c.isDigit = true) :
    pullsAt t place (c :: cs) =
      single t c (spanFrom place c.utf8Size) ::
        pullsAt t (spanFrom place c.utf8Size).stop cs := by
  rw [pullsAt, List.length_cons, pullsFrom, if_neg hspacing, if_neg hfeed, if_neg hdigit]
  rfl

/-! ## Places of fronts -/

theorem bytesOf_length_of_isDigit {digits : List Char} (h : ∀ d ∈ digits, d.isDigit = true) :
    (bytesOf digits).length = digits.length := by
  refine length_bytesOf_of_utf8Size fun d hd => ?_
  have hdigit := h d hd
  simp only [Char.isDigit, Bool.and_eq_true, decide_eq_true_eq] at hdigit
  have hle : d.val ≤ 0x7f := UInt32.le_trans hdigit.2 (by decide)
  simp [Char.utf8Size, hle]

theorem not_mem_feed_of_isDigit {digits : List Char} (h : ∀ d ∈ digits, d.isDigit = true) :
    '\n' ∉ digits := fun hmem => ne_feed_of_isDigit (h _ hmem) rfl

theorem spanFrom_placeAfter {lexeme : List Char} {width : Nat} (hfeed : '\n' ∉ lexeme)
    (hwidth : (bytesOf lexeme).length = width) :
    spanFrom (placeAfter before) width = spanOf before lexeme := by
  rw [spanFrom, spanOf, placeAfter_append hfeed, hwidth]

theorem isSpacing_utf8Size (hc : Text.isSpacing c = true) : c.utf8Size = 1 ∧ c ≠ '\n' := by
  simp only [Text.isSpacing, Bool.or_eq_true, decide_eq_true_eq] at hc
  rcases hc with ((rfl | rfl) | rfl) | rfl <;> decide

/-- A stretch that separates tokens: blanks, tabs, form feeds, carriage returns and line feeds. -/
def Gap (gap : List Char) : Prop := ∀ c ∈ gap, Text.isSpacing c = true ∨ c = '\n'

/-- What separates tokens moves the place on. -/
theorem pullsAt_gap_append {gap : List Char} (hgap : Gap gap) :
    pullsAt t (placeAfter before) (gap ++ rest) =
      pullsAt t (placeAfter (before ++ gap)) rest := by
  induction gap generalizing before with
  | nil => rw [List.nil_append, List.append_nil]
  | cons c gap ih =>
    have hstep : pullsAt t (placeAfter before) (c :: (gap ++ rest)) =
        pullsAt t (placeAfter (before ++ [c])) (gap ++ rest) := by
      rcases hgap c List.mem_cons_self with hspacing | rfl
      · obtain ⟨hsize, hfeed⟩ := isSpacing_utf8Size hspacing
        have hmem : '\n' ∉ [c] := by simpa using Ne.symm hfeed
        rw [pullsAt_spacing hspacing, placeAfter_append hmem, length_bytesOf_singleton, hsize]
      · rw [pullsAt_feed, placeAfter_feed]
    rw [List.cons_append, hstep, ih fun d hd => hgap d (List.mem_cons_of_mem c hd),
      List.append_assoc, List.singleton_append]

/-! ## The reader -/

/-- A text that is being read. -/
structure Reader where
  /-- What has not been read yet. -/
  rest : List Char
  /-- The number of bytes that have been read. -/
  offset : Nat
  /-- The number of the line. -/
  line : Nat
  /-- The offset at which the line begins. -/
  lineStart : Nat

namespace Reader

/-- The reader of a text, before it has read anything. -/
def start (text : List Char) : Reader := ⟨text, 0, 0, 0⟩

/-- Reads a stretch of the text, after which `rest` is left. -/
def past (r : Reader) (stretch rest : List Char) : Reader :=
  { r with rest := rest, offset := r.offset + (bytesOf stretch).length }

/-- Reads over spacing. -/
def skip (r : Reader) : Reader :=
  r.past (r.rest.takeWhile Text.isSpacing) (r.rest.dropWhile Text.isSpacing)

/-- The span of the bytes between two offsets.  Columns are counted from the beginning of the
line. -/
def span (r : Reader) (first last : Nat) : Span :=
  ⟨⟨r.line, first - r.lineStart⟩, ⟨r.line, last - r.lineStart⟩⟩

/-- Reads over a line feed: a line begins after it. -/
def feed (r : Reader) (rest : List Char) : Reader :=
  let next := r.past ['\n'] rest
  { next with line := r.line + 1, lineStart := next.offset }

/-- Reads spacing and the longest piece after it.  A line feed has no answer; at the end of the text
nothing is read. -/
def step (t : Alphabet) (r : Reader) : Option (Option (Pull Token Error) × Reader) :=
  let r := r.skip
  match r.rest with
  | [] => none
  | c :: cs =>
    if c = '\n' then some (none, r.feed cs)
    else if c.isDigit then
      let digits := c :: cs.takeWhile Char.isDigit
      let next := r.past digits (cs.dropWhile Char.isDigit)
      some (some (literal t digits (r.span r.offset next.offset)), next)
    else
      let next := r.past [c] cs
      some (some (single t c (r.span r.offset next.offset)), next)

/-- The answers of at most `fuel` pieces. -/
def answers (t : Alphabet) : Nat → Reader → List (Pull Token Error)
  | 0, _ => []
  | fuel + 1, r =>
    match r.step t with
    | none => []
    | some (answer, next) => answer.toList ++ next.answers t fuel

/-- The reader comes up while the text is read. -/
inductive Reached (t : Alphabet) (text : List Char) : Reader → Prop
  | start : Reached t text (Reader.start text)
  | step {r next : Reader} {answer : Option (Pull Token Error)} (h : Reached t text r)
    (hstep : r.step t = some (answer, next)) : Reached t text next

/-- The reader has read `before`; its line begins after the last line feed there. -/
structure At (r : Reader) (text before : List Char) : Prop where
  text_eq : text = before ++ r.rest
  offset_eq : r.offset = (bytesOf before).length
  line_eq : r.line = (placeAfter before).line
  lineStart_eq : r.lineStart + (placeAfter before).column = r.offset

namespace At

variable {r : Reader} {stretch : List Char}

theorem start (text : List Char) : (Reader.start text).At text [] := ⟨rfl, rfl, rfl, rfl⟩

theorem lineStart_le (h : r.At text before) : r.lineStart ≤ r.offset := by
  rw [← h.lineStart_eq]
  exact Nat.le_add_right _ _

/-- A stretch of a line is read. -/
theorem past (h : r.At text before) (hrest : r.rest = stretch ++ rest) (hfeed : '\n' ∉ stretch) :
    (r.past stretch rest).At text (before ++ stretch) where
  text_eq := by rw [h.text_eq, hrest, List.append_assoc]; rfl
  offset_eq := by rw [Reader.past, h.offset_eq, bytesOf_append, List.length_append]
  line_eq := by
    rw [placeAfter_append hfeed]
    exact h.line_eq
  lineStart_eq := by
    rw [placeAfter_append hfeed, ← Nat.add_assoc, Reader.past, h.lineStart_eq]

theorem skip (h : r.At text before) :
    r.skip.At text (before ++ r.rest.takeWhile Text.isSpacing) := by
  refine h.past List.takeWhile_append_dropWhile.symm fun hmem => ?_
  exact (isSpacing_utf8Size (List.mem_takeWhile_imp hmem)).2 rfl

theorem feed (h : r.At text before) (hrest : r.rest = '\n' :: rest) :
    (r.feed rest).At text (before ++ ['\n']) where
  text_eq := by rw [h.text_eq, hrest, List.append_assoc]; rfl
  offset_eq := by
    rw [Reader.feed, Reader.past, h.offset_eq, bytesOf_append, List.length_append]
  line_eq := by rw [placeAfter_feed, Reader.feed, h.line_eq]
  lineStart_eq := by rw [placeAfter_feed]; rfl

/-- The span that is computed for a stretch ahead is the one that it has in the text. -/
theorem span_eq (h : r.At text before) (hfeed : '\n' ∉ stretch) (rest : List Char) :
    r.span r.offset (r.past stretch rest).offset = spanOf before stretch := by
  have hstart : r.offset - r.lineStart = (placeAfter before).column := by
    have heq := h.lineStart_eq
    omega
  have hstop : (r.past stretch rest).offset - r.lineStart =
      (placeAfter before).column + (bytesOf stretch).length := by
    have heq := h.lineStart_eq
    rw [Reader.past]
    dsimp only
    omega
  rw [Reader.span, hstart, hstop, h.line_eq, spanOf, placeAfter_append hfeed]

end At

/-! ## What a step reads -/

/-- A step from a reader that has read `before`: the run of spacing that comes next has been read
when `ahead` is left, and then a line feed, a run of digits or another character is read. -/
inductive Reads (t : Alphabet) (r : Reader) (text before : List Char) :
    Option (Option (Pull Token Error) × Reader) → Prop
  | stop (hrest : r.skip.rest = []) : Reads t r text before none
  | feed {cs : List Char} {next : Reader} (hrest : r.skip.rest = '\n' :: cs)
      (hnext : next.At text (before ++ ['\n'])) (hleft : next.rest = cs) :
      Reads t r text before (some (none, next))
  | digits {c : Char} {cs rest : List Char} {next : Reader}
      (hrest : r.skip.rest = c :: cs ++ rest) (hc : c.isDigit = true)
      (hcs : ∀ d ∈ cs, d.isDigit = true) (hlast : ∀ d ∈ rest.head?, d.isDigit = false)
      (hnext : next.At text (before ++ c :: cs)) (hleft : next.rest = rest) :
      Reads t r text before (some (some (literal t (c :: cs) (spanOf before (c :: cs))), next))
  | single {c : Char} {cs : List Char} {next : Reader} (hrest : r.skip.rest = c :: cs)
      (hspacing : ¬ Text.isSpacing c = true) (hfeed : c ≠ '\n') (hdigit : ¬ c.isDigit = true)
      (hnext : next.At text (before ++ [c])) (hleft : next.rest = cs) :
      Reads t r text before (some (some (single t c (spanOf before [c])), next))

variable {r : Reader}

theorem At.reads (h : r.At text before) (t : Alphabet) :
    Reads t r text (before ++ r.rest.takeWhile Text.isSpacing) (r.step t) := by
  have hskip := h.skip
  unfold step
  dsimp only
  split
  · next hrest => exact .stop hrest
  · next c cs hrest =>
    have hspacing : ¬ Text.isSpacing c = true := by
      have hhead := List.head?_dropWhile_not Text.isSpacing r.rest
      have hdrop : r.rest.dropWhile Text.isSpacing = c :: cs := hrest
      rw [hdrop] at hhead
      simpa using hhead
    split_ifs with hfeed hdigit
    · subst hfeed
      exact .feed hrest (hskip.feed hrest) rfl
    · have hmem := @not_mem_feed_of_isDigit (c :: cs.takeWhile Char.isDigit) fun d hd => by
        rcases List.mem_cons.1 hd with rfl | hd
        · exact hdigit
        · exact List.mem_takeWhile_imp hd
      have hsplit : r.skip.rest = c :: cs.takeWhile Char.isDigit ++ cs.dropWhile Char.isDigit := by
        rw [hrest, List.cons_append, List.takeWhile_append_dropWhile]
      rw [hskip.span_eq hmem]
      refine .digits hsplit hdigit (fun d hd => List.mem_takeWhile_imp hd) ?_
        (hskip.past hsplit hmem) rfl
      intro d hd
      have hhead := List.head?_dropWhile_not Char.isDigit cs
      rw [hd] at hhead
      simpa using hhead
    · have hmem : '\n' ∉ [c] := by simpa using Ne.symm hfeed
      rw [hskip.span_eq hmem]
      exact .single hrest hspacing hfeed hdigit (hskip.past hrest hmem) rfl

/-- Whatever has been read, the line begins after the last line feed in it. -/
theorem exists_at_of_reached (h : Reached t text r) : ∃ before, r.At text before := by
  induction h with
  | start => exact ⟨[], .start text⟩
  | step _ hstep ih =>
    obtain ⟨before, hat⟩ := ih
    have hreads := hat.reads t
    rw [hstep] at hreads
    cases hreads with
    | feed _ hnext => exact ⟨_, hnext⟩
    | digits _ _ _ _ hnext => exact ⟨_, hnext⟩
    | single _ _ _ _ hnext => exact ⟨_, hnext⟩

/-- The answers of a reader are those of the text that it has left. -/
theorem At.answers_eq (h : r.At text before) {fuel : Nat} (hfuel : r.rest.length ≤ fuel) :
    r.answers t fuel = pullsAt t (placeAfter before) r.rest := by
  induction fuel generalizing r before with
  | zero =>
    rw [List.length_eq_zero_iff.1 (Nat.le_zero.1 hfuel)]
    rfl
  | succ fuel ih =>
    have hspacing : pullsAt t (placeAfter before) r.rest =
        pullsAt t (placeAfter (before ++ r.rest.takeWhile Text.isSpacing)) r.skip.rest := by
      rw [← pullsAt_gap_append fun c hc => .inl (List.mem_takeWhile_imp hc)]
      exact congrArg _ List.takeWhile_append_dropWhile.symm
    have hskip : r.skip.rest.length ≤ fuel + 1 :=
      Nat.le_trans (List.dropWhile_suffix _).length_le hfuel
    have hreads := h.reads t
    rw [hspacing, answers]
    generalize r.step t = result at hreads
    cases hreads with
    | stop hrest =>
      rw [hrest]
      rfl
    | @feed cs next hrest hnext hleft =>
      rw [hrest, List.length_cons] at hskip
      have hrec := ih hnext (by rw [hleft]; omega)
      rw [hrest, pullsAt_feed, ← placeAfter_feed, ← hleft]
      exact hrec
    | @digits c cs rest next hrest hc hcs hlast hnext hleft =>
      rw [hrest, List.length_append, List.length_cons] at hskip
      have hrec := ih hnext (by rw [hleft]; omega)
      have hdigits : ∀ d ∈ c :: cs, d.isDigit = true := by
        rintro d (_ | ⟨_, hd⟩)
        · exact hc
        · exact hcs d hd
      rw [hrest, pullsAt_digits hc hcs hlast,
        spanFrom_placeAfter (not_mem_feed_of_isDigit hdigits) (bytesOf_length_of_isDigit hdigits),
        spanOf, ← hleft]
      exact congrArg _ hrec
    | @single c cs next hrest hspacing hfeed hdigit hnext hleft =>
      rw [hrest, List.length_cons] at hskip
      have hrec := ih hnext (by rw [hleft]; omega)
      have hmem : '\n' ∉ [c] := by simpa using Ne.symm hfeed
      rw [hrest, pullsAt_single hspacing hfeed hdigit,
        spanFrom_placeAfter hmem (length_bytesOf_singleton c), spanOf, ← hleft]
      exact congrArg _ hrec

/-- Counting bytes gives the source of the text. -/
theorem answers_start (t : Alphabet) (text : List Char) :
    (Reader.start text).answers t text.length = pulls t text :=
  (At.start text).answers_eq (Nat.le_refl _)

end Reader

end ShiftReduce.Calc
