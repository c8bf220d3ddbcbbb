import Mathlib.Data.Nat.Digits.Defs
import ShiftReduce.Proofs.Calc.Offsets
import ShiftReduce.Proofs.Parser.Soundness

/-!
# Tokens point back at their text

The source of a text divides the text into tokens and what separates them, up to its end or up to
the first place where it goes wrong: a number that is too large, or a character that is no part of
an expression.  The span of every token shows the bytes that the token stands for, and the spans
come in the order of the text.

* `Spells`: which stretch of a text stands for which token; `Fails`: where a text goes wrong;
* `Piece`, `Divides`: a text divided into tokens and gaps;
* `exists_divides`: what the source of a text tells about it;
* `Divides.not_fails`: a text does not go wrong before the place where the source stops;
* `Reading`, `spans_point_back`: all of this about a whole text.
-/

namespace ShiftReduce.Calc

variable {t : Alphabet} {before lexeme after gap rest text : List Char} {token : Tree Token}

/-! ## Stretches of a text -/

/-- The operators and parentheses. -/
def operators : List Char := ['+', '-', '*', '/', '(', ')']

/-- The number that digits stand for in the decimal system. -/
def numeralValue (digits : List Char) : Nat :=
  Nat.ofDigits 10 (digits.reverse.map fun d => d.toNat - '0'.toNat)

/-- A run of digits that goes on neither before nor after. -/
structure Numeral (before digits after : List Char) : Prop where
  ne_nil : digits ≠ []
  isDigit : ∀ d ∈ digits, d.isDigit = true
  first : ∀ d ∈ before.getLast?, d.isDigit = false
  last : ∀ d ∈ after.head?, d.isDigit = false

/-- Between `before` and `after` the stretch stands for the token. -/
inductive Spells (t : Alphabet) (before : List Char) : List Char → List Char → Tree Token → Prop
  | number {digits after : List Char} (h : Numeral before digits after)
      (hle : numeralValue digits ≤ 2 ^ 63 - 1) :
      Spells t before digits after
        (Tree.scalar t.number ⟨.number (numeralValue digits), some (spanOf before digits)⟩)
  | operator {c : Char} {after : List Char} {symbol : Nat} (hc : c ∈ operators)
      (hsymbol : t.operator? c = some symbol) :
      Spells t before [c] after (Tree.scalar symbol ⟨.operator c, some (spanOf before [c])⟩)

/-- After `before` the text goes wrong. -/
inductive Fails (before : List Char) : List Char → Error → Prop
  | tooLarge {digits after : List Char} (h : Numeral before digits after)
      (hlarge : 2 ^ 63 - 1 < numeralValue digits) : Fails before (digits ++ after) .literalTooLarge
  | unexpected {c : Char} {after : List Char} (hspacing : ¬ Text.isSpacing c = true)
      (hfeed : c ≠ '\n') (hdigit : ¬ c.isDigit = true) (hoperator : c ∉ operators) :
      Fails before (c :: after) (.unexpectedChar c (spanOf before [c]))

theorem decimal_eq (digits : List Char) : decimal digits = numeralValue digits := by
  induction digits using List.reverseRecOn with
  | nil => rfl
  | append_singleton digits d ih =>
    rw [decimal, List.foldl_append, List.foldl_cons, List.foldl_nil, numeralValue,
      List.reverse_append, List.reverse_singleton, List.singleton_append, List.map_cons,
      Nat.ofDigits_cons, Nat.add_comm]
    exact congrArg₂ _ rfl (congrArg _ ih)

theorem mem_operators_iff {c : Char} : c ∈ operators ↔ t.operator? c ≠ none := by
  simp only [operators, List.mem_cons, List.not_mem_nil, or_false, Alphabet.operator?]
  split_ifs <;> simp_all

/-! ## Reading a stretch -/

theorem literal_of_le {digits : List Char} {span : Span} (h : numeralValue digits ≤ 2 ^ 63 - 1) :
    literal t digits span =
      .token (Tree.scalar t.number ⟨.number (numeralValue digits), some span⟩) := by
  have hrange : least ≤ (numeralValue digits : Int) ∧ (numeralValue digits : Int) ≤ greatest := by
    unfold least greatest
    omega
  rw [literal, decimal_eq, checked, if_pos hrange]

theorem literal_of_lt {digits : List Char} {span : Span} (h : 2 ^ 63 - 1 < numeralValue digits) :
    literal t digits span = .fault .literalTooLarge := by
  have hrange : ¬ (least ≤ (numeralValue digits : Int) ∧
      (numeralValue digits : Int) ≤ greatest) := by
    unfold least greatest
    omega
  rw [literal, decimal_eq, checked, if_neg hrange]

theorem Numeral.pullsAt_eq {digits : List Char} (h : Numeral before digits after) :
    pullsAt t (placeAfter before) (digits ++ after) =
      literal t digits (spanOf before digits) ::
        pullsAt t (placeAfter (before ++ digits)) after := by
  obtain ⟨c, cs, rfl⟩ := List.exists_cons_of_ne_nil h.ne_nil
  rw [pullsAt_digits (h.isDigit c List.mem_cons_self)
    (fun d hd => h.isDigit d (List.mem_cons_of_mem c hd)) h.last,
    spanFrom_placeAfter (not_mem_feed_of_isDigit h.isDigit) (bytesOf_length_of_isDigit h.isDigit)]
  rfl

theorem pullsAt_character {c : Char} (hspacing : ¬ Text.isSpacing c = true) (hfeed : c ≠ '\n')
    (hdigit : ¬ c.isDigit = true) :
    pullsAt t (placeAfter before) (c :: after) =
      single t c (spanOf before [c]) :: pullsAt t (placeAfter (before ++ [c])) after := by
  have hmem : '\n' ∉ [c] := by simpa using Ne.symm hfeed
  rw [pullsAt_single hspacing hfeed hdigit,
    spanFrom_placeAfter hmem (length_bytesOf_singleton c)]
  rfl

/-- An operator is no digit, and it does not separate tokens. -/
theorem of_mem_operators {c : Char} (hc : c ∈ operators) :
    ¬ Text.isSpacing c = true ∧ c ≠ '\n' ∧ ¬ c.isDigit = true := by
  have hall : operators.all (fun c => !Text.isSpacing c && c != '\n' && !c.isDigit) = true := by
    decide
  simpa [and_assoc] using List.all_eq_true.1 hall c hc

/-- A stretch that stands for a token is read as this token. -/
theorem Spells.pullsAt_eq (h : Spells t before lexeme after token) :
    pullsAt t (placeAfter before) (lexeme ++ after) =
      .token token :: pullsAt t (placeAfter (before ++ lexeme)) after := by
  cases h with
  | number h hle => rw [h.pullsAt_eq, literal_of_le hle]
  | @operator c after symbol hc hsymbol =>
    obtain ⟨hspacing, hfeed, hdigit⟩ := of_mem_operators hc
    rw [List.singleton_append, pullsAt_character hspacing hfeed hdigit, single, hsymbol]

/-- Where a text goes wrong, its source has a fault. -/
theorem Fails.exists_pullsAt_eq {error : Error} (h : Fails before after error) :
    ∃ more, pullsAt t (placeAfter before) after = .fault error :: more := by
  cases h with
  | tooLarge h hlarge => exact ⟨_, by rw [h.pullsAt_eq, literal_of_lt hlarge]⟩
  | unexpected hspacing hfeed hdigit hoperator =>
    have hnone : t.operator? _ = none := not_not.1 (mt mem_operators_iff.2 hoperator)
    exact ⟨_, by rw [pullsAt_character hspacing hfeed hdigit, single, hnone]⟩

/-- A stretch that stands for a token is not empty and has no line feed. -/
theorem Spells.ne_nil (h : Spells t before lexeme after token) : lexeme ≠ [] := by
  cases h with
  | number h => exact h.ne_nil
  | operator => exact List.cons_ne_nil _ _

theorem Spells.not_mem_feed (h : Spells t before lexeme after token) : '\n' ∉ lexeme := by
  cases h with
  | number h => exact not_mem_feed_of_isDigit h.isDigit
  | operator hc => simpa using Ne.symm (of_mem_operators hc).2.1

/-- Every text that is not empty and does not begin with a gap begins with a stretch that stands for
a token, or goes wrong. -/
theorem exists_spells_or_fails {c : Char} {cs : List Char} (hspacing : ¬ Text.isSpacing c = true)
    (hfeed : c ≠ '\n')
    (hfirst : c.isDigit = true → ∀ d ∈ before.getLast?, d.isDigit = false) :
    (∃ lexeme after token, c :: cs = lexeme ++ after ∧ Spells t before lexeme after token) ∨
      ∃ error, Fails before (c :: cs) error := by
  by_cases hdigit : c.isDigit = true
  · have hsplit : c :: cs = (c :: cs.takeWhile Char.isDigit) ++ cs.dropWhile Char.isDigit := by
      rw [List.cons_append, List.takeWhile_append_dropWhile]
    have hdigits : ∀ d ∈ c :: cs.takeWhile Char.isDigit, d.isDigit = true := by
      rintro d (_ | ⟨_, hd⟩)
      · exact hdigit
      · exact List.mem_takeWhile_imp hd
    have hlast : ∀ d ∈ (cs.dropWhile Char.isDigit).head?, d.isDigit = false := by
      intro d hd
      have hhead := List.head?_dropWhile_not Char.isDigit cs
      rw [hd] at hhead
      simpa using hhead
    have hnumeral : Numeral before (c :: cs.takeWhile Char.isDigit) (cs.dropWhile Char.isDigit) :=
      ⟨List.cons_ne_nil _ _, hdigits, hfirst hdigit, hlast⟩
    by_cases hle : numeralValue (c :: cs.takeWhile Char.isDigit) ≤ 2 ^ 63 - 1
    · exact .inl ⟨_, _, _, hsplit, .number hnumeral hle⟩
    · rw [hsplit]
      exact .inr ⟨_, .tooLarge hnumeral (Nat.not_le.1 hle)⟩
  · by_cases hoperator : c ∈ operators
    · obtain ⟨symbol, hsymbol⟩ := Option.ne_none_iff_exists'.1 (mem_operators_iff.1 hoperator)
      exact .inl ⟨[c], cs, _, rfl, .operator hoperator hsymbol⟩
    · exact .inr ⟨_, .unexpected hspacing hfeed hdigit hoperator⟩

/-! ## Dividing a text -/

/-- A token with what stands for it, and the gap before it. -/
structure Piece where
  gap : List Char
  lexeme : List Char
  token : Tree Token

/-- The text of some pieces. -/
def textOf (pieces : List Piece) : List Char := pieces.flatMap fun p => p.gap ++ p.lexeme

/-- After `before` the pieces stand one after the other, and `after` follows them. -/
inductive Divides (t : Alphabet) : List Char → List Piece → List Char → Prop
  | nil (before after : List Char) : Divides t before [] after
  | cons {before after : List Char} {p : Piece} {pieces : List Piece} (hgap : Gap p.gap)
      (hspells : Spells t (before ++ p.gap) p.lexeme (textOf pieces ++ after) p.token)
      (hpieces : Divides t (before ++ p.gap ++ p.lexeme) pieces after) :
      Divides t before (p :: pieces) after

/-- What separates tokens is no digit. -/
theorem Gap.not_isDigit (hgap : Gap gap) {c : Char} (hc : c ∈ gap) : c.isDigit = false := by
  rw [Bool.eq_false_iff]
  intro hdigit
  rcases hgap c hc with hspacing | hfeed
  · exact not_isSpacing_of_isDigit hdigit hspacing
  · exact ne_feed_of_isDigit hdigit hfeed

/-- After a gap a run of digits can begin, unless the gap is empty. -/
theorem Gap.getLast?_append (hgap : Gap gap)
    (hfirst : gap = [] → ∀ d ∈ before.getLast?, d.isDigit = false) :
    ∀ d ∈ (before ++ gap).getLast?, d.isDigit = false := by
  intro d hd
  rcases List.eq_nil_or_concat gap with rfl | ⟨gap, c, rfl⟩
  · rw [List.append_nil] at hd
    exact hfirst rfl d hd
  · rw [List.concat_eq_append, ← List.append_assoc, List.getLast?_concat] at hd
    cases hd
    exact hgap.not_isDigit (by simp)

/-- No run of digits goes on behind a stretch that stands for a token. -/
theorem Spells.not_isDigit (h : Spells t before lexeme after token) :
    ∀ c ∈ after.head?, c.isDigit = true →
      ∀ d ∈ (before ++ lexeme).getLast?, d.isDigit = false := by
  intro c hc hdigit d hd
  cases h with
  | number h =>
    rw [h.last c hc] at hdigit
    cases hdigit
  | operator hoperator =>
    rw [List.getLast?_concat] at hd
    cases hd
    exact Bool.eq_false_iff.2 (of_mem_operators hoperator).2.2

/-- A text begins with a gap, which may be empty, and then ends or goes on with something else. -/
theorem exists_gap (text : List Char) :
    ∃ gap rest, text = gap ++ rest ∧ Gap gap ∧
      ∀ c ∈ rest.head?, ¬ Text.isSpacing c = true ∧ c ≠ '\n' := by
  refine ⟨text.takeWhile fun c => Text.isSpacing c || c == '\n',
    text.dropWhile fun c => Text.isSpacing c || c == '\n',
    List.takeWhile_append_dropWhile.symm, ?_, ?_⟩
  · intro c hc
    simpa using List.mem_takeWhile_imp hc
  · intro c hc
    have hhead := List.head?_dropWhile_not (fun c => Text.isSpacing c || c == '\n') text
    rw [hc] at hhead
    simpa using hhead

/-- Every text is divided into pieces, up to its end or to where it goes wrong. -/
theorem exists_divides (t : Alphabet) (before text : List Char)
    (hfirst : ∀ c ∈ text.head?, c.isDigit = true → ∀ d ∈ before.getLast?, d.isDigit = false) :
    ∃ pieces gap rest, text = textOf pieces ++ gap ++ rest ∧ Gap gap ∧
      Divides t before pieces (gap ++ rest) ∧
      (rest = [] ∨ ∃ error, Fails (before ++ textOf pieces ++ gap) rest error) := by
  induction hn : text.length using Nat.strongRecOn generalizing before text with
  | ind n ih =>
    obtain ⟨gap, rest, rfl, hgap, hrest⟩ := exists_gap text
    cases rest with
    | nil => exact ⟨[], gap, [], rfl, hgap, .nil _ _, .inl rfl⟩
    | cons c cs =>
      obtain ⟨hspacing, hfeed⟩ := hrest c rfl
      have hdigit : c.isDigit = true → ∀ d ∈ (before ++ gap).getLast?, d.isDigit = false := by
        intro hc
        refine hgap.getLast?_append ?_
        rintro rfl
        exact hfirst c rfl hc
      rcases exists_spells_or_fails (t := t) hspacing hfeed hdigit with
        ⟨lexeme, after, token, hsplit, hspells⟩ | ⟨error, hfails⟩
      · have hlt : after.length < n := by
          have hpos := List.length_pos_iff.2 hspells.ne_nil
          rw [← hn, hsplit, List.length_append, List.length_append]
          omega
        obtain ⟨pieces, gap', rest', rfl, hgap', hdivides, hstops⟩ :=
          ih after.length hlt (before ++ gap ++ lexeme) after hspells.not_isDigit rfl
        refine ⟨⟨gap, lexeme, token⟩ :: pieces, gap', rest', ?_, hgap',
          .cons hgap (by rwa [← List.append_assoc]) hdivides, ?_⟩
        · rw [hsplit]
          simp [textOf]
        · simpa [textOf] using hstops
      · refine ⟨[], gap, c :: cs, rfl, hgap, .nil _ _, .inr ⟨error, ?_⟩⟩
        rwa [textOf, List.flatMap_nil, List.append_nil]

namespace Divides

variable {pieces : List Piece}

/-- The source of a text that is divided gives the tokens of the pieces first. -/
theorem pullsAt_eq (h : Divides t before pieces after) :
    pullsAt t (placeAfter before) (textOf pieces ++ after) =
      (pieces.map Piece.token).map .token ++
        pullsAt t (placeAfter (before ++ textOf pieces)) after := by
  induction h with
  | nil => simp [textOf]
  | @cons before after p pieces hgap hspells _ ih =>
    have htext : textOf (p :: pieces) ++ after = p.gap ++ (p.lexeme ++ (textOf pieces ++ after)) := by
      simp [textOf]
    have hbefore : before ++ textOf (p :: pieces) =
        before ++ p.gap ++ p.lexeme ++ textOf pieces := by
      simp [textOf]
    rw [htext, pullsAt_gap_append hgap, hspells.pullsAt_eq, ih, hbefore, List.map_cons,
      List.map_cons, List.cons_append]

/-- Every piece is what it is where it stands. -/
theorem spells (h : Divides t before pieces after) {earlier later : List Piece} {p : Piece}
    (hpieces : pieces = earlier ++ p :: later) :
    Gap p.gap ∧
      Spells t (before ++ textOf earlier ++ p.gap) p.lexeme (textOf later ++ after) p.token := by
  induction h generalizing earlier with
  | nil => simp at hpieces
  | @cons before after q pieces hgap hspells _ ih =>
    cases earlier with
    | nil =>
      cases hpieces
      simpa [textOf] using ⟨hgap, hspells⟩
    | cons r earlier =>
      obtain ⟨rfl, rfl⟩ := List.cons.inj hpieces
      simpa [textOf] using ih rfl

end Divides

/-! ## Spans -/

/-- The span of a token. -/
def tokenSpan? (token : Tree Token) : Option Span := token.value?.bind Token.span

theorem Spells.tokenSpan?_eq (h : Spells t before lexeme after token) :
    tokenSpan? token = some (spanOf before lexeme) := by
  cases h <;> rfl

namespace Divides

variable {pieces : List Piece}

/-- The spans of the tokens run forward and follow each other. -/
theorem exists_spans (h : Divides t before pieces after) :
    ∃ spans : List Span, pieces.map (fun p => tokenSpan? p.token) = spans.map some ∧
      (∀ s ∈ spans, s.Runs ∧ (placeAfter before).atOrBefore s.start = true) ∧
      spans.Pairwise Span.Precedes := by
  induction h with
  | nil => exact ⟨[], rfl, by simp, .nil⟩
  | @cons before after p pieces hgap hspells _ ih =>
    obtain ⟨spans, hspans, hall, hpairwise⟩ := ih
    have hruns : (spanOf (before ++ p.gap) p.lexeme).Runs :=
      runs_spanOf hspells.ne_nil hspells.not_mem_feed
    have hstart : (placeAfter before).atOrBefore (spanOf (before ++ p.gap) p.lexeme).start = true :=
      placeAfter_atOrBefore before p.gap
    refine ⟨spanOf (before ++ p.gap) p.lexeme :: spans, ?_, ?_, .cons ?_ hpairwise⟩
    · rw [List.map_cons, hspans, hspells.tokenSpan?_eq, List.map_cons]
    · rintro s (_ | ⟨_, hs⟩)
      · exact ⟨hruns, hstart⟩
      · refine ⟨(hall s hs).1, Position.atOrBefore_trans hstart ?_⟩
        exact Position.atOrBefore_trans (Position.atOrBefore_of_compare_eq_lt hruns.start_lt_stop)
          (hall s hs).2
    · exact fun s hs => Span.precedes_of_runs hruns (hall s hs).2

/-- The span of a token shows the stretch that stands for it. -/
theorem shows (h : Divides t [] pieces after) {p : Piece} (hp : p ∈ pieces) :
    ∃ span, tokenSpan? p.token = some span ∧ Shows span (textOf pieces ++ after) p.lexeme := by
  obtain ⟨earlier, later, rfl⟩ := List.append_of_mem hp
  obtain ⟨-, hspells⟩ := h.spells rfl
  refine ⟨_, hspells.tokenSpan?_eq, ?_⟩
  have hshows : Shows (spanOf (textOf earlier ++ p.gap) p.lexeme)
      (textOf earlier ++ p.gap ++ p.lexeme ++ (textOf later ++ after)) p.lexeme :=
    shows_spanOf hspells.ne_nil hspells.not_mem_feed
  simpa [textOf] using hshows

end Divides

/-! ## Where a text goes wrong first -/

/-- A place inside the middle part of a text divides this part. -/
theorem exists_split {u v w a b : List Char} (h : u ++ (v ++ w) = a ++ b)
    (hle : u.length ≤ a.length) (hlt : a.length < (u ++ v).length) :
    ∃ v₁ c v₂, v = v₁ ++ c :: v₂ ∧ a = u ++ v₁ ∧ b = c :: (v₂ ++ w) := by
  obtain ⟨v₁, rfl⟩ := List.prefix_of_prefix_length_le (h ▸ List.prefix_append u _)
    (List.prefix_append a b) hle
  rw [List.append_assoc, List.append_cancel_left_eq] at h
  rw [List.length_append, List.length_append, Nat.add_lt_add_iff_left] at hlt
  obtain ⟨v₂, rfl⟩ := List.prefix_of_prefix_length_le (h ▸ List.prefix_append v₁ b)
    (List.prefix_append v w) (Nat.le_of_lt hlt)
  cases v₂ with
  | nil => simp at hlt
  | cons c v₂ =>
    rw [List.append_assoc, List.append_cancel_left_eq] at h
    exact ⟨v₁, c, v₂, rfl, rfl, h.symm⟩

/-- A text goes wrong at a digit, where a large number begins, or at a character that is not part of
any text. -/
theorem Fails.cases_head {c : Char} {error : Error} (h : Fails before (c :: after) error) :
    (c.isDigit = true ∧ ∃ digits after', c :: after = digits ++ after' ∧
      Numeral before digits after' ∧ 2 ^ 63 - 1 < numeralValue digits) ∨
    (¬ Text.isSpacing c = true ∧ c ≠ '\n' ∧ ¬ c.isDigit = true ∧ c ∉ operators) := by
  generalize htext : c :: after = text at h
  cases h with
  | @tooLarge digits after' h hlarge =>
    obtain ⟨d, ds, rfl⟩ := List.exists_cons_of_ne_nil h.ne_nil
    obtain ⟨rfl, -⟩ := List.cons.inj htext
    exact .inl ⟨h.isDigit c List.mem_cons_self, _, _, rfl, h, hlarge⟩
  | unexpected hspacing hfeed hdigit hoperator =>
    obtain ⟨rfl, -⟩ := List.cons.inj htext
    exact .inr ⟨hspacing, hfeed, hdigit, hoperator⟩

/-- A text does not go wrong inside a gap. -/
theorem Gap.not_fails (hgap : Gap gap) {c : Char} (hc : c ∈ gap) (error : Error) :
    ¬ Fails before (c :: after) error := by
  intro h
  rcases h.cases_head with ⟨hdigit, -⟩ | ⟨hspacing, hfeed, -⟩
  · rw [hgap.not_isDigit hc] at hdigit
    cases hdigit
  · rcases hgap c hc with h | h
    · exact hspacing h
    · exact hfeed h

theorem Numeral.takeWhile_eq {digits : List Char} (h : Numeral before digits after) :
    (digits ++ after).takeWhile Char.isDigit = digits := by
  rw [GrammarText.takeWhile_append_of_head h.last, List.takeWhile_eq_self_iff.2 h.isDigit]

/-- A text does not go wrong inside a stretch that stands for a token. -/
theorem Spells.not_fails (h : Spells t before lexeme after token) {l₁ l₂ : List Char} {c : Char}
    (hlexeme : lexeme = l₁ ++ c :: l₂) (error : Error) :
    ¬ Fails (before ++ l₁) (c :: (l₂ ++ after)) error := by
  intro hfails
  have hcases := hfails.cases_head
  cases h with
  | number h hle =>
    have hdigit : c.isDigit = true := h.isDigit c (by simp [hlexeme])
    rcases hcases with ⟨-, digits, after', hsplit, hnumeral, hlarge⟩ | ⟨-, -, hno, -⟩
    · -- a run of digits that goes on neither before nor after can only be the whole stretch
      rcases List.eq_nil_or_concat l₁ with rfl | ⟨l, d, rfl⟩
      · have heq : lexeme = digits := by
          rw [← h.takeWhile_eq, hlexeme, ← hnumeral.takeWhile_eq, ← hsplit]
          rfl
        rw [heq] at hle
        omega
      · have hlast : d.isDigit = true := h.isDigit d (by simp [hlexeme])
        have hfirst := hnumeral.first d (by simp)
        rw [hlast] at hfirst
        cases hfirst
    · exact hno hdigit
  | operator hoperator hsymbol =>
    obtain ⟨-, -, hno⟩ := of_mem_operators hoperator
    cases l₁ with
    | nil =>
      cases hlexeme
      rcases hcases with ⟨hdigit, -⟩ | ⟨-, -, -, hmem⟩
      · exact hno hdigit
      · exact hmem hoperator
    | cons d l₁ => simp at hlexeme

/-- A text that is divided does not go wrong before the end of the pieces and of a gap after
them. -/
theorem Divides.not_fails {pieces : List Piece} (h : Divides t before pieces after)
    (hafter : after = gap ++ rest) (hgap : Gap gap) {a b : List Char}
    (htext : before ++ (textOf pieces ++ after) = a ++ b) (hle : before.length ≤ a.length)
    (hlt : a.length < (before ++ (textOf pieces ++ gap)).length) (error : Error) :
    ¬ Fails a b error := by
  induction h with
  | nil before after =>
    subst hafter
    have hnil : textOf [] = [] := rfl
    rw [hnil, List.nil_append] at htext hlt
    obtain ⟨g₁, c, g₂, rfl, rfl, rfl⟩ := exists_split htext hle hlt
    exact hgap.not_fails (by simp) error
  | @cons before after p pieces hpgap hspells _ ih =>
    subst hafter
    have hsplit : before ++ (textOf (p :: pieces) ++ (gap ++ rest)) =
        before ++ (p.gap ++ (p.lexeme ++ (textOf pieces ++ (gap ++ rest)))) := by
      simp [textOf]
    rw [hsplit] at htext
    by_cases hin : a.length < (before ++ p.gap).length
    · obtain ⟨g₁, c, g₂, hg, rfl, rfl⟩ := exists_split htext hle hin
      exact hpgap.not_fails (by simp [hg]) error
    rw [← List.append_assoc] at htext
    by_cases hin' : a.length < (before ++ p.gap ++ p.lexeme).length
    · obtain ⟨l₁, c, l₂, hl, rfl, rfl⟩ := exists_split htext (Nat.not_lt.1 hin) hin'
      exact hspells.not_fails hl error
    · rw [← List.append_assoc] at htext
      refine ih rfl htext (Nat.not_lt.1 hin') ?_
      simpa [textOf, Nat.add_assoc] using hlt

/-! ## Reading a text -/

/-- The text is read as the pieces and a gap after them, and `rest` is what follows from the first
place on where the text goes wrong. -/
structure Reading (t : Alphabet) (text : List Char) (pieces : List Piece) (gap rest : List Char) :
    Prop where
  text_eq : text = textOf pieces ++ gap ++ rest
  gaps : (∀ p ∈ pieces, Gap p.gap) ∧ Gap gap
  /-- The tokens of the pieces are those before any fault of the source. -/
  leading_eq : leading (pulls t text) = pieces.map Piece.token
  /-- What stands for a token: an operator, or all digits of a number. -/
  spells : ∀ earlier p later, pieces = earlier ++ p :: later →
    Spells t (textOf earlier ++ p.gap) p.lexeme (textOf later ++ gap ++ rest) p.token
  shows : ∀ p ∈ pieces, ∃ span, tokenSpan? p.token = some span ∧ Shows span text p.lexeme
  /-- The spans of the tokens follow each other. -/
  ordered : (pieces.filterMap fun p => tokenSpan? p.token).Pairwise Span.Precedes
  /-- At the end, either all of the text has been read and it goes wrong nowhere, or it goes wrong
  there and the source says so. -/
  stops : rest = [] ∧ pulls t text = (pieces.map Piece.token).map .token ∧
      (∀ before after error, text = before ++ after → ¬ Fails before after error) ∨
    ∃ error more, pulls t text = (pieces.map Piece.token).map .token ++ .fault error :: more ∧
      Fails (textOf pieces ++ gap) rest error
  /-- The text does not go wrong earlier. -/
  first : ∀ before after error, text = before ++ after → Fails before after error →
    (textOf pieces ++ gap).length ≤ before.length
  /-- The span of a character that is no part of an expression shows this character. -/
  shows_unexpected : ∀ c span, Fails (textOf pieces ++ gap) rest (.unexpectedChar c span) →
    Shows span text [c]
  /-- Spans that are computed from byte offsets are the same, and no line begins after the place
  where one is computed. -/
  answers_eq : (Reader.start text).answers t text.length = pulls t text
  lineStart_le : ∀ r, Reader.Reached t text r → r.skip.lineStart ≤ r.skip.offset

theorem leading_map_token_append (tokens : List (Tree Token)) (more : List (Pull Token Error)) :
    leading (tokens.map .token ++ more) = tokens ++ leading more := by
  induction tokens with
  | nil => rfl
  | cons token tokens ih => rw [List.map_cons, List.cons_append, leading, ih, List.cons_append]

/-- At the end of a text it does not go wrong. -/
theorem Fails.ne_nil {error : Error} (h : Fails before after error) : after ≠ [] := by
  cases h with
  | tooLarge h => exact List.append_ne_nil_of_left_ne_nil h.ne_nil _
  | unexpected => exact List.cons_ne_nil _ _

/-- The place of a character is shown by its span. -/
theorem Fails.shows {c : Char} {span : Span}
    (h : Fails before after (.unexpectedChar c span)) : Shows span (before ++ after) [c] := by
  cases h with
  | @unexpected c after hspacing hfeed hdigit hoperator =>
    have hmem : '\n' ∉ [c] := by simpa using Ne.symm hfeed
    have hshows : Shows (spanOf before [c]) (before ++ [c] ++ after) [c] :=
      shows_spanOf (List.cons_ne_nil _ _) hmem
    rwa [List.append_assoc, List.singleton_append] at hshows

/-- The source of a text that is divided gives the tokens of the pieces first, whatever gap stands
behind them. -/
theorem Divides.pulls_eq {pieces : List Piece} (h : Divides t [] pieces (gap ++ rest))
    (hgap : Gap gap) :
    pulls t (textOf pieces ++ gap ++ rest) = (pieces.map Piece.token).map .token ++
      pullsAt t (placeAfter (textOf pieces ++ gap)) rest := by
  rw [List.append_assoc, pulls_eq_pullsAt, h.pullsAt_eq, List.nil_append, pullsAt_gap_append hgap]

/-- If the text ends there or goes wrong there, these are the tokens before any fault. -/
theorem Divides.leading_pulls {pieces : List Piece} (h : Divides t [] pieces (gap ++ rest))
    (hgap : Gap gap) (hends : rest = [] ∨ ∃ error, Fails (textOf pieces ++ gap) rest error) :
    leading (pulls t (textOf pieces ++ gap ++ rest)) = pieces.map Piece.token := by
  have hrest : leading (pullsAt t (placeAfter (textOf pieces ++ gap)) rest) = [] := by
    rcases hends with rfl | ⟨error, hfails⟩
    · rfl
    · obtain ⟨more, hmore⟩ := hfails.exists_pullsAt_eq (t := t)
      rw [hmore, leading]
      exact fun _ _ h => by cases h
  rw [h.pulls_eq hgap, leading_map_token_append, hrest, List.append_nil]

/-- The tokens of a text before any fault have spans that run forward and follow each other. -/
theorem exists_spans_of_leading (t : Alphabet) (text : List Char) :
    ∃ spans : List Span, (leading (pulls t text)).map tokenSpan? = spans.map some ∧
      (∀ s ∈ spans, s.Runs) ∧ spans.Pairwise Span.Precedes := by
  obtain ⟨pieces, gap, rest, rfl, hgap, hdivides, hends⟩ := exists_divides t [] text (by simp)
  obtain ⟨spans, hspans, hall, hpairwise⟩ := hdivides.exists_spans
  refine ⟨spans, ?_, fun s hs => (hall s hs).1, hpairwise⟩
  rw [hdivides.leading_pulls hgap hends, List.map_map, ← hspans]
  rfl

theorem stop_not_mem_pullsFrom {fuel : Nat} {place : Position} :
    Pull.stop ∉ pullsFrom t fuel place text := by
  have hliteral : ∀ digits span, Pull.stop ≠ literal t digits span := by
    intro digits span
    unfold literal
    split <;> exact fun h => by cases h
  have hsingle : ∀ c span, Pull.stop ≠ single t c span := by
    intro c span
    unfold single
    split <;> exact fun h => by cases h
  induction fuel generalizing place text with
  | zero => exact List.not_mem_nil
  | succ fuel ih =>
    cases text with
    | nil => exact List.not_mem_nil
    | cons c cs =>
      rw [pullsFrom]
      split_ifs
      · exact ih
      · exact ih
      · exact List.not_mem_cons_of_ne_of_not_mem (hliteral _ _) ih
      · exact List.not_mem_cons_of_ne_of_not_mem (hsingle _ _) ih

/-- The spans of the tokens follow each other. -/
theorem Divides.pairwise_precedes {pieces : List Piece} (h : Divides t before pieces after) :
    (pieces.filterMap fun p => tokenSpan? p.token).Pairwise Span.Precedes := by
  obtain ⟨spans, hspans, -, hpairwise⟩ := h.exists_spans
  have heq : (pieces.filterMap fun p => tokenSpan? p.token) = spans := by
    calc (pieces.filterMap fun p => tokenSpan? p.token)
        = (pieces.map fun p => tokenSpan? p.token).filterMap id := by
          rw [List.filterMap_map, Function.id_comp]
      _ = spans := by rw [hspans, List.filterMap_map, Function.id_comp, List.filterMap_some]
  rwa [heq]

/-- Every text is divided into tokens and gaps up to its end or the first place where it goes wrong;
its source gives these tokens, and their spans point back at the text. -/
theorem spans_point_back (t : Alphabet) (text : List Char) :
    ∃ pieces gap rest, Reading t text pieces gap rest := by
  obtain ⟨pieces, gap, rest, rfl, hgap, hdivides, hends⟩ := exists_divides t [] text (by simp)
  have htext : textOf pieces ++ gap ++ rest = textOf pieces ++ (gap ++ rest) :=
    List.append_assoc _ _ _
  have hpulls := hdivides.pulls_eq hgap
  have hfirst : ∀ before after error, textOf pieces ++ gap ++ rest = before ++ after →
      Fails before after error → (textOf pieces ++ gap).length ≤ before.length := by
    intro before after error hsplit hfails
    by_contra hlt
    rw [htext] at hsplit
    exact hdivides.not_fails rfl hgap hsplit (Nat.zero_le _) (Nat.not_le.1 hlt) error hfails
  refine ⟨pieces, gap, rest, ⟨rfl, ⟨?gaps, hgap⟩, hdivides.leading_pulls hgap hends, ?spells,
    ?shows, hdivides.pairwise_precedes, ?stops, hfirst, fun c span hfails => hfails.shows,
    Reader.answers_start t _, ?lineStart⟩⟩
  case gaps =>
    intro p hp
    obtain ⟨earlier, later, rfl⟩ := List.append_of_mem hp
    exact (hdivides.spells rfl).1
  case spells =>
    intro earlier p later hpieces
    rw [List.append_assoc]
    exact (hdivides.spells hpieces).2
  case shows =>
    intro p hp
    rw [htext]
    exact hdivides.shows hp
  case stops =>
    rcases hends with rfl | ⟨error, hfails⟩
    · refine .inl ⟨rfl, by rw [hpulls, pullsAt_nil, List.append_nil], ?_⟩
      intro before after error hsplit hfails
      -- nothing would be left after the place where the text goes wrong
      have hle := hfirst before after error hsplit hfails
      have hlength := congrArg List.length hsplit
      have hpos := List.length_pos_iff.2 hfails.ne_nil
      simp only [List.length_append, List.length_nil] at hle hlength
      omega
    · obtain ⟨more, hmore⟩ := hfails.exists_pullsAt_eq (t := t)
      exact .inr ⟨error, more, by rw [hpulls, ← hmore, List.nil_append], hfails⟩
  case lineStart =>
    intro r hreached
    obtain ⟨before, hat⟩ := Reader.exists_at_of_reached hreached
    exact hat.skip.lineStart_le

end ShiftReduce.Calc
