import ShiftReduce.GrammarText.Draft
import ShiftReduce.Proofs.GrammarText.Lexemes
import ShiftReduce.Proofs.GrammarText.Lines

/-!
# Comments and spacing

Comments and the amount of spacing make no difference to what a grammar text declares, nor to the
error that it is rejected with.  The first two hyphens of a line always stand where a lexeme begins:
no lexeme other than a comment goes on with a hyphen.  So a comment can be deleted, and a run of
spacing replaced, without a change to any token before or after it.

* `Interchangeable`: texts that can take each other's place after any other text;
* `withoutComments`: a text without its comments; `tokens_withoutComments`: its tokens;
* `Draft.ofText_ignores_comments_and_spacing`: what this means for grammar text, and where reading
  stops if a character begins no token.
-/

namespace ShiftReduce.GrammarText

variable {a u v after : List Char} {line : Nat}

/-! ## Texts in each other's place -/

/-- The texts are read alike at the front of a text and inside a comment, and both begin with a
break. -/
structure Interchangeable (u v : List Char) : Prop where
  breaks_left : Breaks u
  breaks_right : Breaks v
  tokensAt_eq : ∀ line, tokensAt line u = tokensAt line v
  tokensAt_dropWhile_eq : ∀ line,
    tokensAt line (u.dropWhile (· ≠ '\n')) = tokensAt line (v.dropWhile (· ≠ '\n'))

theorem getLast?_of_suffix {l m : List Char} {c : Char} (h : l <:+ m) (hl : l.getLast? = some c) :
    m.getLast? = some c := by
  obtain ⟨before, rfl⟩ := h
  rw [List.getLast?_append, hl, Option.some_or]

/-- Interchangeable texts are read alike after any text, unless two hyphens meet there. -/
theorem Interchangeable.tokensAt_append (h : Interchangeable u v)
    (hu : a.getLast? = some '-' → u.head? ≠ some '-')
    (hv : a.getLast? = some '-' → v.head? ≠ some '-') :
    tokensAt line (a ++ u) = tokensAt line (a ++ v) := by
  -- The fronts of both texts are the fronts of `a`, until `a` is used up or ends inside a comment.
  induction hn : a.length using Nat.strongRecOn generalizing a line with
  | ind n ih =>
    cases a with
    | nil => exact h.tokensAt_eq line
    | cons c a =>
      by_cases hcomment : ∃ body, c :: a = '-' :: '-' :: body ∧ '\n' ∉ body
      · obtain ⟨body, hcons, hbody⟩ := hcomment
        obtain ⟨rfl, rfl⟩ := List.cons.inj hcons
        rw [List.cons_append, List.cons_append, List.cons_append, List.cons_append,
          tokensAt_of_skip (scan_comment_append hbody u),
          tokensAt_of_skip (scan_comment_append hbody v)]
        exact h.tokensAt_dropWhile_eq line
      · have hends : ∀ body, c :: a = '-' :: '-' :: body → '\n' ∈ body := by
          intro body hcons
          by_contra hbody
          exact hcomment ⟨body, hcons, hbody⟩
        have hrest : ∀ rest, rest <:+ a → ∀ line,
            tokensAt line (rest ++ u) = tokensAt line (rest ++ v) := by
          intro rest hsuffix line
          have hlast : rest.getLast? = some '-' → (c :: a).getLast? = some '-' :=
            getLast?_of_suffix (hsuffix.trans (List.suffix_cons c a))
          have hlt : rest.length < n := by
            have hle := hsuffix.length_le
            simp only [← hn, List.length_cons]
            omega
          exact ih rest.length hlt (fun hr => hu (hlast hr)) (fun hr => hv (hlast hr)) rfl
        have hscanu := scan_append h.breaks_left hu hends
        have hscanv := scan_append h.breaks_right hv hends
        have hwithin := scan_within c a
        rw [List.cons_append, List.cons_append]
        generalize scan c a = front at hscanu hscanv hwithin
        cases front with
        | unknown d => rw [tokensAt_of_unknown hscanu, tokensAt_of_unknown hscanv]
        | skip rest =>
          rw [tokensAt_of_skip hscanu, tokensAt_of_skip hscanv, hrest rest hwithin]
        | token t rest =>
          rw [tokensAt_of_token hscanu, tokensAt_of_token hscanv, hrest rest hwithin]

/-! ## Spacing -/

theorem of_isSpacing {c : Char} (h : Text.isSpacing c = true) :
    isWordChar c = false ∧ c ≠ ':' ∧ c ≠ '>' ∧ c ≠ '-' ∧ c ≠ '\n' := by
  simp only [Text.isSpacing, Bool.or_eq_true, decide_eq_true_eq] at h
  rcases h with ((rfl | rfl) | rfl) | rfl
  all_goals decide

/-- A run of spacing can be replaced by one blank. -/
theorem interchangeable_spacing {run : List Char} (hne : run ≠ [])
    (hrun : ∀ c ∈ run, Text.isSpacing c = true) (after : List Char) :
    Interchangeable (run ++ after) (' ' :: after) := by
  obtain ⟨c, run, rfl⟩ := List.exists_cons_of_ne_nil hne
  have hhead := of_isSpacing (hrun c List.mem_cons_self)
  have hblank : ∀ d ∈ [' '], Text.isSpacing d = true := by
    intro d hd
    rw [List.mem_singleton.1 hd]
    rfl
  refine ⟨?_, ?_, ?_, ?_⟩
  · rintro d ⟨⟩
    exact ⟨hhead.1, hhead.2.1, hhead.2.2.1⟩
  · rintro d ⟨⟩
    decide
  · intro line
    rw [tokensAt_spacing_append hrun]
    exact (tokensAt_spacing_append hblank).symm
  · intro line
    have hskip : ∀ d ∈ c :: run, decide (d ≠ '\n') = true :=
      fun d hd => decide_eq_true (of_isSpacing (hrun d hd)).2.2.2.2
    rw [List.dropWhile_append_of_pos hskip]
    rfl

/-- A run of spacing is as good as one blank. -/
theorem tokens_replace_spacing {run : List Char} (hne : run ≠ [])
    (hrun : ∀ c ∈ run, Text.isSpacing c = true) (before after : List Char) :
    tokens (before ++ run ++ after) = tokens (before ++ ' ' :: after) := by
  rw [List.append_assoc]
  refine (interchangeable_spacing hne hrun after).tokensAt_append (fun _ => ?_) (fun _ => by simp)
  obtain ⟨c, run, rfl⟩ := List.exists_cons_of_ne_nil hne
  simpa using (of_isSpacing (hrun c List.mem_cons_self)).2.2.2.1

/-! ## Comments -/

/-- The part of a line before its first two hyphens in a row. -/
def beforeComment : List Char → List Char
  | '-' :: '-' :: _ => []
  | c :: cs => c :: beforeComment cs
  | [] => []

/-- A text whose lines are cut off at their first two hyphens in a row. -/
def withoutComments (text : List Char) : List Char :=
  ['\n'].intercalate ((text.splitOn '\n').map beforeComment)

/-- What a line has after the part before its comment begins with two hyphens, and no hyphen stands
right before them. -/
theorem beforeComment_cases (l : List Char) :
    beforeComment l = l ∨
      ∃ body, l = beforeComment l ++ '-' :: '-' :: body ∧
        (beforeComment l).getLast? ≠ some '-' := by
  fun_induction beforeComment l with
  | case1 body => exact .inr ⟨body, rfl, nofun⟩
  | case2 c cs hfirst ih =>
    rcases ih with heq | ⟨body, heq, hlast⟩
    · exact .inl (by rw [heq])
    · refine .inr ⟨body, by rw [List.cons_append, ← heq], fun hc => ?_⟩
      cases hcs : beforeComment cs with
      | nil =>
        rw [hcs] at hc heq
        exact hfirst ('-' :: body) (Option.some.inj hc) heq
      | cons d ds =>
        rw [hcs, List.getLast?_cons_cons] at hc
        exact hlast (by rw [hcs, hc])
  | case3 => exact .inl rfl

/-- The line ends here. -/
def LineEnds (after : List Char) : Prop := ∀ c ∈ after.head?, c = '\n'

theorem LineEnds.breaks (h : LineEnds after) : Breaks after := by
  intro c hc
  rw [h c hc]
  decide

theorem LineEnds.dropWhile_eq (h : LineEnds after) : after.dropWhile (· ≠ '\n') = after := by
  cases after with
  | nil => rfl
  | cons c after =>
    rw [h c rfl]
    rfl

/-- A comment can be deleted up to the end of its line. -/
theorem interchangeable_comment {body : List Char} (hbody : '\n' ∉ body) (hafter : LineEnds after) :
    Interchangeable ('-' :: '-' :: (body ++ after)) after := by
  have hskip : ('-' :: '-' :: body ++ after).dropWhile (· ≠ '\n') = after := by
    rw [List.dropWhile_append_of_pos, hafter.dropWhile_eq]
    intro d hd
    exact decide_eq_true (ne_of_mem_of_not_mem hd (by simpa using hbody))
  refine ⟨?_, hafter.breaks, fun line => ?_, fun line => ?_⟩
  · rintro d ⟨⟩
    decide
  · rw [tokensAt_of_skip (scan_comment_append hbody after), hafter.dropWhile_eq]
  · rw [hafter.dropWhile_eq]
    exact congrArg (tokensAt line) hskip

/-- What follows a line can be replaced. -/
theorem interchangeable_lineFeed (h : ∀ line, tokensAt line u = tokensAt line v) :
    Interchangeable ('\n' :: u) ('\n' :: v) := by
  have hfeed : ∀ line, tokensAt line ('\n' :: u) = tokensAt line ('\n' :: v) := by
    intro line
    rw [tokensAt_of_token (show scan '\n' u = .token .lineFeed u from rfl),
      tokensAt_of_token (show scan '\n' v = .token .lineFeed v from rfl), h]
  refine ⟨?_, ?_, hfeed, hfeed⟩
  all_goals
    rintro d ⟨⟩
    decide

/-- A line is read alike with and without its comment. -/
theorem tokensAt_beforeComment {l : List Char} (hl : '\n' ∉ l) (hafter : LineEnds after) :
    tokensAt line (beforeComment l ++ after) = tokensAt line (l ++ after) := by
  rcases beforeComment_cases l with heq | ⟨body, heq, hlast⟩
  · rw [heq]
  · have hbody : '\n' ∉ body := by
      intro hmem
      apply hl
      rw [heq]
      simp [hmem]
    calc tokensAt line (beforeComment l ++ after)
      _ = tokensAt line (beforeComment l ++ '-' :: '-' :: (body ++ after)) :=
        ((interchangeable_comment hbody hafter).tokensAt_append (fun h => absurd h hlast)
          (fun h => absurd h hlast)).symm
      _ = tokensAt line ((beforeComment l ++ '-' :: '-' :: body) ++ after) := by simp
      _ = tokensAt line (l ++ after) := by rw [← heq]

theorem tokensAt_intercalate_beforeComment {ls : List (List Char)} (hls : ∀ l ∈ ls, '\n' ∉ l) :
    tokensAt line (['\n'].intercalate (ls.map beforeComment)) =
      tokensAt line (['\n'].intercalate ls) := by
  induction ls generalizing line with
  | nil => rfl
  | cons l ls ih =>
    have hl := hls l List.mem_cons_self
    have hrest : ∀ line, tokensAt line (['\n'].intercalate (ls.map beforeComment)) =
        tokensAt line (['\n'].intercalate ls) :=
      fun line => ih fun l' h => hls l' (List.mem_cons_of_mem l h)
    cases ls with
    | nil =>
      have hread : tokensAt line (beforeComment l ++ []) = tokensAt line (l ++ []) :=
        tokensAt_beforeComment hl nofun
      simpa using hread
    | cons l' ls =>
      have hfeed : ∀ u, LineEnds ('\n' :: u) := by
        rintro u d ⟨⟩
        rfl
      simp only [List.map_cons, List.intercalate_cons_cons, List.append_assoc,
        List.singleton_append] at hrest ⊢
      rw [(interchangeable_lineFeed hrest).tokensAt_append (fun _ => by simp) (fun _ => by simp)]
      exact tokensAt_beforeComment hl (hfeed _)

/-- Comments make no difference to the tokens of a text. -/
theorem tokens_withoutComments (text : List Char) :
    tokens (withoutComments text) = tokens text := by
  have hread : tokensAt 1 (withoutComments text) =
      tokensAt 1 (['\n'].intercalate (text.splitOn '\n')) :=
    tokensAt_intercalate_beforeComment fun l hl => (of_mem_splitOn hl).1
  rw [List.intercalate_splitOn] at hread
  exact hread

/-! ## Grammar texts -/

namespace Draft

theorem ofChars_congr {text text' : List Char} (h : tokens text = tokens text') :
    ofChars text = ofChars text' := by
  rw [ofChars, ofChars, h]

/-- A grammar text declares the same, or is rejected with the same error, when all comments are
deleted and when a run of spacing is replaced by one blank.  Reading stops at the first character
that stands where a lexeme ends and begins none itself, and the error names this character and its
line. -/
theorem ofText_ignores_comments_and_spacing (text : String) :
    ofText (String.ofList (withoutComments text.toList)) = ofText text ∧
    (∀ before run after, text.toList = before ++ run ++ after → run ≠ [] →
      (∀ c ∈ run, Text.isSpacing c = true) →
      ofText (String.ofList (before ++ ' ' :: after)) = ofText text) ∧
    (∀ place, tokens text.toList = .error place ↔
      ∃ before ts after, text.toList = before ++ place.char :: after ∧
        Cuts before ts (place.char :: after) ∧ Unread (place.char :: after) ∧
        place.line = 1 + before.count '\n') ∧
    ∀ place, tokens text.toList = .error place →
      ∃ error, ofText text = .error error ∧ error.message =
      s!"line {place.line}: unexpected input {Text.quoteString (String.singleton place.char)}" := by
  refine ⟨?_, ?_, fun place => tokens_eq_error_iff, ?_⟩
  · rw [ofText, String.toList_ofList]
    exact ofChars_congr (tokens_withoutComments text.toList)
  · intro before run after htext hne hrun
    rw [ofText, String.toList_ofList, ofText, htext]
    exact ofChars_congr (tokens_replace_spacing hne hrun before after).symm
  · intro place hplace
    refine ⟨.unexpected place, ?_, rfl⟩
    rw [ofText, ofChars, hplace]

example : tokens "E -> a -- é\nE -> é\n".toList = .error ⟨2, 'é'⟩ := by decide +kernel

end Draft

end ShiftReduce.GrammarText
