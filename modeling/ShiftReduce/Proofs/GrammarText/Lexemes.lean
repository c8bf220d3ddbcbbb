import ShiftReduce.Proofs.GrammarText.Scanning

/-!
# Lexemes

The lexical rules of grammar text as a relation between stretches of text and what they stand for,
apart from any order in which the rules are tried.  Reading a text cuts off the longest lexeme again
and again, until the text ends or goes on with a character that no lexeme begins with.

* `Lexeme`: the rules; `Longest`: the longest lexeme that a text begins with;
* `Cuts`: a text cut into longest lexemes, with the tokens that they stand for;
* `tokens_eq_ok_iff`, `tokens_eq_error_iff`: what reading a text gives, in these terms;
* `Lexeme.isUpper_front`, `Lexeme.isLower_front`: the names of nonterminals and of terminals;
* `IsWord`, `Lexeme.isWord_nonterminal`, `Lexeme.isWord_terminal`: they are words.
-/

namespace ShiftReduce.GrammarText

variable {c : Char} {l rest text before : List Char} {kind : Option Token} {ts : List Token}
  {line : Nat}

/-- A stretch of text that stands for a token, or for nothing. -/
inductive Lexeme : List Char → Option Token → Prop where
  | spacing {run : List Char} (hne : run ≠ []) (hrun : ∀ c ∈ run, Text.isSpacing c = true) :
      Lexeme run none
  | comment {body : List Char} (hbody : '\n' ∉ body) : Lexeme ('-' :: '-' :: body) none
  | lineFeed : Lexeme ['\n'] (some .lineFeed)
  | arrow : Lexeme ['-', '>'] (some .arrow)
  | directive (associativity : Associativity) :
      Lexeme ('%' :: associativity.name.toList) (some (.directive associativity))
  | label {c : Char} {cs : List Char} (hc : c.isLower = true)
      (hcs : ∀ d ∈ cs, isWordChar d = true) :
      Lexeme (c :: (cs ++ [':'])) (some (.label (String.ofList (c :: cs))))
  | lower {c : Char} {cs : List Char} (hc : c.isLower = true)
      (hcs : ∀ d ∈ cs, isWordChar d = true) :
      Lexeme (c :: cs) (some (.terminal (String.ofList (c :: cs))))
  | upper {c : Char} {cs : List Char} (hc : c.isUpper = true)
      (hcs : ∀ d ∈ cs, isWordChar d = true) :
      Lexeme (c :: cs) (some (.nonterminal (String.ofList (c :: cs))))
  | punctuation {c : Char} {name : String} (hname : punctuationName? c = some name) :
      Lexeme [c] (some (.terminal name))

theorem Lexeme.ne_nil (h : Lexeme l kind) : l ≠ [] := by
  cases h with
  | spacing hne => exact hne
  | _ => exact List.cons_ne_nil _ _

/-- The longest lexeme that a text begins with. -/
structure Longest (l : List Char) (kind : Option Token) (text : List Char) : Prop where
  lexeme : Lexeme l kind
  starts : l <+: text
  longest : ∀ other kind', Lexeme other kind' → other <+: text → other.length ≤ l.length

/-- The text does not begin with a lexeme. -/
def Unread (text : List Char) : Prop := ∀ l kind, Lexeme l kind → ¬ l <+: text

/-- A text that begins with a lexeme begins with a longest one. -/
theorem Lexeme.exists_longest (h : Lexeme l kind) (hstarts : l <+: text) :
    ∃ l' kind', Longest l' kind' text := by
  -- Longer and longer lexemes come to an end, since none is longer than the text.
  induction hn : text.length - l.length using Nat.strongRecOn generalizing l kind with
  | ind n ih =>
    by_cases hmax : ∀ other kind', Lexeme other kind' → other <+: text → other.length ≤ l.length
    · exact ⟨l, kind, h, hstarts, hmax⟩
    · simp only [not_forall, Nat.not_le, exists_prop] at hmax
      obtain ⟨other, kind', hother, hprefix, hlt⟩ := hmax
      have hle := hprefix.length_le
      exact ih (text.length - other.length) (by omega) hother hprefix rfl

/-- A longest lexeme does not go on as a longer one. -/
theorem Longest.not_starts (h : Longest l kind (l ++ rest)) {more : List Char}
    {kind' : Option Token} (hlexeme : Lexeme (l ++ more) kind') (hne : more ≠ []) :
    ¬ more <+: rest := by
  intro hprefix
  have hle := h.longest _ _ hlexeme ((List.prefix_append_right_inj l).2 hprefix)
  rw [List.length_append] at hle
  have hpos := List.length_pos_iff.2 hne
  omega

theorem Longest.not_mem_head? (h : Longest l kind (l ++ rest)) {kind' : Option Token}
    (hlexeme : Lexeme (l ++ [c]) kind') : c ∉ rest.head? := by
  intro hc
  obtain ⟨rest', rfl⟩ := List.head?_eq_some_iff.1 hc
  exact h.not_starts hlexeme (List.cons_ne_nil _ _) (by simp)

/-! ## Names -/

theorem isAlpha_iff : c.isAlpha = true ↔ c.isUpper = true ∨ c.isLower = true :=
  Bool.or_eq_true_iff

theorem not_isLower_of_isUpper (hc : c.isUpper = true) : ¬ c.isLower = true := by
  intro hlower
  have hupper : 'A'.val ≤ c.val ∧ c.val ≤ 'Z'.val := of_decide_eq_true hc
  have hge : 'a'.val ≤ c.val := of_decide_eq_true (Bool.and_eq_true_iff.1 hlower).1
  exact absurd (UInt32.le_trans hge hupper.2) (by decide)

/-- A punctuation character is no blank, no line feed and no letter, and its name begins in lower
case. -/
theorem of_punctuationName? {name : String} (h : punctuationName? c = some name) :
    Text.isSpacing c = false ∧ c ≠ '\n' ∧ c.isLower = false ∧ c.isUpper = false ∧
      name.toList.head?.any Char.isLower = true := by
  have hall : ∀ p ∈ punctuation, Text.isSpacing p.1 = false ∧ p.1 ≠ '\n' ∧ p.1.isLower = false ∧
      p.1.isUpper = false ∧ p.2.toList.head?.any Char.isLower = true := by
    decide +kernel
  obtain ⟨before, after, hmem, -⟩ := List.lookup_eq_some_iff.1 h
  exact hall (c, name) (by rw [hmem]; simp)

/-- The name of a nonterminal begins with a capital. -/
theorem Lexeme.isUpper_front {name : String} (h : Lexeme l (some (.nonterminal name))) :
    name.toList.head?.any Char.isUpper = true := by
  cases h with
  | upper hc => simpa using hc

/-- The name of a terminal begins in lower case, also the name of a punctuation character. -/
theorem Lexeme.isLower_front {name : String} (h : Lexeme l (some (.terminal name))) :
    name.toList.head?.any Char.isLower = true := by
  cases h with
  | lower hc => simpa using hc
  | punctuation hname => exact (of_punctuationName? hname).2.2.2.2

/-- A text of characters that words go on with. -/
def IsWord (name : String) : Prop := ∀ c ∈ name.toList, isWordChar c = true

instance (name : String) : Decidable (IsWord name) :=
  decidable_of_iff (name.toList.all isWordChar = true) List.all_eq_true

/-- No other character stands in a word. -/
theorem IsWord.not_mem {name : String} (h : IsWord name) (hc : isWordChar c = false) :
    c ∉ name.toList := by
  intro hmem
  rw [h c hmem] at hc
  cases hc

theorem isWord_ofList {cs : List Char} (hc : c.isAlpha = true)
    (hcs : ∀ d ∈ cs, isWordChar d = true) : IsWord (String.ofList (c :: cs)) := by
  have hfront : isWordChar c = true := by simp [isWordChar, Char.isAlphanum, hc]
  rw [IsWord, String.toList_ofList]
  exact List.forall_mem_cons.2 ⟨hfront, hcs⟩

theorem isWord_of_punctuationName? {name : String} (h : punctuationName? c = some name) :
    IsWord name := by
  have hall : ∀ p ∈ punctuation, IsWord p.2 := by decide +kernel
  obtain ⟨before, after, hmem, -⟩ := List.lookup_eq_some_iff.1 h
  exact hall (c, name) (by rw [hmem]; simp)

theorem Lexeme.isWord_nonterminal {name : String} (h : Lexeme l (some (.nonterminal name))) :
    IsWord name := by
  cases h with
  | upper hc hcs => exact isWord_ofList (isAlpha_iff.2 (.inl hc)) hcs

theorem Lexeme.isWord_terminal {name : String} (h : Lexeme l (some (.terminal name))) :
    IsWord name := by
  cases h with
  | lower hc hcs => exact isWord_ofList (isAlpha_iff.2 (.inr hc)) hcs
  | punctuation hname => exact isWord_of_punctuationName? hname

/-! ## Reading a lexeme -/

/-- A letter is read as the beginning of a word. -/
theorem scan_of_isAlpha (hc : c.isAlpha = true) (cs : List Char) :
    scan c cs = if c.isLower then scanLower c cs else scanUpper c cs := by
  have hne : ∀ d : Char, d.isAlpha = false → c ≠ d := by
    rintro d hd rfl
    rw [hc] at hd
    cases hd
  have hspacing : ¬ Text.isSpacing c = true := by
    intro h
    simp only [Text.isSpacing, Bool.or_eq_true, decide_eq_true_eq] at h
    rcases h with ((h | h) | h) | h
    all_goals exact hne _ rfl h
  rw [scan, if_neg hspacing, if_neg (hne _ rfl), if_neg (hne _ rfl), if_neg (hne _ rfl)]
  split_ifs with hlower hupper
  · rfl
  · rfl
  · rcases isAlpha_iff.1 hc with h | h
    · exact absurd h hupper
    · exact absurd h hlower

theorem scan_of_isLower (hc : c.isLower = true) (cs : List Char) : scan c cs = scanLower c cs := by
  rw [scan_of_isAlpha (isAlpha_iff.2 (.inr hc)), if_pos hc]

theorem scan_of_isUpper (hc : c.isUpper = true) (cs : List Char) : scan c cs = scanUpper c cs := by
  rw [scan_of_isAlpha (isAlpha_iff.2 (.inl hc)), if_neg (not_isLower_of_isUpper hc)]

/-- A run of spacing is skipped. -/
theorem tokensAt_spacing_append {run : List Char} (hrun : ∀ c ∈ run, Text.isSpacing c = true) :
    tokensAt line (run ++ rest) = tokensAt line rest := by
  induction run with
  | nil => rfl
  | cons c run ih =>
    have hskip : scan c (run ++ rest) = .skip (run ++ rest) := by
      rw [scan, if_pos (hrun c List.mem_cons_self)]
    rw [List.cons_append, tokensAt_of_skip hskip]
    exact ih fun d hd => hrun d (List.mem_cons_of_mem c hd)

/-- What stands for nothing is skipped. -/
theorem Longest.tokensAt_skip (h : Longest l none (l ++ rest)) :
    tokensAt line (l ++ rest) = tokensAt line rest := by
  cases h.lexeme with
  | spacing _ hrun => exact tokensAt_spacing_append hrun
  | @comment body hbody =>
    have hskip : scan '-' ('-' :: (body ++ rest)) = .skip rest := by
      rw [scan_comment_append hbody]
      -- The comment cannot be longer, so the line ends here.
      cases rest with
      | nil => rfl
      | cons d rest =>
        have hd : d = '\n' := by
          by_contra hne
          have hlonger : Lexeme ('-' :: '-' :: body ++ [d]) none :=
            .comment (by simp [hbody, Ne.symm hne])
          exact h.not_mem_head? hlonger rfl
        subst hd
        rfl
    exact tokensAt_of_skip hskip

/-- A word that is not followed by a character of words is read as a whole. -/
theorem span_word {cs : List Char} (hcs : ∀ d ∈ cs, isWordChar d = true)
    (hrest : ∀ d ∈ rest.head?, isWordChar d = false) :
    (cs ++ rest).takeWhile isWordChar = cs ∧ (cs ++ rest).dropWhile isWordChar = rest := by
  constructor
  · rw [takeWhile_append_of_head hrest, List.takeWhile_eq_self_iff.2 hcs]
  · rw [dropWhile_append_of_head hrest, List.dropWhile_eq_nil_iff.2 hcs, List.nil_append]

/-- A longest word is not followed by a character of words. -/
theorem Longest.not_isWordChar {cs : List Char} (h : Longest (c :: cs) kind (c :: cs ++ rest))
    (hcs : ∀ d ∈ cs, isWordChar d = true)
    (hwords : ∀ cs', (∀ d ∈ cs', isWordChar d = true) → ∃ kind', Lexeme (c :: cs') kind') :
    ∀ d ∈ rest.head?, isWordChar d = false := by
  intro d hd
  rw [Bool.eq_false_iff]
  intro hword
  have hall : ∀ e ∈ cs ++ [d], isWordChar e = true := by
    intro e he
    rcases List.mem_append.1 he with he | he
    · exact hcs e he
    · rw [List.mem_singleton.1 he]
      exact hword
  obtain ⟨kind', hlonger⟩ := hwords (cs ++ [d]) hall
  exact h.not_mem_head? hlonger hd

/-- A token is read from the longest lexeme. -/
theorem Longest.scan_eq {cs : List Char} {t : Token}
    (h : Longest (c :: cs) (some t) (c :: cs ++ rest)) : scan c (cs ++ rest) = .token t rest := by
  cases h.lexeme with
  | lineFeed => rfl
  | arrow => rfl
  | directive associativity =>
    show scanPercent _ = _
    rw [scanPercent, directive?_eq_some_iff.2 rfl]
  | @label _ cs hc hcs =>
    have hcolon : ∀ d ∈ (':' :: rest).head?, isWordChar d = false := by simp [isWordChar]
    rw [scan_of_isLower hc, scanLower, List.append_assoc, List.singleton_append,
      (span_word hcs hcolon).1, (span_word hcs hcolon).2]
    rfl
  | lower hc hcs =>
    have hword := h.not_isWordChar hcs fun cs' hcs' => ⟨_, Lexeme.lower hc hcs'⟩
    have hcolon : ':' ∉ rest.head? := h.not_mem_head? (Lexeme.label hc hcs)
    rw [scan_of_isLower hc, scanLower, (span_word hcs hword).1, (span_word hcs hword).2]
    split
    · exact absurd rfl hcolon
    · rfl
  | upper hc hcs =>
    have hword := h.not_isWordChar hcs fun cs' hcs' => ⟨_, Lexeme.upper hc hcs'⟩
    rw [scan_of_isUpper hc, scanUpper, (span_word hcs hword).1, (span_word hcs hword).2]
  | @punctuation _ name hname =>
    have hscan : ∀ rest, scanPunctuation c rest = .token (.terminal name) rest := by
      intro rest
      rw [scanPunctuation, hname]
    by_cases hhyphen : c = '-'
    · subst hhyphen
      show scanHyphen rest = _
      cases rest with
      | nil => exact hscan []
      | cons d rest =>
        have hcomment : d ≠ '-' := by
          rintro rfl
          have hlonger : Lexeme ['-', '-'] none := .comment List.not_mem_nil
          exact h.not_mem_head? hlonger rfl
        have harrow : d ≠ '>' := by
          rintro rfl
          exact h.not_mem_head? Lexeme.arrow rfl
        rw [scanHyphen_cons_of_ne hcomment harrow]
        exact hscan (d :: rest)
    by_cases hpercent : c = '%'
    · subst hpercent
      show scanPercent rest = _
      unfold scanPercent
      split
      · next associativity rest' hdirective =>
        have hstarts : associativity.name.toList <+: rest :=
          ⟨rest', (directive?_eq_some_iff.1 hdirective).symm⟩
        have hne : associativity.name.toList ≠ [] := by cases associativity <;> decide
        exact absurd hstarts (h.not_starts (Lexeme.directive associativity) hne)
      · exact hscan rest
    · obtain ⟨hspacing, hfeed, hlower, hupper, -⟩ := of_punctuationName? hname
      rw [List.nil_append, scan, if_neg (by simp [hspacing]), if_neg hfeed, if_neg hhyphen,
        if_neg hpercent, if_neg (by simp [hlower]), if_neg (by simp [hupper])]
      exact hscan rest

/-- No line feed is part of another lexeme. -/
theorem Lexeme.count_lineFeed (h : Lexeme l kind) :
    l.count '\n' = if kind = some .lineFeed then 1 else 0 := by
  have hletter : ∀ {c : Char} {cs : List Char}, c.isAlpha = true →
      (∀ d ∈ cs, isWordChar d = true) → '\n' ∉ c :: cs := by
    intro c cs hc hcs hmem
    rcases List.mem_cons.1 hmem with rfl | hmem
    · cases hc
    · cases hcs _ hmem
  cases h with
  | spacing _ hrun => exact List.count_eq_zero.2 fun hmem => nomatch hrun _ hmem
  | comment hbody => exact List.count_eq_zero.2 (by simpa using hbody)
  | lineFeed => rfl
  | arrow => rfl
  | directive associativity => cases associativity <;> rfl
  | @label c cs hc hcs =>
    refine List.count_eq_zero.2 ?_
    have hword := hletter (isAlpha_iff.2 (.inr hc)) hcs
    simpa using hword
  | lower hc hcs => exact List.count_eq_zero.2 (hletter (isAlpha_iff.2 (.inr hc)) hcs)
  | upper hc hcs => exact List.count_eq_zero.2 (hletter (isAlpha_iff.2 (.inl hc)) hcs)
  | punctuation hname =>
    exact List.count_eq_zero.2 fun hmem => (of_punctuationName? hname).2.1
      (List.mem_singleton.1 hmem).symm

/-- Reading a text reads its longest lexeme first. -/
theorem Longest.tokensAt_eq (h : Longest l kind (l ++ rest)) :
    tokensAt line (l ++ rest) =
      (tokensAt (line + l.count '\n') rest).map (kind.toList ++ ·) := by
  rw [h.lexeme.count_lineFeed]
  cases kind with
  | none =>
    rw [h.tokensAt_skip, if_neg nofun, Nat.add_zero]
    cases tokensAt line rest <;> rfl
  | some t =>
    cases l with
    | nil => exact absurd rfl h.lexeme.ne_nil
    | cons c cs =>
      have hline : t.nextLine line = line + if some t = some .lineFeed then 1 else 0 := by
        by_cases ht : t = .lineFeed <;> simp [Token.nextLine, ht]
      rw [List.cons_append, tokensAt_of_token h.scan_eq, hline]
      rfl

/-- Where no lexeme begins, the first character is unexpected. -/
theorem Unread.scan_eq {cs : List Char} (h : Unread (c :: cs)) : scan c cs = .unknown c := by
  have hsingle : ∀ kind, ¬ Lexeme [c] kind := fun kind hlexeme => h [c] kind hlexeme (by simp)
  have hname : punctuationName? c = none := by
    cases hname : punctuationName? c with
    | none => rfl
    | some name => exact absurd (Lexeme.punctuation hname) (hsingle _)
  unfold scan
  split_ifs with hspacing hfeed hhyphen hpercent hlower hupper
  · exact absurd (Lexeme.spacing (List.cons_ne_nil _ _) (by simpa using hspacing)) (hsingle none)
  · subst hfeed
    exact absurd Lexeme.lineFeed (hsingle _)
  · subst hhyphen
    cases hname
  · subst hpercent
    cases hname
  · exact absurd (Lexeme.lower hlower (by simp)) (hsingle _)
  · exact absurd (Lexeme.upper hupper (by simp)) (hsingle _)
  · rw [scanPunctuation, hname]

/-! ## Cutting a text -/

/-- A text cut into longest lexemes that stand for the tokens `ts`, with `rest` after it. -/
inductive Cuts : List Char → List Token → List Char → Prop where
  | nil (rest : List Char) : Cuts [] [] rest
  | cons {l before rest : List Char} {kind : Option Token} {ts : List Token}
      (hl : Longest l kind (l ++ (before ++ rest))) (hbefore : Cuts before ts rest) :
      Cuts (l ++ before) (kind.toList ++ ts) rest

/-- Reading a text reads what has been cut off first, and counts its lines. -/
theorem Cuts.tokensAt_eq (h : Cuts before ts rest) :
    tokensAt line (before ++ rest) =
      (tokensAt (line + before.count '\n') rest).map (ts ++ ·) := by
  induction h generalizing line with
  | nil rest => cases h : tokensAt line rest <;> simp [h, Except.map]
  | @cons l before rest kind ts hl _ ih =>
    rw [List.append_assoc, hl.tokensAt_eq, ih, List.count_append, Nat.add_assoc]
    generalize tokensAt (line + (l.count '\n' + before.count '\n')) rest = result
    cases result <;> simp [Except.map]

/-- Every text is cut up to its end, or up to a character that no lexeme begins with. -/
theorem exists_cuts (text : List Char) :
    (∃ ts, Cuts text ts []) ∨
      ∃ before ts c after, text = before ++ c :: after ∧ Cuts before ts (c :: after) ∧
        Unread (c :: after) := by
  induction hn : text.length using Nat.strongRecOn generalizing text with
  | ind n ih =>
    cases text with
    | nil => exact .inl ⟨[], .nil []⟩
    | cons c cs =>
      by_cases hread : Unread (c :: cs)
      · exact .inr ⟨[], [], c, cs, rfl, .nil _, hread⟩
      · simp only [Unread, not_forall, not_not] at hread
        obtain ⟨l, kind, hlexeme, hstarts⟩ := hread
        obtain ⟨l, kind, hl⟩ := hlexeme.exists_longest hstarts
        obtain ⟨rest, hrest⟩ := hl.starts
        have hpos := List.length_pos_iff.2 hl.lexeme.ne_nil
        have hlt : rest.length < n := by
          rw [← hn, ← hrest, List.length_append]
          omega
        rw [← hrest] at hl ⊢
        rcases ih rest.length hlt rest rfl with ⟨ts, hts⟩ | ⟨before, ts, d, after, rfl, hts, hd⟩
        · exact .inl ⟨_, .cons (by rwa [List.append_nil]) hts⟩
        · exact .inr ⟨l ++ before, _, d, after, (List.append_assoc _ _ _).symm, .cons hl hts, hd⟩

theorem Cuts.tokens_eq_ok (h : Cuts text ts []) : tokens text = .ok ts := by
  have hread : tokensAt 1 (text ++ []) = .ok (ts ++ []) := h.tokensAt_eq
  rw [List.append_nil, List.append_nil] at hread
  exact hread

theorem Cuts.tokens_eq_error {after : List Char} (h : Cuts before ts (c :: after))
    (hunread : Unread (c :: after)) :
    tokens (before ++ c :: after) = .error ⟨1 + before.count '\n', c⟩ := by
  rw [tokens_eq_tokensAt, h.tokensAt_eq, tokensAt_of_unknown hunread.scan_eq]
  rfl

/-- Reading a text gives tokens when the text is cut into longest lexemes that stand for them. -/
theorem tokens_eq_ok_iff : tokens text = .ok ts ↔ Cuts text ts [] := by
  refine ⟨fun h => ?_, Cuts.tokens_eq_ok⟩
  rcases exists_cuts text with ⟨ts', hts'⟩ | ⟨before, ts', c, after, rfl, hcuts, hunread⟩
  · rw [hts'.tokens_eq_ok] at h
    cases h
    exact hts'
  · rw [hcuts.tokens_eq_error hunread] at h
    cases h

/-- Reading a text fails at the first character that no lexeme begins with, once the text before it
is cut into longest lexemes; its line is told by the line feeds before it. -/
theorem tokens_eq_error_iff {place : Unexpected} :
    tokens text = .error place ↔
      ∃ before ts after, text = before ++ place.char :: after ∧
        Cuts before ts (place.char :: after) ∧ Unread (place.char :: after) ∧
        place.line = 1 + before.count '\n' := by
  constructor
  · intro h
    rcases exists_cuts text with ⟨ts, hts⟩ | ⟨before, ts, c, after, rfl, hcuts, hunread⟩
    · rw [hts.tokens_eq_ok] at h
      cases h
    · rw [hcuts.tokens_eq_error hunread] at h
      cases h
      exact ⟨before, ts, after, rfl, hcuts, hunread, rfl⟩
  · obtain ⟨line, c⟩ := place
    rintro ⟨before, ts, after, rfl, hcuts, hunread, rfl⟩
    exact hcuts.tokens_eq_error hunread

/-- Every token of a text stands for a lexeme. -/
theorem Cuts.exists_lexeme (h : Cuts before ts rest) {t : Token} (ht : t ∈ ts) :
    ∃ l, Lexeme l (some t) := by
  induction h with
  | nil => cases ht
  | @cons l before rest kind ts hl _ ih =>
    rcases List.mem_append.1 ht with ht | ht
    · rw [Option.mem_toList] at ht
      cases ht
      exact ⟨l, hl.lexeme⟩
    · exact ih ht

end ShiftReduce.GrammarText
