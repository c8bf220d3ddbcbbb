import Mathlib.Data.List.TakeWhile
import ShiftReduce.GrammarText.Token

/-!
# Reading token by token

Reading a text of any length takes its fronts off one after the other; the bound on their number is
never met.  What is taken off does not depend on what follows it beyond the next character: where a
text goes on with a character that no token goes on with, it can be read up to there by itself.

* `tokensAt`: the tokens of a text whose first line has a given number, with an equation for each
  kind of front;
* `Breaks`: the text begins with nothing that goes on with a token;
* `scan_append`: the front of a text before a break.
-/

namespace ShiftReduce.GrammarText

variable {c : Char} {cs rest : List Char} {line : Nat}

/-! ## Fronts -/

theorem directive?_eq_some_iff {associativity : Associativity} :
    directive? cs = some (associativity, rest) ↔ cs = associativity.name.toList ++ rest := by
  constructor
  · intro h
    unfold directive? at h
    split at h <;> cases h <;> rfl
  · rintro rfl
    cases associativity <;> rfl

theorem scanHyphen_cons_of_ne {d : Char} (hcomment : d ≠ '-') (harrow : d ≠ '>') :
    scanHyphen (d :: cs) = scanPunctuation '-' (d :: cs) := by
  rw [scanHyphen]
  all_goals simp [hcomment, harrow]

/-- What is left after a front is the end of the text after its first character. -/
def Scan.Within : Scan → List Char → Prop
  | .token _ rest, cs => rest <:+ cs
  | .skip rest, cs => rest <:+ cs
  | .unknown _, _ => True

theorem scanPunctuation_within (c : Char) (cs : List Char) : (scanPunctuation c cs).Within cs := by
  unfold scanPunctuation
  split
  · exact List.suffix_rfl
  · trivial

theorem scanHyphen_within (cs : List Char) : (scanHyphen cs).Within cs := by
  unfold scanHyphen
  split
  · exact (List.dropWhile_suffix _).trans (List.suffix_cons _ _)
  · exact List.suffix_cons _ _
  · exact scanPunctuation_within _ _

theorem scanPercent_within (cs : List Char) : (scanPercent cs).Within cs := by
  unfold scanPercent
  split
  · next associativity rest h =>
    rw [directive?_eq_some_iff.1 h]
    exact List.suffix_append _ _
  · exact scanPunctuation_within _ _

theorem scanLower_within (c : Char) (cs : List Char) : (scanLower c cs).Within cs := by
  have hsuffix : cs.dropWhile isWordChar <:+ cs := List.dropWhile_suffix _
  unfold scanLower
  split
  · next rest h =>
    rw [h] at hsuffix
    exact (List.suffix_cons _ _).trans hsuffix
  · exact hsuffix

theorem scan_within (c : Char) (cs : List Char) : (scan c cs).Within cs := by
  unfold scan
  split_ifs
  · exact List.suffix_rfl
  · exact List.suffix_rfl
  · exact scanHyphen_within cs
  · exact scanPercent_within cs
  · exact scanLower_within c cs
  · exact List.dropWhile_suffix _
  · exact scanPunctuation_within c cs

/-! ## All fronts of a text -/

/-- The tokens of a text whose first line has number `line`. -/
def tokensAt (line : Nat) (text : List Char) : Except Unexpected (List Token) :=
  tokensFrom text.length line text

/-- The number of the line after a token. -/
def Token.nextLine (t : Token) (line : Nat) : Nat := if t = .lineFeed then line + 1 else line

/-- The bound on the number of fronts is never met. -/
theorem tokensFrom_eq_tokensAt {fuel : Nat} {text : List Char} (h : text.length ≤ fuel) :
    tokensFrom fuel line text = tokensAt line text := by
  -- Both sides take the same front off, and what is left fits into either bound.
  induction fuel using Nat.strongRecOn generalizing line text with
  | ind fuel ih =>
    cases text with
    | nil => cases fuel <;> rfl
    | cons c cs =>
      obtain ⟨fuel, rfl⟩ : ∃ n, fuel = n + 1 := ⟨fuel - 1, by simp at h; omega⟩
      have hcs : cs.length ≤ fuel := by simpa using h
      have hrest : ∀ rest : List Char, rest <:+ cs → ∀ line,
          tokensFrom fuel line rest = tokensFrom cs.length line rest := by
        intro rest hsuffix line
        rw [ih fuel (Nat.lt_succ_self _) (Nat.le_trans hsuffix.length_le hcs),
          ih cs.length (Nat.lt_succ_of_le hcs) hsuffix.length_le]
      have hwithin := scan_within c cs
      rw [tokensAt, List.length_cons, tokensFrom, tokensFrom]
      generalize scan c cs = front at hwithin
      cases front with
      | unknown c => rfl
      | skip rest => exact hrest rest hwithin line
      | token t rest =>
        dsimp only
        rw [hrest rest hwithin]

theorem tokens_eq_tokensAt (text : List Char) : tokens text = tokensAt 1 text := rfl

theorem tokensAt_of_unknown {d : Char} (h : scan c cs = .unknown d) :
    tokensAt line (c :: cs) = .error ⟨line, d⟩ := by
  rw [tokensAt, List.length_cons, tokensFrom, h]

theorem tokensAt_of_skip (h : scan c cs = .skip rest) :
    tokensAt line (c :: cs) = tokensAt line rest := by
  have hwithin := scan_within c cs
  rw [h] at hwithin
  rw [tokensAt, List.length_cons, tokensFrom, h]
  exact tokensFrom_eq_tokensAt hwithin.length_le

theorem tokensAt_of_token {t : Token} (h : scan c cs = .token t rest) :
    tokensAt line (c :: cs) = (tokensAt (t.nextLine line) rest).map (t :: ·) := by
  have hwithin := scan_within c cs
  rw [h] at hwithin
  rw [tokensAt, List.length_cons, tokensFrom, h]
  dsimp only
  rw [tokensFrom_eq_tokensAt hwithin.length_le]
  show _ = (tokensAt (if t = .lineFeed then line + 1 else line) rest).map (t :: ·)
  generalize tokensAt (if t = .lineFeed then line + 1 else line) rest = result
  cases result <;> rfl

/-! ## Breaks -/

/-- The text begins with no character that goes on with a word, a label or an arrow. -/
def Breaks (u : List Char) : Prop :=
  ∀ c ∈ u.head?, isWordChar c = false ∧ c ≠ ':' ∧ c ≠ '>'

/-- The front with more text after it. -/
def Scan.append : Scan → List Char → Scan
  | .token t rest, u => .token t (rest ++ u)
  | .skip rest, u => .skip (rest ++ u)
  | .unknown c, _ => .unknown c

section Append

variable {a u : List Char}

theorem takeWhile_append_of_head {p : Char → Bool} (hu : ∀ d ∈ u.head?, p d = false)
    (a : List Char) : (a ++ u).takeWhile p = a.takeWhile p := by
  induction a with
  | nil =>
    cases u with
    | nil => rfl
    | cons d u => simp [hu d rfl]
  | cons d a ih => simp [List.takeWhile_cons, ih]

theorem dropWhile_append_of_head {p : Char → Bool} (hu : ∀ d ∈ u.head?, p d = false)
    (a : List Char) : (a ++ u).dropWhile p = a.dropWhile p ++ u := by
  induction a with
  | nil =>
    cases u with
    | nil => rfl
    | cons d u => simp [hu d rfl]
  | cons d a ih =>
    by_cases hd : p d
    · simp [hd, ih]
    · simp [hd]

theorem Breaks.not_isWordChar (hu : Breaks u) : ∀ d ∈ u.head?, isWordChar d = false :=
  fun d hd => (hu d hd).1

theorem scanPunctuation_append (c : Char) (a u : List Char) :
    scanPunctuation c (a ++ u) = (scanPunctuation c a).append u := by
  unfold scanPunctuation
  split <;> rfl

/-- A hyphen is read without what follows unless two hyphens meet or the comment goes on. -/
theorem scanHyphen_append (hu : Breaks u) (hhyphen : a = [] → u.head? ≠ some '-')
    (hcomment : ∀ body, a = '-' :: body → '\n' ∈ body) :
    scanHyphen (a ++ u) = (scanHyphen a).append u := by
  cases a with
  | nil =>
    cases u with
    | nil => rfl
    | cons d u =>
      have hd : d ≠ '-' := fun h => hhyphen rfl (congrArg some h)
      have hd' : d ≠ '>' := (hu d rfl).2.2
      rw [List.nil_append, scanHyphen_cons_of_ne hd hd']
      rfl
  | cons d a =>
    by_cases hd : d = '-'
    · subst hd
      have hmem := hcomment a rfl
      show Scan.skip ((a ++ u).dropWhile (· ≠ '\n')) = .skip (a.dropWhile (· ≠ '\n') ++ u)
      rw [List.dropWhile_append, if_neg]
      simpa [List.dropWhile_eq_nil_iff] using hmem
    by_cases hd' : d = '>'
    · subst hd'
      rfl
    · rw [List.cons_append, scanHyphen_cons_of_ne hd hd', scanHyphen_cons_of_ne hd hd']
      exact scanPunctuation_append '-' (d :: a) u

theorem isWordChar_of_mem_name {associativity : Associativity} {d : Char}
    (h : d ∈ associativity.name.toList) : isWordChar d = true := by
  have hall : associativity.name.toList.all isWordChar = true := by
    cases associativity <;> decide
  exact List.all_eq_true.1 hall d h

theorem directive?_append (hu : Breaks u) (a : List Char) :
    directive? (a ++ u) = (directive? a).map fun found => (found.1, found.2 ++ u) := by
  cases h : directive? (a ++ u) with
  | some found =>
    obtain ⟨associativity, rest⟩ := found
    -- The name ends before the break.
    rcases List.append_eq_append_iff.1 (directive?_eq_some_iff.1 h) with
      ⟨middle, hname, hrest⟩ | ⟨middle, ha, hrest⟩
    · cases middle with
      | nil =>
        rw [List.append_nil] at hname
        rw [directive?_eq_some_iff.2 (show a = associativity.name.toList ++ [] by simp [hname])]
        simp_all
      | cons d middle =>
        have hword : isWordChar d = true := isWordChar_of_mem_name (by rw [hname]; simp)
        have hbreak := (hu d (by rw [hrest]; rfl)).1
        rw [hword] at hbreak
        cases hbreak
    · rw [directive?_eq_some_iff.2 ha, hrest]
      rfl
  | none =>
    cases h' : directive? a with
    | none => rfl
    | some found =>
      obtain ⟨associativity, rest⟩ := found
      rw [directive?_eq_some_iff.1 h', List.append_assoc, directive?_eq_some_iff.2 rfl] at h
      cases h

theorem scanPercent_append (hu : Breaks u) (a : List Char) :
    scanPercent (a ++ u) = (scanPercent a).append u := by
  unfold scanPercent
  rw [directive?_append hu]
  cases directive? a with
  | none => exact scanPunctuation_append _ _ _
  | some found => rfl

theorem scanLower_append (hu : Breaks u) (c : Char) (a : List Char) :
    scanLower c (a ++ u) = (scanLower c a).append u := by
  unfold scanLower
  dsimp only
  rw [takeWhile_append_of_head hu.not_isWordChar, dropWhile_append_of_head hu.not_isWordChar]
  cases a.dropWhile isWordChar with
  | nil =>
    cases u with
    | nil => rfl
    | cons d u =>
      have hd : d ≠ ':' := (hu d rfl).2.1
      simp [Scan.append, hd]
  | cons d rest =>
    by_cases hd : d = ':'
    · subst hd
      rfl
    · simp [Scan.append, hd]

/-- The front of a text before a break is the front of the text up to there, unless the break falls
between two hyphens or into a comment. -/
theorem scan_append (hu : Breaks u) (hhyphen : (c :: a).getLast? = some '-' → u.head? ≠ some '-')
    (hcomment : ∀ body, c :: a = '-' :: '-' :: body → '\n' ∈ body) :
    scan c (a ++ u) = (scan c a).append u := by
  unfold scan
  split_ifs with _ _ hc
  · rfl
  · rfl
  · subst hc
    refine scanHyphen_append hu ?_ ?_
    · rintro rfl
      exact hhyphen rfl
    · rintro body rfl
      exact hcomment body rfl
  · exact scanPercent_append hu a
  · exact scanLower_append hu c a
  · unfold scanUpper
    rw [takeWhile_append_of_head hu.not_isWordChar, dropWhile_append_of_head hu.not_isWordChar]
    rfl
  · exact scanPunctuation_append c a u

/-- A comment goes on into what follows the text if its line does. -/
theorem scan_comment_append {body : List Char} (hbody : '\n' ∉ body) (u : List Char) :
    scan '-' ('-' :: (body ++ u)) = .skip (u.dropWhile (· ≠ '\n')) := by
  show Scan.skip ((body ++ u).dropWhile (· ≠ '\n')) = _
  rw [List.dropWhile_append_of_pos]
  intro d hd
  exact decide_eq_true (ne_of_mem_of_not_mem hd hbody)

end Append

end ShiftReduce.GrammarText
