import ShiftReduce.Proofs.GrammarText.Lines

/-!
# Ordered choice and repetition

Lines can also be read without cutting the text at its line feeds first: by a parser that tries the
forms of a line one after the other, goes back when a form does not fit, and repeats this for as
long as a line is read.  Every form ends in a line feed, so that the parser takes whole lines, and
what it reads is what stands between the line feeds.

* `Reader`: parsers that take tokens off the front; `Reader.select`, `Reader.repeated`,
  `Reader.whole`: one token, greedy repetition, and the demand that nothing be left;
* `Reader.line`: the forms of a line, in the order in which they are tried;
* `Reader.line_append`: this parser takes one line, or nothing;
* `parseLines_eq_readLines`: repeated up to the end, it reads what `readLines` reads.
-/

namespace ShiftReduce.GrammarText

/-- A parser takes tokens off the front of a sequence; if it fails, none are taken. -/
def Reader (α : Type) : Type := List Token → Option (α × List Token)

namespace Reader

/-- One parser after the other. -/
instance : Monad Reader where
  pure a ts := some (a, ts)
  bind p f ts := (p ts).bind fun found => f found.1 found.2

/-- The second parser if the first one fails. -/
instance {α : Type} : OrElse (Reader α) where
  orElse p q ts := (p ts).or (q () ts)

/-- Takes one token that `f` has a value for. -/
def select {α : Type} (f : Token → Option α) : Reader α
  | [] => none
  | t :: ts => (f t).map (·, ts)

/-- Applies a parser as often as it succeeds.  There is no end to it if the parser takes nothing. -/
def repeated {α : Type} (p : Reader α) : Reader (List α) := fun ts =>
  match p ts with
  | none => some ([], ts)
  | some (a, rest) =>
    if rest.length < ts.length then (repeated p rest).map fun found => (a :: found.1, found.2)
    else none
termination_by ts => ts.length

def lineFeed : Reader Unit := select fun
  | .lineFeed => some ()
  | _ => none

def arrow : Reader Unit := select fun
  | .arrow => some ()
  | _ => none

def left : Reader String := select fun
  | .nonterminal name => some name
  | _ => none

/-- Symbols up to the end of the line. -/
def right : Reader (List SymbolName) := do
  let symbols ← repeated (select symbol?)
  lineFeed
  return symbols

def labelled : Reader Line := do
  let label ← select fun
    | .label name => some name
    | _ => none
  let left ← left
  arrow
  let right ← right
  return .production (some label) left right

def unlabelled : Reader Line := do
  let left ← left
  arrow
  let right ← right
  return .production none left right

def group : Reader Line := do
  let associativity ← select fun
    | .directive associativity => some associativity
    | _ => none
  lineFeed
  return .group associativity

/-- A production, else a directive, else an empty line. -/
def line : Reader (Option Line) :=
  (some <$> (labelled <|> unlabelled)) <|> (some <$> group) <|> do
    lineFeed
    return none

/-- The tokens with the line feed at their end that may be missing. -/
def terminated (ts : List Token) : List Token :=
  if ts.getLast?.any (· ≠ .lineFeed) then ts ++ [.lineFeed] else ts

/-- Applies a parser that has to take all tokens. -/
def whole {α : Type} (p : Reader α) (ts : List Token) : Option α :=
  match p ts with
  | some (a, []) => some a
  | _ => none

/-- Reads lines one after the other, up to the end of the tokens. -/
def parseLines (ts : List Token) : Option (List Line) :=
  (whole (repeated line) (terminated ts)).map List.reduceOption

variable {α : Type} {p : Reader α} {t : Token} {ts rest : List Token}

theorem repeated_of_none (h : p ts = none) : repeated p ts = some ([], ts) := by
  rw [repeated, h]

theorem repeated_of_some {a : α} (h : p ts = some (a, rest)) (hlt : rest.length < ts.length) :
    repeated p ts = (repeated p rest).map fun found => (a :: found.1, found.2) := by
  rw [repeated, h]
  exact if_pos hlt

theorem lineFeed_cons_of_ne (h : t ≠ .lineFeed) : lineFeed (t :: ts) = none := by
  cases t <;> first | rfl | exact absurd rfl h

theorem right_of_symbol {s : SymbolName} (h : symbol? t = some s) :
    right (t :: ts) = (right ts).map fun found => (s :: found.1, found.2) := by
  have hselect : select symbol? (t :: ts) = some (s, ts) := by
    rw [select, h]
    rfl
  show (repeated (select symbol?) (t :: ts)).bind _ =
    Option.map _ ((repeated (select symbol?) ts).bind _)
  rw [repeated_of_some hselect (Nat.lt_succ_self _)]
  cases repeated (select symbol?) ts with
  | none => rfl
  | some found =>
    show (lineFeed found.2).bind _ = Option.map _ ((lineFeed found.2).bind _)
    cases lineFeed found.2 <;> rfl

theorem right_of_none (h : symbol? t = none) (hne : t ≠ .lineFeed) : right (t :: ts) = none := by
  have hselect : select symbol? (t :: ts) = none := by
    rw [select, h]
    rfl
  show (repeated (select symbol?) (t :: ts)).bind _ = none
  rw [repeated_of_none hselect]
  show (lineFeed (t :: ts)).bind _ = none
  rw [lineFeed_cons_of_ne hne]
  rfl

/-- The symbols of a line are read up to its line feed, or not at all. -/
theorem right_append (hts : .lineFeed ∉ ts) (rest : List Token) :
    right (ts ++ .lineFeed :: rest) = (ts.mapM symbol?).map (·, rest) := by
  induction ts with
  | nil =>
    show (repeated (select symbol?) (.lineFeed :: rest)).bind _ = _
    rw [repeated_of_none rfl]
    rfl
  | cons t ts ih =>
    rw [List.mem_cons, not_or] at hts
    rw [List.cons_append, List.mapM_cons]
    cases ht : symbol? t with
    | none => exact right_of_none ht (Ne.symm hts.1)
    | some s =>
      rw [right_of_symbol ht, ih hts.2]
      cases ts.mapM symbol? <;> rfl

theorem line_unlabelled (name : String) (ts : List Token) :
    line (.nonterminal name :: .arrow :: ts) =
      (right ts).map fun found => (some (.production none name found.1), found.2) := by
  show (((right ts).bind fun found => some (Line.production none name found.1, found.2)).bind
    fun found => some (some found.1, found.2)).or none = _
  cases right ts <;> rfl

theorem line_labelled (label name : String) (ts : List Token) :
    line (.label label :: .nonterminal name :: .arrow :: ts) =
      (right ts).map fun found => (some (.production (some label) name found.1), found.2) := by
  show ((((right ts).bind fun found => some (Line.production (some label) name found.1, found.2)).or
    none).bind fun found => some (some found.1, found.2)).or none = _
  cases right ts <;> rfl

/-- A line is read up to its line feed, or not at all. -/
theorem line_append {ts : List Token} (hts : .lineFeed ∉ ts) (rest : List Token) :
    line (ts ++ .lineFeed :: rest) = (readLine ts).map fun lines => (lines.head?, rest) := by
  -- A sequence that does not begin as lines do fails in every alternative.
  match ts, hts with
  | [], _ => rfl
  | .lineFeed :: _, h => exact absurd List.mem_cons_self h
  | .arrow :: _, _ => rfl
  | .terminal _ :: _, _ => rfl
  | [.directive _], _ => rfl
  | .directive _ :: t :: _, h => cases t <;> first | rfl | simp at h
  | [.nonterminal _], _ => rfl
  | .nonterminal name :: t :: ts, h =>
    cases t with
    | arrow =>
      simp only [List.mem_cons, not_or] at h
      rw [List.cons_append, List.cons_append, line_unlabelled, right_append h.2.2, readLine]
      cases ts.mapM symbol? <;> rfl
    | _ => rfl
  | [.label _], _ => rfl
  | [.label _, t], _ => cases t <;> rfl
  | .label label :: t :: t' :: ts, h =>
    cases t with
    | nonterminal name =>
      cases t' with
      | arrow =>
        simp only [List.mem_cons, not_or] at h
        rw [List.cons_append, List.cons_append, List.cons_append, line_labelled,
          right_append h.2.2.2, readLine]
        cases ts.mapM symbol? <;> rfl
      | _ => rfl
    | _ => rfl

theorem whole_repeated_of_none (h : p ts = none) (hne : ts ≠ []) :
    whole (repeated p) ts = none := by
  obtain ⟨t, ts, rfl⟩ := List.exists_cons_of_ne_nil hne
  rw [whole, repeated_of_none h]

theorem whole_repeated_of_some {a : α} (h : p ts = some (a, rest)) (hlt : rest.length < ts.length) :
    whole (repeated p) ts = (whole (repeated p) rest).map (a :: ·) := by
  rw [whole, whole, repeated_of_some h hlt]
  rcases repeated p rest with _ | ⟨as, _ | ⟨t, rest⟩⟩ <;> rfl

/-- Lines that end in line feeds are read one after the other. -/
theorem whole_repeated_line {pieces : List (List Token)} (h : ∀ piece ∈ pieces, .lineFeed ∉ piece) :
    (whole (repeated line) (pieces.flatMap (· ++ [.lineFeed]))).map List.reduceOption =
      (pieces.mapM readLine).map List.flatten := by
  induction pieces with
  | nil =>
    rw [List.flatMap_nil, whole, repeated_of_none rfl]
    rfl
  | cons piece pieces ih =>
    have hline := line_append (h piece List.mem_cons_self) (pieces.flatMap (· ++ [.lineFeed]))
    have hrest := ih fun piece' h' => h piece' (List.mem_cons_of_mem piece h')
    rw [List.flatMap_cons, List.append_assoc, List.singleton_append, List.mapM_cons]
    cases hread : readLine piece with
    | none =>
      rw [hread] at hline
      rw [whole_repeated_of_none hline (by simp)]
      rfl
    | some lines =>
      rw [hread] at hline
      have hhead : ∀ found, (lines.head? :: found).reduceOption = lines ++ found.reduceOption := by
        rcases readLine_eq_some_iff.1 hread with ⟨-, rfl⟩ | ⟨line, -, rfl⟩ <;> exact fun _ => rfl
      rw [whole_repeated_of_some hline (by simp; omega)]
      calc Option.map List.reduceOption (Option.map (lines.head? :: ·)
            (whole (repeated line) (pieces.flatMap (· ++ [.lineFeed]))))
        _ = ((whole (repeated line) (pieces.flatMap (· ++ [.lineFeed]))).map
              List.reduceOption).map (lines ++ ·) := by
          simp only [Option.map_map, Function.comp_def, hhead]
        _ = ((pieces.mapM readLine).map List.flatten).map (lines ++ ·) := by rw [hrest]
        _ = _ := by cases pieces.mapM readLine <;> rfl

/-- Tokens fall into lines that end in line feeds; after the last of them a text has an empty line
or none. -/
theorem exists_pieces (ts : List Token) :
    ∃ pieces : List (List Token), (∀ piece ∈ pieces, .lineFeed ∉ piece) ∧
      terminated ts = pieces.flatMap (· ++ [.lineFeed]) ∧
      (splitLines ts = pieces ∨ splitLines ts = pieces ++ [[]]) := by
  induction ts with
  | nil => exact ⟨[], nofun, rfl, .inr rfl⟩
  | cons t ts ih =>
    cases ts with
    | nil =>
      by_cases ht : t = .lineFeed
      · subst ht
        exact ⟨[[]], by simp, rfl, .inr rfl⟩
      · exact ⟨[[t]], by simpa using Ne.symm ht, by simp [terminated, ht],
          .inl (by simp [splitLines, ht])⟩
    | cons t' ts =>
      obtain ⟨pieces, hpieces, hterminated, hsplit⟩ := ih
      have hcons : terminated (t :: t' :: ts) = t :: terminated (t' :: ts) := by
        simp only [terminated, List.getLast?_cons_cons]
        split_ifs <;> rfl
      rw [hcons, hterminated]
      by_cases ht : t = .lineFeed
      · subst ht
        refine ⟨[] :: pieces, by simpa using hpieces, rfl, ?_⟩
        rw [splitLines, if_pos rfl]
        exact hsplit.imp (congrArg _) (congrArg _)
      · cases pieces with
        | nil =>
          simp only [terminated, List.flatMap_nil] at hterminated
          split_ifs at hterminated
          simp at hterminated
        | cons piece pieces =>
          refine ⟨(t :: piece) :: pieces, ?_, rfl, ?_⟩
          · simpa [Ne.symm ht] using hpieces
          · rw [splitLines, if_neg ht]
            rcases hsplit with hsplit | hsplit
            · exact .inl (by rw [hsplit])
            · exact .inr (by rw [hsplit]; rfl)

end Reader

/-- Ordered choice and repetition read the lines between line feeds. -/
theorem parseLines_eq_readLines (ts : List Token) : Reader.parseLines ts = readLines ts := by
  obtain ⟨pieces, hpieces, hterminated, hsplit⟩ := Reader.exists_pieces ts
  rw [Reader.parseLines, hterminated, Reader.whole_repeated_line hpieces, readLines]
  rcases hsplit with hsplit | hsplit
  · rw [hsplit]
  · ext lines
    rw [hsplit, mapM_readLine_eq_some_iff, mapM_readLine_eq_some_iff, List.filter_append]
    simp

end ShiftReduce.GrammarText
