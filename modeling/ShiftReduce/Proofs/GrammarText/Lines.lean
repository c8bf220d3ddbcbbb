import Mathlib.Data.Set.List
import ShiftReduce.GrammarText.Line

/-!
# The form of lines

What lines say is what can be written back: a sequence of tokens is read as lines exactly when each
stretch between two line feeds is empty or the writing of a line.

* `Line.tokens`: the writing of a line;
* `readLine_eq_some_iff`, `readLines_eq_some_iff`: what is read, in terms of what is written;
* `exists_readLines_iff`: when lines are read at all.
-/

namespace ShiftReduce.GrammarText

/-! ## Writing lines -/

/-- The token of a symbol. -/
def SymbolName.token : SymbolName → Token
  | nonterminal name => .nonterminal name
  | terminal name => .terminal name

/-- The tokens of a line, without the line feed at its end. -/
def Line.tokens : Line → List Token
  | group associativity => [.directive associativity]
  | production label left right =>
    (label.map Token.label).toList ++ .nonterminal left :: .arrow :: right.map SymbolName.token

theorem Line.tokens_ne_nil (line : Line) : line.tokens ≠ [] := by
  cases line <;> simp [tokens]

theorem symbol?_eq_some_iff {t : Token} {s : SymbolName} : symbol? t = some s ↔ t = s.token := by
  cases t <;> cases s <;> simp [symbol?, SymbolName.token]

theorem mapM_cons_eq_some_iff {α β : Type} {f : α → Option β} {a : α} {as : List α} {bs : List β} :
    (a :: as).mapM f = some bs ↔ ∃ b bs', f a = some b ∧ as.mapM f = some bs' ∧ bs = b :: bs' := by
  rw [List.mapM_cons]
  cases f a with
  | none => simp
  | some b => cases as.mapM f <;> simp [eq_comm]

theorem mapM_symbol?_eq_some_iff {ts : List Token} {symbols : List SymbolName} :
    ts.mapM symbol? = some symbols ↔ ts = symbols.map SymbolName.token := by
  induction ts generalizing symbols with
  | nil => simp [eq_comm]
  | cons t ts ih =>
    simp only [mapM_cons_eq_some_iff, symbol?_eq_some_iff, ih]
    constructor
    · rintro ⟨s, symbols, rfl, rfl, rfl⟩
      rfl
    · intro h
      obtain ⟨s, symbols, rfl, hs, hsymbols⟩ := List.map_eq_cons_iff.1 h.symm
      exact ⟨s, symbols, hs.symm, hsymbols.symm, rfl⟩

/-- A line is read when it is empty or written as a line is. -/
theorem readLine_eq_some_iff {ts : List Token} {lines : List Line} :
    readLine ts = some lines ↔
      (ts = [] ∧ lines = []) ∨ ∃ line : Line, ts = line.tokens ∧ lines = [line] := by
  constructor
  · intro h
    unfold readLine at h
    split at h
    · cases h
      exact .inl ⟨rfl, rfl⟩
    · next associativity =>
      cases h
      exact .inr ⟨.group associativity, rfl, rfl⟩
    · next left right =>
      obtain ⟨symbols, hsymbols, rfl⟩ := Option.map_eq_some_iff.1 h
      rw [mapM_symbol?_eq_some_iff] at hsymbols
      exact .inr ⟨.production none left symbols, by rw [hsymbols]; rfl, rfl⟩
    · next label left right =>
      obtain ⟨symbols, hsymbols, rfl⟩ := Option.map_eq_some_iff.1 h
      rw [mapM_symbol?_eq_some_iff] at hsymbols
      exact .inr ⟨.production (some label) left symbols, by rw [hsymbols]; rfl, rfl⟩
    · cases h
  · rintro (⟨rfl, rfl⟩ | ⟨line, rfl, rfl⟩)
    · rfl
    · cases line with
      | group associativity => rfl
      | production label left right =>
        have hright := mapM_symbol?_eq_some_iff.2 (Eq.refl (right.map SymbolName.token))
        cases label <;> simp [Line.tokens, readLine, hright]

/-! ## Lines between line feeds -/

theorem splitLines_eq_splitOn (ts : List Token) : splitLines ts = ts.splitOn .lineFeed := by
  induction ts with
  | nil => rfl
  | cons t ts ih =>
    rw [splitLines, List.splitOn_cons_eq_if_modifyHead, ih]
    by_cases ht : t = .lineFeed
    · simp [ht]
    · obtain ⟨line, lines, hlines⟩ := List.exists_cons_of_ne_nil (List.splitOn_ne_nil .lineFeed ts)
      simp [ht, hlines]

/-- What stands between two separators is part of the list and holds no separator. -/
theorem of_mem_splitOn {α : Type} [BEq α] [LawfulBEq α] {l piece : List α} {sep : α}
    (h : piece ∈ l.splitOn sep) : sep ∉ piece ∧ ∀ a ∈ piece, a ∈ l := by
  induction l generalizing piece with
  | nil => simp_all
  | cons a l ih =>
    rw [List.splitOn_cons_eq_if_modifyHead] at h
    split at h
    · rcases List.mem_cons.1 h with rfl | h
      · exact ⟨List.not_mem_nil, nofun⟩
      · exact ⟨(ih h).1, fun b hb => List.mem_cons_of_mem a ((ih h).2 b hb)⟩
    · next hne =>
      obtain ⟨first, pieces, hpieces⟩ := List.exists_cons_of_ne_nil (List.splitOn_ne_nil sep l)
      rw [hpieces] at h ih
      rcases List.mem_cons.1 h with rfl | h
      · have hfirst := ih List.mem_cons_self
        have hsep : sep ≠ a := fun hsep => hne (by simp [hsep])
        exact ⟨by simp [hsep, hfirst.1], List.forall_mem_cons.2
          ⟨List.mem_cons_self, fun b hb => List.mem_cons_of_mem a (hfirst.2 b hb)⟩⟩
      · have hpiece := ih (List.mem_cons_of_mem first h)
        exact ⟨hpiece.1, fun b hb => List.mem_cons_of_mem a (hpiece.2 b hb)⟩

theorem mapM_readLine_eq_some_iff {pieces : List (List Token)} {lines : List Line} :
    (pieces.mapM readLine).map List.flatten = some lines ↔
      pieces.filter (· ≠ []) = lines.map Line.tokens := by
  induction pieces generalizing lines with
  | nil => cases lines <;> simp
  | cons piece pieces ih =>
    simp only [Option.map_eq_some_iff] at ih ⊢
    constructor
    · rintro ⟨read, hread, rfl⟩
      obtain ⟨now, later, hnow, hlater, rfl⟩ := mapM_cons_eq_some_iff.1 hread
      have hpieces := ih.1 ⟨later, hlater, rfl⟩
      rcases readLine_eq_some_iff.1 hnow with ⟨rfl, rfl⟩ | ⟨line, rfl, rfl⟩
      · simpa using hpieces
      · simpa [line.tokens_ne_nil] using hpieces
    · intro h
      by_cases hpiece : piece = []
      · subst hpiece
        obtain ⟨later, hlater, rfl⟩ := ih.2 (by simpa using h)
        exact ⟨[] :: later, mapM_cons_eq_some_iff.2 ⟨[], later, rfl, hlater, rfl⟩, rfl⟩
      · rw [List.filter_cons_of_pos (by simpa using hpiece)] at h
        obtain ⟨line, lines, rfl, rfl, hlines⟩ := List.map_eq_cons_iff.1 h.symm
        obtain ⟨later, hlater, rfl⟩ := ih.2 hlines.symm
        have hnow := readLine_eq_some_iff.2 (.inr ⟨line, rfl, rfl⟩)
        exact ⟨[line] :: later, mapM_cons_eq_some_iff.2 ⟨[line], later, hnow, hlater, rfl⟩, rfl⟩

/-- What lines say is what stands between the line feeds, apart from empty lines. -/
theorem readLines_eq_some_iff {ts : List Token} {lines : List Line} :
    readLines ts = some lines ↔
      (ts.splitOn .lineFeed).filter (· ≠ []) = lines.map Line.tokens := by
  rw [readLines, splitLines_eq_splitOn, mapM_readLine_eq_some_iff]

/-- Lines are read when each stretch between line feeds is empty or written as a line is. -/
theorem exists_readLines_iff {ts : List Token} :
    (∃ lines, readLines ts = some lines) ↔
      ∀ piece ∈ ts.splitOn .lineFeed, piece = [] ∨ ∃ line : Line, piece = line.tokens := by
  simp only [readLines_eq_some_iff]
  constructor
  · rintro ⟨lines, hlines⟩ piece hpiece
    by_cases hne : piece = []
    · exact .inl hne
    · have hmem : piece ∈ lines.map Line.tokens := by
        rw [← hlines]
        exact List.mem_filter.2 ⟨hpiece, by simpa using hne⟩
      obtain ⟨line, -, rfl⟩ := List.mem_map.1 hmem
      exact .inr ⟨line, rfl⟩
  · intro h
    have hwritten : ∀ piece ∈ (ts.splitOn .lineFeed).filter (· ≠ []),
        ∃ line : Line, line.tokens = piece := by
      intro piece hpiece
      obtain ⟨hmem, hne⟩ := List.mem_filter.1 hpiece
      rcases h piece hmem with rfl | ⟨line, rfl⟩
      · simp at hne
      · exact ⟨line, rfl⟩
    have hrange : (ts.splitOn .lineFeed).filter (· ≠ []) ∈ Set.range (List.map Line.tokens) := by
      rw [Set.range_list_map]
      exact hwritten
    obtain ⟨lines, hlines⟩ := hrange
    exact ⟨lines, hlines.symm⟩

end ShiftReduce.GrammarText
