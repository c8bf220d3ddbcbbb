import ShiftReduce.GrammarText.Draft
import ShiftReduce.Proofs.GrammarText.Combinators
import ShiftReduce.Proofs.GrammarText.Lexemes
import ShiftReduce.Proofs.Numbering

/-!
# What a grammar text declares

A text whose characters make tokens declares a grammar when its lines have one of the known forms
and some nonterminal besides the start occurs.  Production lines belong to the directive before
them, or to the implicit first group; they are numbered through the whole text, and symbols are
numbered in the order in which their names first occur.

* `Layout`: the lines of a text, sorted by directives;
* `groupLines_layout`: the groups that are made of them;
* `symbolNumber_eq_idxOf`: the number of a symbol is the place of its name among all names, since no
  name is both a nonterminal's and a terminal's;
* `Draft.isWord_of_mem_symbols`: all names are words;
* `Declares`: a draft says what the tokens say;
* `Draft.ofText_follows_format`: when a text is accepted, and what it then declares.
-/

namespace ShiftReduce.GrammarText

/-! ## The layout of a text -/

/-- A line that declares a production. -/
structure ProductionLine where
  label : Option String
  left : String
  right : List SymbolName

def ProductionLine.line (p : ProductionLine) : Line := .production p.label p.left p.right

/-- A directive with the production lines that follow it. -/
structure Block where
  associativity : Associativity
  body : List ProductionLine

/-- The lines of a text that say something: production lines, then blocks. -/
structure Layout where
  head : List ProductionLine
  blocks : List Block

namespace Layout

/-- The lines in order. -/
def lines (layout : Layout) : List Line :=
  layout.head.map ProductionLine.line ++ layout.blocks.flatMap fun block =>
    .group block.associativity :: block.body.map ProductionLine.line

/-- The production lines in order. -/
def productionLines (layout : Layout) : List ProductionLine :=
  layout.head ++ layout.blocks.flatMap Block.body

/-- The associativities and sizes of the groups, where the first group has one more production. -/
def shape (layout : Layout) : List (Associativity × Nat) :=
  (.none, 1 + layout.head.length) ::
    layout.blocks.map fun block => (block.associativity, block.body.length)

end Layout

theorem Layout.line_mem_lines {layout : Layout} {p : ProductionLine}
    (h : p ∈ layout.productionLines) : p.line ∈ layout.lines := by
  rcases List.mem_append.1 h with h | h
  · exact List.mem_append_left _ (List.mem_map_of_mem h)
  · obtain ⟨block, hblock, hp⟩ := List.mem_flatMap.1 h
    refine List.mem_append_right _ (List.mem_flatMap.2 ⟨block, hblock, ?_⟩)
    exact List.mem_cons_of_mem _ (List.mem_map_of_mem hp)

section Tokens

variable {layout : Layout} {ts : List Token} {p : ProductionLine}

/-- The tokens of a production line are tokens of the text. -/
theorem Layout.mem_of_mem_tokens
    (h : (ts.splitOn .lineFeed).filter (· ≠ []) = layout.lines.map Line.tokens)
    (hp : p ∈ layout.productionLines) {t : Token} (ht : t ∈ p.line.tokens) : t ∈ ts := by
  have hpiece : p.line.tokens ∈ (ts.splitOn .lineFeed).filter (· ≠ []) := by
    rw [h]
    exact List.mem_map_of_mem (line_mem_lines hp)
  exact (of_mem_splitOn (List.mem_filter.1 hpiece).1).2 t ht

theorem Layout.left_mem
    (h : (ts.splitOn .lineFeed).filter (· ≠ []) = layout.lines.map Line.tokens)
    (hp : p ∈ layout.productionLines) : (SymbolName.nonterminal p.left).token ∈ ts :=
  mem_of_mem_tokens h hp (by simp [ProductionLine.line, Line.tokens, SymbolName.token])

theorem Layout.right_mem
    (h : (ts.splitOn .lineFeed).filter (· ≠ []) = layout.lines.map Line.tokens)
    (hp : p ∈ layout.productionLines) {s : SymbolName} (hs : s ∈ p.right) : s.token ∈ ts := by
  have htoken : s.token ∈ p.right.map SymbolName.token := List.mem_map_of_mem hs
  refine mem_of_mem_tokens h hp ?_
  simp only [ProductionLine.line, Line.tokens, List.mem_append, List.mem_cons, htoken, or_true]

end Tokens

/-- The production that the line with index `i` declares. -/
def ProductionLine.declared (number : SymbolName → Nat) (p : ProductionLine) (i : Nat) :
    DraftProduction :=
  ⟨labelOr p.label i, number (.nonterminal p.left), p.right.map number⟩

/-- All lines have a layout, and the groups made of them follow it. -/
theorem groupLines_layout (number : SymbolName → Nat) (lines : List Line) :
    ∃ layout : Layout, layout.lines = lines ∧ ∀ next current,
      ((groupLines number next current lines).map fun group =>
          (group.associativity, group.productions.length)) =
        (current.associativity, current.productions.length + layout.head.length) ::
          layout.blocks.map (fun block => (block.associativity, block.body.length)) ∧
      (groupLines number next current lines).flatMap DraftGroup.productions =
        current.productions ++
          (layout.productionLines.zipIdx next).map fun p => p.1.declared number p.2 := by
  induction lines with
  | nil =>
    refine ⟨⟨[], []⟩, rfl, fun next current => ⟨rfl, ?_⟩⟩
    simp [groupLines, Layout.productionLines]
  | cons line lines ih =>
    obtain ⟨⟨head, blocks⟩, rfl, ih⟩ := ih
    cases line with
    | group associativity =>
      refine ⟨⟨[], ⟨associativity, head⟩ :: blocks⟩, by simp [Layout.lines], fun next current => ?_⟩
      obtain ⟨hshape, hproductions⟩ := ih next ⟨associativity, []⟩
      constructor
      · simp [groupLines, hshape]
      · rw [groupLines, List.flatMap_cons, hproductions]
        simp [Layout.productionLines]
    | production label left right =>
      refine ⟨⟨⟨label, left, right⟩ :: head, blocks⟩, rfl, fun next current => ?_⟩
      let grown : DraftGroup := ⟨current.associativity,
        current.productions ++ [ProductionLine.declared number ⟨label, left, right⟩ next]⟩
      obtain ⟨hshape, hproductions⟩ := ih (next + 1) grown
      constructor
      · refine hshape.trans ?_
        simp [grown, Nat.add_assoc, Nat.add_comm 1]
      · refine hproductions.trans ?_
        simp [grown, Layout.productionLines]

/-! ## Names -/

/-- The name of a symbol. -/
def SymbolName.name : SymbolName → String
  | nonterminal name => name
  | terminal name => name

def Token.nonterminal? : Token → Option String
  | nonterminal name => some name
  | _ => none

def Token.terminal? : Token → Option String
  | terminal name => some name
  | _ => none

/-- The nonterminals that occur besides the start, as often as they occur. -/
def otherNonterminals (ts : List Token) : List String :=
  (ts.filterMap Token.nonterminal?).filter (· ≠ startName)

theorem nonterminalNames_eq (ts : List Token) :
    nonterminalNames ts = startName :: (otherNonterminals ts).eraseDups := by
  have hfilter : (ts.filterMap Token.nonterminal?).filter (fun name => !name == startName) =
      otherNonterminals ts :=
    List.filter_congr fun name _ => by by_cases h : name = startName <;> simp [h]
  rw [← hfilter, ← List.eraseDups_cons, ← Numbering.entries_ofList, nonterminalNames]
  congr

theorem terminalNames_eq (ts : List Token) :
    terminalNames ts = (ts.filterMap Token.terminal?).eraseDups := by
  rw [← Numbering.entries_ofList, terminalNames]
  congr

theorem mem_otherNonterminals {ts : List Token} {name : String} :
    name ∈ otherNonterminals ts ↔ .nonterminal name ∈ ts ∧ name ≠ startName := by
  have hsome : ∀ t : Token, t.nonterminal? = some name ↔ t = .nonterminal name := by
    intro t
    cases t <;> simp [Token.nonterminal?]
  simp [otherNonterminals, hsome]

theorem mem_nonterminalNames {ts : List Token} {name : String} :
    name ∈ nonterminalNames ts ↔ name = startName ∨ .nonterminal name ∈ ts := by
  rw [nonterminalNames_eq, List.mem_cons, List.mem_eraseDups, mem_otherNonterminals]
  by_cases h : name = startName <;> simp [h]

theorem mem_terminalNames {ts : List Token} {name : String} :
    name ∈ terminalNames ts ↔ .terminal name ∈ ts := by
  have hsome : ∀ t : Token, t.terminal? = some name ↔ t = .terminal name := by
    intro t
    cases t <;> simp [Token.terminal?]
  simp [terminalNames_eq, hsome]

section Names

variable {text : List Char} {ts : List Token} {name : String}

/-- No name is both a nonterminal's and a terminal's: the one begins with a capital, the other one
in lower case. -/
theorem not_mem_terminalNames (h : tokens text = .ok ts) (hname : name ∈ nonterminalNames ts) :
    name ∉ terminalNames ts := by
  have hcuts := tokens_eq_ok_iff.1 h
  have hupper : name.toList.head?.any Char.isUpper = true := by
    rcases mem_nonterminalNames.1 hname with rfl | hmem
    · decide +kernel
    · obtain ⟨l, hl⟩ := hcuts.exists_lexeme hmem
      exact hl.isUpper_front
  intro hterminal
  obtain ⟨l, hl⟩ := hcuts.exists_lexeme (mem_terminalNames.1 hterminal)
  obtain ⟨c, hc, hc'⟩ := (Option.any_eq_true ..).1 hupper
  obtain ⟨d, hd, hd'⟩ := (Option.any_eq_true ..).1 hl.isLower_front
  rw [hc] at hd
  cases hd
  exact not_isLower_of_isUpper hc' hd'

theorem nodup_names (h : tokens text = .ok ts) :
    (nonterminalNames ts ++ terminalNames ts).Nodup := by
  refine List.nodup_append.2 ⟨Numbering.nodup _, Numbering.nodup _, ?_⟩
  rintro name hname _ hterminal rfl
  exact not_mem_terminalNames h hname hterminal

/-- The number of a symbol is the place of its name. -/
theorem symbolNumber_eq_idxOf (h : tokens text = .ok ts) {s : SymbolName} (hs : s.token ∈ ts) :
    symbolNumber (nonterminalNames ts) (terminalNames ts) s =
      (nonterminalNames ts ++ terminalNames ts).idxOf s.name := by
  cases s with
  | nonterminal name =>
    have hmem : name ∈ nonterminalNames ts := mem_nonterminalNames.2 (.inr hs)
    exact (List.idxOf_append_of_mem hmem).symm
  | terminal name =>
    have hnot : name ∉ nonterminalNames ts :=
      fun hmem => not_mem_terminalNames h hmem (mem_terminalNames.2 hs)
    exact (List.idxOf_append_of_notMem hnot).symm

theorem name_mem_names {s : SymbolName} (hs : s.token ∈ ts) :
    s.name ∈ nonterminalNames ts ++ terminalNames ts := by
  cases s with
  | nonterminal name => exact List.mem_append_left _ (mem_nonterminalNames.2 (.inr hs))
  | terminal name => exact List.mem_append_right _ (mem_terminalNames.2 hs)

theorem idxOf_startName (ts : List Token) :
    (nonterminalNames ts ++ terminalNames ts).idxOf startName = 0 := by
  rw [nonterminalNames_eq]
  exact List.idxOf_cons_self

/-- The first nonterminal besides the start has the place after it. -/
theorem idxOf_first {first : String} (h : (otherNonterminals ts).head? = some first) :
    (nonterminalNames ts ++ terminalNames ts).idxOf first = 1 := by
  obtain ⟨others, hothers⟩ := List.head?_eq_some_iff.1 h
  have hne : first ≠ startName := (mem_otherNonterminals.1 (hothers ▸ List.mem_cons_self)).2
  rw [nonterminalNames_eq, hothers, List.eraseDups_cons, List.cons_append,
    List.idxOf_cons_ne _ (Ne.symm hne)]
  exact congrArg Nat.succ List.idxOf_cons_self

end Names

/-! ## Drafts -/

/-- The draft declares the lines of the given layout, which are those between the line feeds of the
tokens, with `first` as the first nonterminal besides the start. -/
structure Declares (ts : List Token) (draft : Draft) (layout : Layout) (first : String) : Prop where
  lines_eq : (ts.splitOn .lineFeed).filter (· ≠ []) = layout.lines.map Line.tokens
  first_eq : (otherNonterminals ts).head? = some first
  symbols_eq : draft.symbols = startName :: (otherNonterminals ts).eraseDups ++
    (ts.filterMap Token.terminal?).eraseDups
  nodup_symbols : draft.symbols.Nodup
  nonterminalCount_eq : draft.nonterminalCount = 1 + (otherNonterminals ts).eraseDups.length
  /-- Every name that a production line mentions has a place. -/
  mem_symbols : ∀ p ∈ layout.productionLines,
    p.left ∈ draft.symbols ∧ ∀ s ∈ p.right, s.name ∈ draft.symbols
  shape_eq : draft.groups.map (fun group => (group.associativity, group.productions.length)) =
    layout.shape
  productions_eq : draft.productions =
    ⟨startLabel, draft.symbols.idxOf startName, [draft.symbols.idxOf first]⟩ ::
      (layout.productionLines.zipIdx 1).map fun p =>
        ⟨p.1.label.getD s!"rule{p.2}", draft.symbols.idxOf p.1.left,
          p.1.right.map fun s => draft.symbols.idxOf s.name⟩

namespace Draft

theorem length_nonterminalNames_lt_two_iff {ts : List Token} :
    (nonterminalNames ts).length < 2 ↔ otherNonterminals ts = [] := by
  have hnil : (otherNonterminals ts).eraseDups = [] ↔ otherNonterminals ts = [] := by
    simp only [List.eq_nil_iff_forall_not_mem, List.mem_eraseDups]
  rw [nonterminalNames_eq, List.length_cons, ← hnil, ← List.length_eq_zero_iff]
  omega

/-- A sequence of tokens is accepted when its lines are read and there is a first nonterminal. -/
theorem ofTokens_eq_ok_iff {ts : List Token} {draft : Draft} :
    ofTokens ts = .ok draft ↔ ∃ lines, readLines ts = some lines ∧ otherNonterminals ts ≠ [] ∧
      draft = ⟨nonterminalNames ts ++ terminalNames ts, (nonterminalNames ts).length,
        groupLines (symbolNumber (nonterminalNames ts) (terminalNames ts)) 1 startGroup lines⟩ := by
  unfold ofTokens
  split
  · next hlines => simp [hlines]
  · next lines hlines =>
    by_cases hother : otherNonterminals ts = []
    · simp [length_nonterminalNames_lt_two_iff.2 hother, hother]
    · have hlength := mt length_nonterminalNames_lt_two_iff.1 hother
      simp [hlines, hother, hlength, eq_comm]

/-- The names of all symbols are words. -/
theorem isWord_of_mem_symbols {text : String} {draft : Draft} (h : ofText text = .ok draft)
    {name : String} (hname : name ∈ draft.symbols) : IsWord name := by
  rw [ofText, ofChars] at h
  split at h
  · cases h
  · next ts hts =>
    have hcuts := tokens_eq_ok_iff.1 hts
    obtain ⟨lines, -, -, rfl⟩ := ofTokens_eq_ok_iff.1 h
    rcases List.mem_append.1 hname with hname | hname
    · rcases mem_nonterminalNames.1 hname with rfl | hmem
      · decide +kernel
      · obtain ⟨l, hl⟩ := hcuts.exists_lexeme hmem
        exact hl.isWord_nonterminal
    · obtain ⟨l, hl⟩ := hcuts.exists_lexeme (mem_terminalNames.1 hname)
      exact hl.isWord_terminal

/-- What is accepted declares the lines between the line feeds. -/
theorem exists_declares {text : List Char} {ts : List Token} {draft : Draft}
    (h : tokens text = .ok ts) (hdraft : ofTokens ts = .ok draft) :
    ∃ layout first, Declares ts draft layout first := by
  obtain ⟨lines, hlines, hother, rfl⟩ := ofTokens_eq_ok_iff.1 hdraft
  obtain ⟨first, others, hothers⟩ := List.exists_cons_of_ne_nil hother
  have hfirst : (otherNonterminals ts).head? = some first := by
    rw [hothers]
    rfl
  obtain ⟨layout, rfl, hgroups⟩ :=
    groupLines_layout (symbolNumber (nonterminalNames ts) (terminalNames ts)) lines
  obtain ⟨hshape, hproductions⟩ := hgroups 1 startGroup
  rw [readLines_eq_some_iff] at hlines
  refine ⟨layout, first, ?_⟩
  exact {
    lines_eq := hlines
    first_eq := hfirst
    symbols_eq := by rw [nonterminalNames_eq, terminalNames_eq]
    nodup_symbols := nodup_names h
    nonterminalCount_eq := by rw [nonterminalNames_eq, List.length_cons, Nat.add_comm]
    mem_symbols := fun p hp => ⟨name_mem_names (layout.left_mem hlines hp),
      fun s hs => name_mem_names (layout.right_mem hlines hp hs)⟩
    shape_eq := hshape
    productions_eq := by
      rw [productions, hproductions, idxOf_startName, idxOf_first hfirst]
      refine congrArg _ (List.map_congr_left fun p hp => ?_)
      have hline : p.1 ∈ layout.productionLines := List.fst_mem_of_mem_zipIdx hp
      rw [ProductionLine.declared, symbolNumber_eq_idxOf h (layout.left_mem hlines hline), labelOr]
      refine congrArg _ (List.map_congr_left fun s hs => ?_)
      exact symbolNumber_eq_idxOf h (layout.right_mem hlines hline hs) }

/-- A text whose characters make tokens is accepted exactly when each line, which is what stands
between two line feeds, is empty or written as a directive or a production is, and some nonterminal
besides the start occurs.  It then declares these lines.  Reading them by ordered choice and
repetition makes no difference. -/
theorem ofText_follows_format {text : String} {ts : List Token}
    (h : tokens text.toList = .ok ts) :
    Reader.parseLines ts = readLines ts ∧
    ((∃ draft, ofText text = .ok draft) ↔
      (∀ piece ∈ ts.splitOn .lineFeed, piece = [] ∨ ∃ line : Line, piece = line.tokens) ∧
        ∃ name, .nonterminal name ∈ ts ∧ name ≠ startName) ∧
    ∀ draft, ofText text = .ok draft → ∃ layout first, Declares ts draft layout first := by
  have htext : ofText text = ofTokens ts := by rw [ofText, ofChars, h]
  have hother : otherNonterminals ts ≠ [] ↔ ∃ name, .nonterminal name ∈ ts ∧ name ≠ startName := by
    simp only [ne_eq, List.eq_nil_iff_forall_not_mem, mem_otherNonterminals, not_forall, not_not]
  rw [htext]
  refine ⟨parseLines_eq_readLines ts, ?_, fun draft hdraft => exists_declares h hdraft⟩
  rw [← exists_readLines_iff, ← hother]
  simp only [ofTokens_eq_ok_iff]
  constructor
  · rintro ⟨draft, lines, hlines, hne, -⟩
    exact ⟨⟨lines, hlines⟩, hne⟩
  · rintro ⟨⟨lines, hlines⟩, hne⟩
    exact ⟨_, lines, hlines, hne, rfl⟩

/-- What a text with an empty line, a comment, a label and a directive declares. -/
def sums : Draft where
  symbols := ["Start", "E", "T", "plus", "num"]
  nonterminalCount := 3
  groups := [⟨.none, [⟨"start", 0, [1]⟩, ⟨"rule1", 1, [2]⟩, ⟨"sum", 1, [1, 3, 2]⟩]⟩,
    ⟨.left, [⟨"rule3", 2, [4]⟩]⟩]

/-- This text is accepted without a line feed at its end, and declares its lines. -/
theorem ofText_follows_format_sums :
    ∃ ts layout first,
      tokens "E -> T\n\nsum: E -> E + T -- terms\n%left\nT -> num".toList = .ok ts ∧
      ofText "E -> T\n\nsum: E -> E + T -- terms\n%left\nT -> num" = .ok sums ∧
      Declares ts sums layout first := by
  have htokens : tokens "E -> T\n\nsum: E -> E + T -- terms\n%left\nT -> num".toList =
      .ok [.nonterminal "E", .arrow, .nonterminal "T", .lineFeed, .lineFeed, .label "sum",
        .nonterminal "E", .arrow, .nonterminal "E", .terminal "plus", .nonterminal "T", .lineFeed,
        .directive .left, .lineFeed, .nonterminal "T", .arrow, .terminal "num"] := by
    decide +kernel
  have hdraft : ofText "E -> T\n\nsum: E -> E + T -- terms\n%left\nT -> num" = .ok sums := by
    decide +kernel
  obtain ⟨-, -, hdeclares⟩ := ofText_follows_format htokens
  obtain ⟨layout, first, h⟩ := hdeclares sums hdraft
  exact ⟨_, layout, first, htokens, hdraft, h⟩

end Draft

end ShiftReduce.GrammarText
