import Mathlib
import ShiftReduce.Report
import ShiftReduce.Proofs.Declarations
import ShiftReduce.Proofs.GrammarText.Format
import ShiftReduce.Proofs.Justification

/-!
# Reading a table back

The section of a report that shows a table can be read in one way only.  Lines are found again at
their line feeds and fields at their commas, since numbers, names and actions hold neither.  A cell
that is left out is an error, and which error follows from its column.

* `splitOn_intercalate`: parts without separators are found again;
* `SymbolTable.lookaheadName_inj`: different lookaheads have different names;
* `Action.Carries`, `Grammar.carries_action`: an entry carries the lookahead of its column;
* `showAction_inj`: entries of one column that are shown alike are the same;
* `Report.cellLines`, `Report.mem_cellLines`, `Report.cellLine?_inj`: the lines of the section;
* `Report.section_determines_table`: equal sections show equal tables.
-/

namespace ShiftReduce

open GrammarText (Draft IsWord isWordChar)

/-! ## Parts of a text -/

/-- Parts that do not hold the separator between them are found again. -/
theorem splitOn_intercalate {sep : Char} {parts : List String}
    (h : ∀ part ∈ parts, sep ∉ part.toList) (hne : parts ≠ []) :
    ((String.singleton sep).intercalate parts).toList.splitOn sep = parts.map String.toList := by
  rw [String.toList_intercalate, String.toList_singleton]
  exact List.splitOn_intercalate sep (by simpa using h) (by simpa using hne)

theorem eq_of_intercalate_eq {sep : Char} {ps qs : List String}
    (hps : ∀ p ∈ ps, sep ∉ p.toList) (hqs : ∀ q ∈ qs, sep ∉ q.toList) (hp : ps ≠ []) (hq : qs ≠ [])
    (h : (String.singleton sep).intercalate ps = (String.singleton sep).intercalate qs) :
    ps = qs := by
  have hparts : ps.map String.toList = qs.map String.toList := by
    rw [← splitOn_intercalate hps hp, h, splitOn_intercalate hqs hq]
  exact List.map_injective_iff.2 (fun _ _ => String.toList_inj.1) hparts

/-- A text without the characters that set fields and lines apart. -/
def Unbroken (s : String) : Prop := ',' ∉ s.toList ∧ '\n' ∉ s.toList

instance (s : String) : Decidable (Unbroken s) := inferInstanceAs (Decidable (_ ∧ _))

theorem Unbroken.append {s t : String} (hs : Unbroken s) (ht : Unbroken t) : Unbroken (s ++ t) := by
  simp [Unbroken, hs.1, hs.2, ht.1, ht.2]

theorem unbroken_of_isWord {s : String} (h : IsWord s) : Unbroken s :=
  ⟨h.not_mem (by decide), h.not_mem (by decide)⟩

theorem isWord_repr (n : Nat) : IsWord n.repr := by
  intro c hc
  rw [Nat.toList_repr] at hc
  have hdigit : c.isDigit = true := Nat.isDigit_of_mem_toDigits (by decide) (by decide) hc
  simp [isWordChar, Char.isAlphanum, hdigit]

theorem unbroken_repr (n : Nat) : Unbroken n.repr := unbroken_of_isWord (isWord_repr n)

/-! ## Names of lookaheads -/

namespace SymbolTable

variable {symbols : SymbolTable} {la la' : Lookahead}

/-- All names are words. -/
def Legible (symbols : SymbolTable) : Prop := ∀ name ∈ symbols.entries, IsWord name

theorem unbroken_lookaheadName (h : Legible symbols) (la : Lookahead) :
    Unbroken (lookaheadName symbols la) := by
  cases la with
  | none =>
    have hend : Unbroken endOfInputName := by decide
    exact hend
  | some symbol =>
    rw [lookaheadName, name]
    cases hname : symbols.get? symbol with
    | none => decide
    | some name => exact unbroken_of_isWord (h name (List.mem_of_getElem? hname))

/-- The end of the input has no word as its name. -/
theorem lookaheadName_some_ne (h : Legible symbols) {symbol : Nat} (hlt : symbol < symbols.size) :
    lookaheadName symbols (some symbol) ≠ endOfInputName := by
  obtain ⟨name, hname⟩ := Numbering.exists_get?_of_lt hlt
  rw [lookaheadName, SymbolTable.name, hname, Option.getD_some]
  rintro rfl
  exact absurd (h _ (List.mem_of_getElem? hname)) (by decide)

/-- Different lookaheads have different names. -/
theorem lookaheadName_inj (h : Legible symbols) (hla : column la ≤ symbols.size)
    (hla' : column la' ≤ symbols.size)
    (heq : lookaheadName symbols la = lookaheadName symbols la') : la = la' := by
  cases la with
  | none =>
    cases la' with
    | none => rfl
    | some symbol' => exact absurd heq.symm (lookaheadName_some_ne h hla')
  | some symbol =>
    cases la' with
    | none => exact absurd heq (lookaheadName_some_ne h hla)
    | some symbol' =>
      obtain ⟨name, hname⟩ := Numbering.exists_get?_of_lt hla
      obtain ⟨name', hname'⟩ := Numbering.exists_get?_of_lt hla'
      simp only [lookaheadName, SymbolTable.name, hname, hname', Option.getD_some] at heq
      subst heq
      rw [Numbering.get?_inj hname hname']

end SymbolTable

/-! ## Actions -/

section Actions

variable {α β : Type} {g : Grammar α} {g' : Grammar β} {a a' : Action} {la : Lookahead}

theorem showAction_error (la : Lookahead) : showAction g (.error la) = "Error" := rfl

theorem showAction_shift (target : Nat) :
    showAction g (.shift target) = "Shift(" ++ target.repr ++ ")" := rfl

theorem showAction_reduce (p : Nat) : showAction g (.reduce p) = "Reduce(" ++ p.repr ++ ")" := rfl

theorem showAction_shiftReduce (la : Lookahead) :
    showAction g (.shiftReduce la) = "ErrorShiftReduce(" ++ g.lookaheadName la ++ ")" := rfl

theorem showAction_reduceReduce (la : Lookahead) :
    showAction g (.reduceReduce la) = "ErrorReduceReduce(" ++ g.lookaheadName la ++ ")" := rfl

theorem unbroken_showAction (h : SymbolTable.Legible g.symbols) (a : Action) :
    Unbroken (showAction g a) := by
  have hname : ∀ la, Unbroken (g.lookaheadName la) := SymbolTable.unbroken_lookaheadName h
  have hclose : Unbroken ")" := by decide
  cases a with
  | error la =>
    rw [showAction_error]
    decide
  | shift target =>
    rw [showAction_shift]
    exact (Unbroken.append (by decide) (unbroken_repr target)).append hclose
  | reduce p =>
    rw [showAction_reduce]
    exact (Unbroken.append (by decide) (unbroken_repr p)).append hclose
  | shiftReduce la =>
    rw [showAction_shiftReduce]
    exact (Unbroken.append (by decide) (hname la)).append hclose
  | reduceReduce la =>
    rw [showAction_reduceReduce]
    exact (Unbroken.append (by decide) (hname la)).append hclose

/-- The word that an action is shown with. -/
def Action.word : Action → String
  | error _ => "Error"
  | shiftReduce _ => "ErrorShiftReduce"
  | reduceReduce _ => "ErrorReduceReduce"
  | reduce _ => "Reduce"
  | shift _ => "Shift"

/-- What an action is shown as begins with its word, which a parenthesis ends. -/
theorem takeWhile_showAction (a : Action) :
    (showAction g a).toList.takeWhile (· ≠ '(') = a.word.toList := by
  cases a with
  | error la => simp [showAction_error, Action.word]
  | shift target => simp [showAction_shift, Action.word]
  | reduce p => simp [showAction_reduce, Action.word]
  | shiftReduce la => simp [showAction_shiftReduce, Action.word]
  | reduceReduce la => simp [showAction_reduceReduce, Action.word]

/-- The action carries no lookahead besides `la`. -/
def Action.Carries (la : Lookahead) : Action → Prop
  | error la' => la' = la
  | shiftReduce la' => la' = la
  | reduceReduce la' => la' = la
  | reduce _ => True
  | shift _ => True

/-- Two actions about one lookahead that are shown alike are the same. -/
theorem showAction_inj (ha : a.Carries la) (ha' : a'.Carries la)
    (h : showAction g a = showAction g' a') : a = a' := by
  have hword : a.word = a'.word := by
    rw [← String.toList_inj, ← takeWhile_showAction (g := g), h, takeWhile_showAction]
  cases a <;> cases a' <;> simp [Action.word] at hword
  -- Only numbers have to be read back: what lookahead is carried, if any, is known.
  case error.error => rw [ha, ha']
  case shiftReduce.shiftReduce => rw [ha, ha']
  case reduceReduce.reduceReduce => rw [ha, ha']
  case reduce.reduce p p' =>
    rw [showAction_reduce, showAction_reduce] at h
    have hnumber : p.repr = p'.repr := by simpa using h
    rw [Nat.repr_inj.1 hnumber]
  case shift.shift target target' =>
    rw [showAction_shift, showAction_shift] at h
    have hnumber : target.repr = target'.repr := by simpa using h
    rw [Nat.repr_inj.1 hnumber]

theorem Grammar.carries_action (g : Grammar α) (q : Nat) (la : Lookahead) :
    (g.automaton.table.action q la).Carries la := by
  have hjustified := g.justified_action q la
  cases hentry : g.automaton.table.action q la with
  | error la' => exact ((hjustified.error_iff la').1 hentry).1
  | shiftReduce la' => exact ((hjustified.shiftReduce_iff la').1 hentry).1
  | reduceReduce la' => exact ((hjustified.reduceReduce_iff la').1 hentry).1
  | reduce p => trivial
  | shift target => trivial

end Actions

/-! ## Lines -/

namespace Report

theorem ofLines_eq (lines : List String) : ofLines lines = "\n".intercalate (lines ++ [""]) := by
  induction lines with
  | nil => rfl
  | cons line lines ih =>
    have hne : lines ++ [""] ≠ [] := by simp
    rw [List.cons_append, String.intercalate_cons_of_ne_nil hne, ← ih, ofLines, List.map_cons,
      String.join_cons, ofLines]

/-- Lines without line feeds are found again. -/
theorem ofLines_inj {lines lines' : List String} (hlines : ∀ line ∈ lines, '\n' ∉ line.toList)
    (hlines' : ∀ line ∈ lines', '\n' ∉ line.toList) (h : ofLines lines = ofLines lines') :
    lines = lines' := by
  rw [ofLines_eq, ofLines_eq] at h
  have hend : ∀ {ls : List String}, (∀ line ∈ ls, '\n' ∉ line.toList) →
      ∀ line ∈ ls ++ [""], '\n' ∉ line.toList := by
    intro ls hls line hmem
    rcases List.mem_append.1 hmem with hmem | hmem
    · exact hls line hmem
    · rw [List.mem_singleton.1 hmem]
      decide
  exact List.append_cancel_right
    (eq_of_intercalate_eq (hend hlines) (hend hlines') (by simp) (by simp) h)

/-- A line of fields, set apart by commas. -/
def ofFields (fields : List String) : String := ",".intercalate fields

theorem not_mem_ofFields {fields : List String} (h : ∀ field ∈ fields, Unbroken field) :
    '\n' ∉ (ofFields fields).toList := by
  induction fields with
  | nil => decide
  | cons field fields ih =>
    obtain ⟨hfield, hfields⟩ := List.forall_mem_cons.1 h
    rw [ofFields]
    cases fields with
    | nil => simpa using hfield.2
    | cons next fields =>
      have hrest : '\n' ∉ (",".intercalate (next :: fields)).toList := ih hfields
      rw [String.intercalate_cons_cons, String.toList_append, String.toList_append]
      simp only [List.mem_append, not_or]
      exact ⟨⟨hfield.2, by decide⟩, hrest⟩

theorem ofFields_inj {fields fields' : List String} (h : ∀ field ∈ fields, Unbroken field)
    (h' : ∀ field ∈ fields', Unbroken field) (hne : fields ≠ []) (hne' : fields' ≠ [])
    (heq : ofFields fields = ofFields fields') : fields = fields' :=
  eq_of_intercalate_eq (fun field hfield => (h field hfield).1)
    (fun field hfield => (h' field hfield).1) hne hne' heq

/-! ## The section of a table -/

variable {α β : Type} {g : Grammar α} {g' : Grammar β} {t t' : Table} {q q' : Nat}
  {la la' : Lookahead} {a a' : Action} {line : String}

/-- The fields of a line that shows an entry. -/
def cellFields (g : Grammar α) (q : Nat) (la : Lookahead) (a : Action) : List String :=
  ["T", q.repr, g.lookaheadName la, showAction g a]

/-- The line that shows an entry; no line shows an error. -/
def cellLine? (g : Grammar α) (q : Nat) (la : Lookahead) : Action → Option String
  | .error _ => none
  | a => some (ofFields (cellFields g q la a))

/-- The lines that show the entries of a table. -/
def cellLines (g : Grammar α) (t : Table) : List String :=
  t.rows.zipIdx.flatMap fun (row, q) => row.zipIdx.filterMap fun (a, col) =>
    cellLine? g q (lookaheadOf col) a

/-- The fields of the line that shows the size of a table. -/
def sizeFields (t : Table) : List String := ["TAB", t.stateCount.repr, t.columnCount.repr]

/-- The lines of the section. -/
def tableLines (g : Grammar α) (t : Table) : List String :=
  ofFields (sizeFields t) :: "" :: (cellLines g t ++ [""])

theorem table_eq (g : Grammar α) (t : Table) : table g t = ofLines (tableLines g t) := by
  have hsize : s!"TAB,{t.stateCount},{t.columnCount}" = ofFields (sizeFields t) := by
    have hline : s!"TAB,{t.stateCount},{t.columnCount}" =
        "TAB" ++ "," ++ t.stateCount.repr ++ "," ++ t.columnCount.repr := rfl
    rw [hline]
    simp [ofFields, sizeFields, String.append_assoc]
  have hcell : ∀ (q : Nat) (x y : String), s!"T,{q},{x},{y}" = ofFields ["T", q.repr, x, y] := by
    intro q x y
    have hline : s!"T,{q},{x},{y}" = "T" ++ "," ++ q.repr ++ "," ++ x ++ "," ++ y := rfl
    rw [hline]
    simp [ofFields, String.append_assoc]
  simp only [table, hsize, hcell]
  rfl

theorem cellLine?_eq_some_iff : cellLine? g q la a = some line ↔
    (∀ la', a ≠ .error la') ∧ line = ofFields (cellFields g q la a) := by
  cases a <;> simp [cellLine?, eq_comm]

/-- Each line shows the entry of some state under some lookahead. -/
theorem mem_cellLines :
    line ∈ cellLines g t ↔ ∃ q la, cellLine? g q la (t.action q la) = some line := by
  simp only [cellLines, List.mem_flatMap, List.mem_filterMap, Prod.exists,
    List.mk_mem_zipIdx_iff_getElem?]
  constructor
  · rintro ⟨row, q, hrow, a, col, ha, hline⟩
    refine ⟨q, lookaheadOf col, ?_⟩
    rwa [Table.action_eq_of_row hrow (by rwa [column_lookaheadOf])]
  · rintro ⟨q, la, hline⟩
    rcases t.action_mem_or_eq_error q la with ⟨row, hrow, ha⟩ | herror
    · exact ⟨row, q, hrow, _, _, ha, by rwa [lookaheadOf_column]⟩
    · rw [herror] at hline
      cases hline

theorem unbroken_cellFields (h : SymbolTable.Legible g.symbols) (q : Nat) (la : Lookahead)
    (a : Action) : ∀ field ∈ cellFields g q la a, Unbroken field := by
  have hla : Unbroken (g.lookaheadName la) := SymbolTable.unbroken_lookaheadName h la
  simp only [cellFields, List.forall_mem_cons]
  exact ⟨by decide, unbroken_repr q, hla, unbroken_showAction h a, by simp⟩

theorem unbroken_sizeFields (t : Table) : ∀ field ∈ sizeFields t, Unbroken field := by
  simp only [sizeFields, List.forall_mem_cons]
  exact ⟨by decide, unbroken_repr _, unbroken_repr _, by simp⟩

theorem not_mem_tableLines (h : SymbolTable.Legible g.symbols) (t : Table) :
    ∀ line ∈ tableLines g t, '\n' ∉ line.toList := by
  have hcells : ∀ line ∈ cellLines g t, '\n' ∉ line.toList := by
    intro line hline
    obtain ⟨q, la, hcell⟩ := mem_cellLines.1 hline
    rw [(cellLine?_eq_some_iff.1 hcell).2]
    exact not_mem_ofFields (unbroken_cellFields h q la _)
  have hempty : '\n' ∉ "".toList := by decide
  simp only [tableLines, List.forall_mem_cons, List.forall_mem_append]
  exact ⟨not_mem_ofFields (unbroken_sizeFields t), hempty, hcells, hempty, by simp⟩

/-- The lines of the section are found again. -/
theorem lines_eq_of_table_eq (h : SymbolTable.Legible g.symbols)
    (h' : SymbolTable.Legible g'.symbols) (htext : table g t = table g' t') :
    t.stateCount = t'.stateCount ∧ cellLines g t = cellLines g' t' := by
  rw [table_eq, table_eq] at htext
  obtain ⟨hsize, hcells⟩ :=
    List.cons.inj (ofLines_inj (not_mem_tableLines h t) (not_mem_tableLines h' t') htext)
  have hfields := ofFields_inj (unbroken_sizeFields t) (unbroken_sizeFields t')
    (List.cons_ne_nil _ _) (List.cons_ne_nil _ _) hsize
  simp only [sizeFields, List.cons.injEq, and_true, true_and] at hfields
  exact ⟨Nat.repr_inj.1 hfields.1, List.append_cancel_right (List.cons.inj hcells).2⟩

/-- An entry that is no error belongs to the end of the input or to a symbol. -/
theorem column_le_of_ne_error (h : ∀ la', g.automaton.table.action q la ≠ .error la') :
    column la ≤ g.symbols.size := by
  rw [g.action_automaton] at h
  split at h
  · next hinside => exact g.symbolCount_eq ▸ hinside.2
  · exact absurd rfl (h la)

/-- A line shows one entry only. -/
theorem cellLine?_inj (hg : SymbolTable.Legible g.symbols) (hsymbols : g.symbols = g'.symbols)
    (hla : column la ≤ g.symbols.size) (hla' : column la' ≤ g'.symbols.size)
    (ha : a.Carries la) (ha' : a'.Carries la')
    (h : cellLine? g q la a = some line) (h' : cellLine? g' q' la' a' = some line) :
    q = q' ∧ la = la' ∧ a = a' := by
  have hg' : SymbolTable.Legible g'.symbols := hsymbols ▸ hg
  have hline : ofFields (cellFields g q la a) = ofFields (cellFields g' q' la' a') :=
    (cellLine?_eq_some_iff.1 h).2.symm.trans (cellLine?_eq_some_iff.1 h').2
  have hfields := ofFields_inj (unbroken_cellFields hg q la a) (unbroken_cellFields hg' q' la' a')
    (List.cons_ne_nil _ _) (List.cons_ne_nil _ _) hline
  simp only [cellFields, List.cons.injEq, and_true, true_and] at hfields
  obtain ⟨hq, hname, hshown⟩ := hfields
  have hlaeq : la = la' := by
    rw [Grammar.lookaheadName, Grammar.lookaheadName, ← hsymbols] at hname
    exact SymbolTable.lookaheadName_inj hg hla (hsymbols ▸ hla') hname
  subst hlaeq
  exact ⟨Nat.repr_inj.1 hq, rfl, showAction_inj ha ha' hshown⟩

/-- An entry that is no error is found again. -/
theorem action_of_cellLines_eq (hg : SymbolTable.Legible g.symbols)
    (hsymbols : g.symbols = g'.symbols)
    (hlines : cellLines g g.automaton.table = cellLines g' g'.automaton.table)
    (hne : ∀ la', g.automaton.table.action q la ≠ .error la') :
    g.automaton.table.action q la = g'.automaton.table.action q la := by
  have hcell : cellLine? g q la (g.automaton.table.action q la) = some _ :=
    cellLine?_eq_some_iff.2 ⟨hne, rfl⟩
  have hmem := mem_cellLines.2 ⟨q, la, hcell⟩
  rw [hlines] at hmem
  obtain ⟨q', la', hcell'⟩ := mem_cellLines.1 hmem
  have hne' := (cellLine?_eq_some_iff.1 hcell').1
  obtain ⟨rfl, rfl, haction⟩ := cellLine?_inj hg hsymbols (column_le_of_ne_error hne)
    (column_le_of_ne_error hne') (g.carries_action q la) (g'.carries_action q' la') hcell hcell'
  exact haction

/-- What is left out is an error about the lookahead of its column, so all entries are found
again. -/
theorem action_eq_of_cellLines_eq (hg : SymbolTable.Legible g.symbols)
    (hsymbols : g.symbols = g'.symbols)
    (hlines : cellLines g g.automaton.table = cellLines g' g'.automaton.table) (q : Nat)
    (la : Lookahead) : g.automaton.table.action q la = g'.automaton.table.action q la := by
  by_cases hne : ∀ la', g.automaton.table.action q la ≠ .error la'
  · exact action_of_cellLines_eq hg hsymbols hlines hne
  by_cases hne' : ∀ la', g'.automaton.table.action q la ≠ .error la'
  · exact (action_of_cellLines_eq (hsymbols ▸ hg) hsymbols.symm hlines.symm hne').symm
  -- Neither section has a line for the cell, so both entries are errors.
  simp only [not_forall, not_not] at hne hne'
  obtain ⟨la₁, h₁⟩ := hne
  obtain ⟨la₂, h₂⟩ := hne'
  have hcarries := g.carries_action q la
  have hcarries' := g'.carries_action q la
  rw [h₁] at hcarries ⊢
  rw [h₂] at hcarries' ⊢
  rw [hcarries, hcarries']

/-- The symbols of a grammar made of a text have words as names. -/
theorem legible_of_build {text : String} {draft : Draft}
    {hookFor : String → Option (Hook α)} (hdraft : Draft.ofText text = .ok draft)
    (hbuild : draft.build hookFor = .ok g) : SymbolTable.Legible g.symbols := by
  have hentries : g.symbols.entries = draft.symbols := Grammar.entries_of_build hbuild
  intro name hname
  exact Draft.isWord_of_mem_symbols hdraft (hentries ▸ hname)

/-- Grammars made of two texts, with the same symbols, have equal tables when the sections that show
them are equal. -/
theorem section_determines_table {text text' : String} {draft draft' : Draft}
    {hookFor : String → Option (Hook α)} {hookFor' : String → Option (Hook β)}
    (hdraft : Draft.ofText text = .ok draft) (hbuild : draft.build hookFor = .ok g)
    (hdraft' : Draft.ofText text' = .ok draft')
    (hbuild' : draft'.build hookFor' = .ok g') (hsymbols : g.symbols = g'.symbols)
    (htext : table g g.automaton.table = table g' g'.automaton.table) :
    g.automaton.table = g'.automaton.table := by
  have hg := legible_of_build hdraft hbuild
  have hg' := legible_of_build hdraft' hbuild'
  obtain ⟨hcount, hlines⟩ := lines_eq_of_table_eq hg hg' htext
  have hcolumns : g.cfg.symbolCount = g'.cfg.symbolCount := by
    rw [g.symbolCount_eq, g'.symbolCount_eq, hsymbols]
  have hcells : ∀ q la, g.automaton.table.action q la = g'.automaton.table.action q la :=
    action_eq_of_cellLines_eq hg hsymbols hlines
  have hrows : g.automaton.table.rows = g'.automaton.table.rows := by
    rw [g.rows_automaton, g'.rows_automaton]
    simp only [hcount, hcolumns, hcells]
  exact congrArg Table.mk hrows

/-- The sections are equal for a sum whose operator has no associativity, whether or not its numbers
are in a group of their own, and so are the tables, with their conflict. -/
theorem section_determines_table_sums :
    ∃ (draft draft' : Draft) (g : Grammar Nat) (g' : Grammar Bool),
      Draft.ofText "E -> E + E\nE -> num" = .ok draft ∧
      draft.build (fun _ => none) = .ok g ∧
      Draft.ofText "sum: E -> E + E\n%right\nE -> num -- a number" = .ok draft' ∧
      draft'.build (fun _ => none) = .ok g' ∧
      draft ≠ draft' ∧
      g.symbols = g'.symbols ∧
      table g g.automaton.table = table g' g'.automaton.table ∧
      g.automaton.table = g'.automaton.table ∧
      g.automaton.table.action 4 (some 2) = .shiftReduce (some 2) := by
  obtain ⟨draft, draft', g, g', hdraft, hbuild, hdraft', hbuild', hne, hsymbols, htext, haction⟩ :
      ∃ (draft draft' : Draft) (g : Grammar Nat) (g' : Grammar Bool),
        Draft.ofText "E -> E + E\nE -> num" = .ok draft ∧
        draft.build (fun _ => none) = .ok g ∧
        Draft.ofText "sum: E -> E + E\n%right\nE -> num -- a number" = .ok draft' ∧
        draft'.build (fun _ => none) = .ok g' ∧
        draft ≠ draft' ∧
        g.symbols = g'.symbols ∧
        table g g.automaton.table = table g' g'.automaton.table ∧
        g.automaton.table.action 4 (some 2) = .shiftReduce (some 2) :=
    ⟨_, _, _, _, rfl, rfl, rfl, rfl, by decide +kernel, by decide +kernel, by decide +kernel,
      by decide +kernel⟩
  exact ⟨draft, draft', g, g', hdraft, hbuild, hdraft', hbuild', hne, hsymbols, htext,
    section_determines_table hdraft hbuild hdraft' hbuild' hsymbols htext, haction⟩

end Report

end ShiftReduce
