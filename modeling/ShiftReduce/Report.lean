import ShiftReduce.GrammarText.Draft
import ShiftReduce.Automaton

/-!
# Reports

The stages of a construction as text, in lines whose fields are set apart by commas.  Most
sections begin with a line that holds a tag and a count, and every section ends with an empty line.

* `showItem`: an item as a rule with a dot in it;
* `Report.productions`, `Report.collection`, `Report.first`, `Report.lookaheads`, `Report.edges`,
  `Report.table`, `Report.conflicts`: the sections;
* `Report.full`: all of them.
-/

namespace ShiftReduce

variable {α : Type}

/-- An item as its rule with a dot; a dot past the end is shown at the end. -/
def showItem (g : Grammar α) (item : Item) : String :=
  match g.cfg.rules[item.production]? with
  | none => ""
  | some rule =>
    let names := rule.right.map g.nameOf
    let dotted := names.take item.position ++ ["."] ++ names.drop item.position
    " ".intercalate ([g.nameOf rule.left, "->"] ++ dotted)

/-- An entry of a parse table. -/
def showAction (g : Grammar α) : Action → String
  | .shift state => s!"Shift({state})"
  | .reduce production => s!"Reduce({production})"
  | .error _ => "Error"
  | .shiftReduce la => s!"ErrorShiftReduce({g.lookaheadName la})"
  | .reduceReduce la => s!"ErrorReduceReduce({g.lookaheadName la})"

namespace Report

/-- Lines, each with its line feed. -/
def ofLines (lines : List String) : String := String.join (lines.map (· ++ "\n"))

/-- The productions with their labels and precedence. -/
def productions (g : Grammar α) (labels : List String) : String :=
  ofLines ([s!"PS,{g.cfg.rules.length}", ""] ++
    (g.cfg.rules.zipIdx.map fun (rule, i) =>
      let label := (labels[i]?).getD ""
      let group := g.rank i
      let name := (g.associativity group).name
      s!"P,{i},{label},{group},{name},{g.showRule rule}") ++
    [""])

/-- The items of a state, told apart by kernel and closure. -/
def stateItems (g : Grammar α) (q : Nat) (items : List Item) : List String :=
  items.map fun item =>
    let tag := if Collection.isKernel q item then "K" else "C"
    s!"{tag},{q},{showItem g item}"

/-- The transitions of a state. -/
def stateGotos (g : Grammar α) (q : Nat) (items : List Item) (row : List (Option Nat)) :
    List String :=
  row.zipIdx.filterMap fun (target, symbol) => target.map fun target =>
    let rank := (g.gotoRank? items symbol).getD 0
    s!"G,{q},{g.nameOf symbol},{target},{rank}"

/-- The states of the collection and their transitions. -/
def collection (g : Grammar α) (c : Collection) : String :=
  ofLines ([s!"CS,{c.states.size}", ""] ++
    c.states.entries.zipIdx.flatMap fun (items, q) =>
      stateItems g q items ++ stateGotos g q items (c.gotos.getD q []) ++ [""])

/-- The FIRST sets; a symbol that can vanish has the empty string in front. -/
def first (g : Grammar α) (sets : FirstSets) : String :=
  ofLines ((List.range sets.first.length).map (fun symbol =>
      let empty := if sets.isNullable symbol then ["\x60empty\x27, "] else []
      let members := (sets.of symbol).map fun t => g.nameOf t ++ ", "
      s!"FIRST,{g.nameOf symbol},\x7b{String.join (empty ++ members)}\x7d") ++
    [""])

/-- The lookahead sets of the states. -/
def lookaheads (g : Grammar α) (s : Lookaheads) : String :=
  ofLines ([s!"LS,{s.states.length}", ""] ++
    ((List.range s.states.length).flatMap fun q => (s.ordered q).map fun x =>
      s!"L,{q},{showItem g x.item}, {g.lookaheadName x.lookahead}") ++
    [""])

/-- The edges along which lookaheads are passed on. -/
def edges (g : Grammar α) (edges : Edges) : String :=
  ofLines ([s!"PRS,{edges.count}", ""] ++
    (edges.flatMap fun (source, targets) => targets.map fun target =>
      let left := s!"{source.state},{showItem g source.item}"
      s!"PR,{left} => {target.state},{showItem g target.item}") ++
    [""])

/-- The entries of the table that are no errors. -/
def table (g : Grammar α) (t : Table) : String :=
  ofLines ([s!"TAB,{t.stateCount},{t.columnCount}", ""] ++
    (t.rows.zipIdx.flatMap fun (row, q) => row.zipIdx.filterMap fun (action, col) =>
      match action with
      | .error _ => none
      | action => some s!"T,{q},{g.lookaheadName (lookaheadOf col)},{showAction g action}") ++
    [""])

/-- The conflicts. -/
def conflicts (g : Grammar α) (all : List Conflict) : String :=
  ofLines ([s!"XS,{all.length}", ""] ++ all.map (fun c => s!"X,{c.describe g.symbols}") ++ [""])

/-- All sections of a grammar with the given labels. -/
def full (g : Grammar α) (labels : List String) (a : Automaton) : String :=
  String.join [productions g labels, collection g a.collection, first g a.first,
    lookaheads g a.lookaheads, edges g a.lookaheads.edges, table g a.table,
    conflicts g a.table.conflicts]

end Report

end ShiftReduce
