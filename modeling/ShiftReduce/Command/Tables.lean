import ShiftReduce.Command.Args
import ShiftReduce.Command.Output
import ShiftReduce.Report

/-!
# The table command

Reads a grammar text, constructs its parse table and reports on it, or only checks it for
conflicts.  Conflicts make the command fail, whatever it was asked to do.

* `Tables.Options`: what the command is asked to do;
* `Tables.Error`: why it fails;
* `Tables.reportTo`: writes the report of a grammar to a file.  The grammar is read before the file
  is created, and checked after that;
* `Tables.run`: the whole command.
-/

namespace ShiftReduce.Command.Tables

/-- What the command is asked to do. -/
structure Options where
  grammar : Option String := none
  /-- Where the report goes; it is printed if no file is named. -/
  output : Option String := none
  /-- Only look for conflicts. -/
  check : Bool := false
  debug : Bool := false
deriving DecidableEq, Repr

namespace Options

/-- Letters of the options that take a value. -/
def takesValue (c : Char) : Bool := c = 'g' || c = 'o'

/-- Reads options one after the other; there is no result if one is unknown. -/
def readFrom (options : Options) : List Arg → Option Options
  | [] => some options
  | .option name (some value) :: args =>
    if name = "g" || name = "grammar" then readFrom { options with grammar := some value } args
    else if name = "o" || name = "output" then readFrom { options with output := some value } args
    else none
  | .option name none :: .plain value :: args =>
    if name = "g" || name = "grammar" then readFrom { options with grammar := some value } args
    else if name = "o" || name = "output" then readFrom { options with output := some value } args
    else none
  | .option name none :: args =>
    if name = "check" then readFrom { options with check := true } args
    else if name = "d" || name = "debug" then readFrom { options with debug := true } args
    else none
  | .plain _ :: _ => none

/-- Reads the arguments of the command. -/
def ofTexts (texts : List String) : Option Options := readFrom {} (Arg.ofTexts takesValue texts)

end Options

/-- Why the command fails. -/
inductive Error where
  /-- The grammar text cannot be read from its file. -/
  | unreadable (path : String) (error : FileError)
  /-- The grammar text is malformed. -/
  | malformed (path : String) (error : GrammarText.DraftError)
  /-- The report cannot be written. -/
  | uncreatable (path : String) (error : FileError)
  /-- The grammar is refused. -/
  | refused (error : GrammarError)
  /-- The grammar has conflicts. -/
  | conflicts (path : String) (count : Nat)
deriving DecidableEq, Repr

/-- The wording of an error. -/
def Error.failure : Error → Failure
  | unreadable path error => ⟨s!"reading grammar {path}", some error.message⟩
  | malformed path error => ⟨s!"in grammar {path}", some error.message⟩
  | uncreatable path error => ⟨s!"creating {path}", some error.message⟩
  | refused error => ⟨error.message, none⟩
  | conflicts path count => ⟨s!"{path}: {count} unresolved conflict(s)", none⟩

/-- Reads the grammar text in a file. -/
def load (folder : Folder) (path : String) : Except Error GrammarText.Draft := do
  let text ← (folder.read path).mapError (Error.unreadable path)
  (GrammarText.Draft.ofText text).mapError (Error.malformed path)

/-- The grammar that a text declares, without hooks. -/
def plainGrammar (draft : GrammarText.Draft) : Except Error (Grammar Unit) :=
  (draft.build fun _ => none).mapError Error.refused

/-- The report on a grammar, and its conflicts. -/
def report (draft : GrammarText.Draft) : Except Error (String × List Conflict) := do
  let grammar ← plainGrammar draft
  let automaton := grammar.automaton
  return (Report.full grammar draft.labels automaton, automaton.table.conflicts)

/-- Writes the report on the grammar in one file to another; the result is its conflicts. -/
def reportTo (folder : Folder) (grammar output : String) :
    Folder × Except Error (List Conflict) :=
  match load folder grammar with
  | .error error => (folder, .error error)
  | .ok draft =>
    match folder.write output "" with
    | .error error => (folder, .error (.uncreatable output error))
    | .ok created =>
      match report draft with
      | .error error => (created, .error error)
      | .ok (text, conflicts) =>
        match created.write output text with
        | .error error => (created, .error (.uncreatable output error))
        | .ok written => (written, .ok conflicts)

/-- The files afterwards, what is printed, and the conflicts found. -/
def perform (folder : Folder) (path : String) (options : Options) :
    Folder × String × Except Error (List Conflict) :=
  if options.check then
    (folder, "", do return (← report (← load folder path)).2)
  else
    match options.output with
    | some output =>
      let result := reportTo folder path output
      (result.1, "", result.2)
    | none =>
      match (do report (← load folder path) : Except Error (String × List Conflict)) with
      | .error error => (folder, "", .error error)
      | .ok (text, conflicts) => (folder, text, .ok conflicts)

/-- What there is to say about the grammar in a file, when the report goes to `output`. -/
def notes (folder : Folder) (path : String) (output : Option String) : List Note :=
  match load folder path with
  | .error _ => []
  | .ok draft =>
    draft.notes ++
      match plainGrammar draft with
      | .error _ => []
      | .ok grammar =>
        let created := output.all fun path => (folder.target path).isOk
        if created then grammar.automaton.notes grammar else []

/-- The whole command on the grammar in a file. -/
def run (folder : Folder) (path : String) (options : Options) : Output :=
  let result := perform folder path options
  let failure := match result.2.2 with
    | .error error => some error.failure
    | .ok conflicts =>
      if conflicts.isEmpty then none
      else some (Error.conflicts path conflicts.length).failure
  let output := if options.check then none else options.output
  ⟨result.1, result.2.1, failure, notes folder path output⟩

end ShiftReduce.Command.Tables
