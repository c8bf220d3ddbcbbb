import ShiftReduce.Command.Calculate
import ShiftReduce.Command.Tables

/-!
# The program

The first argument chooses the command: `tables` or `calculate`.  This module only moves bytes:
it reads the files that a command names, prints what the command prints and writes the files that
it has changed.
-/

namespace ShiftReduce.Command

/-- Reads a file into a folder; a file that cannot be read is left out. -/
def fetch (folder : Folder) (path : String) : IO Folder := do
  try
    let bytes ← IO.FS.readBinFile path
    return folder.withFile path bytes
  catch _ => return folder

/-- Writes a file as the folder has it, if it has it; says whether this was possible. -/
def store (folder : Folder) (path : String) : IO Bool := do
  match folder.target path with
  | .error _ => return true
  | .ok place =>
    match folder.bytes? place with
    | none => return true
    | some bytes =>
      try
        IO.FS.writeBinFile path bytes
        return true
      catch _ => return false

/-- Prints what a command leaves behind and gives its exit code. -/
def finish (debug : Bool) (output : Output) : IO UInt32 := do
  IO.print output.out
  let level := if debug then Level.debug else Level.warn
  for line in Note.shownAt level output.notes do
    IO.eprintln line
  IO.eprint output.err
  return output.code.toUInt32

/-- Refuses arguments that cannot be read. -/
def refuse (usage : String) : IO UInt32 := do
  IO.eprintln s!"usage: {usage}"
  return 2

/-- Runs the table command.  The directory of the report is taken to be there until writing to it
fails. -/
def tablesMain (args : List String) : IO UInt32 := do
  let usage := "tables --grammar FILE [--output FILE] [--check] [--debug]"
  let some options := Tables.Options.ofTexts args | refuse usage
  let some path := options.grammar | refuse usage
  let target := if options.check then none else options.output
  let folder ← fetch ((target.map (Folder.withWayTo ⟨[], []⟩)).getD ⟨[], []⟩) path
  let output := Tables.run folder path options
  match target with
  | none => finish options.debug output
  | some target =>
    if ← store output.folder target then finish options.debug output
    else
      let error := Tables.Error.uncreatable target .notFound
      finish options.debug { output with failure := some error.failure }

/-- Runs the calculator command. -/
def calculateMain (args : List String) : IO UInt32 := do
  match Calculate.Options.ofTexts args with
  | none => refuse "calculate [EXPRESSION...] [--input FILE] [--debug]"
  | some options =>
    let folder ← match options.input with
      | none => pure ⟨[], []⟩
      | some path => fetch ⟨[], []⟩ path
    finish options.debug (Calculate.run folder options)

end ShiftReduce.Command

/-- The program. -/
def main (args : List String) : IO UInt32 :=
  match args with
  | "tables" :: args => ShiftReduce.Command.tablesMain args
  | "calculate" :: args => ShiftReduce.Command.calculateMain args
  | _ => ShiftReduce.Command.refuse "tables ... | calculate ..."
