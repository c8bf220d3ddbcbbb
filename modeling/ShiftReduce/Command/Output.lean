import ShiftReduce.Command.Folder
import ShiftReduce.Note

/-!
# What a command leaves behind

* `Failure`: why a command failed, with the cause behind it, and its wording for the user;
* `Output`: everything a command produces.
-/

namespace ShiftReduce.Command

/-- An error message, and the message of what caused it. -/
structure Failure where
  message : String
  cause : Option String
deriving DecidableEq, Repr

namespace Failure

/-- The failure as the user sees it. -/
def report (f : Failure) : String :=
  s!"Error: {f.message}\n" ++
    match f.cause with
    | none => ""
    | some cause => s!"\nCaused by:\n    {cause}\n"

/-- The failure and its cause in one line. -/
def chain (f : Failure) : String :=
  match f.cause with
  | none => f.message
  | some cause => s!"{f.message}: {cause}"

end Failure

/-- The end of a command. -/
structure Output where
  folder : Folder
  /-- What was printed. -/
  out : String
  failure : Option Failure
  notes : List Note

namespace Output

/-- What is printed about the failure. -/
def err (o : Output) : String := (o.failure.map Failure.report).getD ""

/-- The exit code. -/
def code (o : Output) : Nat := if o.failure.isSome then 1 else 0

end Output

end ShiftReduce.Command
