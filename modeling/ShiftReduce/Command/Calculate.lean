import ShiftReduce.Calc.Notes
import ShiftReduce.Command.Args
import ShiftReduce.Command.Output
import ShiftReduce.Text.Blank

/-!
# The calculator command

Evaluates expressions given as arguments, then those on the lines of a file that are not blank, and
prints one result per line.  The first error ends the command; what was printed before it stays.

* `Calculate.Options`: what the command is asked to do;
* `Calculate.run`: the whole command.
-/

namespace ShiftReduce.Command.Calculate

/-- What the command is asked to do. -/
structure Options where
  expressions : List String := []
  /-- A file with one expression per line. -/
  input : Option String := none
  debug : Bool := false
deriving DecidableEq, Repr

namespace Options

/-- Reads options one after the other; there is no result if one is unknown. -/
def readFrom (options : Options) : List Arg → Option Options
  | [] => some options
  | .option name (some value) :: args =>
    if name = "i" || name = "input" then readFrom { options with input := some value } args
    else none
  | .option name none :: .plain value :: args =>
    if name = "i" || name = "input" then readFrom { options with input := some value } args
    else if name = "d" || name = "debug" then
      readFrom { options with debug := true, expressions := options.expressions ++ [value] } args
    else none
  | .option name none :: args =>
    if name = "d" || name = "debug" then readFrom { options with debug := true } args
    else none
  | .plain text :: args =>
    readFrom { options with expressions := options.expressions ++ [text] } args

/-- Reads the arguments of the command. -/
def ofTexts (texts : List String) : Option Options :=
  readFrom {} (Arg.ofTexts (fun c => c = 'i') texts)

end Options

/-- The expressions in a text: its lines that are not blank. -/
def expressionsIn (text : String) : List String :=
  ((Text.linesOf text.toList).filter fun line => !line.all Text.isBlank).map String.ofList

/-- The expressions to evaluate. -/
def expressions (folder : Folder) (options : Options) : Except Failure (List String) :=
  match options.input with
  | none => .ok options.expressions
  | some path =>
    match folder.read path with
    | .error error => .error ⟨s!"reading {path}", some error.message⟩
    | .ok text => .ok (options.expressions ++ expressionsIn text)

/-- The failure for an error of the calculator. -/
def failureOf (error : Calc.Error) : Failure := ⟨error.message, error.cause?⟩

/-- Evaluates expressions up to the first error; gives what is printed. -/
def evaluate (calculator : Calc.Calculator) : List String → String × Option Failure
  | [] => ("", none)
  | text :: texts =>
    match calculator.eval text with
    | .error error => ("", some (failureOf error))
    | .ok evaluation =>
      let rest := evaluate calculator texts
      (s!"{evaluation.summary}\n" ++ rest.1, rest.2)

/-- What there is to say about evaluating expressions up to the first error. -/
def evaluateNotes (calculator : Calc.Calculator) : List String → List Note
  | [] => []
  | text :: texts =>
    calculator.evalNotes text ++
      match calculator.eval text with
      | .error _ => []
      | .ok _ => evaluateNotes calculator texts

/-- The whole command. -/
def run (folder : Folder) (options : Options) : Output :=
  let built := Calc.Calculator.buildNotes Calc.grammarText
  match Calc.Calculator.standard with
  | .error error => ⟨folder, "", some (failureOf error), built⟩
  | .ok calculator =>
    match expressions folder options with
    | .error failure => ⟨folder, "", some failure, built⟩
    | .ok texts =>
      let result := evaluate calculator texts
      ⟨folder, result.1, result.2, built ++ evaluateNotes calculator texts⟩

end ShiftReduce.Command.Calculate
