/-!
# Command-line arguments

Arguments are options, which begin with a hyphen, and plain texts.  A long option may have its value
after an equals sign, and a short one right after its letter; short options without values can
be written together.  After two hyphens that stand alone everything is plain.

* `Arg.ofTexts`: sorts arguments into options and plain texts.
-/

namespace ShiftReduce.Command

/-- An argument. -/
inductive Arg where
  /-- An option by its letter or its long name, and the value attached to it. -/
  | option (name : String) (attached : Option String)
  | plain (text : String)
deriving DecidableEq, Repr

namespace Arg

/-- Short options written together; the first that takes a value has the rest for its value. -/
def ofLetters (takesValue : Char → Bool) : List Char → List Arg
  | [] => []
  | c :: cs =>
    let name := String.singleton c
    if takesValue c then
      match cs with
      | [] => [.option name none]
      | '=' :: value => [.option name (some (String.ofList value))]
      | value => [.option name (some (String.ofList value))]
    else .option name none :: ofLetters takesValue cs

/-- A long option. -/
def ofLong (text : List Char) : Arg :=
  let name := String.ofList (text.takeWhile (· ≠ '='))
  match text.dropWhile (· ≠ '=') with
  | [] => .option name none
  | _ :: value => .option name (some (String.ofList value))

/-- Sorts arguments; `takesValue` says which letters need a value. -/
def ofTexts (takesValue : Char → Bool) : List String → List Arg
  | [] => []
  | text :: texts =>
    match text.toList with
    | ['-', '-'] => texts.map .plain
    | '-' :: '-' :: long => ofLong long :: ofTexts takesValue texts
    | '-' :: c :: letters => ofLetters takesValue (c :: letters) ++ ofTexts takesValue texts
    | _ => .plain text :: ofTexts takesValue texts

end Arg

end ShiftReduce.Command
