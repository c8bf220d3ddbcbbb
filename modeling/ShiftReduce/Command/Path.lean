/-!
# Paths

A path is a sequence of names with slashes between them.  It starts at the working directory, or at
the root if a slash comes first.  Followed name by name it leads to a place: one dot stays where it
is, two dots lead one directory up, and any other name leads one directory down.

* `FileError`: why a file cannot be used, with `FileError.message` for its wording;
* `Path.ofText`: reads a path;
* `Place`: where a path leads, with `Place.working` and `Place.root` to start from, and
  `Place.sink` to write to in vain;
* `Place.step`, `Place.passed`: follow one name, and several.
-/

namespace ShiftReduce.Command

/-- Why a file cannot be used. -/
inductive FileError where
  | notFound
  /-- A name that others follow, or a slash, is the name of a file. -/
  | notDirectory
  /-- A directory stands where a file is meant. -/
  | isDirectory
  | nameTooLong
  /-- No path contains the character zero. -/
  | nulByte
  /-- The bytes of the file are no text. -/
  | notText
deriving DecidableEq, Repr

/-- The wording of an error. -/
def FileError.message : FileError → String
  | notFound => "No such file or directory (os error 2)"
  | notDirectory => "Not a directory (os error 20)"
  | isDirectory => "Is a directory (os error 21)"
  | nameTooLong => "File name too long (os error 36)"
  | nulByte => "file name contained an unexpected NUL byte"
  | notText => "stream did not contain valid UTF-8"

/-! ## Reading paths -/

/-- A path. -/
structure Path where
  /-- Whether the path starts at the root. -/
  absolute : Bool
  names : List String
  /-- Whether a slash comes last. -/
  slashed : Bool
deriving DecidableEq, Repr

namespace Path

/-- The bytes that a path may have at most. -/
def maxSize : Nat := 4095

/-- The bytes that a single name may have at most. -/
def maxNameSize : Nat := 255

/-- The pieces of a text between slashes, some of them empty; `name` holds what has been read of the
current one. -/
def splitFrom (name : List Char) : List Char → List (List Char)
  | [] => [name]
  | c :: cs => if c = '/' then name :: splitFrom [] cs else splitFrom (name ++ [c]) cs

/-- The names in a text. -/
def namesOf (text : List Char) : List String :=
  ((splitFrom [] text).filter fun name => !name.isEmpty).map String.ofList

/-- Reads a path. -/
def ofText (text : String) : Except FileError Path :=
  let chars := text.toList
  if '\x00' ∈ chars then .error .nulByte
  else if chars.isEmpty then .error .notFound
  else if maxSize < text.utf8ByteSize then .error .nameTooLong
  else .ok ⟨chars.head? == some '/', namesOf chars, chars.getLast? == some '/'⟩

/-- The names before the last one. -/
def parents (path : Path) : List String := path.names.dropLast

/-- The last name; the root itself is its own last name. -/
def last (path : Path) : String := path.names.getLast?.getD "."

end Path

/-! ## Places -/

/-- The names that lead to a place, without detours.  The names of places above the working
directory are pairs of dots, and a slash stands for the root. -/
abbrev Place := List String

namespace Place

/-- The working directory. -/
def working : Place := []

/-- The root. -/
def root : Place := ["/"]

/-- The file that is always empty, whatever is written to it. -/
def sink : Place := ["/", "dev", "null"]

/-- Where a path starts. -/
def startOf (path : Path) : Place := if path.absolute then root else working

/-- One directory up; the root has nothing above it. -/
def up (place : Place) : Place :=
  match place.getLast? with
  | none => [".."]
  | some name =>
    if name = "/" then place
    else if name = ".." then place ++ [".."]
    else place.dropLast

/-- Follows one name from a directory. -/
def step (place : Place) (name : String) : Except FileError Place :=
  if name = "." then .ok place
  else if name = ".." then .ok place.up
  else if Path.maxNameSize < name.utf8ByteSize then .error .nameTooLong
  else .ok (place ++ [name])

/-- The places that names pass by, as far as they can be followed. -/
def passed : Place → List String → List Place
  | _, [] => []
  | place, name :: names =>
    match place.step name with
    | .error _ => []
    | .ok next => next :: passed next names

/-- Whether the place is a directory whatever else there is: the root, the directory of the sink,
the working directory and those above it. -/
def isGiven (place : Place) : Bool :=
  place = root || place = sink.dropLast || place.all (· = "..")

end Place

end ShiftReduce.Command
