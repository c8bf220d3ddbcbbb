import ShiftReduce.Command.Path

/-!
# Folders

The files that a command can see from its working directory.

* `Folder`: files and directories by their places;
* `Folder.ofFiles`, `Folder.withFile`, `Folder.withWayTo`: folders with given files and directories;
* `Folder.follow`: follows names from directory to directory;
* `Folder.read`: the text of a file;
* `Folder.write`: creates or replaces a file, provided that its directory is there.
-/

namespace ShiftReduce.Command

/-- Files by place, with their bytes, and the directories that hold no file. -/
structure Folder where
  files : List (Place × ByteArray)
  directories : List Place := []

namespace Folder

/-- The bytes of the file at a place. -/
def bytes? (folder : Folder) (place : Place) : Option ByteArray :=
  if place = Place.sink then some ByteArray.empty else folder.files.lookup place

/-- Whether there is a directory at a place.  Every file has directories around it. -/
def isDirectory (folder : Folder) (place : Place) : Bool :=
  place.isGiven || folder.directories.contains place ||
    folder.files.any fun file => place.isPrefixOf file.1.dropLast

/-- Follows one name from a directory to another one. -/
def enter (folder : Folder) (place : Place) (name : String) : Except FileError Place :=
  match place.step name with
  | .error error => .error error
  | .ok next =>
    if folder.isDirectory next then .ok next
    else if (folder.bytes? next).isSome then .error .notDirectory
    else .error .notFound

/-- Follows names from directory to directory. -/
def follow (folder : Folder) : Place → List String → Except FileError Place
  | place, [] => .ok place
  | place, name :: names =>
    match folder.enter place name with
    | .error error => .error error
    | .ok next => folder.follow next names

/-- The directory in which the last name of a path is looked up. -/
def directoryOf (folder : Folder) (path : Path) : Except FileError Place :=
  folder.follow (Place.startOf path) path.parents

/-- The text of a file. -/
def read (folder : Folder) (text : String) : Except FileError String := do
  let path ← Path.ofText text
  let directory ← folder.directoryOf path
  let place ← directory.step path.last
  match folder.bytes? place with
  | none => .error (if folder.isDirectory place then .isDirectory else .notFound)
  | some bytes =>
    if path.slashed then .error .notDirectory
    else
      match String.fromUTF8? bytes with
      | none => .error .notText
      | some text => .ok text

/-- The place at which a file is created or replaced.  A slash at the end asks for a directory. -/
def target (folder : Folder) (text : String) : Except FileError Place := do
  let path ← Path.ofText text
  let directory ← folder.directoryOf path
  if path.slashed then .error .isDirectory
  else
    let place ← directory.step path.last
    if folder.isDirectory place then .error .isDirectory else .ok place

/-- Puts a file at a place. -/
def put (folder : Folder) (place : Place) (bytes : ByteArray) : Folder :=
  { folder with files := (place, bytes) :: folder.files.filter fun file => file.1 != place }

theorem bytes?_put_self (folder : Folder) {place : Place} (bytes : ByteArray)
    (h : place ≠ Place.sink) : (folder.put place bytes).bytes? place = some bytes := by
  simp [put, bytes?, h]

theorem bytes?_put_of_ne (folder : Folder) {place other : Place} (bytes : ByteArray)
    (h : other ≠ place) : (folder.put place bytes).bytes? other = folder.bytes? other := by
  have key : ∀ files : List (Place × ByteArray),
      (files.filter fun file => file.1 != place).lookup other = files.lookup other := by
    intro files
    induction files with
    | nil => rfl
    | cons file files ih =>
      by_cases hfile : file.1 = place
      · have hne : (other == file.1) = false := by simpa [hfile] using h
        rw [List.filter_cons_of_neg (by simp [hfile]), ih, List.lookup_cons, hne]
      · rw [List.filter_cons_of_pos (by simp [hfile]), List.lookup_cons, List.lookup_cons, ih]
  have hother : (other == place) = false := by simpa using h
  simp only [bytes?, put, List.lookup_cons, hother, key]

/-- Creates or replaces a file. -/
def write (folder : Folder) (text content : String) : Except FileError Folder := do
  let place ← folder.target text
  return folder.put place content.toUTF8

/-- The same folder with all directories on the way to a file. -/
def withWayTo (folder : Folder) (text : String) : Folder :=
  match Path.ofText text with
  | .error _ => folder
  | .ok path =>
    let way := Place.passed (Place.startOf path) path.parents
    { folder with directories := way ++ folder.directories }

/-- The same folder with a file at the end of a path, provided that there can be one. -/
def withFile (folder : Folder) (text : String) (bytes : ByteArray) : Folder :=
  let folder := folder.withWayTo text
  match folder.target text with
  | .error _ => folder
  | .ok place => folder.put place bytes

/-- A folder with files at the ends of the given paths. -/
def ofFiles (files : List (String × ByteArray)) : Folder :=
  files.foldl (fun folder file => folder.withFile file.1 file.2) ⟨[], []⟩

end Folder

end ShiftReduce.Command
