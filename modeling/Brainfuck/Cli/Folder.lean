/-!
# Files by name

A folder holds files and further folders. A path leads from a folder to one of
its files: its parts are the names of folders on the way, where an empty part
and `.` stand for the folder itself and `..` for the one around it. What lies
around the outermost folder is not known, so nothing is found there.
-/

namespace Brainfuck.Cli

/-- Why there is no file at the end of a path. -/
inductive FileError where
  /-- There is nothing of this name. -/
  | missing
  /-- It is a folder. -/
  | isFolder
  /-- The path goes through something that is not a folder. -/
  | throughFile
  /-- Any other reason, in words. -/
  | other (text : String)
  deriving DecidableEq, Repr

/-- The reason in words, with its number where it has one. -/
def FileError.text : FileError → String
  | .missing => "No such file or directory (os error 2)"
  | .isFolder => "Is a directory (os error 21)"
  | .throughFile => "Not a directory (os error 20)"
  | .other text => text

/-- A tree of files, given by the paths of the files and of the folders in it. -/
structure Folder where
  files : List (List String × List UInt8) := []
  folders : List (List String) := []
  deriving DecidableEq, Repr

/-- What a path can lead to. -/
inductive Entry where
  | file (bytes : List UInt8)
  | folder
  deriving DecidableEq, Repr

namespace Folder

/-- The parts of a path. -/
def parts (path : String) : List String := path.splitOn "/"

/-- What is at a place in the tree. -/
def entry? (f : Folder) (place : List String) : Option Entry :=
  match f.files.find? (·.1 == place) with
  | some (_, bytes) => some (.file bytes)
  | none => if place.isEmpty || f.folders.contains place then some .folder else none

/-- Follow the parts of a path from a place in the tree; no place is somewhere
outside. Going on from a file is an error even if the next part is empty. -/
def walk (f : Folder) : Option (List String) → List String → Except FileError Entry
  | place, [] =>
    match place with
    | none => .ok .folder
    | some place =>
      match f.entry? place with
      | some entry => .ok entry
      | none => .error .missing
  | place, part :: rest =>
    match place with
    | none => if part ∈ ["", ".", ".."] then f.walk none rest else .error .missing
    | some place =>
      match f.entry? place with
      | none => .error .missing
      | some (.file _) => .error .throughFile
      | some .folder =>
        if part ∈ ["", "."] then f.walk (some place) rest
        else if part = ".." then f.walk (if place.isEmpty then none else some place.dropLast) rest
        else f.walk (some (place ++ [part])) rest

/-- The contents of the file that a path leads to. A path that starts with a
slash does not start in the folder. -/
def read (f : Folder) (path : String) : Except FileError (List UInt8) :=
  let start := if path.toList.head? = some '/' then none else some []
  match f.walk start (parts path) with
  | .ok (.file bytes) => .ok bytes
  | .ok .folder => .error .isFolder
  | .error e => .error e

end Folder

end Brainfuck.Cli
