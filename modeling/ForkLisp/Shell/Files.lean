/-
Files.

The shell reads files by their paths. `Folder` is a folder of files without folders of its own, in
which a path is looked up part by part.
-/

namespace ForkLisp.Shell

/-- Why a file cannot be read. -/
inductive FileError where
  | missing
  /-- The path names a folder. -/
  | folder
  /-- The path goes through a file as if it were a folder. -/
  | notFolder
  /-- The file does not hold text. -/
  | notText
  /-- Another reason, as the system words it. -/
  | other (message : String)
  deriving DecidableEq, Repr

/-- The text of a file error. -/
def FileError.message : FileError → String
  | missing => "No such file or directory (os error 2)"
  | folder => "Is a directory (os error 21)"
  | notFolder => "Not a directory (os error 20)"
  | notText => "stream did not contain valid UTF-8"
  | other m => m

/-- How the text of a file is found. -/
abbrev Files := String → Except FileError String

/-- A folder: the names of its files with their texts. -/
abbrev Folder := List (String × String)

/-- Reads the file at a relative path. -/
def Folder.read (folder : Folder) : Files := fun path =>
  match path.splitOn "/" with
  | "" :: _ => .error .missing
  | parts =>
    match parts.filter fun p => p ≠ "." ∧ p ≠ "" with
    | [] => .error .folder
    | file :: inner =>
      match folder.lookup file with
      | none => .error .missing
      | some text =>
        if inner.isEmpty ∧ parts.getLast? = some file then .ok text else .error .notFolder

end ForkLisp.Shell
