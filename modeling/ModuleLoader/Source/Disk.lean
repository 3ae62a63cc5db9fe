import ModuleLoader.Source.Bundle
import ModuleLoader.Source.Walk

/-! Disks: file sources whose directories can be walked. A snapshot of a directory is a bundle of
all files below it, and one file that cannot be read spoils it. -/

namespace ModuleLoader

structure Disk (m : Type → Type) where
  files : FileSource m
  workingDirectory : Path
  walk : Path → m Walk

structure DirectoryError where
  path : Path
  error : ReadError
deriving DecidableEq

def DirectoryError.message (e : DirectoryError) : String :=
  "Failed to read bundle directory " ++ e.path.text ++ ": " ++ e.error.message

def FileTree.toDisk {m : Type → Type} [Pure m] (t : FileTree) : Disk m where
  files := t.toSource
  workingDirectory := t.workingDirectory
  walk p := pure (t.walk p)

variable {m : Type → Type} [Monad m] (disk : Disk m)

/-- Every file below a directory, under its name relative to it and under the path that leads to
it. -/
def Disk.collectFiles (dir : Path) : m (Except ReadError (List (String × Path))) := do
  return (← disk.walk dir).files dir

namespace Bundle

def addFiles : Bundle → List (String × Path) → m (Except DirectoryError Bundle)
  | b, [] => return .ok b
  | b, (name, path) :: rest => do
    match ← disk.files.read path with
    | .error error => return .error ⟨path, error⟩
    | .ok content => addFiles (b.insert name content) rest

def ofDirectory (dir : Path) : m (Except DirectoryError Bundle) := do
  match ← disk.collectFiles dir with
  | .error error => return .error ⟨dir, error⟩
  | .ok found => addFiles disk empty found

end Bundle

end ModuleLoader
