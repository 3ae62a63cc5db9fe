import ModuleLoader.CommandLine.Run

/-! The program: the command line on the disk of the machine. -/

namespace ModuleLoader

namespace MachineDisk

def readError : IO.Error → ReadError
  | .noFileOrDirectory _ _ _ => .missing
  | .permissionDenied _ _ _ => .permissionDenied
  | error => .unreadable (toString error)

def attempt {α : Type} (action : IO α) : IO (Except ReadError α) := do
  try return .ok (← action)
  catch error => return .error (readError error)

def isOfType (type : IO.FS.FileType) (p : Path) : IO Bool := do
  try
    let place ← IO.FS.realPath p.text
    return (← place.metadata).type == type
  catch _ => return false

def entryKind : IO.FS.FileType → EntryKind
  | .file => .file
  | .dir => .directory
  | .symlink => .link
  | .other => .other

/-- What is visited below a directory that is at `p`. Links are not followed. -/
partial def visitsBelow (p : Path) : IO Walk := do
  try
    let entries ← (← IO.FS.realPath p.text).readDir
    let ordered := entries.toList.mergeSort fun a b => !(b.fileName < a.fileName)
    let parts ← ordered.mapM fun entry => do
      let kind := entryKind (← entry.path.symlinkMetadata).type
      let place := p.joinText entry.fileName
      let below ← if kind = .directory then visitsBelow place else pure []
      return .ok ⟨place, kind⟩ :: below
    return parts.flatten
  catch error => return [.error (.atEntry p (readError error))]

def walk (p : Path) : IO Walk := do
  try
    let target ← IO.FS.realPath p.text
    let targetKind := entryKind (← target.metadata).type
    let itself ← ((← IO.currentDir) / p.text).symlinkMetadata
    let below ← if targetKind = .directory then visitsBelow p else pure []
    return .ok ⟨p, if itself.type == .symlink then .link else targetKind⟩ :: below
  catch error => return [.error (.atEntry p (readError error))]

def current : IO (Disk IO) := do
  let directory ← IO.currentDir
  return {
    files := {
      kind := .filesystem
      existsFile := isOfType .file
      existsDir := isOfType .dir
      read := fun p => attempt (IO.FS.readBinFile p.text) }
    workingDirectory := ⟨directory.toString⟩
    walk := walk }

end MachineDisk

end ModuleLoader

def main (arguments : List String) : IO UInt32 := do
  let disk ← ModuleLoader.MachineDisk.current
  let outcome ← ModuleLoader.CommandLine.run disk arguments
  IO.print outcome.output
  IO.eprint outcome.diagnostics
  return outcome.status
