import ModuleLoader.Source.Basic

/-! A filesystem held in memory. Every path is taken from the root and cancelled by its text alone,
and the directories are the ancestors of what was put in. -/

namespace ModuleLoader

/-- Files and directories under normalized absolute names. A file is its content or the reason why
it cannot be read. -/
structure MemoryFiles where
  files : List (String × Except String ByteArray)
  directories : List String

namespace MemoryFiles

def empty : MemoryFiles := ⟨[], ["/"]⟩

/-- The absolute path that `p` names. -/
def locate (p : Path) : Path :=
  (((⟨"/"⟩ : Path).join p).normalize?).getD ⟨"/"⟩

def key (p : Path) : String := (locate p).text

def above (p : Path) : List String := ((locate p).ancestors.drop 1).map Path.text

def addDirectories (fs : MemoryFiles) (names : List String) : MemoryFiles :=
  ⟨fs.files, names ++ fs.directories⟩

def insertFile (fs : MemoryFiles) (p : Path) (content : Except String ByteArray) : MemoryFiles :=
  (MemoryFiles.mk ((key p, content) :: fs.files) fs.directories).addDirectories (above p)

def insertDirectory (fs : MemoryFiles) (p : Path) : MemoryFiles :=
  fs.addDirectories (key p :: above p)

def existsFile (fs : MemoryFiles) (p : Path) : Bool := (fs.files.lookup (key p)).isSome

def existsDir (fs : MemoryFiles) (p : Path) : Bool := fs.directories.contains (key p)

def read (fs : MemoryFiles) (p : Path) : Except ReadError ByteArray :=
  match fs.files.lookup (key p) with
  | some (.ok content) => .ok content
  | some (.error reason) => .error (.unreadable reason)
  | none => .error (.absent p.text)

def toSource {m : Type → Type} [Pure m] (fs : MemoryFiles) : FileSource m where
  kind := .filesystem
  existsFile p := pure (fs.existsFile p)
  existsDir p := pure (fs.existsDir p)
  read p := pure (fs.read p)

end MemoryFiles

end ModuleLoader
