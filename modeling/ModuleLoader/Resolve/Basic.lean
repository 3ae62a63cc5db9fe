import ModuleLoader.Path
import ModuleLoader.Source.Basic

/-! What resolution is asked and what it answers. -/

namespace ModuleLoader

/-- Whether a specifier is imported, which takes exact files only, or required, which also probes
extensions and directories. -/
inductive ResolveMode where
  | import
  | require
deriving DecidableEq

namespace ResolveMode

def toString : ResolveMode → String
  | .import => "import"
  | .require => "require"

instance : ToString ResolveMode := ⟨ResolveMode.toString⟩

/-- The conditions that hold in a mode, the most telling first. -/
def conditions : ResolveMode → List String
  | .import => ["import", "node", "default"]
  | .require => ["require", "node", "default"]

end ResolveMode

inductive ModuleFormat where
  | esm
  | cjs
  | json
deriving DecidableEq

def ModuleFormat.toString : ModuleFormat → String
  | esm => "esm"
  | cjs => "cjs"
  | json => "json"

instance : ToString ModuleFormat := ⟨ModuleFormat.toString⟩

structure ResolvedModule where
  path : Path
  storage : StorageKind
  format : ModuleFormat
deriving DecidableEq

/-- A specifier, the file it is written in, if any, and the way it is used. -/
structure Request where
  specifier : String
  referrer : Option Path
  mode : ResolveMode

def defaultExtensions : List String :=
  [".js", ".json", ".mjs", ".cjs", ".ts", ".tsx", ".mts", ".cts"]

/-- A file source with the directory that requests without a referrer start from, the extensions to
probe in order, and the directory that relative paths of a filesystem start from. -/
structure Resolver (m : Type → Type) where
  source : FileSource m
  root : Path
  extensions : List String
  workingDirectory : Path

namespace Resolver

def ofSource {m : Type → Type} (source : FileSource m) (root workingDirectory : Path) :
    Resolver m :=
  ⟨source, root, defaultExtensions, workingDirectory⟩

end Resolver

end ModuleLoader
