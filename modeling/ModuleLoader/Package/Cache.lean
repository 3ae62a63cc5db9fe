import ModuleLoader.Package.Descriptor
import ModuleLoader.PathMap

/-! The lookups made so far. Each directory's `package.json` is read once, misses included, and a
directory is the same however its path is written. -/

namespace ModuleLoader

structure PackageCache where
  lookups : PathMap PackageLookup

namespace PackageCache

def empty : PackageCache := ⟨PathMap.empty⟩

def find? (cache : PackageCache) (root : Path) : Option PackageLookup := cache.lookups.find? root

def size (cache : PackageCache) : Nat := cache.lookups.size

/-- The cache with a lookup that was just made. Each lookup made has an entry of its own. -/
def add (cache : PackageCache) (root : Path) (lookup : PackageLookup) : PackageCache :=
  ⟨cache.lookups.push root lookup⟩

variable {m : Type → Type} [Monad m]

/-- The `package.json` of a directory, read only if no lookup of it is kept. -/
def load (source : FileSource m) (root : Path) : StateT PackageCache m PackageLookup := do
  match (← get).find? root with
  | some lookup => return lookup
  | none =>
    let lookup ← StateT.lift (PackageLookup.read source root)
    modify (·.add root lookup)
    return lookup

/-- The first lookup along the directories that is no miss. An invalid file ends the search too. -/
def loadFirst (source : FileSource m) : List Path → StateT PackageCache m PackageLookup
  | [] => return .missing
  | dir :: rest => do
    match ← load source dir with
    | .missing => loadFirst source rest
    | found => return found

/-- The nearest `package.json` at or above a directory. -/
def findNearest (source : FileSource m) (dir : Path) : StateT PackageCache m PackageLookup :=
  loadFirst source dir.ancestors

end PackageCache

end ModuleLoader
