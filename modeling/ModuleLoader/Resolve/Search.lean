import ModuleLoader.Package.Cache
import ModuleLoader.Resolve.Basic
import ModuleLoader.Resolve.Error
import ModuleLoader.Resolve.Trace
import ModuleLoader.Source.Bundle

/-! The search for a file: probing of paths, of extensions and of a directory's `main` and index,
with every look recorded. -/

namespace ModuleLoader

/-- What a search keeps besides its answer. -/
structure SearchState where
  packages : PackageCache
  trace : Trace

/-- A search asks the source, may fail, and keeps its record even then. -/
abbrev Search (m : Type → Type) := ExceptT ResolveError (StateT SearchState m)

namespace Search

variable {m : Type → Type} [Monad m]

def note (step : TraceStep) : Search m Unit :=
  modify fun s => { s with trace := s.trace.addStep step }

def warn (code message : String) : Search m Unit :=
  modify fun s => { s with trace := s.trace.addWarning code message }

def tried (path : Path) : Search m Unit :=
  modify fun s => { s with trace := s.trace.addTried path }

def ask {α : Type} (question : m α) : Search m α := ExceptT.lift (StateT.lift question)

/-- A look at package descriptors, with what it adds to the cache. -/
def withPackages {α : Type} (look : StateT PackageCache m α) : Search m α :=
  ExceptT.lift fun s => do
    let (a, packages) ← look s.packages
    return (a, { s with packages := packages })

end Search

namespace Resolver

open Search

variable {m : Type → Type} [Monad m] (r : Resolver m)

/-- The path that the source knows `p` by: absolute on a filesystem, below the root in a bundle. -/
def normalize? (p : Path) : Option Path :=
  match r.source.kind with
  | .filesystem => (Path.absolutize r.workingDirectory p).normalize?
  | .bundle => Bundle.canonical? p

def package (dir : Path) : Search m PackageLookup :=
  withPackages (PackageCache.load r.source dir)

/-- The first candidate that exists. Each one comes with the detail to report when it does. -/
def probe (step : String) : List (Path × String) → Search m (Option Path)
  | [] => return none
  | (candidate, detail) :: rest => do
    tried candidate
    if ← ask (r.source.existsFile candidate) then
      note { step := step, ok := true, detail := detail, path := some candidate }
      return some candidate
    else probe step rest

/-- The exact name, then each extension after it. -/
def fileCandidates (target : Path) : List (Path × String) :=
  (target, "exact file") :: r.extensions.map fun ext => (target.append ext, "probed " ++ ext)

def indexCandidates (dir : Path) : List (Path × String) :=
  r.extensions.map fun ext => (dir.joinText ("index" ++ ext), "found index")

def loadAsFile (target : Path) : Search m (Option Path) :=
  r.probe TraceStep.fileExists (r.fileCandidates target)

def loadIndex (dir : Path) : Search m (Option Path) :=
  r.probe TraceStep.resolveIndex (r.indexCandidates dir)

/-- The file that `main` names, probed as a file and as a directory with an index. -/
def loadMain (d : PackageDescriptor) : Search m (Option Path) := do
  match d.main with
  | none => return none
  | some main =>
    match r.normalize? (d.root.joinText main) with
    | none => return none
    | some target =>
      let found ← match ← r.loadAsFile target with
        | some file => pure (some file)
        | none => r.loadIndex target
      note {
        step := TraceStep.resolveMain, ok := found.isSome, detail := "main: " ++ main,
        path := some target }
      return found

/-- The `main` of a directory's package, if there is one to find. An invalid `package.json` only
causes a warning. -/
def loadDirectoryMain (dir : Path) : Search m (Option Path) := do
  match ← r.package dir with
  | .loaded descriptor => r.loadMain descriptor
  | .invalid fault =>
    warn TraceWarning.invalidPackageJsonIgnored
      ((dir.joinText manifestName).display ++ ": " ++ fault.reason)
    return none
  | .missing => return none

/-- The `main` of a directory that exists, then its index. -/
def loadAsDirectory (dir : Path) : Search m (Option Path) := do
  if ← ask (r.source.existsDir dir) then
    match ← r.loadDirectoryMain dir with
    | some file => return some file
    | none =>
      note {
        step := TraceStep.resolveDirectory, ok := true, detail := "index probe", path := some dir }
      r.loadIndex dir
  else return none

def notFound (specifier : String) (referrer : Path) : ResolveError :=
  .moduleNotFound specifier referrer.display

/-- An import takes the exact file, and says what a failing path would have needed. -/
def importPath (target : Path) (specifier : String) (referrer : Path) : Search m Path := do
  tried target
  if ← ask (r.source.existsFile target) then
    note {
      step := TraceStep.fileExists, ok := true, detail := "exact file", path := some target }
    return target
  else
    note {
      step := TraceStep.fileExists, ok := false, detail := "no exact file", path := some target }
    if ← ask (r.source.existsDir target) then throw (.directoryImport target)
    else if target.extension?.isNone then throw (.extensionRequired target)
    else throw (notFound specifier referrer)

def requirePath (target : Path) (specifier : String) (referrer : Path) : Search m Path := do
  match ← r.loadAsFile target with
  | some file => return file
  | none =>
    match ← r.loadAsDirectory target with
    | some file => return file
    | none => throw (notFound specifier referrer)

/-- The file that a path names under the rules of the mode. -/
def resolvePath (mode : ResolveMode) (target : Path) (specifier : String) (referrer : Path) :
    Search m Path :=
  match mode with
  | .import => r.importPath target specifier referrer
  | .require => r.requirePath target specifier referrer

end Resolver

end ModuleLoader
