import ModuleLoader.Resolve.Package
import ModuleLoader.Specifier

/-! Resolution of specifiers to files, and the format of the files found. -/

namespace ModuleLoader.Resolver

open Search

variable {m : Type → Type} [Monad m] (r : Resolver m)

/-- The format that a nearest package of the given lookup gives to a script. -/
def scriptFormat : PackageLookup → ModuleFormat
  | .loaded d => if d.isModule then .esm else .cjs
  | _ => .cjs

/-- A module's format by its extension and, where that leaves it open, by the `type` of the nearest
package. -/
def detectFormat (path : Path) : StateT PackageCache m ModuleFormat :=
  match path.extension? with
  | some "mjs" | some "mts" => return .esm
  | some "cjs" | some "cts" => return .cjs
  | some "json" => return .json
  | some "js" | some "ts" | some "tsx" => do
    let dir := path.parent?.getD ⟨""⟩
    return scriptFormat (← PackageCache.findNearest r.source dir)
  | _ => return .cjs

/-- The directory that a request starts from: that of the referrer, or the root. -/
def baseDirectory (referrer : Option Path) : Path :=
  ((referrer.bind Path.parent?).bind r.normalize?).getD r.root

def pathOf (kind : SpecifierKind) (specifier : String) (base : Path) : Path :=
  match kind with
  | .relative => base.joinText specifier
  | _ => ⟨specifier⟩

def resolvePathSpecifier (kind : SpecifierKind) (specifier : String) (base : Path)
    (mode : ResolveMode) : Search m Path := do
  match r.normalize? (pathOf kind specifier base) with
  | none => throw (notFound specifier base)
  | some target =>
    note {
      step := TraceStep.resolvePath, ok := true, detail := kind.toString ++ " path",
      path := some target }
    r.resolvePath mode target specifier base

/-- The first of the paths that is an existing file, without a record. -/
def firstFile : List Path → Search m (Option Path)
  | [] => return none
  | candidate :: rest => do
    if ← ask (r.source.existsFile candidate) then return some candidate else firstFile rest

/-- In a bundle a name may also be the path of a file, from the base or from the root. -/
def bundleFileFor (specifier : String) (base : Path) : Search m (Option Path) :=
  match r.source.kind with
  | .filesystem => return none
  | .bundle =>
    r.firstFile ([base, r.root].filterMap fun dir => r.normalize? (dir.joinText specifier))

def resolveName (specifier : String) (base : Path) (mode : ResolveMode) : Search m Path := do
  match ← r.bundleFileFor specifier base with
  | some path =>
    warn TraceWarning.bundleBarePath
      ("'" ++ specifier ++ "' matched bundle file '" ++ path.display ++ "'")
    return path
  | none => r.resolveBare specifier base mode

/-- The file that a specifier of a given kind names. A bundle has no drives. -/
def resolveKind (kind : SpecifierKind) (specifier : String) (base : Path) (mode : ResolveMode) :
    Search m Path :=
  if kind = .hashImport then r.resolveHashImport specifier base mode
  else if kind = .windowsAbsolute && r.source.kind = .bundle then r.resolveBare specifier base mode
  else if kind.isPath then r.resolvePathSpecifier kind specifier base mode
  else r.resolveName specifier base mode

def search (request : Request) : Search m ResolvedModule := do
  if request.specifier = "" then
    note { step := TraceStep.parseSpecifier, ok := false, detail := "empty specifier" }
    throw .emptySpecifier
  else
    let kind := Specifier.kind request.specifier
    let specifier := Specifier.normalize request.specifier
    note {
      step := TraceStep.parseSpecifier, ok := true,
      detail := specifier ++ " (" ++ request.mode.toString ++ ")", notes := [kind.toString] }
    let path ← r.resolveKind kind specifier (r.baseDirectory request.referrer) request.mode
    let format ← withPackages (r.detectFormat path)
    note {
      step := TraceStep.detectFormat, ok := true, detail := format.toString, path := some path }
    note { step := TraceStep.finalPath, ok := true, detail := "resolved", path := some path }
    return ⟨path, r.source.kind, format⟩

/-- The answer to a request and the trace of the search for it. -/
def resolveTraced (request : Request) :
    StateT PackageCache m (Except ResolveError ResolvedModule × Trace) := fun packages => do
  let (answer, s) ← (r.search request).run ⟨packages, Trace.empty⟩
  return ((answer, s.trace), s.packages)

def resolve (request : Request) : StateT PackageCache m (Except ResolveError ResolvedModule) := do
  return (← r.resolveTraced request).1

end ModuleLoader.Resolver
