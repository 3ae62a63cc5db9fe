import ModuleLoader.Package.Name
import ModuleLoader.Package.Target
import ModuleLoader.Resolve.Search

/-! Resolution through packages: the search of `node_modules`, the `exports` and `main` of a
package, and the `imports` of the package that a module belongs to. -/

namespace ModuleLoader.Resolver

open Search

variable {m : Type → Type} [Monad m] (r : Resolver m)

def packagesDirectory : String := "node_modules"

/-- The first `node_modules/<name>` that exists along the directories. Directories named
`node_modules` are passed over. -/
def findPackageRoot (name : String) : List Path → Search m (Option Path)
  | [] => do
    note {
      step := TraceStep.searchNodeModules, ok := false,
      detail := "no node_modules/" ++ name }
    return none
  | dir :: rest => do
    if dir.fileName? = some packagesDirectory then findPackageRoot name rest
    else
      let candidate := (dir.joinText packagesDirectory).joinText name
      tried candidate
      if ← ask (r.source.existsDir candidate) then
        note {
          step := TraceStep.findPackageDir, ok := true, detail := "found " ++ name,
          path := some candidate }
        return some candidate
      else findPackageRoot name rest

/-- A target of a package has to be an existing file, as it is written. -/
def resolvePackageFile (root : Path) (target key specifier : String) : Search m Path := do
  match r.normalize? (root.joinText target) with
  | none => throw (.invalidPackageTarget key target root)
  | some path =>
    tried path
    if ← ask (r.source.existsFile path) then
      note {
        step := TraceStep.fileExists, ok := true, detail := "target exists", path := some path }
      return path
    else
      note {
        step := TraceStep.fileExists, ok := false, detail := "target missing", path := some path }
      throw (notFound specifier root)

def targetError (key : String) (root : Path) : TargetError → ResolveError
  | .invalid target => .invalidPackageTarget key target root
  | .unsupportedPattern target => .unsupportedPattern target

/-- The target that a package's tree gives for `subpath`. -/
def selectTarget (field : TargetField) (tree : Json) (subpath : String) (root : Path)
    (mode : ResolveMode) : Search m (Option TargetMatch) :=
  match Target.select mode.conditions field subpath tree with
  | .ok found => return found
  | .error error => throw (targetError subpath root error)

def noteMatch (step : String) (found : TargetMatch) : Search m Unit :=
  note {
    step := step, ok := true, detail := "matched", condition := found.condition,
    key := some found.key, target := some found.target }

/-- Where there is a tree of `exports`, it alone says what the package offers. -/
def resolveExports (exports : Json) (root : Path) (subpath specifier : String)
    (mode : ResolveMode) : Search m Path := do
  match ← selectTarget .exports exports subpath root mode with
  | none =>
    note {
      step := TraceStep.matchExportsKey, ok := false,
      detail := "no exports entry for " ++ subpath }
    throw (.exportNotFound subpath root)
  | some found =>
    noteMatch TraceStep.matchExportsKey found
    r.resolvePackageFile root found.target subpath specifier

/-- A subpath of a package without `exports` is a path below its root. -/
def resolveLiteralSubpath (root : Path) (subpath specifier : String) (mode : ResolveMode) :
    Search m Path := do
  warn TraceWarning.missingExports
    ("package has no exports; resolving " ++ subpath ++ " as a literal path")
  match r.normalize? (root.joinText subpath) with
  | none => throw (notFound specifier root)
  | some target => r.resolvePath mode target specifier root

/-- The index of a package without `exports` and `main`. An import knows `index.js` only. -/
def loadPackageIndex (root : Path) : ResolveMode → Search m (Option Path)
  | .require => r.loadIndex root
  | .import => do
    let index := root.joinText "index.js"
    tried index
    if ← ask (r.source.existsFile index) then return some index else return none

def resolveMainOrIndex (descriptor? : Option PackageDescriptor) (root : Path) (specifier : String)
    (mode : ResolveMode) : Search m Path := do
  let main ← match descriptor? with
    | some d => r.loadMain d
    | none => pure none
  match main with
  | some file => return file
  | none =>
    match ← r.loadPackageIndex root mode with
    | some file => return file
    | none => throw (notFound specifier root)

def resolveSubpath (descriptor? : Option PackageDescriptor) (root : Path)
    (subpath specifier : String) (mode : ResolveMode) : Search m Path :=
  match descriptor?.bind PackageDescriptor.exports with
  | some exports => r.resolveExports exports root subpath specifier mode
  | none =>
    if subpath = "." then r.resolveMainOrIndex descriptor? root specifier mode
    else r.resolveLiteralSubpath root subpath specifier mode

/-- A bare specifier names a package in the nearest `node_modules` that has it. -/
def resolveBare (specifier : String) (base : Path) (mode : ResolveMode) : Search m Path := do
  match BareSpecifier.parse? specifier with
  | none => throw (.invalidPackageName specifier)
  | some ⟨name, subpath⟩ =>
    note {
      step := TraceStep.classifySpecifier, ok := true, detail := "bare specifier",
      notes := ["package: " ++ name, "subpath: " ++ subpath] }
    match ← r.findPackageRoot name base.ancestors with
    | none => throw (.packageNotFound name base.display)
    | some root =>
      match ← r.package root with
      | .invalid fault => throw (.invalidPackageJson (root.joinText manifestName) fault.reason)
      | .loaded d => r.resolveSubpath (some d) root subpath specifier mode
      | .missing => r.resolveSubpath none root subpath specifier mode

/-- The nearest package with `imports` along the directories, and the nearest `package.json` of
all, given the one passed already. -/
def findImportsOwner : Option Path → List Path → Search m (Option PackageDescriptor × Option Path)
  | nearest, [] => return (none, nearest)
  | nearest, dir :: rest => do
    match ← r.package dir with
    | .loaded d =>
      let nearest := nearest.or (some d.manifest)
      if d.imports.isSome then return (some d, nearest) else findImportsOwner nearest rest
    | _ => findImportsOwner nearest rest

def resolveImports (owner : PackageDescriptor) (imports : Json) (specifier : String)
    (mode : ResolveMode) : Search m Path := do
  match ← selectTarget .imports imports specifier owner.root mode with
  | none =>
    note {
      step := TraceStep.matchImportsKey, ok := false,
      detail := "no imports entry for " ++ specifier }
    throw (.importNotDefined specifier owner.manifest)
  | some found =>
    noteMatch TraceStep.matchImportsKey found
    if Target.isPathTarget found.target then
      r.resolvePackageFile owner.root found.target specifier specifier
    else
      note {
        step := TraceStep.resolveHashImport, ok := true,
        detail := "bare target " ++ found.target }
      r.resolveBare found.target owner.root mode

/-- A `#` specifier is looked up in the nearest package with `imports`. -/
def resolveHashImport (specifier : String) (base : Path) (mode : ResolveMode) :
    Search m Path := do
  match ← r.findImportsOwner none base.ancestors with
  | (none, nearest) =>
    note {
      step := TraceStep.findPackageJson, ok := false,
      detail := "no package.json declares imports" }
    throw (.importNotDefined specifier (nearest.getD (base.joinText manifestName)))
  | (some owner, _) =>
    note {
      step := TraceStep.findPackageJson, ok := true, detail := "imports owner",
      path := some owner.manifest }
    match owner.imports with
    | none => throw (.importNotDefined specifier owner.manifest)
    | some imports => r.resolveImports owner imports specifier mode

end ModuleLoader.Resolver
