import ModuleLoader.Proofs.Resolve.Restriction

/-! The candidates of a request, listed without running its search. A search for a package, or for the
owner of an import, tries them in the order of the list, and finds one of them if it finds a file. -/

namespace ModuleLoader.Resolver

open Search

variable (r : Resolver Id)

/-! ## Candidates of a request -/

/-- What stands for a package without `exports`: its `main`, then its index. -/
def entryPaths (root : Path) (main : Option String) (mode : ResolveMode) : List Path :=
  r.mainPaths root main ++ r.packageIndexPaths root mode

/-- The candidates for what is asked of a package, given the lookup of its `package.json` and the
cache that this has left. -/
def subpathTries (lookup : PackageLookup) (packages : PackageCache) (root : Path) (subpath : String)
    (mode : ResolveMode) : List Path :=
  match lookup.exports? with
  | some tree => r.exportsTries tree root subpath mode
  | none =>
    if subpath = "." then r.triedFiles (r.entryPaths root lookup.main? mode)
    else
      match r.normalize? (root.joinText subpath) with
      | none => []
      | some target => r.pathTries mode target (packages.lookup r.source target).main?

/-- The candidates below the root of a package. One with an invalid `package.json` has none. -/
def packageTries (packages : PackageCache) (root : Path) (subpath : String) (mode : ResolveMode) :
    List Path :=
  match packages.lookup r.source root with
  | .invalid _ => []
  | lookup =>
    r.subpathTries lookup ((PackageCache.load r.source root).run packages).2 root subpath mode

/-- The candidates for a bare specifier: the places of its package, then those below its root. -/
def bareTries (packages : PackageCache) (specifier : String) (base : Path) (mode : ResolveMode) :
    List Path :=
  match BareSpecifier.parse? specifier with
  | none => []
  | some ⟨name, subpath⟩ =>
    r.triedDirectories (packageCandidates name base.ancestors) ++
      match r.packageRoot? name base with
      | none => []
      | some root => r.packageTries packages root subpath mode

/-- The nearest package with `imports`, with the cache that looking for it leaves. -/
def importsOwner (packages : PackageCache) : List Path → Option PackageDescriptor × PackageCache
  | [] => (none, packages)
  | dir :: rest =>
    let packages' := ((PackageCache.load r.source dir).run packages).2
    match packages.lookup r.source dir with
    | .loaded d => if d.imports.isSome then (some d, packages') else importsOwner packages' rest
    | _ => importsOwner packages' rest

def importTries (packages : PackageCache) (owner : PackageDescriptor) (specifier : String)
    (mode : ResolveMode) : List Path :=
  match owner.imports.map (Target.select mode.conditions .imports specifier) with
  | some (.ok (some found)) =>
    if Target.isPathTarget found.target then r.targetTries owner.root found.target
    else r.bareTries packages found.target owner.root mode
  | _ => []

def hashTries (packages : PackageCache) (specifier : String) (base : Path) (mode : ResolveMode) :
    List Path :=
  match r.importsOwner packages base.ancestors with
  | (none, _) => []
  | (some owner, packages') => r.importTries packages' owner specifier mode

def kindTries (packages : PackageCache) (kind : SpecifierKind) (specifier : String) (base : Path)
    (mode : ResolveMode) : List Path :=
  if kind = .hashImport then r.hashTries packages specifier base mode
  else if kind = .windowsAbsolute && r.source.kind = .bundle then
    r.bareTries packages specifier base mode
  else if kind.isPath then
    match r.normalize? (pathOf kind specifier base) with
    | none => []
    | some target => r.pathTries mode target (packages.lookup r.source target).main?
  else
    match r.namedFile? specifier base with
    | some _ => []
    | none => r.bareTries packages specifier base mode

/-- The candidates for a request, in the order in which they are tried. A file of a bundle that a
bare specifier is the path of is taken without trying any. -/
def tries (packages : PackageCache) (request : Request) : List Path :=
  if request.specifier = "" then []
  else r.kindTries packages (Specifier.kind request.specifier)
    (Specifier.normalize request.specifier) (r.baseDirectory request.referrer) request.mode

/-! ## Steps of each kind of search -/

def subpathSteps : List String := TraceStep.matchExportsKey :: pathSteps

def bareSteps : List String :=
  [TraceStep.classifySpecifier, TraceStep.findPackageDir, TraceStep.searchNodeModules] ++ subpathSteps

def importSteps : List String :=
  [TraceStep.matchImportsKey, TraceStep.resolveHashImport] ++ bareSteps

/-- The names of all steps between the specifier and the format, with repetitions. -/
def searchSteps : List String := TraceStep.resolvePath :: TraceStep.findPackageJson :: importSteps

/-! ## Packages -/

section Packages

variable {r} (packages : PackageCache)

theorem mem_pathTries_of_pathOutcome {mode : ResolveMode} {target referrer file : Path}
    {main : Option String} {specifier : String}
    (h : r.pathOutcome mode target main specifier referrer = .ok file) :
    file ∈ r.pathTries mode target main := by
  cases mode with
  | «import» =>
    obtain ⟨-, rfl⟩ := eq_of_importOutcome h
    exact List.mem_singleton_self file
  | require =>
    unfold pathOutcome at h
    dsimp only at h
    cases hf : r.firstExisting (r.requirePaths target main) with
    | none => rw [hf] at h; cases h
    | some found =>
      rw [hf] at h
      obtain rfl := Except.ok.inj h
      exact mem_triedFiles_of_firstExisting hf

theorem finds_resolvePath {packages : PackageCache} (hI : packages.Rooted) (mode : ResolveMode)
    (target : Path) (specifier : String) (referrer : Path) :
    Finds packages (r.resolvePath mode target specifier referrer) pathSteps
      (r.pathTries mode target (packages.lookup r.source target).main?) :=
  finds_of_tries (r.tries_resolvePath hI mode target specifier referrer) fun _ h =>
    mem_pathTries_of_pathOutcome h

theorem mem_targetTries_of_targetOutcome {root file : Path} {target key specifier : String}
    (h : r.targetOutcome root target key specifier = .ok file) : file ∈ r.targetTries root target := by
  unfold targetOutcome at h
  split at h
  · cases h
  · next path hn =>
    split at h
    · obtain rfl := Except.ok.inj h
      simp [targetTries, hn]
    · cases h

theorem finds_resolvePackageFile (root : Path) (target key specifier : String) :
    Finds packages (r.resolvePackageFile root target key specifier) [TraceStep.fileExists]
      (r.targetTries root target) :=
  finds_of_tries (r.tries_resolvePackageFile packages root target key specifier) fun _ h =>
    mem_targetTries_of_targetOutcome h

theorem mem_exportsTries_of_exportsOutcome {tree : Json} {root file : Path}
    {subpath specifier : String} {mode : ResolveMode}
    (h : r.exportsOutcome tree root subpath specifier mode = .ok file) :
    file ∈ r.exportsTries tree root subpath mode := by
  unfold exportsOutcome at h
  unfold exportsTries
  split at h
  · cases h
  · cases h
  · next found hfound =>
    rw [hfound]
    exact mem_targetTries_of_targetOutcome h

theorem finds_resolveExports (tree : Json) (root : Path) (subpath specifier : String)
    (mode : ResolveMode) :
    Finds packages (r.resolveExports tree root subpath specifier mode) subpathSteps
      (r.exportsTries tree root subpath mode) :=
  (finds_of_tries (r.tries_resolveExports packages tree root subpath specifier mode) fun _ h =>
    mem_exportsTries_of_exportsOutcome h).mono (by decide)

theorem finds_packageIndex (root : Path) (specifier : String) (mode : ResolveMode) :
    Finds packages
      (r.loadPackageIndex root mode >>= fun
        | some file => pure file
        | none => throw (notFound specifier root))
      [TraceStep.resolveIndex] (r.triedFiles (r.packageIndexPaths root mode)) := by
  have hindex := r.tries_loadPackageIndex packages root mode
  cases hf : r.firstExisting (r.packageIndexPaths root mode) with
  | none =>
    rw [hf] at hindex
    exact finds_of_error (hindex.bind_nil (tries_throw _ packages))
  | some file =>
    rw [hf] at hindex
    have hm := mem_triedFiles_of_firstExisting hf
    exact finds_of_found (hindex.bind_nil (tries_pure file packages)) hm

/-- The package at a root is known by this root, however it is spelled there. -/
theorem finds_resolveMainOrIndex {descriptor? : Option PackageDescriptor} {root : Path}
    (hroot : ∀ d, descriptor? = some d → d.root.components = root.components) (specifier : String)
    (mode : ResolveMode) :
    Finds packages (r.resolveMainOrIndex descriptor? root specifier mode) subpathSteps
      (r.triedFiles (r.entryPaths root (descriptor?.bind PackageDescriptor.main) mode)) := by
  have hindex := finds_packageIndex (r := r) packages root specifier mode
  unfold resolveMainOrIndex entryPaths
  cases descriptor? with
  | none =>
    exact (finds_bind (tries_pure none packages) hindex).mono (by decide)
  | some d =>
    have hmain := r.tries_loadMain packages d
    rw [Option.bind_some, ← r.mainPaths_congr (hroot d rfl)]
    cases hm : r.firstExisting (r.mainPaths d.root d.main) with
    | none =>
      rw [hm] at hmain
      rw [triedFiles_append_of_none hm]
      exact (finds_bind hmain hindex).mono (by decide)
    | some file =>
      rw [hm] at hmain
      rw [triedFiles_append_of_some hm]
      refine Finds.mono (finds_of_found (hmain.bind_nil (tries_pure file packages)) ?_) (by decide)
      exact mem_triedFiles_of_firstExisting hm

theorem finds_resolveSubpath {packages : PackageCache} (hI : packages.Rooted)
    {lookup : PackageLookup} {root : Path}
    (hroot : ∀ d, lookup.descriptor? = some d → d.root.components = root.components)
    (subpath specifier : String) (mode : ResolveMode) :
    Finds packages (r.resolveSubpath lookup.descriptor? root subpath specifier mode) subpathSteps
      (r.subpathTries lookup packages root subpath mode) := by
  have he : lookup.descriptor?.bind PackageDescriptor.exports = lookup.exports? := rfl
  unfold resolveSubpath subpathTries
  rw [he]
  cases lookup.exports? with
  | some tree => exact finds_resolveExports packages tree root subpath specifier mode
  | none =>
    dsimp only
    split
    · exact finds_resolveMainOrIndex packages hroot specifier mode
    · unfold resolveLiteralSubpath
      cases r.normalize? (root.joinText subpath) with
      | none =>
        exact ((finds_throw _ packages).afterWarn _ _).mono (List.nil_sublist _)
      | some target =>
        have hpath := finds_resolvePath (r := r) hI mode target specifier root
        exact (hpath.afterWarn _ _).mono (by decide)

theorem finds_package (hI : packages.Rooted) (root : Path) (subpath specifier : String)
    (mode : ResolveMode) :
    Finds packages
      (r.package root >>= fun
        | .invalid fault => throw (.invalidPackageJson (root.joinText manifestName) fault.reason)
        | .loaded d => r.resolveSubpath (some d) root subpath specifier mode
        | .missing => r.resolveSubpath none root subpath specifier mode)
      subpathSteps (r.packageTries packages root subpath mode) := by
  have hlookup := r.tries_package packages root
  have hload := hI.load Observer.plain r.source root ()
  have hroot : ∀ d, (packages.lookup r.source root).descriptor? = some d →
      d.root.components = root.components := by
    intro d hd
    refine hload.2 d ?_
    cases hl : packages.lookup r.source root with
    | loaded e =>
      rw [hl] at hd
      obtain rfl := Option.some.inj hd
      exact hl
    | _ => rw [hl] at hd; cases hd
  have hsubpath := finds_resolveSubpath (r := r) hload.1 hroot subpath specifier mode
  unfold packageTries
  cases hl : packages.lookup r.source root with
  | invalid fault =>
    rw [hl] at hlookup
    exact (finds_bind hlookup (finds_throw _ _)).mono (List.nil_sublist _)
  | loaded d =>
    rw [hl] at hlookup hsubpath
    exact finds_bind hlookup hsubpath
  | missing =>
    rw [hl] at hlookup hsubpath
    exact finds_bind hlookup hsubpath

theorem finds_resolveBare (hI : packages.Rooted) (specifier : String) (base : Path)
    (mode : ResolveMode) :
    Finds packages (r.resolveBare specifier base mode) bareSteps
      (r.bareTries packages specifier base mode) := by
  unfold resolveBare bareTries
  cases BareSpecifier.parse? specifier with
  | none => exact (finds_throw _ packages).mono (List.nil_sublist _)
  | some bare =>
    obtain ⟨name, subpath⟩ := bare
    dsimp only
    have hroot := r.tries_findPackageRoot packages name base.ancestors
    have hpackage : r.firstDirectory (packageCandidates name base.ancestors) =
        r.packageRoot? name base := rfl
    rw [hpackage] at hroot
    cases hp : r.packageRoot? name base with
    | none =>
      rw [hp] at hroot
      exact ((finds_bind hroot (finds_throw _ packages)).afterNote _).mono (by simp [bareSteps])
    | some root =>
      rw [hp] at hroot
      have hpackage := finds_package (r := r) packages hI root subpath specifier mode
      exact (finds_bind hroot hpackage).afterNote _

/-! ## Imports -/

theorem tries_findImportsOwner (dirs : List Path) (hI : packages.Rooted) (nearest : Option Path) :
    (r.importsOwner packages dirs).2.Rooted ∧
      ∃ nearest', Tries packages (r.findImportsOwner nearest dirs) [] []
        (.ok ((r.importsOwner packages dirs).1, nearest')) (r.importsOwner packages dirs).2 := by
  induction dirs generalizing packages nearest with
  | nil => exact ⟨hI, nearest, tries_pure _ packages⟩
  | cons dir rest ih =>
    have hlookup := r.tries_package packages dir
    have hI' := (hI.load Observer.plain r.source dir ()).1
    unfold findImportsOwner importsOwner
    dsimp only
    cases hl : packages.lookup r.source dir with
    | loaded d =>
      rw [hl] at hlookup
      dsimp only
      by_cases hd : d.imports.isSome = true
      · rw [if_pos hd]
        refine ⟨hI', nearest.or (some d.manifest), hlookup.bind ?_⟩
        dsimp only
        rw [if_pos hd]
        exact tries_pure _ _
      · rw [if_neg hd]
        obtain ⟨hI'', nearest', hrest⟩ := ih _ hI' (nearest.or (some d.manifest))
        refine ⟨hI'', nearest', hlookup.bind ?_⟩
        dsimp only
        rw [if_neg hd]
        exact hrest
    | _ =>
      rw [hl] at hlookup
      obtain ⟨hI'', nearest', hrest⟩ := ih _ hI' nearest
      exact ⟨hI'', nearest', hlookup.bind hrest⟩

end Packages

end ModuleLoader.Resolver
