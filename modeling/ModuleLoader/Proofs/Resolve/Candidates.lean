import ModuleLoader.Proofs.Resolve.Canonical
import ModuleLoader.Proofs.Resolve.Lookups
import ModuleLoader.Proofs.Resolve.Records

/-! Path resolution as a search through one list. What `require` finds at a path is the first
candidate that exists, and the candidates are listed without looking at any of them. Tried are those
that come before it, and this one. -/

namespace ModuleLoader.Resolver

open Search

variable (r : Resolver Id)

/-! ## Candidates -/

def firstExisting (paths : List Path) : Option Path :=
  paths.find? fun p => Id.run (r.source.existsFile p)

def filePaths (target : Path) : List Path := target :: r.extensions.map target.append

def indexPaths (dir : Path) : List Path :=
  r.extensions.map fun ext => dir.joinText ("index" ++ ext)

def packageIndexPaths (root : Path) : ResolveMode → List Path
  | .import => [root.joinText "index.js"]
  | .require => r.indexPaths root

/-- The candidates for a `main`, as a file and as a directory with an index. There are none if it has
no normal form. -/
def mainPaths (dir : Path) (main : Option String) : List Path :=
  match main.bind fun text => r.normalize? (dir.joinText text) with
  | none => []
  | some target => r.filePaths target ++ r.indexPaths target

def directoryPaths (dir : Path) (main : Option String) : List Path :=
  if Id.run (r.source.existsDir dir) = true then r.mainPaths dir main ++ r.indexPaths dir else []

def requirePaths (target : Path) (main : Option String) : List Path :=
  r.filePaths target ++ r.directoryPaths target main

theorem firstExisting_append (front back : List Path) :
    r.firstExisting (front ++ back) = (r.firstExisting front).or (r.firstExisting back) :=
  List.find?_append

theorem firstExisting_cons_of_exists {p : Path} (h : Id.run (r.source.existsFile p) = true)
    (rest : List Path) : r.firstExisting (p :: rest) = some p :=
  List.find?_cons_of_pos h

theorem firstExisting_cons_of_not_exists {p : Path}
    (h : ¬Id.run (r.source.existsFile p) = true) (rest : List Path) :
    r.firstExisting (p :: rest) = r.firstExisting rest :=
  List.find?_cons_of_neg h

theorem mainPaths_congr {p q : Path} (h : p.components = q.components) (main : Option String) :
    r.mainPaths p main = r.mainPaths q main := by
  have hn (text : String) : r.normalize? (p.joinText text) = r.normalize? (q.joinText text) :=
    r.normalize?_congr (Path.joinText_congr h text)
  unfold mainPaths
  simp only [hn]

/-! ## Candidates up to the first that exists -/

/-- The front of a list up to the first candidate that exists, and with it. -/
def upTo (isThere : Path → Bool) (paths : List Path) : List Path :=
  paths.takeWhile (fun p => !isThere p) ++ (paths.find? isThere).toList

section UpTo

variable {isThere : Path → Bool} {p : Path} {front : List Path}

theorem upTo_cons_of_pos (h : isThere p = true) (rest : List Path) :
    upTo isThere (p :: rest) = [p] := by
  simp [upTo, h]

theorem upTo_cons_of_neg (h : ¬isThere p = true) (rest : List Path) :
    upTo isThere (p :: rest) = p :: upTo isThere rest := by
  simp [upTo, h]

theorem upTo_append_of_find?_eq_some (h : front.find? isThere = some p) (back : List Path) :
    upTo isThere (front ++ back) = upTo isThere front := by
  induction front with
  | nil => cases h
  | cons q front ih =>
    by_cases hq : isThere q = true
    · rw [List.cons_append, upTo_cons_of_pos hq, upTo_cons_of_pos hq]
    · rw [List.find?_cons_of_neg hq] at h
      rw [List.cons_append, upTo_cons_of_neg hq, upTo_cons_of_neg hq, ih h]

theorem upTo_append_of_find?_eq_none (h : front.find? isThere = none) (back : List Path) :
    upTo isThere (front ++ back) = upTo isThere front ++ upTo isThere back := by
  induction front with
  | nil => rfl
  | cons q front ih =>
    have hq : ¬isThere q = true := List.find?_eq_none.mp h q List.mem_cons_self
    rw [List.find?_cons_of_neg hq] at h
    rw [List.cons_append, upTo_cons_of_neg hq, upTo_cons_of_neg hq, ih h, List.cons_append]

theorem mem_upTo_of_find?_eq_some (h : front.find? isThere = some p) : p ∈ upTo isThere front :=
  List.mem_append_right _ (by simp [h])

end UpTo

def triedFiles (paths : List Path) : List Path :=
  upTo (fun p => Id.run (r.source.existsFile p)) paths

def firstDirectory (paths : List Path) : Option Path :=
  paths.find? fun p => Id.run (r.source.existsDir p)

def triedDirectories (paths : List Path) : List Path :=
  upTo (fun p => Id.run (r.source.existsDir p)) paths

section Tried

variable {r} {p : Path} {front : List Path}

theorem triedFiles_cons_of_exists (h : Id.run (r.source.existsFile p) = true) (rest : List Path) :
    r.triedFiles (p :: rest) = [p] := upTo_cons_of_pos h rest

theorem triedFiles_cons_of_not_exists (h : ¬Id.run (r.source.existsFile p) = true)
    (rest : List Path) : r.triedFiles (p :: rest) = p :: r.triedFiles rest := upTo_cons_of_neg h rest

theorem triedFiles_singleton (p : Path) : r.triedFiles [p] = [p] := by
  by_cases h : Id.run (r.source.existsFile p) = true
  · exact triedFiles_cons_of_exists h []
  · exact triedFiles_cons_of_not_exists h []

theorem triedFiles_append_of_some (h : r.firstExisting front = some p) (back : List Path) :
    r.triedFiles (front ++ back) = r.triedFiles front := upTo_append_of_find?_eq_some h back

theorem triedFiles_append_of_none (h : r.firstExisting front = none) (back : List Path) :
    r.triedFiles (front ++ back) = r.triedFiles front ++ r.triedFiles back :=
  upTo_append_of_find?_eq_none h back

theorem directories_cons_of_exists (h : Id.run (r.source.existsDir p) = true) (rest : List Path) :
    r.firstDirectory (p :: rest) = some p ∧ r.triedDirectories (p :: rest) = [p] :=
  ⟨List.find?_cons_of_pos h, upTo_cons_of_pos h rest⟩

theorem directories_cons_of_not_exists (h : ¬Id.run (r.source.existsDir p) = true)
    (rest : List Path) : r.firstDirectory (p :: rest) = r.firstDirectory rest ∧
      r.triedDirectories (p :: rest) = p :: r.triedDirectories rest :=
  ⟨List.find?_cons_of_neg h, upTo_cons_of_neg h rest⟩

theorem mem_triedFiles_of_firstExisting (h : r.firstExisting front = some p) :
    p ∈ r.triedFiles front := mem_upTo_of_find?_eq_some h

end Tried

/-- The places of a package along the directories, nearest first. -/
def packageCandidates (name : String) (dirs : List Path) : List Path :=
  (dirs.filter fun dir => dir.fileName? ≠ some packagesDirectory).map fun dir =>
    (dir.joinText packagesDirectory).joinText name

/-! ## Names of the steps -/

def mainSteps : List String :=
  [TraceStep.fileExists, TraceStep.resolveIndex, TraceStep.resolveMain]

def directorySteps : List String :=
  mainSteps ++ [TraceStep.resolveDirectory, TraceStep.resolveIndex]

def pathSteps : List String := TraceStep.fileExists :: directorySteps

/-! ## Probing -/

section Probing

variable (packages : PackageCache)

theorem tries_probe (step : String) (candidates : List (Path × String)) :
    Tries packages (r.probe step candidates) [step] (r.triedFiles (candidates.map Prod.fst))
      (.ok (r.firstExisting (candidates.map Prod.fst))) packages := by
  induction candidates with
  | nil => exact (tries_pure none packages).mono (by simp)
  | cons candidate rest ih =>
    obtain ⟨p, detail⟩ := candidate
    rw [List.map_cons]
    by_cases hp : Id.run (r.source.existsFile p) = true
    · rw [triedFiles_cons_of_exists hp, r.firstExisting_cons_of_exists hp]
      refine Tries.afterTried (.afterAsk ?_) p
      rw [if_pos hp]
      exact (tries_pure (some p) packages).afterNote _
    · rw [triedFiles_cons_of_not_exists hp, r.firstExisting_cons_of_not_exists hp]
      refine Tries.afterTried (.afterAsk ?_) p
      rw [if_neg hp]
      exact ih

theorem tries_loadAsFile (target : Path) :
    Tries packages (r.loadAsFile target) [TraceStep.fileExists]
      (r.triedFiles (r.filePaths target)) (.ok (r.firstExisting (r.filePaths target))) packages := by
  have hpaths : (r.fileCandidates target).map Prod.fst = r.filePaths target := by
    simp [fileCandidates, filePaths]
  rw [← hpaths]
  exact r.tries_probe packages _ _

theorem tries_loadIndex (dir : Path) :
    Tries packages (r.loadIndex dir) [TraceStep.resolveIndex]
      (r.triedFiles (r.indexPaths dir)) (.ok (r.firstExisting (r.indexPaths dir))) packages := by
  have hpaths : (r.indexCandidates dir).map Prod.fst = r.indexPaths dir := by
    simp [indexCandidates, indexPaths]
  rw [← hpaths]
  exact r.tries_probe packages _ _

theorem tries_loadMain (d : PackageDescriptor) :
    Tries packages (r.loadMain d) mainSteps (r.triedFiles (r.mainPaths d.root d.main))
      (.ok (r.firstExisting (r.mainPaths d.root d.main))) packages := by
  have hnone : Tries packages (pure none : Search Id (Option Path)) mainSteps [] (.ok none) packages :=
    (tries_pure none packages).mono (List.nil_sublist _)
  unfold loadMain mainPaths
  cases d.main with
  | none => exact hnone
  | some main =>
    rw [Option.bind_some]
    dsimp only
    cases r.normalize? (d.root.joinText main) with
    | none => exact hnone
    | some target =>
      dsimp only
      have hfile := r.tries_loadAsFile packages target
      rw [firstExisting_append]
      cases hf : r.firstExisting (r.filePaths target) with
      | some file =>
        rw [hf] at hfile
        have hdone := (tries_pure (some file) packages).afterNote {
          step := TraceStep.resolveMain, ok := true, detail := "main: " ++ main, path := some target }
        rw [triedFiles_append_of_some hf]
        exact (hfile.bind_nil ((tries_pure (some file) packages).bind hdone)).mono (by simp [mainSteps])
      | none =>
        rw [hf] at hfile
        rw [triedFiles_append_of_none hf]
        have hindex := r.tries_loadIndex packages target
        exact hfile.bind (hindex.bind_nil ((tries_pure _ packages).afterNote _))

theorem tries_findPackageRoot (name : String) (dirs : List Path) :
    Tries packages (r.findPackageRoot name dirs) [TraceStep.findPackageDir, TraceStep.searchNodeModules]
      (r.triedDirectories (packageCandidates name dirs))
      (.ok (r.firstDirectory (packageCandidates name dirs))) packages := by
  induction dirs with
  | nil => exact ((tries_pure none packages).afterNote _).mono (by simp)
  | cons dir rest ih =>
    unfold findPackageRoot
    by_cases hd : dir.fileName? = some packagesDirectory
    · have hcandidates : packageCandidates name (dir :: rest) = packageCandidates name rest := by
        simp [packageCandidates, hd]
      rw [if_pos hd, hcandidates]
      exact ih
    · have hcandidates : packageCandidates name (dir :: rest) =
          (dir.joinText packagesDirectory).joinText name :: packageCandidates name rest := by
        simp [packageCandidates, hd]
      rw [if_neg hd, hcandidates]
      generalize (dir.joinText packagesDirectory).joinText name = candidate
      by_cases hc : Id.run (r.source.existsDir candidate) = true
      · rw [(directories_cons_of_exists hc _).1, (directories_cons_of_exists hc _).2]
        refine Tries.mono (.afterTried (.afterAsk ?_) candidate)
          (List.singleton_sublist.mpr List.mem_cons_self)
        rw [if_pos hc]
        exact (tries_pure (some candidate) packages).afterNote _
      · rw [(directories_cons_of_not_exists hc _).1, (directories_cons_of_not_exists hc _).2]
        refine Tries.afterTried (.afterAsk ?_) candidate
        rw [if_neg hc]
        exact ih

theorem tries_firstFile (paths : List Path) :
    Tries packages (r.firstFile paths) [] [] (.ok (r.firstExisting paths)) packages := by
  induction paths with
  | nil => exact tries_pure none packages
  | cons p rest ih =>
    refine Tries.afterAsk ?_
    by_cases hp : Id.run (r.source.existsFile p) = true
    · rw [if_pos hp, r.firstExisting_cons_of_exists hp]
      exact tries_pure (some p) packages
    · rw [if_neg hp, r.firstExisting_cons_of_not_exists hp]
      exact ih

theorem tries_loadPackageIndex (root : Path) (mode : ResolveMode) :
    Tries packages (r.loadPackageIndex root mode) [TraceStep.resolveIndex]
      (r.triedFiles (r.packageIndexPaths root mode))
      (.ok (r.firstExisting (r.packageIndexPaths root mode))) packages := by
  cases mode with
  | require => exact r.tries_loadIndex packages root
  | «import» =>
    unfold packageIndexPaths
    rw [triedFiles_singleton]
    have hfile := r.tries_firstFile packages [root.joinText "index.js"]
    exact (hfile.afterTried _).mono (List.nil_sublist _)

end Probing

/-! ## Directories -/

theorem tries_package (packages : PackageCache) (dir : Path) :
    Tries packages (r.package dir) [] [] (.ok (packages.lookup r.source dir))
      ((PackageCache.load r.source dir).run packages).2 :=
  tries_withPackages (PackageCache.load r.source dir) packages

theorem ends_package (dir : Path) (packages : PackageCache) :
    Ends packages (r.package dir) (.ok (packages.lookup r.source dir))
      ((PackageCache.load r.source dir).run packages).2 :=
  (r.tries_package packages dir).ends

theorem tries_loadAsDirectory_of_not_exists (packages : PackageCache) {dir : Path}
    (hd : ¬Id.run (r.source.existsDir dir) = true) :
    Tries packages (r.loadAsDirectory dir) [] [] (.ok none) packages := by
  unfold loadAsDirectory
  refine Tries.afterAsk ?_
  rw [if_neg hd]
  exact tries_pure none packages

section Directories

variable {packages : PackageCache} (hI : packages.Rooted)
include hI

theorem tries_loadDirectoryMain (dir : Path) :
    Tries packages (r.loadDirectoryMain dir) mainSteps
      (r.triedFiles (r.mainPaths dir (packages.lookup r.source dir).main?))
      (.ok (r.firstExisting (r.mainPaths dir (packages.lookup r.source dir).main?)))
      ((PackageCache.load r.source dir).run packages).2 := by
  refine (r.tries_package packages dir).bind ?_
  cases hlookup : packages.lookup r.source dir with
  | missing => exact (tries_pure none _).mono (List.nil_sublist _)
  | invalid fault => exact ((tries_pure none _).afterWarn _ _).mono (List.nil_sublist _)
  | loaded d =>
    have hroot : d.root.components = dir.components :=
      (hI.load Observer.plain r.source dir ()).2 d hlookup
    have hmain : (PackageLookup.loaded d).main? = d.main := rfl
    rw [hmain, ← r.mainPaths_congr hroot]
    exact r.tries_loadMain _ d

theorem tries_loadAsDirectory {dir : Path} (hd : Id.run (r.source.existsDir dir) = true) :
    Tries packages (r.loadAsDirectory dir) directorySteps
      (r.triedFiles (r.directoryPaths dir (packages.lookup r.source dir).main?))
      (.ok (r.firstExisting (r.directoryPaths dir (packages.lookup r.source dir).main?)))
      ((PackageCache.load r.source dir).run packages).2 := by
  unfold loadAsDirectory
  refine Tries.afterAsk ?_
  rw [if_pos hd, directoryPaths, if_pos hd, firstExisting_append]
  have hmain := r.tries_loadDirectoryMain hI dir
  cases hf : r.firstExisting (r.mainPaths dir (packages.lookup r.source dir).main?) with
  | some file =>
    rw [hf] at hmain
    rw [triedFiles_append_of_some hf, Option.some_or]
    refine Tries.mono (hmain.bind_nil (tries_pure (some file) _)) ?_
    decide
  | none =>
    rw [hf] at hmain
    rw [triedFiles_append_of_none hf]
    exact hmain.bind ((r.tries_loadIndex _ dir).afterNote _)

end Directories

/-! ## Paths -/

def importOutcome (target : Path) (specifier : String) (referrer : Path) :
    Except ResolveError Path :=
  if Id.run (r.source.existsFile target) = true then .ok target
  else if Id.run (r.source.existsDir target) = true then .error (.directoryImport target)
  else if target.extension?.isNone then .error (.extensionRequired target)
  else .error (notFound specifier referrer)

/-- The outcome of looking for a path, given the `main` of the package at the path. -/
def pathOutcome (mode : ResolveMode) (target : Path) (main : Option String) (specifier : String)
    (referrer : Path) : Except ResolveError Path :=
  match mode with
  | .import => r.importOutcome target specifier referrer
  | .require =>
    match r.firstExisting (r.requirePaths target main) with
    | some file => .ok file
    | none => .error (notFound specifier referrer)

/-- The cache that looking for a path leaves. A package is looked up in a directory only, and only
where no file was found. -/
def pathCache (mode : ResolveMode) (target : Path) (packages : PackageCache) : PackageCache :=
  if mode = .require ∧ r.firstExisting (r.filePaths target) = none ∧
      Id.run (r.source.existsDir target) = true then
    ((PackageCache.load r.source target).run packages).2
  else packages

/-- The candidates for a path, given the `main` of the package at the path. -/
def pathTries (mode : ResolveMode) (target : Path) (main : Option String) : List Path :=
  match mode with
  | .import => [target]
  | .require => r.triedFiles (r.requirePaths target main)

theorem tries_importPath (packages : PackageCache) (target : Path) (specifier : String)
    (referrer : Path) :
    Tries packages (r.importPath target specifier referrer) [TraceStep.fileExists] [target]
      (r.importOutcome target specifier referrer) packages := by
  unfold importPath importOutcome
  refine Tries.afterTried (.afterAsk ?_) target
  split
  · exact (tries_pure target packages).afterNote _
  · refine Tries.afterNote (.afterAsk ?_) _
    split
    · exact tries_throw _ packages
    · split
      · exact tries_throw _ packages
      · exact tries_throw _ packages

section Paths

variable {packages : PackageCache} (hI : packages.Rooted)
include hI

theorem tries_requirePath (target : Path) (specifier : String) (referrer : Path) :
    Tries packages (r.requirePath target specifier referrer) pathSteps
      (r.triedFiles (r.requirePaths target (packages.lookup r.source target).main?))
      (r.pathOutcome .require target (packages.lookup r.source target).main? specifier referrer)
      (r.pathCache .require target packages) := by
  have hfile := r.tries_loadAsFile packages target
  unfold requirePath pathOutcome pathCache requirePaths
  dsimp only
  rw [firstExisting_append]
  cases hf : r.firstExisting (r.filePaths target) with
  | some file =>
    rw [hf] at hfile
    rw [triedFiles_append_of_some hf, Option.some_or, if_neg (by simp)]
    exact (hfile.bind_nil (tries_pure file packages)).mono (by decide)
  | none =>
    rw [hf] at hfile
    rw [triedFiles_append_of_none hf, Option.none_or]
    refine hfile.bind ?_
    by_cases hd : Id.run (r.source.existsDir target) = true
    · rw [if_pos ⟨rfl, rfl, hd⟩]
      have hdirectory := r.tries_loadAsDirectory hI hd
      cases hm : r.firstExisting (r.directoryPaths target (packages.lookup r.source target).main?) with
      | some file =>
        rw [hm] at hdirectory
        exact hdirectory.bind_nil (tries_pure file _)
      | none =>
        rw [hm] at hdirectory
        exact hdirectory.bind_nil (tries_throw _ _)
    · rw [if_neg fun h => hd h.2.2, directoryPaths, if_neg hd]
      have hdirectory := r.tries_loadAsDirectory_of_not_exists packages hd
      exact (hdirectory.bind_nil (tries_throw _ packages)).mono (List.nil_sublist _)

theorem tries_resolvePath (mode : ResolveMode) (target : Path) (specifier : String)
    (referrer : Path) :
    Tries packages (r.resolvePath mode target specifier referrer) pathSteps
      (r.pathTries mode target (packages.lookup r.source target).main?)
      (r.pathOutcome mode target (packages.lookup r.source target).main? specifier referrer)
      (r.pathCache mode target packages) := by
  cases mode with
  | «import» => exact (r.tries_importPath packages target specifier referrer).mono (by decide)
  | require => exact r.tries_requirePath hI target specifier referrer

theorem ends_resolvePath (mode : ResolveMode) (target : Path) (specifier : String)
    (referrer : Path) :
    Ends packages (r.resolvePath mode target specifier referrer)
      (r.pathOutcome mode target (packages.lookup r.source target).main? specifier referrer)
      (r.pathCache mode target packages) :=
  (r.tries_resolvePath hI mode target specifier referrer).ends

end Paths

/-! ## Specifiers -/

/-- The file of a bundle that a name is the path of, from the base or from the root. -/
def namedFile? (name : String) (base : Path) : Option Path :=
  match r.source.kind with
  | .filesystem => none
  | .bundle =>
    r.firstExisting ([base, r.root].filterMap fun dir => r.normalize? (dir.joinText name))

theorem existsFile_of_firstExisting {paths : List Path} {file : Path}
    (h : r.firstExisting paths = some file) : Id.run (r.source.existsFile file) = true := by
  have hf : paths.find? (fun p => Id.run (r.source.existsFile p)) = some file := h
  exact List.find?_some (p := fun p => Id.run (r.source.existsFile p)) hf

theorem tries_bundleFileFor (packages : PackageCache) (name : String) (base : Path) :
    Tries packages (r.bundleFileFor name base) [] [] (.ok (r.namedFile? name base)) packages := by
  unfold bundleFileFor namedFile?
  cases r.source.kind with
  | filesystem => exact tries_pure none packages
  | bundle => exact r.tries_firstFile packages _

theorem gives_bundleFileFor (name : String) (base : Path) :
    Gives (r.bundleFileFor name base) (.ok (r.namedFile? name base)) :=
  gives_of_tries fun packages => r.tries_bundleFileFor packages name base

theorem existsFile_of_namedFile? {name : String} {base file : Path}
    (h : r.namedFile? name base = some file) : Id.run (r.source.existsFile file) = true := by
  unfold namedFile? at h
  split at h
  · cases h
  · exact r.existsFile_of_firstExisting h

/-- The path that a specifier is taken for, if it has a normal form. A drive is a path on a filesystem
only, and the name of a file in a bundle is a path too. -/
inductive PathTarget (specifier : String) (base : Path) : Option Path → Prop where
  | path {target? : Option Path} (hp : (Specifier.kind specifier).isPath = true)
      (hd : Specifier.kind specifier = .windowsAbsolute → r.source.kind ≠ .bundle)
      (hn : r.normalize? (pathOf (Specifier.kind specifier) (Specifier.normalize specifier) base) =
        target?) : PathTarget specifier base target?
  | file {file : Path} (hne : specifier ≠ "")
      (hk : Specifier.kind specifier = .bare ∨ Specifier.kind specifier = .scopedBare)
      (hf : r.namedFile? (Specifier.normalize specifier) base = some file) :
      PathTarget specifier base (some file)

variable {r} {specifier : String} {base : Path}

theorem PathTarget.ne_empty {target? : Option Path} (h : r.PathTarget specifier base target?) :
    specifier ≠ "" := by
  rintro rfl
  cases h with
  | path hp _ _ => exact absurd hp (by decide)
  | file hne _ _ => exact hne rfl

theorem pathOutcome_of_exists {target : Path} (h : Id.run (r.source.existsFile target) = true)
    (mode : ResolveMode) (main : Option String) (referrer : Path) :
    r.pathOutcome mode target main specifier referrer = .ok target := by
  cases mode with
  | «import» => exact if_pos h
  | require =>
    unfold pathOutcome requirePaths filePaths
    rw [List.cons_append, r.firstExisting_cons_of_exists h]

theorem pathCache_of_exists {target : Path} (h : Id.run (r.source.existsFile target) = true)
    (mode : ResolveMode) (packages : PackageCache) : r.pathCache mode target packages = packages := by
  have hfound : r.firstExisting (r.filePaths target) = some target := r.firstExisting_cons_of_exists h _
  simp [pathCache, hfound]

theorem PathTarget.ends_resolveKind {packages : PackageCache} (hI : packages.Rooted) {target : Path}
    (h : r.PathTarget specifier base (some target)) (mode : ResolveMode) :
    Ends packages
      (r.resolveKind (Specifier.kind specifier) (Specifier.normalize specifier) base mode)
      (r.pathOutcome mode target (packages.lookup r.source target).main?
        (Specifier.normalize specifier) base)
      (r.pathCache mode target packages) := by
  cases h with
  | path hp hd hn =>
    rw [r.resolveKind_of_isPath hp hd, resolvePathSpecifier, hn]
    exact (gives_note _).bind_ends (r.ends_resolvePath hI mode target _ base)
  | file hne hk hf =>
    -- No path is probed here, but a file that exists is what both modes find first at its own path.
    have hexists := r.existsFile_of_namedFile? hf
    have hname : r.resolveKind (Specifier.kind specifier) (Specifier.normalize specifier) base mode =
        r.resolveName (Specifier.normalize specifier) base mode := by
      rcases hk with hk | hk <;> rw [hk] <;> rfl
    have hbundle := r.gives_bundleFileFor (Specifier.normalize specifier) base
    rw [hf] at hbundle
    rw [hname, pathOutcome_of_exists hexists, pathCache_of_exists hexists]
    exact (hbundle.bind ((gives_warn _ _).bind (gives_pure target))).ends packages

theorem PathTarget.gives_resolveKind_of_none (h : r.PathTarget specifier base none)
    (mode : ResolveMode) :
    Gives (r.resolveKind (Specifier.kind specifier) (Specifier.normalize specifier) base mode)
      (.error (notFound (Specifier.normalize specifier) base)) := by
  cases h with
  | path hp hd hn =>
    rw [r.resolveKind_of_isPath hp hd, resolvePathSpecifier, hn]
    exact gives_throw _

variable (r)

/-- To require a path is to take the first file that exists of one list: the path, the path with each
extension, and if the path is a directory, its `main` likewise and then its index files. With no such
file, the specifier is not found. -/
theorem require_path_eq_search (history : List Query)
    (hhistory : history = [] ∨ r.source.RespectsPaths) (specifier : String)
    (referrer : Option Path) (target : Path)
    (htarget : r.PathTarget specifier (r.baseDirectory referrer) (some target)) :
    Except.map ResolvedModule.path
        ((r.resolve ⟨specifier, referrer, .require⟩).run (PackageCache.after r history)).1 =
      match r.firstExisting (r.requirePaths target (r.source.main? target)) with
      | some file => .ok file
      | none => .error (notFound (Specifier.normalize specifier) (r.baseDirectory referrer)) := by
  have hI : (PackageCache.after r history).Rooted := r.rooted_replay Observer.plain history ()
  have hends := htarget.ends_resolveKind hI .require
  rw [PackageCache.main?_lookup_after hhistory] at hends
  have hanswer := r.resolve_eq_answer ⟨specifier, referrer, .require⟩ htarget.ne_empty hends
  rw [hanswer, answer, pathOutcome]
  cases r.firstExisting (r.requirePaths target (r.source.main? target)) with
  | some file => rfl
  | none => rfl

/-- A `main` that is a directory comes before the index of the package. -/
theorem require_path_eq_search_main :
    let files := ((MemoryFiles.empty.insertFile ⟨"/p/package.json"⟩
      (.ok "\x7b\"main\":\"lib\"\x7d".toUTF8)).insertFile ⟨"/p/index.js"⟩ (.ok "".toUTF8)).insertFile
      ⟨"/p/lib/index.json"⟩ (.ok "".toUTF8)
    let r : Resolver Id := .ofSource files.toSource ⟨"/"⟩ ⟨"/"⟩
    r.source.RespectsPaths ∧ r.PathTarget "./p" (r.baseDirectory none) (some ⟨"/p"⟩) ∧
      Except.map ResolvedModule.path ((r.resolve ⟨"./p", none, .require⟩).run
        (PackageCache.after r [.detectFormat ⟨"/p/index.js"⟩])).1 = .ok ⟨"/p/lib/index.json"⟩ := by
  intro files r
  have hr : r.source.RespectsPaths := files.toSource_respectsPaths
  have htarget : r.PathTarget "./p" (r.baseDirectory none) (some ⟨"/p"⟩) :=
    .path (by decide +kernel) (by decide +kernel) (by decide +kernel)
  have hfirst : r.firstExisting (r.requirePaths ⟨"/p"⟩ (r.source.main? ⟨"/p"⟩)) =
      some ⟨"/p/lib/index.json"⟩ := by decide +kernel
  refine ⟨hr, htarget, ?_⟩
  rw [r.require_path_eq_search _ (.inr hr) "./p" none ⟨"/p"⟩ htarget, hfirst]

end ModuleLoader.Resolver
