import ModuleLoader.Proofs.Json.RoundTrip
import ModuleLoader.Proofs.Resolve.Candidates
import ModuleLoader.Proofs.Resolve.Sound

/-! The authority of `exports`. Where the package that a name leads to has a tree of `exports`, the
answer depends on this tree, on where the package is and on whether one file exists. -/

namespace ModuleLoader.Resolver

open Search

variable (r : Resolver Id)

/-- The package that a name leads to from a directory. -/
def packageRoot? (name : String) (base : Path) : Option Path :=
  (packageCandidates name base.ancestors).find? fun root => Id.run (r.source.existsDir root)

theorem gives_findPackageRoot (name : String) (base : Path) :
    Gives (r.findPackageRoot name base.ancestors) (.ok (r.packageRoot? name base)) :=
  gives_of_tries fun packages => r.tries_findPackageRoot packages name base.ancestors

/-- The outcome of looking for the file that a target of a package names. -/
def targetOutcome (root : Path) (target key specifier : String) : Except ResolveError Path :=
  match r.normalize? (root.joinText target) with
  | none => .error (.invalidPackageTarget key target root)
  | some path =>
    if Id.run (r.source.existsFile path) = true then .ok path else .error (notFound specifier root)

/-- The one candidate for a target of a package. -/
def targetTries (root : Path) (target : String) : List Path :=
  (r.normalize? (root.joinText target)).toList

theorem tries_resolvePackageFile (packages : PackageCache) (root : Path)
    (target key specifier : String) :
    Tries packages (r.resolvePackageFile root target key specifier) [TraceStep.fileExists]
      (r.targetTries root target) (r.targetOutcome root target key specifier) packages := by
  unfold resolvePackageFile targetTries targetOutcome
  cases r.normalize? (root.joinText target) with
  | none => exact (tries_throw _ packages).mono (List.nil_sublist _)
  | some path =>
    refine Tries.afterTried (.afterAsk ?_) path
    dsimp only
    split
    · exact (tries_pure path packages).afterNote _
    · exact (tries_throw _ packages).afterNote _

/-- The outcome of looking up a subpath in a tree of `exports`. -/
def exportsOutcome (tree : Json) (root : Path) (subpath specifier : String) (mode : ResolveMode) :
    Except ResolveError Path :=
  match Target.select mode.conditions .exports subpath tree with
  | .error error => .error (targetError subpath root error)
  | .ok none => .error (.exportNotFound subpath root)
  | .ok (some found) => r.targetOutcome root found.target subpath specifier

def exportsTries (tree : Json) (root : Path) (subpath : String) (mode : ResolveMode) : List Path :=
  match Target.select mode.conditions .exports subpath tree with
  | .ok (some found) => r.targetTries root found.target
  | _ => []

theorem tries_resolveExports (packages : PackageCache) (tree : Json) (root : Path)
    (subpath specifier : String) (mode : ResolveMode) :
    Tries packages (r.resolveExports tree root subpath specifier mode)
      [TraceStep.matchExportsKey, TraceStep.fileExists] (r.exportsTries tree root subpath mode)
      (r.exportsOutcome tree root subpath specifier mode) packages := by
  unfold resolveExports selectTarget exportsTries exportsOutcome
  cases Target.select mode.conditions .exports subpath tree with
  | error error => exact ((tries_throw _ packages).bind_error _).mono (List.nil_sublist _)
  | ok found =>
    have hselect := tries_pure found packages
    cases found with
    | none => exact (hselect.bind ((tries_throw _ packages).afterNote _)).mono (by simp)
    | some found =>
      have hfile := r.tries_resolvePackageFile packages root found.target subpath specifier
      exact hselect.bind (hfile.afterNote _)

/-- Whether the `package.json` of a directory, however its path is written, is an object with the
given tree of `exports`. -/
def Offers (root : Path) (tree : Json) : Prop :=
  ∀ q : Path, q.components = root.components →
    ∃ d, PackageLookup.read r.source q = .loaded d ∧ d.exports = some tree

variable {r} {root : Path} {tree : Json}

/-- A manifest that a filesystem in memory has under one spelling is there under all of them. -/
theorem offers_of_read {files : MemoryFiles} (hr : r.source = files.toSource) {bytes : ByteArray}
    {members : Members Json}
    (hb : files.read (root.joinText manifestName) = .ok bytes)
    (hj : Json.parse (Text.readLossy bytes) = .ok (.object members))
    (he : (members.get? "exports").filter (!·.isNull) = some tree) : r.Offers root tree := by
  intro q hq
  have hread : files.files.lookup (MemoryFiles.key (q.joinText manifestName)) =
      some (.ok bytes) := by
    rw [MemoryFiles.key_congr (Path.joinText_congr hq manifestName)]
    unfold MemoryFiles.read at hb
    split at hb
    · next content hl => rw [hl, Except.ok.inj hb]
    · cases hb
    · cases hb
  have hf : r.source.existsFile (q.joinText manifestName) = pure true := by
    rw [hr]
    exact congrArg pure (by rw [MemoryFiles.existsFile, hread]; rfl)
  have hq' : r.source.read (q.joinText manifestName) = pure (.ok bytes) := by
    rw [hr]
    exact congrArg pure (by rw [MemoryFiles.read, hread])
  have hlookup : PackageLookup.read r.source q = PackageLookup.ofText q (Text.readLossy bytes) := by
    rw [PackageLookup.read_eq, hf, hq']
    rfl
  rw [hlookup, PackageLookup.ofText, hj]
  exact ⟨_, rfl, he⟩

/-- A package that has `exports` is resolved through them, for the package itself and for every
subpath of it. -/
theorem gives_resolveSubpath {d : PackageDescriptor} (hd : d.exports = some tree) (root : Path)
    (subpath specifier : String) (mode : ResolveMode) :
    Gives (r.resolveSubpath (some d) root subpath specifier mode)
      (r.exportsOutcome tree root subpath specifier mode) := by
  have he : (some d).bind PackageDescriptor.exports = some tree := hd
  rw [resolveSubpath, he]
  exact gives_of_tries fun packages =>
    r.tries_resolveExports packages tree root subpath specifier mode

/-- A faithful cache gives the package for its directory, if not always with this spelling. -/
theorem exists_search_package (htree : r.Offers root tree) {s : SearchState}
    (hs : s.packages.Faithful r.source) :
    ∃ d t, Observer.plain.search (r.package root) s () = ((.ok (.loaded d), t), ()) ∧
      d.exports = some tree := by
  obtain ⟨⟨q, hq, hread⟩, -⟩ := hs.load root
  obtain ⟨d, hd, hexports⟩ := htree q hq
  have hsearch := Observer.plain.search_withPackages s () (PackageCache.load r.source root)
  rw [hread, hd] at hsearch
  exact ⟨d, _, hsearch, hexports⟩

theorem search_resolveBare {specifier : String} {bare : BareSpecifier}
    (hbare : BareSpecifier.parse? specifier = some bare) {base : Path} (mode : ResolveMode)
    (hroot : r.packageRoot? bare.package base = some root) (htree : r.Offers root tree)
    {s : SearchState} (hs : s.packages.Faithful r.source) :
    (Observer.plain.search (r.resolveBare specifier base mode) s ()).1.1 =
      r.exportsOutcome tree root bare.subpath specifier mode := by
  have hfind : Gives (r.findPackageRoot bare.package base.ancestors) (.ok (some root)) := by
    have hg := r.gives_findPackageRoot bare.package base
    rwa [hroot] at hg
  let step : TraceStep := {
    step := TraceStep.classifySpecifier, ok := true, detail := "bare specifier",
    notes := ["package: " ++ bare.package, "subpath: " ++ bare.subpath] }
  obtain ⟨t, ht, htp⟩ := gives_note step s
  obtain ⟨u, hu, hup⟩ := hfind t
  obtain ⟨d, v, hv, hexports⟩ := exists_search_package htree (s := u) (by rwa [hup, htp])
  obtain ⟨w, hw, -⟩ := gives_resolveSubpath (r := r) hexports root bare.subpath specifier mode v
  rw [resolveBare, hbare]
  dsimp only
  rw [Observer.plain.search_bind_of_ok s () ht, Observer.plain.search_bind_of_ok t () hu]
  dsimp only
  rw [Observer.plain.search_bind_of_ok u () hv, hw]

theorem normalize?_eq_of_kind {r r' : Resolver Id} (hkind : r.source.kind = r'.source.kind)
    (hdirectory : r.workingDirectory = r'.workingDirectory) (p : Path) :
    r.normalize? p = r'.normalize? p := by
  rw [normalize?, normalize?, hkind, hdirectory]

/-- Two resolvers that find the same package, with the same tree of `exports` in it, answer a bare
specifier alike, if the target that the tree selects names one file for both, as it does with sources
of one kind, and this file exists for both or for neither. Nothing else that the sources hold makes
a difference, and neither do the caches. -/
theorem exports_authoritative (r r' : Resolver Id) {specifier : String} {bare : BareSpecifier}
    (hbare : BareSpecifier.parse? specifier = some bare) {base root : Path}
    (hroot : r.packageRoot? bare.package base = some root)
    (hroot' : r'.packageRoot? bare.package base = some root) {tree : Json}
    (htree : r.Offers root tree) (htree' : r'.Offers root tree) {mode : ResolveMode}
    (hnamed : ∀ found, Target.select mode.conditions .exports bare.subpath tree = .ok (some found) →
      r.normalize? (root.joinText found.target) = r'.normalize? (root.joinText found.target))
    (hfile : ∀ found path,
      Target.select mode.conditions .exports bare.subpath tree = .ok (some found) →
      r.normalize? (root.joinText found.target) = some path →
      r.source.existsFile path = r'.source.existsFile path)
    {s s' : SearchState} (hs : s.packages.Faithful r.source)
    (hs' : s'.packages.Faithful r'.source) :
    ((r.resolveBare specifier base mode).run.run s).1 =
      ((r'.resolveBare specifier base mode).run.run s').1 := by
  have houtcome : r.exportsOutcome tree root bare.subpath specifier mode =
      r'.exportsOutcome tree root bare.subpath specifier mode := by
    unfold exportsOutcome targetOutcome
    split
    · rfl
    · rfl
    · next found hfound =>
      rw [← hnamed found hfound]
      cases hp : r.normalize? (root.joinText found.target) with
      | none => rfl
      | some path =>
        have he := hfile found path hfound hp
        dsimp only
        rw [he]
  calc ((r.resolveBare specifier base mode).run.run s).1
      = r.exportsOutcome tree root bare.subpath specifier mode :=
        search_resolveBare hbare mode hroot htree hs
    _ = r'.exportsOutcome tree root bare.subpath specifier mode := houtcome
    _ = ((r'.resolveBare specifier base mode).run.run s').1 :=
        (search_resolveBare hbare mode hroot' htree' hs').symm

/-- A package with nothing but the file that `exports` names, looked at before, and one with a
`main`, an index and the literal file too. -/
theorem exports_authoritative_subpath :
    let manifest := "\x7b\"main\":\"x\",\"exports\":\x7b\"./x\":\"./lib.js\"\x7d\x7d"
    let place (files : MemoryFiles) (name content : String) : MemoryFiles :=
      files.insertFile ⟨"/node_modules/p/" ++ name⟩ (.ok content.toUTF8)
    let bare := place (place .empty "package.json" manifest) "lib.js" ""
    let full := place (place bare "index.js" "") "x.js" ""
    let r : Resolver Id := .ofSource bare.toSource ⟨"/"⟩ ⟨"/"⟩
    let r' : Resolver Id := .ofSource full.toSource ⟨"/"⟩ ⟨"/"⟩
    let packages :=
      ((r.replay [.detectFormat ⟨"/node_modules//p/a.js"⟩]).run PackageCache.empty).2
    let tree : Json := .object ⟨[("./x", .string "./lib.js")]⟩
    r.Offers ⟨"/node_modules/p"⟩ tree ∧ r'.Offers ⟨"/node_modules/p"⟩ tree ∧
      packages.Faithful r.source ∧ (packages.find? ⟨"/node_modules/p"⟩).isSome = true ∧
      ((r.resolveBare "p/x" ⟨"/"⟩ .require).run.run ⟨packages, .empty⟩).1 =
        .ok ⟨"/node_modules/p/lib.js"⟩ ∧
      ((r'.resolveBare "p/x" ⟨"/"⟩ .require).run.run ⟨.empty, .empty⟩).1 =
        .ok ⟨"/node_modules/p/lib.js"⟩ := by
  intro manifest place bare full r r' packages tree
  have hr : r.source.RespectsPaths := bare.toSource_respectsPaths
  let root : Path := ⟨"/node_modules/p"⟩
  let lib : Path := ⟨"/node_modules/p/lib.js"⟩
  have hparse : Json.parse (Text.readLossy manifest.toUTF8) =
      .ok (.object ⟨[("main", .string "x"), ("exports", tree)]⟩) := by
    have hrender : Text.readLossy manifest.toUTF8 =
        (Json.object (.ofList [("main", .string "x"), ("exports", tree)])).render := by
      decide +kernel
    have hinner : Json.Fits 511 (.object (.ofList [("./x", .string "./lib.js")])) := by
      refine .object ?_
      rintro e (_ | ⟨_, _ | _⟩)
      exact .string 510 _
    have hfits : Json.Fits 512 (.object (.ofList [("main", .string "x"), ("exports", tree)])) := by
      refine .object ?_
      rintro e (_ | ⟨_, _ | ⟨_, _ | _⟩⟩)
      · exact .string 511 _
      · exact hinner
    rw [hrender]
    exact Json.parse_of_valueText (Json.valueText_render hfits)
  have hexports : ((Members.mk [("main", .string "x"), ("exports", tree)]).get? "exports").filter
      (!·.isNull) = some tree := rfl
  have htree : r.Offers root tree := by
    have hb : bare.read (root.joinText manifestName) = .ok manifest.toUTF8 := by decide +kernel
    exact offers_of_read rfl hb hparse hexports
  have htree' : r'.Offers root tree := by
    have hb : full.read (root.joinText manifestName) = .ok manifest.toUTF8 := by decide +kernel
    exact offers_of_read rfl hb hparse hexports
  have hbare : BareSpecifier.parse? "p/x" = some ⟨"p", "./x"⟩ := by decide +kernel
  have hroot : r.packageRoot? "p" ⟨"/"⟩ = some root := by decide +kernel
  have hroot' : r'.packageRoot? "p" ⟨"/"⟩ = some root := by decide +kernel
  have hfile : ∀ found path,
      Target.select ResolveMode.require.conditions .exports "./x" tree = .ok (some found) →
      r.normalize? (root.joinText found.target) = some path →
      r.source.existsFile path = r'.source.existsFile path := by
    have hselect : Target.select ResolveMode.require.conditions .exports "./x" tree =
        .ok (some ⟨"./lib.js", "./x", none⟩) := by decide +kernel
    have hnormal : r.normalize? (root.joinText "./lib.js") = some lib := by decide +kernel
    have hlib : bare.existsFile lib = full.existsFile lib := by decide +kernel
    have hsame : r.source.existsFile lib = r'.source.existsFile lib :=
      congrArg (pure (f := Id)) hlib
    intro found path hf hp
    obtain rfl : _ = found := Option.some.inj (Except.ok.inj (hselect.symm.trans hf))
    obtain rfl : _ = path := Option.some.inj (hnormal.symm.trans hp)
    exact hsame
  have hs : packages.Faithful r.source := faithful_replay hr _
  have hs' : PackageCache.empty.Faithful r'.source := .empty _
  have hkept : (packages.find? root).isSome = true := by decide +kernel
  have hanswer : ((r.resolveBare "p/x" ⟨"/"⟩ .require).run.run ⟨packages, .empty⟩).1 =
      .ok lib := by decide +kernel
  have hkind : r.source.kind = .filesystem := rfl
  have hkind' : r'.source.kind = .filesystem := rfl
  have hdirectory : r.workingDirectory = ⟨"/"⟩ := rfl
  have hdirectory' : r'.workingDirectory = ⟨"/"⟩ := rfl
  -- The resolvers are taken for unknown ones, so that they are not computed with again.
  clear_value packages r r'
  have hnamed (p : Path) : r.normalize? p = r'.normalize? p :=
    normalize?_eq_of_kind (hkind.trans hkind'.symm) (hdirectory.trans hdirectory'.symm) p
  have hauth : ((r.resolveBare "p/x" ⟨"/"⟩ .require).run.run ⟨packages, .empty⟩).1 =
      ((r'.resolveBare "p/x" ⟨"/"⟩ .require).run.run ⟨.empty, .empty⟩).1 :=
    exports_authoritative r r' hbare hroot hroot' htree htree' (fun _ _ => hnamed _) hfile hs hs'
  exact ⟨htree, htree', hs, hkept, hanswer, hauth.symm.trans hanswer⟩

end ModuleLoader.Resolver
