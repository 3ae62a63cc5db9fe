import ModuleLoader.Proofs.Resolve.Explained
import ModuleLoader.Proofs.Resolve.Root

/-! Targets of `imports` that name packages. A `#` specifier with such a target is resolved as the
target itself is in the package that owns the `imports`, only that no bundle file is taken by its
name. -/

namespace ModuleLoader

open ModuleLoader.Path Likeness Search

/-! ## Lookups of imports -/

/-- The `imports` of a directory, if they are not null. -/
def FileSource.imports? (source : FileSource Id) (dir : Path) : Option Json :=
  ((source.manifest? dir).bind (·.get? "imports")).filter (!·.isNull)

def FileSource.hasImports (source : FileSource Id) (dir : Path) : Bool := (source.imports? dir).isSome

theorem FileSource.imports?_of_hasImports {source : FileSource Id} {dir : Path}
    (h : source.hasImports dir = true) :
    source.imports? dir = some ((source.imports? dir).getD .null) :=
  (Option.some_get h).symm.trans (congrArg some (Option.get_eq_getD _))

theorem FileSource.RespectsPaths.imports?_eq {source : FileSource Id} (hr : source.RespectsPaths)
    {p q : Path} (hc : p.components = q.components) : source.imports? p = source.imports? q := by
  rw [imports?, imports?, hr.manifest?_eq hc]

theorem PackageLookup.imports_read (source : FileSource Id) (dir : Path) :
    (read source dir).descriptor?.bind PackageDescriptor.imports = source.imports? dir := by
  rw [descriptor?_read, FileSource.imports?]
  cases source.manifest? dir <;> rfl

/-! ## Targets that name packages -/

namespace Specifier

variable {target : String}

/-- A name without backslashes is worked on as it is written. -/
theorem normalize_eq_self (hb : '\\' ∉ target.toList) (hk : kind target ≠ .fileUrl) :
    normalize target = target := by
  have hscheme : Text.after? urlScheme target.toList = none := by
    cases ha : Text.after? urlScheme target.toList with
    | none => rfl
    | some rest =>
      have hurl : Text.startsWith urlScheme target.toList = true := by rw [← Text.isSome_after?, ha]; rfl
      exact absurd (if_pos hurl) hk
  rw [normalize, stripFileUrl, hscheme, Text.forwardSlashes_eq_self hb]

theorem isPathTarget_eq_false (hb : '\\' ∉ target.toList)
    (hk : kind target = .bare ∨ kind target = .scopedBare) : Target.isPathTarget target = false := by
  cases hp : Target.isPathTarget target with
  | false => rfl
  | true =>
    obtain ⟨rest, hrest⟩ := Target.isPathTarget_iff.mp hp
    have hurl : Text.startsWith urlScheme target.toList = false := by rw [hrest]; rfl
    have hhash : Text.startsWith ['#'] target.toList = false := by rw [hrest]; rfl
    have hrelative : isRelative target.toList = true := by
      simp [hrest, isRelative, Text.startsWith]
    have hkind : kind target = .relative := by
      simp [kind, Text.forwardSlashes_eq_self hb, hurl, hhash, hrelative]
    rcases hk with hk | hk <;> rw [hkind] at hk <;> cases hk

end Specifier

namespace PackageCache.Faithful

variable {source : FileSource Id} {packages : PackageCache}

theorem rooted (h : Faithful source packages) : packages.Rooted := by
  intro entry hm d hd
  rw [h.entries entry hm] at hd
  exact PackageLookup.root_of_read Observer.plain source (w := ()) hd

/-- A package that a faithful cache gives for a directory has the `imports` of this directory. -/
theorem lookup_imports (h : Faithful source packages) (hr : source.RespectsPaths) (dir : Path) :
    (packages.lookup source dir).descriptor?.bind PackageDescriptor.imports = source.imports? dir := by
  obtain ⟨⟨q, hq, hread⟩, -⟩ := h.load dir
  have hlookup : packages.lookup source dir = PackageLookup.read source q := hread
  rw [hlookup, PackageLookup.imports_read, hr.imports?_eq hq]

end PackageCache.Faithful

namespace Resolver

variable {r : Resolver Id}

/-! ## The owner -/

/-- The nearest directory with `imports` is found, and its package may be spelled otherwise there. -/
theorem importsOwner_of_find? (hr : r.source.RespectsPaths) {packages : PackageCache}
    (h : packages.Faithful r.source) {dirs : List Path} {owner : Path}
    (howner : dirs.find? r.source.hasImports = some owner) :
    ∃ d, (r.importsOwner packages dirs).1 = some d ∧ d.root.components = owner.components ∧
      d.imports = r.source.imports? owner ∧
      (r.importsOwner packages dirs).2.Faithful r.source := by
  induction dirs generalizing packages with
  | nil => cases howner
  | cons dir rest ih =>
    have himports := h.lookup_imports hr dir
    have hroot := (h.rooted.load Observer.plain r.source dir ()).2
    obtain ⟨-, h'⟩ := h.load dir
    unfold importsOwner
    dsimp only
    cases hl : packages.lookup r.source dir with
    | loaded d =>
      rw [hl] at himports
      have hd : d.imports.isSome = r.source.hasImports dir := congrArg Option.isSome himports
      dsimp only
      rw [hd]
      by_cases hs : r.source.hasImports dir = true
      · rw [List.find?_cons_of_pos hs] at howner
        obtain rfl := Option.some.inj howner
        rw [if_pos hs]
        exact ⟨d, rfl, hroot d hl, himports, h'⟩
      · rw [List.find?_cons_of_neg hs] at howner
        rw [if_neg hs]
        exact ih h' howner
    | _ =>
      rw [hl] at himports
      have hs : ¬r.source.hasImports dir = true := by
        rw [FileSource.hasImports, ← himports]
        exact Bool.false_ne_true
      rw [List.find?_cons_of_neg hs] at howner
      exact ih h' howner

/-! ## Two ways into a package -/

/-- What looking up a `#` specifier comes to, if its target names a package. -/
theorem exists_search_resolveHashImport (hr : r.source.RespectsPaths) {s : SearchState}
    (hs : s.packages.Faithful r.source) {base owner : Path} {tree : Json}
    (howner : base.ancestors.find? r.source.hasImports = some owner)
    (htree : r.source.imports? owner = some tree) {specifier : String} {mode : ResolveMode}
    {found : TargetMatch}
    (hfound : Target.select mode.conditions .imports specifier tree = .ok (some found))
    (hpath : Target.isPathTarget found.target = false) :
    ∃ root t, Observer.plain.search (r.resolveHashImport specifier base mode) s () =
        Observer.plain.search (r.resolveBare found.target root mode) t () ∧
      root.components = owner.components ∧ t.packages.Faithful r.source := by
  obtain ⟨d, hd, hroot, himports, hfaithful⟩ := importsOwner_of_find? hr hs howner
  obtain ⟨-, nearest, hsearch⟩ :=
    tries_findImportsOwner (r := r) s.packages base.ancestors hs.rooted none
  rw [hd] at hsearch
  obtain ⟨t, ht, htp, -⟩ := hsearch s rfl
  unfold resolveHashImport
  rw [Observer.plain.search_bind_of_ok s () ht]
  dsimp only
  rw [Observer.plain.search_bind_of_ok t () (Observer.plain.search_note _ t ()), himports, htree]
  unfold resolveImports selectTarget
  dsimp only
  rw [hfound, pure_bind]
  dsimp only
  rw [noteMatch, Observer.plain.search_bind_of_ok _ () (Observer.plain.search_note _ _ ()), hpath,
    if_neg Bool.false_ne_true,
    Observer.plain.search_bind_of_ok _ () (Observer.plain.search_note _ _ ())]
  exact ⟨d.root, _, rfl, hroot, htp ▸ hfaithful⟩

theorem exists_search_resolveName {name : String} {base : Path} {mode : ResolveMode}
    (hfile : r.namedFile? name base = none) (s : SearchState) :
    ∃ t, Observer.plain.search (r.resolveName name base mode) s () =
        Observer.plain.search (r.resolveBare name base mode) t () ∧ t.packages = s.packages := by
  obtain ⟨t, ht, htp, -⟩ := tries_bundleFileFor (r := r) s.packages name base s rfl
  rw [hfile] at ht
  unfold resolveName
  rw [Observer.plain.search_bind_of_ok s () ht]
  exact ⟨t, rfl, htp⟩

/-! ## The directory of the owner -/

theorem components_baseDirectory_manifest (hr : r.IsAnchored) {dir : Path}
    (h : r.source.kind.IsNormal dir) :
    (r.baseDirectory (some (dir.joinText manifestName))).components = dir.components := by
  have hparent := map_components_parent? (dir.joinText manifestName)
  rw [components_joinText_manifestName, above?_concat (by simp)] at hparent
  obtain ⟨above, habove, hc⟩ := Option.map_eq_some_iff.mp hparent
  have hnormal := (map_components_normalize?_eq_iff hr).mpr (h.congr hc.symm)
  obtain ⟨q, hq, hcq⟩ := Option.map_eq_some_iff.mp hnormal
  rw [baseDirectory, Option.bind_some, habove, Option.bind_some, hq, Option.getD_some, hcq, hc]

/-- A request starts from a normal path if it has a referrer in a directory with a normal form, or
else if the root is normal. -/
theorem isNormal_baseDirectory (hr : r.IsAnchored) {referrer : Option Path}
    (h : ((referrer.bind Path.parent?).bind r.normalize?).isSome = true ∨
      r.source.kind.IsNormal r.root) : r.source.kind.IsNormal (r.baseDirectory referrer) := by
  unfold baseDirectory
  cases hb : (referrer.bind Path.parent?).bind r.normalize? with
  | none =>
    rw [hb] at h
    exact h.resolve_left Bool.false_ne_true
  | some base =>
    obtain ⟨dir, -, hdir⟩ := Option.bind_eq_some_iff.mp hb
    exact isNormal_of_normalize? hr hdir

theorem namedFile?_congr {p q : Path} (h : p.components = q.components) {name : String} :
    r.namedFile? name p = r.namedFile? name q := by
  have hn := r.normalize?_congr (joinText_congr h name)
  unfold namedFile?
  simp only [List.filterMap_cons, hn]

/-! ## Requests -/

theorem agree_finish {l : Likeness Unit Unit}
    (h : Simulates l Observer.plain Observer.plain r r) {p q : Path} (hp : l.path p q) :
    l.Agree Observer.plain Observer.plain l.Resolved (r.finish p) (r.finish q) := by
  refine (Agree.withPackages (h.probes.detectFormat hp)).bind fun f g hf => ?_
  exact (Agree.note _ _).andThen ((Agree.note _ _).andThen (Agree.pure ⟨hp, rfl, hf⟩))

/-- Whether the target of a `#` specifier, in the `imports` of the nearest directory that has some, is
written as the name of a package. -/
structure HasPackageTarget (r : Resolver Id) (specifier : String) (referrer : Option Path)
    (mode : ResolveMode) (owner : Path) (target : String) : Prop where
  kind : Specifier.kind specifier = .hashImport
  nearest : (r.baseDirectory referrer).ancestors.find? r.source.hasImports = some owner
  selected : ∃ tree found, r.source.imports? owner = some tree ∧
    Target.select mode.conditions .imports (Specifier.normalize specifier) tree =
      .ok (some found) ∧ found.target = target
  backslash : '\\' ∉ target.toList
  bare : Specifier.kind target = .bare ∨ Specifier.kind target = .scopedBare

theorem HasPackageTarget.of_select {specifier : String} {referrer : Option Path}
    {mode : ResolveMode} {owner : Path} {found : TargetMatch}
    (hkind : Specifier.kind specifier = .hashImport)
    (hnearest : (r.baseDirectory referrer).ancestors.find? r.source.hasImports = some owner)
    (hselect : Target.select mode.conditions .imports (Specifier.normalize specifier)
      ((r.source.imports? owner).getD .null) = .ok (some found))
    (hbackslash : '\\' ∉ found.target.toList)
    (hbare : Specifier.kind found.target = .bare ∨ Specifier.kind found.target = .scopedBare) :
    r.HasPackageTarget specifier referrer mode owner found.target := by
  have htree := FileSource.imports?_of_hasImports (List.find?_some hnearest)
  exact ⟨hkind, hnearest, ⟨_, found, htree, hselect, rfl⟩, hbackslash, hbare⟩

namespace HasPackageTarget

variable {specifier target : String} {referrer : Option Path} {mode : ResolveMode} {owner : Path}
  (h : r.HasPackageTarget specifier referrer mode owner target)
include h

theorem specifier_ne_empty : specifier ≠ "" := by
  rintro rfl
  exact absurd h.kind (by decide)

theorem target_ne_empty : target ≠ "" := by
  obtain ⟨tree, found, -, hfound, rfl⟩ := h.selected
  exact Target.ne_empty_of_select hfound

theorem fileSearch_specifier : r.fileSearch ⟨specifier, referrer, mode⟩ =
    r.resolveHashImport (Specifier.normalize specifier) (r.baseDirectory referrer) mode := by
  unfold fileSearch
  dsimp only
  rw [h.kind]
  rfl

theorem fileSearch_target (referrer : Option Path) : r.fileSearch ⟨target, referrer, mode⟩ =
    r.resolveName target (r.baseDirectory referrer) mode := by
  have hself : Specifier.normalize target = target := by
    refine Specifier.normalize_eq_self h.backslash fun hurl => ?_
    rcases h.bare with hk | hk <;> rw [hurl] at hk <;> cases hk
  unfold fileSearch
  dsimp only
  rw [hself]
  rcases h.bare with hk | hk <;> rw [hk] <;> rfl

theorem isNormal_owner (ha : r.IsAnchored)
    (hbase : ((referrer.bind Path.parent?).bind r.normalize?).isSome = true ∨
      r.source.kind.IsNormal r.root) : r.source.kind.IsNormal owner :=
  (isNormal_baseDirectory ha hbase).ancestors (List.mem_of_find?_eq_some h.nearest)

/-- Both requests come to the same search for a package, from the owner or from the directory of its
`package.json`. -/
theorem agree_fileSearch (hr : r.source.RespectsPaths) (ha : r.IsAnchored)
    (hnormal : r.source.kind.IsNormal owner) (hfile : r.namedFile? target owner = none) :
    (Likeness.spelling r.source).Agree Observer.plain Observer.plain (Likeness.spelling r.source).path
      (r.fileSearch ⟨specifier, referrer, mode⟩)
      (r.fileSearch ⟨target, some (owner.joinText manifestName), mode⟩) := by
  have hbase := components_baseDirectory_manifest ha hnormal
  rw [h.fileSearch_specifier, h.fileSearch_target]
  obtain ⟨tree, found, htree, hfound, rfl⟩ := h.selected
  intro s _ t _ hst
  obtain ⟨root, s', hs', hroot, hfaithful⟩ := exists_search_resolveHashImport hr hst.1 h.nearest htree
    hfound (Specifier.isPathTarget_eq_false h.backslash h.bare)
  rw [← namedFile?_congr hbase] at hfile
  obtain ⟨t', ht', htp⟩ := exists_search_resolveName hfile t
  rw [hs', ht']
  have hagree := (Simulates.spelling r hr).resolveBare found.target mode (hroot.trans hbase.symm)
  exact hagree ⟨hfaithful, htp ▸ hst.2⟩

theorem agree_search (hr : r.source.RespectsPaths) (ha : r.IsAnchored)
    (hnormal : r.source.kind.IsNormal owner) (hfile : r.namedFile? target owner = none) :
    (Likeness.spelling r.source).Agree Observer.plain Observer.plain
      (Likeness.spelling r.source).Resolved (r.search ⟨specifier, referrer, mode⟩)
      (r.search ⟨target, some (owner.joinText manifestName), mode⟩) := by
  rw [r.search_eq h.specifier_ne_empty, r.search_eq h.target_ne_empty]
  refine (Agree.note _ _).andThen ((h.agree_fileSearch hr ha hnormal hfile).bind fun p q hp => ?_)
  exact agree_finish (Simulates.spelling r hr) hp

end HasPackageTarget

theorem count_stepNames_le (r : Resolver Id) {packages : PackageCache} (hI : packages.Rooted)
    (request : Request) {name : String} (hn : searchSteps.count name = 1)
    (hends : name ∉ [TraceStep.parseSpecifier, TraceStep.detectFormat, TraceStep.finalPath]) :
    (((r.resolveTraced request).run packages).1.2.steps.map TraceStep.step).count name ≤ 1 := by
  obtain ⟨between, ending, hbetween, hending, hsteps⟩ := r.exists_stepNames hI request
  have hfirst : TraceStep.parseSpecifier ≠ name := fun he => hends (by simp [← he])
  have hend : ending.count name = 0 := by
    refine List.count_eq_zero.mpr fun hm => hends ?_
    rcases hending with rfl | rfl
    · cases hm
    · exact List.mem_cons_of_mem _ hm
  rw [hsteps, List.count_append, List.count_cons_of_ne hfirst, hend, ← hn]
  exact hbetween.count_le name

/-- A `#` specifier whose target names a package is answered as the target is for the `package.json` of
the owner, up to spelling and up to the text of errors, whatever was asked before. In a bundle the target
must not be the path of a file, which only the target itself would be taken for. And no request looks
for `imports` or for a package twice. -/
theorem import_of_package_target (r : Resolver Id) (hr : r.source.RespectsPaths) (ha : r.IsAnchored)
    (history history' : List Query) {specifier target : String} {referrer : Option Path}
    {mode : ResolveMode} {owner : Path}
    (h : r.HasPackageTarget specifier referrer mode owner target)
    (hbase : ((referrer.bind Path.parent?).bind r.normalize?).isSome = true ∨
      r.source.kind.IsNormal r.root)
    (hfile : r.source.kind = .bundle → r.namedFile? target owner = none) :
    let answer := ((r.resolve ⟨specifier, referrer, mode⟩).run (PackageCache.after r history)).1
    let direct := ((r.resolve ⟨target, some (owner.joinText manifestName), mode⟩).run
      (PackageCache.after r history')).1
    (match direct with
      | .ok direct => ∃ found, answer = .ok found ∧ found.path.same direct.path = true ∧
          found.storage = direct.storage ∧ found.format = direct.format
      | .error direct => ∃ error, answer = .error error ∧ error.code = direct.code) ∧
    ∀ request : Request,
      let names := ((r.resolveTraced request).run
        (PackageCache.after r history)).1.2.steps.map TraceStep.step
      names.count TraceStep.findPackageJson ≤ 1 ∧ names.count TraceStep.classifySpecifier ≤ 1 := by
  intro answer direct
  have hI : (PackageCache.after r history).Rooted := r.rooted_replay Observer.plain history ()
  refine ⟨?_, fun request => ⟨r.count_stepNames_le hI request (by decide) (by decide),
    r.count_stepNames_le hI request (by decide) (by decide)⟩⟩
  have hnone : r.namedFile? target owner = none := by
    cases hk : r.source.kind with
    | bundle => exact hfile hk
    | filesystem => simp [namedFile?, hk]
  have hstate : (Likeness.spelling r.source).state (PackageCache.after r history) ()
      (PackageCache.after r history') () := ⟨faithful_replay hr history, faithful_replay hr history'⟩
  have hanswer : (Likeness.spelling r.source).Outcome (Likeness.spelling r.source).Resolved
      answer direct := ((h.agree_search hr ha (h.isNormal_owner ha hbase) hnone).resolve hstate).1
  cases hd : direct with
  | ok fresh =>
    rw [hd] at hanswer
    cases hs : answer with
    | ok found =>
      rw [hs] at hanswer
      exact ⟨found, rfl, Path.same_iff.mpr hanswer.path, hanswer.storage, hanswer.format⟩
    | error e =>
      rw [hs] at hanswer
      exact hanswer.elim
  | error fresh =>
    rw [hd] at hanswer
    cases hs : answer with
    | ok found =>
      rw [hs] at hanswer
      exact hanswer.elim
    | error e =>
      rw [hs] at hanswer
      exact ⟨e, rfl, hanswer⟩

/-- An invalid `package.json` on the way to the owner is passed over. -/
theorem import_of_package_target_nested :
    let bundle := Bundle.ofEntries
      [("app/package.json", "\x7b\"imports\":\x7b\"#dep\":\"@s/p\"\x7d\x7d".toUTF8),
        ("app/src/package.json", "[]".toUTF8), ("node_modules/@s/p/index.js", "".toUTF8)]
    let r : Resolver Id := .ofSource bundle.toSource ⟨""⟩ ⟨"/"⟩
    r.source.RespectsPaths ∧ r.IsAnchored ∧
      r.HasPackageTarget "#dep" (some ⟨"app/src/a.js"⟩) .require ⟨"app"⟩ "@s/p" ∧
      r.namedFile? "@s/p" ⟨"app"⟩ = none ∧
      ∃ found, ((r.resolve ⟨"#dep", some ⟨"app/src/a.js"⟩, .require⟩).run
          (PackageCache.after r [.detectFormat ⟨"app/src//a.js"⟩])).1 = .ok found ∧
        found.path.same ⟨"node_modules/@s/p/index.js"⟩ = true := by
  intro bundle r
  have hr : r.source.RespectsPaths := bundle.toSource_respectsPaths
  have ha : r.IsAnchored := fun hk => by cases hk
  have hselect : Target.select ResolveMode.require.conditions .imports (Specifier.normalize "#dep")
      ((r.source.imports? ⟨"app"⟩).getD .null) = .ok (some ⟨"@s/p", "#dep", none⟩) := by
    decide +kernel
  have h : r.HasPackageTarget "#dep" (some ⟨"app/src/a.js"⟩) .require ⟨"app"⟩ "@s/p" :=
    .of_select (by decide +kernel) (by decide +kernel) hselect (by decide +kernel) (by decide +kernel)
  have hbase : ((Option.bind (some ⟨"app/src/a.js"⟩) Path.parent?).bind r.normalize?).isSome =
      true := by decide +kernel
  have hfile : r.namedFile? "@s/p" ⟨"app"⟩ = none := by decide +kernel
  have hdirect : ((r.resolve ⟨"@s/p", some ((Path.mk "app").joinText manifestName), .require⟩).run
      (PackageCache.after r [])).1 =
      .ok ⟨⟨"node_modules/@s/p/index.js"⟩, .bundle, .cjs⟩ := by decide +kernel
  clear_value r
  have hsame := (import_of_package_target r hr ha [.detectFormat ⟨"app/src//a.js"⟩] [] h
    (.inl hbase) fun _ => hfile).1
  rw [hdirect] at hsame
  obtain ⟨found, hfound, hpath, -⟩ := hsame
  exact ⟨hr, ha, h, hfile, found, hfound, hpath⟩

/-- Without the hypotheses on files of bundles and on the root, the two answers differ: a target is no
path of a bundle file, even where the same text is one as a specifier, and a root with a `..` is walked
up as it is written, while the directory of a referrer is normalized first. -/
theorem import_ne_of_package_target :
    (let bundle := Bundle.ofEntries
      [("package.json", "\x7b\"imports\":\x7b\"#x\":\"dep.js\"\x7d\x7d".toUTF8),
        ("dep.js", "".toUTF8)]
    let r : Resolver Id := .ofSource bundle.toSource ⟨""⟩ ⟨"/"⟩
    r.HasPackageTarget "#x" (some ⟨"main.js"⟩) .require ⟨""⟩ "dep.js" ∧
      ((r.resolve ⟨"#x", some ⟨"main.js"⟩, .require⟩).run .empty).1 =
        .error (.packageNotFound "dep.js" "") ∧
      ((r.resolve ⟨"dep.js", some ((Path.mk "").joinText manifestName), .require⟩).run .empty).1 =
        .ok ⟨⟨"dep.js"⟩, .bundle, .cjs⟩) ∧
    (let files := ((MemoryFiles.empty.insertFile ⟨"/a/package.json"⟩
      (.ok "\x7b\"imports\":\x7b\"#x\":\"p\"\x7d\x7d".toUTF8)).insertFile
      ⟨"/a/b/node_modules/p/index.js"⟩ (.ok "".toUTF8))
    let r : Resolver Id := .ofSource files.toSource ⟨"/a/b/../c"⟩ ⟨"/"⟩
    r.HasPackageTarget "#x" none .require ⟨"/a/b/.."⟩ "p" ∧
      ((r.resolve ⟨"#x", none, .require⟩).run .empty).1 =
        .ok ⟨⟨"/a/b/node_modules/p/index.js"⟩, .filesystem, .cjs⟩ ∧
      ((r.resolve ⟨"p", some ((Path.mk "/a/b/..").joinText manifestName), .require⟩).run .empty).1 =
        .error (.packageNotFound "p" "/a")) := by
  constructor
  · intro bundle r
    have hselect : Target.select ResolveMode.require.conditions .imports (Specifier.normalize "#x")
        ((r.source.imports? ⟨""⟩).getD .null) = .ok (some ⟨"dep.js", "#x", none⟩) := by
      decide +kernel
    refine ⟨?_, by decide +kernel, by decide +kernel⟩
    exact .of_select (by decide +kernel) (by decide +kernel) hselect (by decide +kernel)
      (by decide +kernel)
  · intro files r
    have hselect : Target.select ResolveMode.require.conditions .imports (Specifier.normalize "#x")
        ((r.source.imports? ⟨"/a/b/.."⟩).getD .null) = .ok (some ⟨"p", "#x", none⟩) := by
      decide +kernel
    refine ⟨?_, by decide +kernel, by decide +kernel⟩
    exact .of_select (by decide +kernel) (by decide +kernel) hselect (by decide +kernel)
      (by decide +kernel)

end Resolver

end ModuleLoader
