import ModuleLoader.Proofs.Resolve.Growth
import ModuleLoader.Proofs.Resolve.Replay
import ModuleLoader.Proofs.Resolve.Zone

/-! Soundness of resolution. An answer is a file that exists, with the format that its extension and
the nearest manifest above it give, whatever was asked before. -/

namespace ModuleLoader

open PackageCache Resolver

namespace FileSource

variable (source : FileSource Id)

/-- The first `package.json` that exists from a directory upwards. What it holds does not matter. -/
def nearestManifest? (dir : Path) : Option Path :=
  (dir.ancestors.map (·.joinText manifestName)).find? fun manifest =>
    Id.run (source.existsFile manifest)

/-- Whether a file can be read as a JSON object whose `type` is `"module"`. -/
def DeclaresModule (manifest : Path) : Prop :=
  ∃ bytes members, source.read manifest = .ok bytes ∧
    Json.parse (Text.readLossy bytes) = .ok (.object members) ∧
    members.get? "type" = some (.string "module")

/-- Whether a path is that of an ES module. -/
def IsEsm (p : Path) : Prop :=
  (p.extension? = some "mjs" ∨ p.extension? = some "mts") ∨
    (p.extension? = some "js" ∨ p.extension? = some "ts" ∨ p.extension? = some "tsx") ∧
      ∃ dir manifest, p.parent? = some dir ∧ source.nearestManifest? dir = some manifest ∧
        source.DeclaresModule manifest

end FileSource

/-! ## Formats -/

theorem PackageDescriptor.isModule_iff {root : Path} {members : Members Json}
    {d : PackageDescriptor} (h : ofJson? root (.object members) = some d) :
    d.isModule = true ↔ members.get? "type" = some (.string "module") := by
  simp only [ofJson?, Option.some.injEq] at h
  subst h
  simp only [isModule, packageType]
  cases hg : members.get? "type" with
  | none => simp
  | some value =>
    cases value
    case string text =>
      by_cases hm : text = "module"
      · simp [Json.string?, hm]
      · by_cases hc : text = "commonjs"
        · simp [Json.string?, hc]
        · simp [Json.string?, hm, hc]
    all_goals simp [Json.string?]

theorem scriptFormat_ofRead (root : Path) (answer : Except ReadError ByteArray) :
    scriptFormat (PackageLookup.ofRead root answer) = .esm ↔
      ∃ bytes members, answer = .ok bytes ∧
        Json.parse (Text.readLossy bytes) = .ok (.object members) ∧
        members.get? "type" = some (.string "module") := by
  cases answer with
  | error error => simp [PackageLookup.ofRead, scriptFormat]
  | ok bytes =>
    simp only [PackageLookup.ofRead, PackageLookup.ofText]
    cases hp : Json.parse (Text.readLossy bytes) with
    | error error => simp [scriptFormat, hp]
    | ok value =>
      cases value
      case object members =>
        obtain ⟨d, hd⟩ : ∃ d, PackageDescriptor.ofJson? root (.object members) = some d := ⟨_, rfl⟩
        have hm := PackageDescriptor.isModule_iff hd
        cases hi : d.isModule <;> simp_all [scriptFormat]
      all_goals simp [PackageDescriptor.ofJson?, scriptFormat, hp]

theorem ofRead_ne_missing (root : Path) (answer : Except ReadError ByteArray) :
    PackageLookup.ofRead root answer ≠ .missing := by
  cases answer with
  | error error => simp [PackageLookup.ofRead]
  | ok bytes =>
    simp only [PackageLookup.ofRead, PackageLookup.ofText]
    split
    · simp
    · split <;> simp

theorem FileSource.RespectsPaths.read_eq_ok_iff {source : FileSource Id} (hr : source.RespectsPaths)
    {p q : Path} (hc : p.components = q.components) {bytes : ByteArray} :
    source.read p = .ok bytes ↔ source.read q = .ok bytes := by
  have hok (answer : Except ReadError ByteArray) :
      answer = .ok bytes ↔ Except.toOption answer = some bytes := by
    cases answer <;> simp [Except.toOption]
  have hsame : Except.toOption (source.read p) = Except.toOption (source.read q) := hr.read hc
  exact (hok _).trans (hsame ▸ (hok _).symm)

theorem run_loadFirst_cons_of_ne {source : FileSource Id} {dir : Path} {rest : List Path}
    {packages packages' : PackageCache} {found : PackageLookup}
    (h : (load source dir).run packages = (found, packages')) (hne : found ≠ .missing) :
    (loadFirst source (dir :: rest)).run packages = (found, packages') := by
  rw [run_loadFirst_cons source dir rest packages packages' found h]
  cases found with
  | missing => exact absurd rfl hne
  | invalid fault => rfl
  | loaded d => rfl

/-- What the first lookup along the directories says of scripts, in any cache of right lookups. -/
theorem scriptFormat_loadFirst {source : FileSource Id} (hr : source.RespectsPaths)
    {packages : PackageCache} (h : packages.Faithful source) (dirs : List Path) :
    scriptFormat ((loadFirst source dirs).run packages).1 = .esm ↔
      ∃ manifest, ((dirs.map (·.joinText manifestName)).find? fun manifest =>
        Id.run (source.existsFile manifest)) = some manifest ∧ source.DeclaresModule manifest := by
  induction dirs generalizing packages with
  | nil =>
    have hn : ((loadFirst source []).run packages).1 = .missing := rfl
    simp [hn, scriptFormat]
  | cons dir rest ih =>
    obtain ⟨⟨q, hq, hread⟩, hkept⟩ := h.load dir
    obtain ⟨found, packages', hl⟩ : ∃ found packages',
        (load source dir).run packages = (found, packages') := ⟨_, _, rfl⟩
    have hlook : Observer.plain.look (load source dir) packages () = ((found, packages'), ()) :=
      congrArg (fun a => (a, ())) hl
    rw [hlook] at hread hkept
    dsimp only at hread hkept
    have hm := Path.joinText_congr hq manifestName
    have hexists : source.existsFile (q.joinText manifestName) =
        source.existsFile (dir.joinText manifestName) := hr.existsFile hm
    rw [List.map_cons]
    rw [PackageLookup.read_eq, hexists] at hread
    cases he : Id.run (source.existsFile (dir.joinText manifestName)) with
    | false =>
      have he' : source.existsFile (dir.joinText manifestName) = pure false := he
      rw [he'] at hread
      obtain rfl : found = .missing := hread
      rw [run_loadFirst_cons source dir rest packages packages' _ hl,
        List.find?_cons_of_neg (by simp [he])]
      exact ih hkept
    | true =>
      have he' : source.existsFile (dir.joinText manifestName) = pure true := he
      rw [he'] at hread
      have hfound : found = PackageLookup.ofRead q (source.read (q.joinText manifestName)) := hread
      have hne : found ≠ .missing := hfound ▸ ofRead_ne_missing _ _
      have hok (bytes : ByteArray) : source.read (q.joinText manifestName) = .ok bytes ↔
          source.read (dir.joinText manifestName) = .ok bytes := hr.read_eq_ok_iff hm
      have hfind (paths : List Path) : (dir.joinText manifestName :: paths).find?
          (fun manifest => Id.run (source.existsFile manifest)) = some (dir.joinText manifestName) :=
        List.find?_cons_of_pos he
      rw [run_loadFirst_cons_of_ne hl hne, hfind, hfound, scriptFormat_ofRead]
      simp only [hok, Option.some.injEq, exists_eq_left', FileSource.DeclaresModule]

namespace Resolver

variable {r : Resolver Id} {packages : PackageCache}

theorem run_pure_format (format : ModuleFormat) :
    ((pure format : StateT PackageCache Id ModuleFormat).run packages).1 = format := rfl

theorem run_scriptFormat_findNearest (dir : Path) : ((do
    return scriptFormat (← findNearest r.source dir) :
      StateT PackageCache Id ModuleFormat).run packages).1 =
    scriptFormat ((loadFirst r.source dir.ancestors).run packages).1 := rfl

theorem detectFormat_eq_esm_iff (hr : r.source.RespectsPaths) (h : packages.Faithful r.source)
    (p : Path) : ((r.detectFormat p).run packages).1 = .esm ↔ r.source.IsEsm p := by
  have hscript {ext : String} (he : p.extension? = some ext) :
      scriptFormat ((loadFirst r.source (p.parent?.getD ⟨""⟩).ancestors).run packages).1 = .esm ↔
        ∃ dir manifest, p.parent? = some dir ∧ r.source.nearestManifest? dir = some manifest ∧
          r.source.DeclaresModule manifest := by
    obtain ⟨dir, hdir⟩ := Path.exists_parent?_of_extension? he
    rw [hdir, Option.getD_some, scriptFormat_loadFirst hr h]
    simp [FileSource.nearestManifest?]
  unfold detectFormat FileSource.IsEsm
  split
  case h_6 he | h_7 he | h_8 he =>
    rw [run_scriptFormat_findNearest]
    simpa [he] using hscript he
  all_goals
    rw [run_pure_format]
    simp_all

theorem detectFormat_eq_json_iff (p : Path) :
    ((r.detectFormat p).run packages).1 = .json ↔ p.extension? = some "json" := by
  have hscript (lookup : PackageLookup) : scriptFormat lookup ≠ .json := by
    cases lookup with
    | loaded d => cases hd : d.isModule <;> simp [scriptFormat, hd]
    | _ => simp [scriptFormat]
  unfold detectFormat
  split
  case h_6 he | h_7 he | h_8 he =>
    rw [run_scriptFormat_findNearest]
    simp [he, hscript]
  all_goals
    rw [run_pure_format]
    simp_all

/-! ## Files -/

/-- Everything may lie on the way; what is found exists. -/
def Zone.existing (source : FileSource Id) : Zone where
  directory _ := True
  exact _ := True
  file p := Id.run (source.existsFile p) = true
  package _ := True

theorem confines_existing (r : Resolver Id) :
    Confines (Zone.existing r.source) Observer.plain (fun packages _ => packages.Faithful r.source)
      r where
  root := trivial
  directory_of_exact _ := trivial
  normalize _ := trivial
  ancestors _ _ := trivial
  package _ _ := trivial
  index _ _ := trivial
  append _ _ := trivial
  existsFile _ _ _ h := ⟨h, id⟩
  existsDir _ _ _ h := h
  load _ _ _ h := ⟨(h.load _).2, fun _ _ => trivial⟩

theorem faithful_replay (hr : r.source.RespectsPaths) (history : List Query) :
    ((r.replay history).run PackageCache.empty).2.Faithful r.source := by
  have hempty := Faithful.empty r.source
  have hstate : (Likeness.spelling r.source).state .empty () .empty () := ⟨hempty, hempty⟩
  exact ((Simulates.spelling r hr).replay (fun _ => rfl) history hstate).2.1

/-- A request that is answered, after whatever history, is answered with a file that exists. It is
an ES module by its extension or by the nearest manifest above it, JSON by its extension, and
CommonJS otherwise. -/
theorem resolve_sound (r : Resolver Id) (hr : r.source.RespectsPaths) (history : List Query)
    (request : Request) (found : ResolvedModule)
    (h : ((r.resolve request).run ((r.replay history).run PackageCache.empty).2).1 = .ok found) :
    r.source.existsFile found.path = true ∧ found.storage = r.source.kind ∧
      (found.format = .esm ↔ r.source.IsEsm found.path) ∧
      (found.format = .json ↔ found.path.extension? = some "json") ∧
      (found.format = .cjs ↔ ¬r.source.IsEsm found.path ∧ found.path.extension? ≠ some "json") := by
  have hkept := faithful_replay hr history
  obtain ⟨hfile, hstorage, packages, u, hfaithful, hformat⟩ :=
    r.confines_existing.resolve (w := ()) hkept (fun _ _ _ _ _ => trivial) h
  have hesm : found.format = .esm ↔ r.source.IsEsm found.path := by
    rw [hformat]
    exact detectFormat_eq_esm_iff hr hfaithful found.path
  have hjson : found.format = .json ↔ found.path.extension? = some "json" := by
    rw [hformat]
    exact detectFormat_eq_json_iff found.path
  refine ⟨hfile, hstorage, hesm, hjson, ?_⟩
  rw [← hesm, Ne, ← hjson]
  cases found.format <;> simp

/-- A target of `imports` in a module package, after that package was looked at already. -/
theorem resolve_sound_imports :
    let manifest := "\x7b\"type\":\"module\",\"imports\":\x7b\"#x\":[1,\"./a.js\"]\x7d\x7d"
    let files := (MemoryFiles.empty.insertFile ⟨"/package.json"⟩ (.ok manifest.toUTF8)).insertFile
      ⟨"/a.js"⟩ (.ok "".toUTF8)
    let r : Resolver Id := .ofSource files.toSource ⟨"/"⟩ ⟨"/"⟩
    let history := [.detectFormat ⟨"/lib/b.js"⟩]
    let request : Request := ⟨"#x", some ⟨"/lib//main.js"⟩, .import⟩
    r.source.RespectsPaths ∧
      ((r.resolve request).run ((r.replay history).run PackageCache.empty).2).1 =
        .ok ⟨⟨"/a.js"⟩, .filesystem, .esm⟩ ∧
      r.source.existsFile ⟨"/a.js"⟩ = true ∧ r.source.IsEsm ⟨"/a.js"⟩ := by
  intro manifest files r history request
  have hr : r.source.RespectsPaths := files.toSource_respectsPaths
  have h : ((r.resolve request).run ((r.replay history).run PackageCache.empty).2).1 =
      .ok ⟨⟨"/a.js"⟩, .filesystem, .esm⟩ := by
    decide +kernel
  obtain ⟨hfile, -, hesm, -⟩ := r.resolve_sound hr history request _ h
  exact ⟨hr, h, hfile, hesm.mp rfl⟩

end Resolver

end ModuleLoader
