import ModuleLoader.Proofs.Json.RoundTrip
import ModuleLoader.Proofs.Resolve.Candidates

/-! Invalid manifests. To the search for paths and to formats, a `package.json` that cannot be read,
does not parse or is no object is the same as an empty object. -/

namespace ModuleLoader

namespace FileSource

variable {source : FileSource Id} {files : Path → Bool}

/-- The source with an empty object for the content of some files. -/
def emptied (source : FileSource Id) (files : Path → Bool) : FileSource Id :=
  { source with
    read := fun p => if files p = true then .ok "\x7b\x7d".toUTF8 else source.read p }

theorem parse_emptyObject : Json.parse (Text.readLossy "\x7b\x7d".toUTF8) =
    .ok (.object Members.empty) := by
  have hrender : Text.readLossy "\x7b\x7d".toUTF8 = (Json.object Members.empty).render := by
    decide +kernel
  have hfits : Json.Fits 512 (.object (.ofList [])) := .object fun e he => absurd he List.not_mem_nil
  rw [hrender]
  exact Json.parse_of_valueText (Json.valueText_render hfits)

theorem object?_emptied (p : Path) : (source.emptied files).object? p =
    if files p = true then some Members.empty else source.object? p := by
  by_cases hp : files p = true
  · have hread : Id.run ((source.emptied files).read p) = .ok "\x7b\x7d".toUTF8 := if_pos hp
    rw [object?, hread, if_pos hp]
    dsimp only
    rw [parse_emptyObject]
  · have hread : Id.run ((source.emptied files).read p) = Id.run (source.read p) := if_neg hp
    rw [object?, hread, if_neg hp, object?]

theorem RespectsPaths.emptied (hr : source.RespectsPaths)
    (hf : ∀ p q : Path, p.components = q.components → files p = files q) :
    (source.emptied files).RespectsPaths where
  existsFile h := hr.existsFile h
  existsDir h := hr.existsDir h
  read {p q} h := by
    change Except.toOption (if files p = true then .ok "\x7b\x7d".toUTF8 else source.read p) =
      Except.toOption (if files q = true then .ok "\x7b\x7d".toUTF8 else source.read q)
    rw [hf p q h]
    split
    · rfl
    · exact hr.read h

end FileSource

/-! ## Lookups -/

namespace PackageLookup

/-- Whether two lookups say the same of whether there is a `package.json`, of its `main` and of the
format that it gives to scripts. -/
structure Alike (a b : PackageLookup) : Prop where
  missing : a = .missing ↔ b = .missing
  main : a.main? = b.main?
  script : Resolver.scriptFormat a = Resolver.scriptFormat b

theorem Alike.trans {a b c : PackageLookup} (hab : a.Alike b) (hbc : b.Alike c) : a.Alike c :=
  ⟨hab.missing.trans hbc.missing, hab.main.trans hbc.main, hab.script.trans hbc.script⟩

theorem scriptFormat_eq (lookup : PackageLookup) : Resolver.scriptFormat lookup =
    if lookup.descriptor?.any PackageDescriptor.isModule = true then .esm else .cjs := by
  cases lookup <;> rfl

/-- What counts in a manifest is its object, if it is one, and to be none is to be empty. -/
theorem Alike.of_object {source source' : FileSource Id} {p q : Path}
    (hexists : source.existsFile (p.joinText manifestName) =
      source'.existsFile (q.joinText manifestName))
    (hobject : (source.object? (p.joinText manifestName)).getD Members.empty =
      (source'.object? (q.joinText manifestName)).getD Members.empty) :
    (read source p).Alike (read source' q) := by
  rw [read_eq_ite, read_eq_ite, hexists]
  split
  · have hmain (root : Path) (o : Option (Members Json)) :
        (o.bind fun members => PackageDescriptor.ofJson? root (.object members)).bind
          PackageDescriptor.main =
        (((o.getD .empty).get? "main").bind Json.string?).filter (· ≠ "") := by
      cases o <;> rfl
    have hmodule (root : Path) (o : Option (Members Json)) :
        (o.bind fun members => PackageDescriptor.ofJson? root (.object members)).any
          PackageDescriptor.isModule =
        (PackageDescriptor.packageType (o.getD .empty) == .module) := by
      cases o <;> rfl
    refine ⟨iff_of_false (ofRead_ne_missing _ _) (ofRead_ne_missing _ _), ?_, ?_⟩
    · rw [main?, main?, descriptor?_ofRead, descriptor?_ofRead, hmain, hmain, hobject]
    · rw [scriptFormat_eq, scriptFormat_eq, descriptor?_ofRead, descriptor?_ofRead, hmodule, hmodule,
        hobject]
  · exact ⟨Iff.rfl, rfl, rfl⟩

theorem alike_read_emptied {source : FileSource Id} {files : Path → Bool}
    (hinvalid : ∀ file, files file = true → source.object? file = none) (p : Path) :
    (read source p).Alike (read (source.emptied files) p) := by
  refine Alike.of_object rfl ?_
  rw [FileSource.object?_emptied]
  split
  · next hp => rw [hinvalid _ hp]; rfl
  · rfl

theorem alike_read_of_respectsPaths {source : FileSource Id} (hr : source.RespectsPaths) {p q : Path}
    (hc : p.components = q.components) : (read source p).Alike (read source q) := by
  have hm := Path.joinText_congr hc manifestName
  exact Alike.of_object (hr.existsFile hm) (by rw [hr.object?_eq hm])

end PackageLookup

/-! ## Caches -/

namespace PackageCache

variable {source source' : FileSource Id} {packages packages' : PackageCache}

/-- Whether lookups in two caches say the same of every directory. -/
def Alike (source source' : FileSource Id) (packages packages' : PackageCache) : Prop :=
  ∀ dir, (packages.lookup source dir).Alike (packages'.lookup source' dir)

/-- A lookup changes no other lookup. For other spellings of the directory it stands from now on. -/
theorem lookup_load (source : FileSource Id) (packages : PackageCache) (dir q : Path) :
    lookup source ((load source dir).run packages).2 q =
      if dir.same q = true then packages.lookup source dir else packages.lookup source q := by
  cases h : packages.find? dir with
  | some found =>
    rw [run_load_of_eq_some source h]
    split
    · next hq =>
      have hc : packages.find? q = packages.find? dir :=
        find?_congr (Path.same_iff.mp hq).symm packages
      rw [lookup_eq, lookup_eq, hc, h]
      rfl
    · rfl
  | none =>
    have hadd (found : PackageLookup) : (packages.add dir found).find? q =
        (packages.find? q).or (if dir.same q then some found else none) :=
      PathMap.find?_push packages.lookups dir q found
    rw [run_load_of_eq_none source h, lookup_eq, hadd]
    split
    · next hq =>
      have hn : packages.find? q = none :=
        (find?_congr (Path.same_iff.mp hq).symm packages).trans h
      rw [lookup_eq, hn, h]
      rfl
    · rw [lookup_eq, Option.or_none]

namespace Alike

variable (h : Alike source source' packages packages')
include h

theorem load (dir : Path) : Alike source source' ((PackageCache.load source dir).run packages).2
    ((PackageCache.load source' dir).run packages').2 := by
  intro q
  rw [lookup_load, lookup_load]
  split
  · exact h dir
  · exact h q

theorem loadFirst (dirs : List Path) :
    Resolver.scriptFormat ((PackageCache.loadFirst source dirs).run packages).1 =
      Resolver.scriptFormat ((PackageCache.loadFirst source' dirs).run packages').1 := by
  induction dirs generalizing packages packages' with
  | nil => rfl
  | cons dir rest ih =>
    have hdir := h dir
    -- The search goes on exactly where there is no file, and the caches are alike after each look.
    have hrest := ih (h.load dir)
    by_cases hm : packages.lookup source dir = .missing
    · have hm' := hdir.missing.mp hm
      rw [run_loadFirst_cons source dir rest packages _ .missing (Prod.ext hm rfl),
        run_loadFirst_cons source' dir rest packages' _ .missing (Prod.ext hm' rfl)]
      exact hrest
    · have hm' : packages'.lookup source' dir ≠ .missing := fun he => hm (hdir.missing.mpr he)
      rw [run_loadFirst_cons_of_ne (Prod.ext rfl rfl) hm, run_loadFirst_cons_of_ne (Prod.ext rfl rfl) hm']
      exact hdir.script

end Alike

/-- New caches are alike, and so are those of any histories where spellings do not matter. -/
theorem alike_after {r : Resolver Id} {files : Path → Bool}
    (hinvalid : ∀ file, files file = true → r.source.object? file = none) {before before' : List Query}
    (hhistory : (before = [] ∧ before' = []) ∨ (r.source.RespectsPaths ∧
      ∀ p q : Path, p.components = q.components → files p = files q)) :
    Alike r.source (r.source.emptied files) (after r before)
      (after { r with source := r.source.emptied files } before') := by
  have hread := PackageLookup.alike_read_emptied hinvalid
  intro dir
  rcases hhistory with ⟨rfl, rfl⟩ | ⟨hr, hf⟩
  · have hempty : lookup r.source (after r []) dir = PackageLookup.read r.source dir :=
      lookup_empty r.source dir
    have hempty' : lookup (r.source.emptied files)
        (after { r with source := r.source.emptied files } []) dir =
        PackageLookup.read (r.source.emptied files) dir := lookup_empty (r.source.emptied files) dir
    rw [hempty, hempty']
    exact hread dir
  · -- Each cache may know the directory by another spelling, which the source cannot tell apart.
    have hr' := hr.emptied hf
    let repaired : Resolver Id := { r with source := r.source.emptied files }
    obtain ⟨⟨p, hp, hl⟩, -⟩ := (Resolver.faithful_replay hr before).load dir
    obtain ⟨⟨q, hq, hl'⟩, -⟩ := (Resolver.faithful_replay (r := repaired) hr' before').load dir
    have hlookup : lookup r.source (after r before) dir = PackageLookup.read r.source p := hl
    have hlookup' : lookup (r.source.emptied files) (after repaired before') dir =
        PackageLookup.read (r.source.emptied files) q := hl'
    rw [hlookup, hlookup']
    exact (hread p).trans (PackageLookup.alike_read_of_respectsPaths hr' (hp.trans hq.symm))

end PackageCache

/-! ## Resolution -/

namespace Resolver

variable {r : Resolver Id} {packages packages' : PackageCache}

theorem detectFormat_eq (r r' : Resolver Id)
    (h : PackageCache.Alike r.source r'.source packages packages') (p : Path) :
    ((r.detectFormat p).run packages).1 = ((r'.detectFormat p).run packages').1 := by
  unfold detectFormat
  split
  case h_6 | h_7 | h_8 =>
    rw [run_scriptFormat_findNearest, run_scriptFormat_findNearest]
    exact h.loadFirst _
  all_goals rfl

theorem alike_pathCache {files : Path → Bool}
    (h : PackageCache.Alike r.source (r.source.emptied files) packages packages') (mode : ResolveMode)
    (target : Path) :
    PackageCache.Alike r.source (r.source.emptied files) (r.pathCache mode target packages)
      (({ r with source := r.source.emptied files } : Resolver Id).pathCache mode target packages') := by
  have hpath : ({ r with source := r.source.emptied files } : Resolver Id).pathCache mode target
        packages' =
      if mode = .require ∧ r.firstExisting (r.filePaths target) = none ∧
          Id.run (r.source.existsDir target) = true then
        ((PackageCache.load (r.source.emptied files) target).run packages').2
      else packages' := rfl
  rw [pathCache, hpath]
  split
  · exact h.load target
  · exact h

theorem PathTarget.emptied {specifier : String} {base : Path} {target? : Option Path}
    (h : r.PathTarget specifier base target?) (files : Path → Bool) :
    ({ r with source := r.source.emptied files } : Resolver Id).PathTarget specifier base target? := by
  cases h with
  | path hp hd hn => exact .path hp hd hn
  | file hne hk hf => exact .file hne hk hf

theorem answer_eq {files : Path → Bool}
    (h : PackageCache.Alike r.source (r.source.emptied files) packages packages')
    (outcome : Except ResolveError Path) : r.answer packages outcome =
      ({ r with source := r.source.emptied files } : Resolver Id).answer packages' outcome := by
  cases outcome with
  | error e => rw [answer_error, answer_error]
  | ok p =>
    have hformat := r.detectFormat_eq { r with source := r.source.emptied files } h p
    have hkind : (r.source.emptied files).kind = r.source.kind := rfl
    rw [answer_ok, answer_ok, hformat, hkind]

/-- To requests for paths and to formats, a `package.json` that is no object is as good as an empty
one. With `\x7b\x7d` for the content of any set of such files, each of these requests is answered as
before, with the same module or with the same error, and each path has the same format. -/
theorem invalid_manifests_harmless (r : Resolver Id) (files : Path → Bool)
    (hinvalid : ∀ file, files file = true → r.source.object? file = none) (before before' : List Query)
    (hhistory : (before = [] ∧ before' = []) ∨ (r.source.RespectsPaths ∧
      ∀ p q : Path, p.components = q.components → files p = files q)) :
    let repaired : Resolver Id := { r with source := r.source.emptied files }
    (∀ specifier referrer mode target?, r.PathTarget specifier (r.baseDirectory referrer) target? →
      ((r.resolve ⟨specifier, referrer, mode⟩).run (PackageCache.after r before)).1 =
        ((repaired.resolve ⟨specifier, referrer, mode⟩).run
          (PackageCache.after repaired before')).1) ∧
    ∀ p, ((r.detectFormat p).run (PackageCache.after r before)).1 =
      ((repaired.detectFormat p).run (PackageCache.after repaired before')).1 := by
  intro repaired
  have halike : PackageCache.Alike r.source repaired.source (.after r before)
      (.after repaired before') := PackageCache.alike_after hinvalid hhistory
  refine ⟨fun specifier referrer mode target? htarget => ?_, r.detectFormat_eq repaired halike⟩
  let request : Request := ⟨specifier, referrer, mode⟩
  have htarget' := htarget.emptied files
  have hI : (PackageCache.after r before).Rooted := r.rooted_replay Observer.plain before ()
  have hI' : (PackageCache.after repaired before').Rooted :=
    repaired.rooted_replay Observer.plain before' ()
  cases target? with
  | none =>
    have hends := (htarget.gives_resolveKind_of_none mode).ends (PackageCache.after r before)
    have hends' := (htarget'.gives_resolveKind_of_none mode).ends (PackageCache.after repaired before')
    rw [r.resolve_eq_answer request htarget.ne_empty hends,
      repaired.resolve_eq_answer request htarget.ne_empty hends']
    exact answer_eq halike _
  | some target =>
    have hends := htarget.ends_resolveKind hI mode
    have hends' := htarget'.ends_resolveKind hI' mode
    rw [(halike target).main] at hends
    rw [r.resolve_eq_answer request htarget.ne_empty hends,
      repaired.resolve_eq_answer request htarget.ne_empty hends']
    exact answer_eq (alike_pathCache halike mode target) _

/-- A manifest that does not parse, in a directory below a package of ES modules. It hides that package
as an empty one does. -/
theorem invalid_manifests_harmless_below :
    let files := ((MemoryFiles.empty.insertFile ⟨"/package.json"⟩
      (.ok "\x7b\"type\":\"module\"\x7d".toUTF8)).insertFile ⟨"/a/package.json"⟩
      (.ok "[".toUTF8)).insertFile ⟨"/a/index.js"⟩ (.ok "".toUTF8)
    let r : Resolver Id := .ofSource files.toSource ⟨"/"⟩ ⟨"/"⟩
    let broken (p : Path) : Bool := p.same ⟨"/a/package.json"⟩
    let repaired : Resolver Id := { r with source := r.source.emptied broken }
    (∀ p, broken p = true → r.source.object? p = none) ∧ r.source.RespectsPaths ∧
      r.PathTarget "./a" (r.baseDirectory none) (some ⟨"/a"⟩) ∧
      ((r.resolve ⟨"./a", none, .require⟩).run (PackageCache.after r [])).1 =
        .ok ⟨⟨"/a/index.js"⟩, .filesystem, .cjs⟩ ∧
      ((repaired.resolve ⟨"./a", none, .require⟩).run
        (PackageCache.after repaired [.detectFormat ⟨"/a//b.ts"⟩])).1 =
        .ok ⟨⟨"/a/index.js"⟩, .filesystem, .cjs⟩ := by
  intro files r broken repaired
  have hr : r.source.RespectsPaths := files.toSource_respectsPaths
  have hinvalid (p : Path) (hp : broken p = true) : r.source.object? p = none := by
    have hnone : (r.source.object? ⟨"/a/package.json"⟩).isNone = true := by decide +kernel
    rw [hr.object?_eq (Path.same_iff.mp hp)]
    simpa using hnone
  have hbroken (p q : Path) (hc : p.components = q.components) : broken p = broken q := by
    change p.same _ = q.same _
    rw [Path.same, Path.same, hc]
  have htarget : r.PathTarget "./a" (r.baseDirectory none) (some ⟨"/a"⟩) :=
    .path (by decide +kernel) (by decide +kernel) (by decide +kernel)
  have hanswer : ((r.resolve ⟨"./a", none, .require⟩).run (PackageCache.after r [])).1 =
      .ok ⟨⟨"/a/index.js"⟩, .filesystem, .cjs⟩ := by decide +kernel
  clear_value r
  have hsame := (r.invalid_manifests_harmless broken hinvalid [] [.detectFormat ⟨"/a//b.ts"⟩]
    (.inr ⟨hr, hbroken⟩)).1 "./a" none .require _ htarget
  exact ⟨hinvalid, hr, htarget, hanswer, hsame.symm.trans hanswer⟩

end Resolver

end ModuleLoader
