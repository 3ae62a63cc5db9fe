import ModuleLoader.Proofs.Resolve.Candidates
import ModuleLoader.Proofs.Resolve.Exports

/-! Imports are requires that look less. Where no tree of `exports` or `imports` distinguishes the two
modes, whatever an import finds is what `require` finds first. -/

namespace ModuleLoader

namespace Search

variable {α β : Type} {a b : PackageCache} {x y : Search Id α} {f g : α → Search Id β}

/-- Whether the second search does what the first one does, wherever the first one finds something. -/
def Restricts (packages : PackageCache) (x y : Search Id α) : Prop :=
  ∃ outcome packages', Ends packages x outcome packages' ∧
    ∀ v, outcome = .ok v → Ends packages y (.ok v) packages'

theorem Gives.restricts_self {outcome : Except ResolveError α} (h : Gives x outcome) :
    Restricts a x x := by
  refine ⟨outcome, a, h.ends a, fun v hv => ?_⟩
  rw [← hv]
  exact h.ends a

theorem Ends.restricts_of_error {e : ResolveError} (h : Ends a x (.error e) b) (y : Search Id α) :
    Restricts a x y := ⟨.error e, b, h, nofun⟩

theorem Ends.restricts_bind {v : α} (h : Ends a x (.ok v) b) (hf : Restricts b (f v) (g v)) :
    Restricts a (x >>= f) (x >>= g) := by
  obtain ⟨outcome, c, hfv, hgv⟩ := hf
  exact ⟨outcome, c, h.bind hfv, fun w hw => h.bind (hgv w hw)⟩

theorem Gives.restricts_bind {v : α} (h : Gives x (.ok v)) (hf : Restricts a (f v) (g v)) :
    Restricts a (x >>= f) (x >>= g) := (h.ends a).restricts_bind hf

end Search

namespace Resolver

open Search

variable {r : Resolver Id} {packages : PackageCache}

/-! ## Paths -/

theorem eq_of_importOutcome {target file referrer : Path} {specifier : String}
    (h : r.importOutcome target specifier referrer = .ok file) :
    Id.run (r.source.existsFile target) = true ∧ file = target := by
  unfold importOutcome at h
  split at h
  · next he => exact ⟨he, (Except.ok.inj h).symm⟩
  · split at h
    · cases h
    · split at h <;> cases h

theorem restricts_resolvePath (hI : packages.Rooted) (target : Path) (specifier : String)
    (referrer : Path) :
    Restricts packages (r.resolvePath .import target specifier referrer)
      (r.resolvePath .require target specifier referrer) := by
  refine ⟨_, _, r.ends_resolvePath hI .import target specifier referrer, fun file hfile => ?_⟩
  obtain ⟨hexists, rfl⟩ := eq_of_importOutcome hfile
  have hends := r.ends_resolvePath hI .require file specifier referrer
  rw [pathOutcome_of_exists hexists, pathCache_of_exists hexists] at hends
  rw [pathCache_of_exists hexists]
  exact hends

theorem restricts_resolvePathSpecifier (hI : packages.Rooted) (kind : SpecifierKind)
    (specifier : String) (base : Path) :
    Restricts packages (r.resolvePathSpecifier kind specifier base .import)
      (r.resolvePathSpecifier kind specifier base .require) := by
  unfold resolvePathSpecifier
  cases r.normalize? (pathOf kind specifier base) with
  | none => exact (gives_throw _).restricts_self
  | some target => exact (gives_note _).restricts_bind (restricts_resolvePath hI target specifier base)

/-! ## Packages -/

theorem firstExisting_packageIndexPaths (hx : r.extensions = defaultExtensions) {root file : Path}
    (h : r.firstExisting (r.packageIndexPaths root .import) = some file) :
    r.firstExisting (r.packageIndexPaths root .require) = some file := by
  simp only [packageIndexPaths] at h ⊢
  -- The one index that an import knows has the first of the default extensions.
  obtain ⟨rest, hpaths⟩ : ∃ rest, r.indexPaths root = [root.joinText "index.js"] ++ rest := by
    have hname : "index" ++ ".js" = "index.js" := by decide
    exact ⟨_, by rw [indexPaths, hx, defaultExtensions, List.map_cons, hname]; rfl⟩
  rw [hpaths, firstExisting_append, h]
  rfl

theorem restricts_loadPackageIndex (hx : r.extensions = defaultExtensions) (root : Path)
    (specifier : String) :
    Restricts packages
      (r.loadPackageIndex root .import >>= fun
        | some file => pure file
        | none => throw (notFound specifier root))
      (r.loadPackageIndex root .require >>= fun
        | some file => pure file
        | none => throw (notFound specifier root)) := by
  have himport := (r.tries_loadPackageIndex packages root .import).ends
  have hrequire := (r.tries_loadPackageIndex packages root .require).ends
  cases hi : r.firstExisting (r.packageIndexPaths root .import) with
  | none =>
    rw [hi] at himport
    exact (himport.bind ((gives_throw _).ends packages)).restricts_of_error _
  | some file =>
    rw [firstExisting_packageIndexPaths hx hi] at hrequire
    rw [hi] at himport
    refine ⟨.ok file, packages, himport.bind ((gives_pure file).ends packages), ?_⟩
    rintro _ ⟨⟩
    exact hrequire.bind ((gives_pure file).ends packages)

theorem restricts_resolveMainOrIndex (hx : r.extensions = defaultExtensions)
    (descriptor? : Option PackageDescriptor) (root : Path) (specifier : String) :
    Restricts packages (r.resolveMainOrIndex descriptor? root specifier .import)
      (r.resolveMainOrIndex descriptor? root specifier .require) := by
  unfold resolveMainOrIndex
  cases descriptor? with
  | none => exact (gives_pure none).restricts_bind (restricts_loadPackageIndex hx root specifier)
  | some d =>
    refine (r.tries_loadMain packages d).ends.restricts_bind ?_
    cases r.firstExisting (r.mainPaths d.root d.main) with
    | none => exact restricts_loadPackageIndex hx root specifier
    | some file => exact (gives_pure file).restricts_self

theorem restricts_resolveSubpath (hx : r.extensions = defaultExtensions) (hI : packages.Rooted)
    {descriptor? : Option PackageDescriptor}
    (hexports : descriptor?.bind PackageDescriptor.exports = none) (root : Path)
    (subpath specifier : String) :
    Restricts packages (r.resolveSubpath descriptor? root subpath specifier .import)
      (r.resolveSubpath descriptor? root subpath specifier .require) := by
  unfold resolveSubpath
  rw [hexports]
  dsimp only
  split
  · exact restricts_resolveMainOrIndex hx descriptor? root specifier
  · unfold resolveLiteralSubpath
    refine (gives_warn _ _).restricts_bind ?_
    cases r.normalize? (root.joinText subpath) with
    | none => exact (gives_throw _).restricts_self
    | some target => exact restricts_resolvePath hI target specifier root

theorem restricts_resolveBare (hx : r.extensions = defaultExtensions) (hI : packages.Rooted)
    {specifier : String} {base : Path}
    (hexports : ∀ bare root, BareSpecifier.parse? specifier = some bare →
      r.packageRoot? bare.package base = some root → (packages.lookup r.source root).exports? = none) :
    Restricts packages (r.resolveBare specifier base .import)
      (r.resolveBare specifier base .require) := by
  unfold resolveBare
  cases hbare : BareSpecifier.parse? specifier with
  | none => exact (gives_throw _).restricts_self
  | some bare =>
    obtain ⟨name, subpath⟩ := bare
    refine (gives_note _).restricts_bind ((r.gives_findPackageRoot name base).restricts_bind ?_)
    cases hroot : r.packageRoot? name base with
    | none => exact (gives_throw _).restricts_self
    | some root =>
      -- Both modes look up the package, so they go on with the same cache.
      have hkept := (hI.load Observer.plain r.source root ()).1
      have hnone := hexports _ root hbare hroot
      refine (r.ends_package root packages).restricts_bind ?_
      generalize packages.lookup r.source root = lookup at hnone ⊢
      cases lookup with
      | invalid fault => exact (gives_throw _).restricts_self
      | missing => exact restricts_resolveSubpath hx hkept rfl root subpath specifier
      | loaded d => exact restricts_resolveSubpath hx hkept hnone root subpath specifier

/-! ## Requests -/

/-- Whether a specifier is looked up as the name of a package. -/
def TakenForPackage (r : Resolver Id) (specifier : String) (base : Path) : Prop :=
  (Specifier.kind specifier = .windowsAbsolute ∧ r.source.kind = .bundle) ∨
    ((Specifier.kind specifier = .bare ∨ Specifier.kind specifier = .scopedBare) ∧
      r.namedFile? (Specifier.normalize specifier) base = none)

theorem restricts_resolveKind (hx : r.extensions = defaultExtensions) (hI : packages.Rooted)
    {specifier : String} {base : Path} (hk : Specifier.kind specifier ≠ .hashImport)
    (hexports : ∀ bare root, r.TakenForPackage specifier base →
      BareSpecifier.parse? (Specifier.normalize specifier) = some bare →
      r.packageRoot? bare.package base = some root → (packages.lookup r.source root).exports? = none) :
    Restricts packages
      (r.resolveKind (Specifier.kind specifier) (Specifier.normalize specifier) base .import)
      (r.resolveKind (Specifier.kind specifier) (Specifier.normalize specifier) base .require) := by
  unfold resolveKind
  rw [if_neg hk, if_neg hk]
  by_cases hdrive : (Specifier.kind specifier = .windowsAbsolute && r.source.kind = .bundle) = true
  · rw [if_pos hdrive, if_pos hdrive]
    have htaken : r.TakenForPackage specifier base := .inl (by simpa using hdrive)
    exact restricts_resolveBare hx hI fun bare root => hexports bare root htaken
  · rw [if_neg hdrive, if_neg hdrive]
    by_cases hpath : (Specifier.kind specifier).isPath = true
    · rw [if_pos hpath, if_pos hpath]
      exact restricts_resolvePathSpecifier hI _ _ base
    · rw [if_neg hpath, if_neg hpath]
      refine (r.gives_bundleFileFor _ base).restricts_bind ?_
      cases hfile : r.namedFile? (Specifier.normalize specifier) base with
      | some file =>
        exact ((gives_warn _ _).bind (gives_pure file)).restricts_self
      | none =>
        have hbare : Specifier.kind specifier = .bare ∨ Specifier.kind specifier = .scopedBare := by
          cases hkind : Specifier.kind specifier <;> simp_all [SpecifierKind.isPath]
        have htaken : r.TakenForPackage specifier base := .inr ⟨hbare, hfile⟩
        exact restricts_resolveBare hx hI fun bare root => hexports bare root htaken

theorem resolve_empty (referrer : Option Path) (mode : ResolveMode) :
    ((r.resolve ⟨"", referrer, mode⟩).run packages).1 = .error .emptySpecifier := rfl

/-- With the default extensions, what an import finds `require` finds too, as the same module. This is
so for paths, for the names of bundle files and for packages without `exports`. -/
theorem require_of_import (r : Resolver Id) (hx : r.extensions = defaultExtensions)
    (history : List Query) (hhistory : history = [] ∨ r.source.RespectsPaths) (specifier : String)
    (referrer : Option Path) (hk : Specifier.kind specifier ≠ .hashImport)
    (hexports : ∀ bare root, r.TakenForPackage specifier (r.baseDirectory referrer) →
      BareSpecifier.parse? (Specifier.normalize specifier) = some bare →
      r.packageRoot? bare.package (r.baseDirectory referrer) = some root →
      r.source.exports? root = none) (found : ResolvedModule)
    (himport : ((r.resolve ⟨specifier, referrer, .import⟩).run (PackageCache.after r history)).1 =
      .ok found) :
    ((r.resolve ⟨specifier, referrer, .require⟩).run (PackageCache.after r history)).1 =
      .ok found := by
  have hI : (PackageCache.after r history).Rooted := r.rooted_replay Observer.plain history ()
  have hne : specifier ≠ "" := by
    rintro rfl
    rw [resolve_empty] at himport
    cases himport
  obtain ⟨outcome, packages', hi, hr⟩ := restricts_resolveKind hx hI hk fun bare root htaken hbare hroot => by
    rw [PackageCache.exports?_lookup_after hhistory]
    exact hexports bare root htaken hbare hroot
  rw [r.resolve_eq_answer ⟨specifier, referrer, .import⟩ hne hi] at himport
  cases outcome with
  | error e => cases himport
  | ok file =>
    rw [r.resolve_eq_answer ⟨specifier, referrer, .require⟩ hne (hr file rfl)]
    exact himport

/-- A package that is imported by its `main`, of which the extension is missing. -/
theorem require_of_import_main :
    let place (files : MemoryFiles) (name content : String) : MemoryFiles :=
      files.insertFile ⟨"/node_modules/p/" ++ name⟩ (.ok content.toUTF8)
    let files := place (place .empty "package.json"
      "\x7b\"type\":\"module\",\"main\":\"lib\",\"exports\":null\x7d") "lib.ts" ""
    let r : Resolver Id := .ofSource files.toSource ⟨"/"⟩ ⟨"/"⟩
    r.extensions = defaultExtensions ∧ Specifier.kind "p" ≠ .hashImport ∧
      r.packageRoot? "p" ⟨"/"⟩ = some ⟨"/node_modules/p"⟩ ∧
      r.source.exports? ⟨"/node_modules/p"⟩ = none ∧
      ((r.resolve ⟨"p", none, .import⟩).run (PackageCache.after r [])).1 =
        .ok ⟨⟨"/node_modules/p/lib.ts"⟩, .filesystem, .esm⟩ ∧
      ((r.resolve ⟨"p", none, .require⟩).run (PackageCache.after r [])).1 =
        .ok ⟨⟨"/node_modules/p/lib.ts"⟩, .filesystem, .esm⟩ := by
  intro place files r
  have hx : r.extensions = defaultExtensions := rfl
  have hk : Specifier.kind "p" ≠ .hashImport := by decide +kernel
  have hbare : BareSpecifier.parse? (Specifier.normalize "p") = some ⟨"p", "."⟩ := by decide +kernel
  have hroot : r.packageRoot? "p" (r.baseDirectory none) = some ⟨"/node_modules/p"⟩ := by
    decide +kernel
  have hexports : r.source.exports? ⟨"/node_modules/p"⟩ = none := by
    have hnull : (r.source.exports? ⟨"/node_modules/p"⟩).isNone = true := by decide +kernel
    simpa using hnull
  have himport : ((r.resolve ⟨"p", none, .import⟩).run (PackageCache.after r [])).1 =
      .ok ⟨⟨"/node_modules/p/lib.ts"⟩, .filesystem, .esm⟩ := by decide +kernel
  have hbase : r.packageRoot? "p" ⟨"/"⟩ = some ⟨"/node_modules/p"⟩ := hroot
  clear_value r
  refine ⟨hx, hk, hbase, hexports, himport, ?_⟩
  refine r.require_of_import hx [] (.inl rfl) "p" none hk (fun bare root _ hb hr => ?_) _ himport
  obtain rfl : _ = bare := Option.some.inj (hbare.symm.trans hb)
  obtain rfl : _ = root := Option.some.inj (hroot.symm.trans hr)
  exact hexports

end Resolver

end ModuleLoader
