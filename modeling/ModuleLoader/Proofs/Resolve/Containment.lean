import ModuleLoader.Proofs.Package.Target
import ModuleLoader.Proofs.Resolve.Normal
import ModuleLoader.Proofs.Resolve.Zone

/-! Containment. A target of a package stays below the package's root, unless it climbs by the
backslashes that a bundle takes for slashes. -/

namespace ModuleLoader

open ModuleLoader.Path Text

/-- The steps that a relative path takes in a source. -/
def StorageKind.descent (kind : StorageKind) (p : Path) : List Component :=
  match kind with
  | .filesystem => p.inner
  | .bundle => p.inner.flatMap Bundle.unfoldBackslashes

namespace Resolver

variable {m : Type → Type} (r : Resolver m)

/-- Whether a path lies at or below the normal form of a package's root. -/
def Contains (root p : Path) : Prop :=
  ∃ base, r.normalize? root = some base ∧ base.components <+: p.components

variable {r} {p q root : Path}

theorem steps_join (hq : q.isAbsolute = false) (p : Path) :
    r.steps (p.join q) = r.steps p ++ r.source.kind.descent q := by
  unfold steps StorageKind.descent
  cases r.source.kind with
  | filesystem => exact inner_absolutize_join hq _ p
  | bundle =>
    dsimp only
    rw [inner_join_of_relative hq, List.flatMap_append]

theorem isRooted_join (hq : q.isAbsolute = false) (p : Path) :
    r.isRooted (p.join q) = r.isRooted p := by
  unfold isRooted
  cases r.source.kind with
  | filesystem => exact isAbsolute_absolutize_join hq _ p
  | bundle => rfl

/-- Whatever a relative path without a step up leads to lies below where it starts. -/
theorem contains_of_normalize?_join (hq : q.isAbsolute = false)
    (hup : .up ∉ r.source.kind.descent q) (h : r.normalize? (root.join q) = some p) :
    r.Contains root p := by
  rw [r.normalize?_eq, isRooted_join hq] at h
  obtain ⟨names, hs, rfl⟩ := Option.map_eq_some_iff.mp h
  have hnames := isName_of_settle_steps hs
  rw [steps_join hq, settle_append] at hs
  obtain ⟨front, hf, hb⟩ := Option.bind_eq_some_iff.mp hs
  have hfront := isName_of_settle_steps hf
  have hkept : front <+: names := by
    have hr := reverse_isPrefix_of_settle hup hb
    rwa [List.reverse_reverse] at hr
  refine ⟨ofNames (r.isRooted root) front, ?_, ?_⟩
  · rw [r.normalize?_eq, hf]
    rfl
  · rw [components_ofNames _ fun name hm => (hfront name hm).1,
      components_ofNames _ fun name hm => (hnames name hm).1]
    exact (List.prefix_append_right_inj _).mpr (hkept.map Component.name)

theorem up_notMem_descent {kind : StorageKind} {target : String}
    (h : Target.hasParentSegment target = false)
    (hb : kind = .bundle → Target.hasParentSegment (forwardSlashes target) = false) :
    .up ∉ kind.descent ⟨target⟩ := by
  cases kind with
  | filesystem => exact Target.up_notMem_inner h
  | bundle =>
    rw [StorageKind.descent, ← Bundle.inner_display]
    exact Target.up_notMem_inner (hb rfl)

/-- A checked target is contained, if also what a bundle makes of it does not climb. -/
theorem contains_of_checked {field : TargetField} {target : String}
    (hc : Target.Checked field target) (hp : Target.isPathTarget target = true)
    (hb : r.source.kind = .bundle → Target.hasParentSegment (forwardSlashes target) = false)
    (h : r.normalize? (root.joinText target) = some p) : r.Contains root p := by
  have hrel : (Path.mk target).isAbsolute = false := by
    obtain ⟨rest, hrest⟩ := Target.isPathTarget_iff.mp hp
    simp [isAbsolute, hrest, startsWith_singleton]
  exact contains_of_normalize?_join hrel (up_notMem_descent (hc.not_parent hp) hb) h

/-! ## Packages -/

section Search

variable [Monad m] {σ : Type} {o : Observer m σ} {I : PackageCache → σ → Prop}

theorem ensures_resolvePackageFile (root : Path) (target key specifier : String) :
    o.Ensures (fun _ _ => True) (fun p => r.normalize? (root.joinText target) = some p)
      (r.resolvePackageFile root target key specifier) := by
  unfold resolvePackageFile
  cases hn : r.normalize? (root.joinText target) with
  | none => exact .throw _
  | some path =>
    have hasked : ∀ ⦃packages : PackageCache⦄ ⦃w : σ⦄, True → True ∧
        ((o.run (r.source.existsFile path) w).1 = true → True) := fun _ _ h => ⟨h, fun _ => h⟩
    refine (Observer.Ensures.tried _).andThen (.ask hasked (fun _ => ?_) ?_)
    · exact (Observer.Ensures.note _).andThen (.pure rfl)
    · exact (Observer.Ensures.note _).andThen (.throw _)

theorem ensures_resolveExports (tree : Json) (root : Path) (subpath specifier : String)
    (mode : ResolveMode) :
    o.Ensures (fun _ _ => True) (fun p => ∃ found,
        Target.select mode.conditions .exports subpath tree = .ok (some found) ∧
          r.normalize? (root.joinText found.target) = some p)
      (r.resolveExports tree root subpath specifier mode) := by
  refine (Confines.selectTarget .exports tree subpath root mode).bind fun found hs => ?_
  cases found with
  | none => exact (Observer.Ensures.note _).andThen (.throw _)
  | some found =>
    have hfile := ensures_resolvePackageFile (r := r) (o := o) root found.target subpath specifier
    exact (Observer.Ensures.note _).andThen (hfile.imp fun p hp => ⟨found, hs, hp⟩)

theorem ensures_resolveImports (owner : PackageDescriptor) (tree : Json) (specifier : String)
    {mode : ResolveMode} {found : TargetMatch}
    (hs : Target.select mode.conditions .imports specifier tree = .ok (some found))
    (hp : Target.isPathTarget found.target = true) :
    o.Ensures (fun _ _ => True) (fun p => r.normalize? (owner.root.joinText found.target) = some p)
      (r.resolveImports owner tree specifier mode) := by
  refine (Confines.selectTarget .imports tree specifier owner.root mode).bind fun found' hs' => ?_
  obtain rfl : some found = found' := Except.ok.inj (hs.symm.trans hs')
  refine (Observer.Ensures.note _).andThen ?_
  rw [if_pos hp]
  exact ensures_resolvePackageFile owner.root found.target specifier specifier

end Search

/-- A file that `exports`, or a path among `imports`, lead to lies below the root of the package,
unless a bundle finds a `..` in the target once its backslashes are slashes. -/
theorem package_contained {σ : Type} (r : Resolver (StateM σ)) {field : TargetField} {tree : Json}
    {subpath : String} {mode : ResolveMode} {found : TargetMatch}
    (hs : Target.select mode.conditions field subpath tree = .ok (some found))
    (hb : r.source.kind = .bundle →
      Target.hasParentSegment (forwardSlashes found.target) = false)
    (s : SearchState) (w : σ) (p : Path) :
    (field = .exports → ∀ root specifier,
      (((r.resolveExports tree root subpath specifier mode).run.run s).run w).1.1 = .ok p →
        r.Contains root p) ∧
    (field = .imports → Target.isPathTarget found.target = true → ∀ owner,
      (((r.resolveImports owner tree subpath mode).run.run s).run w).1.1 = .ok p →
        r.Contains owner.root p) := by
  have hc := Target.checked_of_select hs
  constructor
  · rintro rfl root specifier h
    have hex := ensures_resolveExports (r := r) (o := .state σ) tree root subpath specifier mode
    obtain ⟨found', hs', hn⟩ := hex.post_of_eq_ok trivial h
    obtain rfl : found = found' := Option.some.inj (Except.ok.inj (hs.symm.trans hs'))
    exact contains_of_checked hc (hc.isPathTarget_of_exports rfl) hb hn
  · rintro rfl hp owner h
    have him := ensures_resolveImports (r := r) (o := .state σ) owner tree subpath hs hp
    exact contains_of_checked hc hp hb (him.post_of_eq_ok trivial h)

/-- A pattern of `exports` whose capture has a backslash, but goes down with it. -/
theorem package_contained_pattern :
    let bundle := Bundle.ofEntries [("p/lib/a/b.js", "".toUTF8)]
    let r : Resolver (StateM Unit) := .ofSource bundle.toSource ⟨""⟩ ⟨"/"⟩
    let tree : Json := .object ⟨[("./*", .string "./lib/*.js")]⟩
    let s : SearchState := ⟨PackageCache.empty, Trace.empty⟩
    Target.select ResolveMode.require.conditions .exports "./a\\b" tree =
        .ok (some ⟨"./lib/a\\b.js", "./*", none⟩) ∧
      (((r.resolveExports tree ⟨"p"⟩ "./a\\b" "" .require).run.run s).run ()).1.1 =
        .ok ⟨"p/lib/a/b.js"⟩ ∧
      r.Contains ⟨"p"⟩ ⟨"p/lib/a/b.js"⟩ := by
  intro bundle r tree s
  have hs : Target.select ResolveMode.require.conditions .exports "./a\\b" tree =
      .ok (some ⟨"./lib/a\\b.js", "./*", none⟩) := by
    decide +kernel
  have hb : r.source.kind = .bundle →
      Target.hasParentSegment (forwardSlashes "./lib/a\\b.js") = false := fun _ => by decide +kernel
  have h : (((r.resolveExports tree ⟨"p"⟩ "./a\\b" "" .require).run.run s).run ()).1.1 =
      .ok ⟨"p/lib/a/b.js"⟩ := by
    decide +kernel
  exact ⟨hs, h, (r.package_contained hs hb s () _).1 rfl ⟨"p"⟩ "" h⟩

/-- A target that climbs by backslashes is selected, and leads out of its package in a bundle. -/
theorem not_contains_of_backslashes :
    let bundle := Bundle.ofEntries [("secret.js", "".toUTF8)]
    let r : Resolver (StateM Unit) := .ofSource bundle.toSource ⟨""⟩ ⟨"/"⟩
    let root : Path := ⟨"node_modules/p"⟩
    let s : SearchState := ⟨PackageCache.empty, Trace.empty⟩
    (((r.resolveExports (.string "./..\\..\\secret.js") root "." "p" .require).run.run s).run ()).1.1 =
        .ok ⟨"secret.js"⟩ ∧
      ¬r.Contains root ⟨"secret.js"⟩ := by
  intro bundle r root s
  refine ⟨by decide +kernel, ?_⟩
  rintro ⟨base, hn, hp⟩
  have hbase : r.normalize? root = some root := by decide +kernel
  obtain rfl : base = root := Option.some.inj (hn.symm.trans hbase)
  exact absurd hp (by decide)

end Resolver

end ModuleLoader
