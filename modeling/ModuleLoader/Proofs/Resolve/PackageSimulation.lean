import ModuleLoader.Proofs.Resolve.Simulation

/-! Packages and whole requests under a simulation: the search of `node_modules`, the trees of
`exports` and `imports`, and every kind of specifier. -/

namespace ModuleLoader.Simulates

open Likeness

variable {m m' : Type → Type} [Monad m] [Monad m'] {σ σ' : Type} {l : Likeness σ σ'}
  {o : Observer m σ} {o' : Observer m' σ'} {r : Resolver m} {r' : Resolver m'}
  (h : Simulates l o o' r r')
include h

/-! ## Packages -/

theorem findPackageRoot (name : String) {dirs dirs' : List Path}
    (hd : List.Forall₂ l.path dirs dirs') :
    l.Agree o o' (Option.Rel l.path) (r.findPackageRoot name dirs) (r'.findPackageRoot name dirs') := by
  induction hd with
  | nil => exact (Agree.note _ _).andThen (Agree.pure .none)
  | cons hp _ ih =>
    unfold Resolver.findPackageRoot
    rw [h.fileName hp]
    split
    · exact ih
    · have hc := h.joinText name (h.joinText Resolver.packagesDirectory hp)
      refine (Agree.tried _ _).andThen ((Agree.ask (h.existsDir hc)).ite ?_ ih)
      exact (Agree.note _ _).andThen (Agree.pure (.some hc))

theorem resolvePackageFile {root root' : Path} (target key specifier : String)
    (hr : l.path root root') :
    l.Agree o o' l.path (r.resolvePackageFile root target key specifier)
      (r'.resolvePackageFile root' target key specifier) := by
  have he : l.error (.invalidPackageTarget key target root)
      (.invalidPackageTarget key target root') := h.error rfl fun hs => by rw [hs hr]
  refine Agree.normalized (Agree.throw he) (fun p q hpq => ?_) (h.normalize (h.joinText target hr))
  have hp := h.path_of_exact hpq
  refine (Agree.tried _ _).andThen ((Agree.ask (h.existsFile hp)).ite ?_ ?_)
  · exact (Agree.note _ _).andThen (Agree.pure hp)
  · exact (Agree.note _ _).andThen (Agree.throw (h.notFound specifier hr))

theorem selectTarget (field : TargetField) (tree : Json) (subpath : String) {root root' : Path}
    (mode : ResolveMode) (hr : l.path root root') :
    l.Agree o o' Eq (Resolver.selectTarget field tree subpath root mode : Search m _)
      (Resolver.selectTarget field tree subpath root' mode) := by
  unfold Resolver.selectTarget
  split
  · exact Agree.pure rfl
  · next error _ =>
    refine Agree.throw (h.error ?_ fun hs => by rw [hs hr])
    cases error <;> rfl

theorem resolveExports (tree : Json) {root root' : Path} (subpath specifier : String)
    (mode : ResolveMode) (hr : l.path root root') :
    l.Agree o o' l.path (r.resolveExports tree root subpath specifier mode)
      (r'.resolveExports tree root' subpath specifier mode) := by
  refine (h.selectTarget .exports tree subpath mode hr).bind fun a b hab => ?_
  subst hab
  cases a with
  | none =>
    exact (Agree.note _ _).andThen (Agree.throw (h.error rfl fun hs => by rw [hs hr]))
  | some found =>
    exact (Agree.note _ _).andThen (h.resolvePackageFile found.target subpath specifier hr)

theorem resolveLiteralSubpath {root root' : Path} (subpath specifier : String)
    (mode : ResolveMode) (hr : l.path root root') :
    l.Agree o o' l.path (r.resolveLiteralSubpath root subpath specifier mode)
      (r'.resolveLiteralSubpath root' subpath specifier mode) := by
  refine (Agree.warn _ _ _ _).andThen ?_
  have he := h.notFound specifier hr
  exact Agree.normalized (Agree.throw he) (fun p q hpq => h.probes.resolvePath he mode hpq)
    (h.normalize (h.joinText subpath hr))

theorem loadPackageIndex {root root' : Path} (mode : ResolveMode) (hr : l.path root root') :
    l.Agree o o' (Option.Rel l.path) (r.loadPackageIndex root mode)
      (r'.loadPackageIndex root' mode) := by
  cases mode with
  | require => exact h.probes.loadIndex hr
  | «import» =>
    have hi := h.joinText "index.js" hr
    exact (Agree.tried _ _).andThen
      ((Agree.ask (h.existsFile hi)).ite (Agree.pure (.some hi)) (Agree.pure .none))

theorem resolveMainOrIndex {d d' : Option PackageDescriptor} {root root' : Path}
    (specifier : String) (mode : ResolveMode) (hd : Option.Rel l.Descriptor d d')
    (hr : l.path root root') :
    l.Agree o o' l.path (r.resolveMainOrIndex d root specifier mode)
      (r'.resolveMainOrIndex d' root' specifier mode) := by
  have hnone : l.Agree o o' (Option.Rel l.path) (pure none) (pure none) := Agree.pure .none
  unfold Resolver.resolveMainOrIndex
  cases hd
  case' none => refine hnone.bind ?_
  case' some hd => refine (h.probes.loadMain hd).bind ?_
  all_goals
    rintro _ _ (hmain | _)
    · exact Agree.pure hmain
    · refine (h.loadPackageIndex mode hr).bind ?_
      rintro _ _ (hindex | _)
      · exact Agree.pure hindex
      · exact Agree.throw (h.notFound specifier hr)

theorem resolveSubpath {d d' : Option PackageDescriptor} {root root' : Path}
    (subpath specifier : String) (mode : ResolveMode) (hd : Option.Rel l.Descriptor d d')
    (hr : l.path root root') :
    l.Agree o o' l.path (r.resolveSubpath d root subpath specifier mode)
      (r'.resolveSubpath d' root' subpath specifier mode) := by
  have hexports : d.bind PackageDescriptor.exports = d'.bind PackageDescriptor.exports := by
    cases hd with
    | none => rfl
    | some hd => exact hd.exports
  unfold Resolver.resolveSubpath
  rw [hexports]
  split
  · exact h.resolveExports _ subpath specifier mode hr
  · split
    · exact h.resolveMainOrIndex specifier mode hd hr
    · exact h.resolveLiteralSubpath subpath specifier mode hr

theorem resolveBare (specifier : String) {base base' : Path} (mode : ResolveMode)
    (hb : l.path base base') :
    l.Agree o o' l.path (r.resolveBare specifier base mode)
      (r'.resolveBare specifier base' mode) := by
  unfold Resolver.resolveBare
  cases BareSpecifier.parse? specifier with
  | none => exact Agree.throw (h.error rfl fun _ => rfl)
  | some bare =>
    obtain ⟨name, subpath⟩ := bare
    refine (Agree.note _ _).andThen ?_
    refine (h.findPackageRoot name (h.ancestors hb)).bind fun a b hab => ?_
    cases hab with
    | none => exact Agree.throw (h.error rfl fun hs => by rw [hs hb])
    | some hr =>
      refine (h.probes.package hr).bind fun a b hab => ?_
      cases hab with
      | missing => exact h.resolveSubpath subpath specifier mode .none hr
      | invalid hf => exact Agree.throw (h.error rfl fun hs => by rw [hs hr, hf hs])
      | loaded hd => exact h.resolveSubpath subpath specifier mode (.some hd) hr

/-! ## Imports -/

theorem manifest {d d' : PackageDescriptor} (hd : l.Descriptor d d') :
    l.path d.manifest d'.manifest := h.joinText manifestName hd.root

theorem findImportsOwner {nearest nearest' : Option Path} {dirs dirs' : List Path}
    (hn : Option.Rel l.path nearest nearest') (hd : List.Forall₂ l.path dirs dirs') :
    l.Agree o o' (fun a b => Option.Rel l.Descriptor a.1 b.1 ∧ Option.Rel l.path a.2 b.2)
      (r.findImportsOwner nearest dirs) (r'.findImportsOwner nearest' dirs') := by
  induction hd generalizing nearest nearest' with
  | nil => exact Agree.pure ⟨.none, hn⟩
  | cons hp _ ih =>
    unfold Resolver.findImportsOwner
    refine (h.probes.package hp).bind fun a b hab => ?_
    cases hab with
    | missing => exact ih hn
    | invalid _ => exact ih hn
    | @loaded d d' hd =>
      have hn' : Option.Rel l.path (nearest.or (some d.manifest))
          (nearest'.or (some d'.manifest)) := by
        cases hn with
        | none => exact .some (h.manifest hd)
        | some hn => exact .some hn
      dsimp only
      rw [hd.imports]
      split
      · exact Agree.pure ⟨.some hd, hn'⟩
      · exact ih hn'

theorem resolveImports {d d' : PackageDescriptor} (tree : Json) (specifier : String)
    (mode : ResolveMode) (hd : l.Descriptor d d') :
    l.Agree o o' l.path (r.resolveImports d tree specifier mode)
      (r'.resolveImports d' tree specifier mode) := by
  refine (h.selectTarget .imports tree specifier mode hd.root).bind fun a b hab => ?_
  subst hab
  cases a with
  | none =>
    refine (Agree.note _ _).andThen (Agree.throw (h.error rfl fun hs => ?_))
    rw [hs (h.manifest hd)]
  | some found =>
    refine (Agree.note _ _).andThen ?_
    split
    · exact h.resolvePackageFile found.target specifier specifier hd.root
    · exact (Agree.note _ _).andThen (h.resolveBare found.target mode hd.root)

theorem resolveHashImport (specifier : String) {base base' : Path} (mode : ResolveMode)
    (hb : l.path base base') :
    l.Agree o o' l.path (r.resolveHashImport specifier base mode)
      (r'.resolveHashImport specifier base' mode) := by
  refine (h.findImportsOwner .none (h.ancestors hb)).bind ?_
  rintro ⟨owner, nearest⟩ ⟨owner', nearest'⟩ ⟨ho, hn⟩
  dsimp only at ho hn
  cases ho with
  | none =>
    refine (Agree.note _ _).andThen (Agree.throw (h.error rfl fun hs => ?_))
    cases hn with
    | none => rw [hs hb]
    | some hn => rw [hs hn]; rfl
  | some hd =>
    refine (Agree.note _ _).andThen ?_
    rw [hd.imports]
    split
    · exact Agree.throw (h.error rfl fun hs => by rw [hs (h.manifest hd)])
    · exact h.resolveImports _ specifier mode hd

/-! ## Requests -/

theorem baseDirectory {referrer referrer' : Option Path}
    (hr : Option.Rel l.path referrer referrer') :
    l.path (r.baseDirectory referrer) (r'.baseDirectory referrer') := by
  unfold Resolver.baseDirectory
  cases hr with
  | none => exact h.root
  | @some p q hp =>
    have hparent := h.parent hp
    simp only [Option.bind_some]
    generalize p.parent? = a at hparent ⊢
    generalize q.parent? = b at hparent ⊢
    cases hparent with
    | none => exact h.root
    | some hab =>
      have hn := h.normalize hab
      simp only [Option.bind_some]
      generalize r.normalize? _ = c at hn ⊢
      generalize r'.normalize? _ = d at hn ⊢
      cases hn with
      | none => exact h.root
      | some he => exact h.path_of_exact he

theorem firstFile {paths paths' : List Path} (hp : List.Forall₂ l.path paths paths') :
    l.Agree o o' (Option.Rel l.path) (r.firstFile paths) (r'.firstFile paths') := by
  induction hp with
  | nil => exact Agree.pure .none
  | cons hp _ ih => exact (Agree.ask (h.existsFile hp)).ite (Agree.pure (.some hp)) ih

theorem normalizeAll (specifier : String) {dirs dirs' : List Path}
    (hd : List.Forall₂ l.path dirs dirs') :
    List.Forall₂ l.path (dirs.filterMap fun dir => r.normalize? (dir.joinText specifier))
      (dirs'.filterMap fun dir => r'.normalize? (dir.joinText specifier)) := by
  induction hd with
  | nil => exact .nil
  | cons hp _ ih =>
    have hn := h.normalize (h.joinText specifier hp)
    rw [List.filterMap_cons, List.filterMap_cons]
    generalize r.normalize? _ = a at hn ⊢
    generalize r'.normalize? _ = b at hn ⊢
    cases hn with
    | none => exact ih
    | some hpq => exact .cons (h.path_of_exact hpq) ih

theorem bundleFileFor (specifier : String) {base base' : Path} (hb : l.path base base') :
    l.Agree o o' (Option.Rel l.path) (r.bundleFileFor specifier base)
      (r'.bundleFileFor specifier base') := by
  unfold Resolver.bundleFileFor
  rw [h.kind]
  split
  · exact Agree.pure .none
  · exact h.firstFile (h.normalizeAll specifier (.cons hb (.cons h.root .nil)))

theorem resolveName (specifier : String) {base base' : Path} (mode : ResolveMode)
    (hb : l.path base base') :
    l.Agree o o' l.path (r.resolveName specifier base mode) (r'.resolveName specifier base' mode) := by
  refine (h.bundleFileFor specifier hb).bind fun a b hab => ?_
  cases hab with
  | none => exact h.resolveBare specifier mode hb
  | some hp => exact (Agree.warn _ _ _ _).andThen (Agree.pure hp)

theorem resolveKind (hrefl : ∀ p, l.path p p) (kind : SpecifierKind) (specifier : String)
    {base base' : Path} (mode : ResolveMode) (hb : l.path base base') :
    l.Agree o o' l.path (r.resolveKind kind specifier base mode)
      (r'.resolveKind kind specifier base' mode) := by
  unfold Resolver.resolveKind
  rw [h.kind]
  split
  · exact h.resolveHashImport specifier mode hb
  · split
    · exact h.resolveBare specifier mode hb
    · split
      · refine h.probes.resolvePathSpecifier (h.notFound specifier hb) kind mode (h.normalize ?_)
        cases kind
        case relative => exact h.joinText specifier hb
        all_goals exact hrefl _
      · exact h.resolveName specifier mode hb

/-- Requests that differ in the spelling of their referrers at most. -/
structure Requests (l : Likeness σ σ') (a b : Request) : Prop where
  specifier : a.specifier = b.specifier
  referrer : Option.Rel l.path a.referrer b.referrer
  mode : a.mode = b.mode

omit h in
theorem Requests.refl (hrefl : ∀ p, l.path p p) (request : Request) :
    Requests l request request := by
  refine ⟨rfl, ?_, rfl⟩
  cases request.referrer with
  | none => exact .none
  | some p => exact .some (hrefl p)

theorem search (hrefl : ∀ p, l.path p p) {a b : Request} (hab : Requests l a b) :
    l.Agree o o' l.Resolved (r.search a) (r'.search b) := by
  obtain ⟨specifier, referrer, mode⟩ := a
  obtain ⟨specifier', referrer', mode'⟩ := b
  obtain ⟨rfl, hr, rfl⟩ := hab
  unfold Resolver.search
  dsimp only
  split
  · exact (Agree.note _ _).andThen (Agree.throw (h.error rfl fun _ => rfl))
  · refine (Agree.note _ _).andThen ?_
    refine (h.resolveKind hrefl _ _ mode (h.baseDirectory hr)).bind fun p q hp => ?_
    refine (Agree.withPackages (h.probes.detectFormat hp)).bind fun f g hf => ?_
    refine (Agree.note _ _).andThen ((Agree.note _ _).andThen (Agree.pure ?_))
    exact ⟨hp, h.kind, hf⟩

/-- A request is answered alike, and the caches stay alike. -/
theorem resolve (hrefl : ∀ p, l.path p p) {a b : Request} (hab : Requests l a b) :
    l.Looks o o' (l.Outcome l.Resolved) (r.resolve a) (r'.resolve b) := (h.search hrefl hab).resolve

end ModuleLoader.Simulates
