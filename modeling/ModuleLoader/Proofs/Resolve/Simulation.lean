import ModuleLoader.Proofs.Path.Ancestors
import ModuleLoader.Proofs.Resolve.Likeness

/-! Two resolvers whose sources and caches answer alike along related paths. Then all of the search
for a file goes alike, step by step, and ends in related files or in related errors. -/

namespace ModuleLoader

open Likeness

/-- What two resolvers need in common for the search of a file at a path to go together. Names are
written behind paths only as that search writes them. -/
structure Probes {m m' : Type → Type} [Monad m] [Monad m'] {σ σ' : Type}
    (l : Likeness σ σ') (o : Observer m σ) (o' : Observer m' σ') (r : Resolver m)
    (r' : Resolver m') : Prop where
  extensions : r.extensions = r'.extensions
  path_of_exact {p q : Path} : l.exact p q → l.path p q
  append {p q : Path} {ext : String} : ext ∈ r.extensions → l.exact p q →
    l.path (p.append ext) (q.append ext)
  index {p q : Path} {ext : String} : ext ∈ r.extensions → l.path p q →
    l.path (p.joinText ("index" ++ ext)) (q.joinText ("index" ++ ext))
  main {d d' : PackageDescriptor} {main : String} : l.Descriptor d d' → d.main = some main →
    Option.Rel l.exact (r.normalize? (d.root.joinText main)) (r'.normalize? (d'.root.joinText main))
  parent {p q : Path} : l.path p q → Option.Rel l.path p.parent? q.parent?
  ancestors {p q : Path} : l.path p q → List.Forall₂ l.path p.ancestors q.ancestors
  extension {p q : Path} : l.path p q → p.extension? = q.extension?
  error {e f : ResolveError} : e.code = f.code → (l.Strict → e = f) → l.error e f
  existsFile {p q : Path} : l.path p q → l.Asks o o' (r.source.existsFile p) (r'.source.existsFile q)
  existsDir {p q : Path} : l.path p q → l.Asks o o' (r.source.existsDir p) (r'.source.existsDir q)
  load {p q : Path} : l.path p q →
    l.Looks o o' l.Lookup (PackageCache.load r.source p) (PackageCache.load r'.source q)

/-- What two resolvers need in common for all of their searches to go together. -/
structure Simulates {m m' : Type → Type} [Monad m] [Monad m'] {σ σ' : Type}
    (l : Likeness σ σ') (o : Observer m σ) (o' : Observer m' σ') (r : Resolver m)
    (r' : Resolver m') : Prop where
  kind : r.source.kind = r'.source.kind
  extensions : r.extensions = r'.extensions
  root : l.path r.root r'.root
  path_of_exact {p q : Path} : l.exact p q → l.path p q
  joinText {p q : Path} (text : String) : l.path p q → l.path (p.joinText text) (q.joinText text)
  append {p q : Path} (text : String) : l.exact p q → l.path (p.append text) (q.append text)
  parent {p q : Path} : l.path p q → Option.Rel l.path p.parent? q.parent?
  ancestors {p q : Path} : l.path p q → List.Forall₂ l.path p.ancestors q.ancestors
  fileName {p q : Path} : l.path p q → p.fileName? = q.fileName?
  extension {p q : Path} : l.path p q → p.extension? = q.extension?
  normalize {p q : Path} : l.path p q → Option.Rel l.exact (r.normalize? p) (r'.normalize? q)
  error {e f : ResolveError} : e.code = f.code → (l.Strict → e = f) → l.error e f
  existsFile {p q : Path} : l.path p q → l.Asks o o' (r.source.existsFile p) (r'.source.existsFile q)
  existsDir {p q : Path} : l.path p q → l.Asks o o' (r.source.existsDir p) (r'.source.existsDir q)
  load {p q : Path} : l.path p q →
    l.Looks o o' l.Lookup (PackageCache.load r.source p) (PackageCache.load r'.source q)

/-- A specifier that is a path is resolved as one. Only in a bundle, a drive letter is none. -/
theorem Resolver.resolveKind_of_isPath {m : Type → Type} [Monad m] (r : Resolver m)
    {kind : SpecifierKind} (hp : kind.isPath = true)
    (hw : kind = .windowsAbsolute → r.source.kind ≠ .bundle) (specifier : String) (base : Path)
    (mode : ResolveMode) :
    r.resolveKind kind specifier base mode = r.resolvePathSpecifier kind specifier base mode := by
  have hh : kind ≠ .hashImport := by
    rintro rfl
    exact absurd hp (by decide)
  have hb : ¬(kind = .windowsAbsolute && r.source.kind = .bundle) = true := by simpa using hw
  rw [resolveKind, if_neg hh, if_neg hb, if_pos hp]

namespace Probes

variable {m m' : Type → Type} [Monad m] [Monad m'] {σ σ' : Type} {l : Likeness σ σ'}
  {o : Observer m σ} {o' : Observer m' σ'} {r : Resolver m} {r' : Resolver m'}
  (h : Probes l o o' r r')
include h

/-! ## Formats -/

theorem loadFirst {dirs dirs' : List Path} (hd : List.Forall₂ l.path dirs dirs') :
    l.Looks o o' l.Lookup (PackageCache.loadFirst r.source dirs)
      (PackageCache.loadFirst r'.source dirs') := by
  induction hd with
  | nil => exact Looks.pure .missing
  | cons hp _ ih =>
    refine (h.load hp).bind fun a b hab => ?_
    cases hab with
    | missing => exact ih
    | invalid hf => exact Looks.pure (.invalid hf)
    | loaded hd => exact Looks.pure (.loaded hd)

theorem findNearest {p q : Path} (hp : l.path p q) :
    l.Looks o o' l.Lookup (PackageCache.findNearest r.source p)
      (PackageCache.findNearest r'.source q) := h.loadFirst (h.ancestors hp)

omit h in
theorem scriptFormat_eq {a b : PackageLookup} (hab : l.Lookup a b) :
    Resolver.scriptFormat a = Resolver.scriptFormat b := by
  cases hab with
  | missing => rfl
  | invalid _ => rfl
  | loaded hd => simp [Resolver.scriptFormat, PackageDescriptor.isModule, hd.type]

theorem detectFormat {p q : Path} (hp : l.path p q) :
    l.Looks o o' Eq (r.detectFormat p) (r'.detectFormat q) := by
  -- A path with an extension ends in a file name, so both have a directory above them.
  have hscript {ext : String} (he : p.extension? = some ext) : l.Looks o o' Eq
      (PackageCache.findNearest r.source (p.parent?.getD ⟨""⟩) >>= fun found =>
        pure (Resolver.scriptFormat found))
      (PackageCache.findNearest r'.source (q.parent?.getD ⟨""⟩) >>= fun found =>
        pure (Resolver.scriptFormat found)) := by
    obtain ⟨dir, hdir⟩ := Path.exists_parent?_of_extension? he
    have hparent := h.parent hp
    rw [hdir] at hparent ⊢
    generalize q.parent? = above at hparent ⊢
    cases hparent with
    | some hpq => exact (h.findNearest hpq).bind fun a b hab => Looks.pure (scriptFormat_eq hab)
  unfold Resolver.detectFormat
  rw [← h.extension hp]
  split
  case h_6 he | h_7 he | h_8 he => exact hscript he
  all_goals exact Looks.pure rfl

/-! ## Probing -/

theorem probe (step : String) {candidates candidates' : List (Path × String)}
    (hc : List.Forall₂ (fun a b => l.path a.1 b.1) candidates candidates') :
    l.Agree o o' (Option.Rel l.path) (r.probe step candidates) (r'.probe step candidates') := by
  induction hc with
  | nil => exact Agree.pure .none
  | cons hp _ ih =>
    refine (Agree.tried _ _).andThen ((Agree.ask (h.existsFile hp)).ite ?_ ih)
    exact (Agree.note _ _).andThen (Agree.pure (.some hp))

theorem loadAsFile {p q : Path} (hp : l.exact p q) :
    l.Agree o o' (Option.Rel l.path) (r.loadAsFile p) (r'.loadAsFile q) := by
  refine h.probe _ (.cons (h.path_of_exact hp) ?_)
  rw [← h.extensions, List.forall₂_map_left_iff, List.forall₂_map_right_iff, List.forall₂_same]
  exact fun ext he => h.append he hp

theorem loadIndex {p q : Path} (hp : l.path p q) :
    l.Agree o o' (Option.Rel l.path) (r.loadIndex p) (r'.loadIndex q) := by
  refine h.probe _ ?_
  unfold Resolver.indexCandidates
  rw [← h.extensions, List.forall₂_map_left_iff, List.forall₂_map_right_iff, List.forall₂_same]
  exact fun ext he => h.index he hp

theorem loadMain {d d' : PackageDescriptor} (hd : l.Descriptor d d') :
    l.Agree o o' (Option.Rel l.path) (r.loadMain d) (r'.loadMain d') := by
  unfold Resolver.loadMain
  rw [← hd.main]
  cases hm : d.main with
  | none => exact Agree.pure .none
  | some main =>
    refine Agree.normalized (Agree.pure .none) (fun p q hpq => ?_) (h.main hd hm)
    refine (h.loadAsFile hpq).bind fun a b hab => ?_
    cases hab with
    | none =>
      refine (h.loadIndex (h.path_of_exact hpq)).bind fun a b hab => ?_
      exact (Agree.note _ _).andThen (Agree.pure hab)
    | some hab =>
      refine (Agree.pure (Option.Rel.some hab)).bind fun a b hab => ?_
      exact (Agree.note _ _).andThen (Agree.pure hab)

theorem package {p q : Path} (hp : l.path p q) :
    l.Agree o o' l.Lookup (r.package p) (r'.package q) := Agree.withPackages (h.load hp)

theorem loadDirectoryMain {p q : Path} (hp : l.path p q) :
    l.Agree o o' (Option.Rel l.path) (r.loadDirectoryMain p) (r'.loadDirectoryMain q) := by
  refine (h.package hp).bind fun a b hab => ?_
  cases hab with
  | missing => exact Agree.pure .none
  | invalid _ => exact (Agree.warn _ _ _ _).andThen (Agree.pure .none)
  | loaded hd => exact h.loadMain hd

theorem loadAsDirectory {p q : Path} (hp : l.path p q) :
    l.Agree o o' (Option.Rel l.path) (r.loadAsDirectory p) (r'.loadAsDirectory q) := by
  refine (Agree.ask (h.existsDir hp)).ite ?_ (Agree.pure .none)
  refine (h.loadDirectoryMain hp).bind fun a b hab => ?_
  cases hab with
  | none => exact (Agree.note _ _).andThen (h.loadIndex hp)
  | some hab => exact Agree.pure (.some hab)

/-! ## Paths -/

section

variable {base base' : Path} {specifier : String}
  (he : l.error (Resolver.notFound specifier base) (Resolver.notFound specifier base'))
include he

theorem importPath {p q : Path} (hp : l.exact p q) :
    l.Agree o o' l.path (r.importPath p specifier base) (r'.importPath q specifier base') := by
  have hpath := h.path_of_exact hp
  refine (Agree.tried _ _).andThen ((Agree.ask (h.existsFile hpath)).ite ?_ ?_)
  · exact (Agree.note _ _).andThen (Agree.pure hpath)
  · refine (Agree.note _ _).andThen ((Agree.ask (h.existsDir hpath)).ite ?_ ?_)
    · exact Agree.throw (h.error rfl fun hs => by rw [hs hpath])
    · rw [h.extension hpath]
      split
      · exact Agree.throw (h.error rfl fun hs => by rw [hs hpath])
      · exact Agree.throw he

theorem requirePath {p q : Path} (hp : l.exact p q) :
    l.Agree o o' l.path (r.requirePath p specifier base) (r'.requirePath q specifier base') := by
  refine (h.loadAsFile hp).bind fun a b hab => ?_
  cases hab with
  | some hab => exact Agree.pure hab
  | none =>
    refine (h.loadAsDirectory (h.path_of_exact hp)).bind fun a b hab => ?_
    cases hab with
    | some hab => exact Agree.pure hab
    | none => exact Agree.throw he

theorem resolvePath (mode : ResolveMode) {p q : Path} (hp : l.exact p q) :
    l.Agree o o' l.path (r.resolvePath mode p specifier base)
      (r'.resolvePath mode q specifier base') := by
  cases mode with
  | «import» => exact h.importPath he hp
  | require => exact h.requirePath he hp

theorem resolvePathSpecifier (kind : SpecifierKind) (mode : ResolveMode)
    (hn : Option.Rel l.exact (r.normalize? (Resolver.pathOf kind specifier base))
      (r'.normalize? (Resolver.pathOf kind specifier base'))) :
    l.Agree o o' l.path (r.resolvePathSpecifier kind specifier base mode)
      (r'.resolvePathSpecifier kind specifier base' mode) := by
  unfold Resolver.resolvePathSpecifier
  refine Agree.normalized (Agree.throw he) (fun p q hpq => ?_) hn
  exact (Agree.note _ _).andThen (h.resolvePath he mode hpq)

end

/-- A request for a path is answered alike, if its path has related normal forms. -/
theorem search {a b : Request} (hs : a.specifier = b.specifier) (hm : a.mode = b.mode)
    (hp : (Specifier.kind a.specifier).isPath = true)
    (hw : Specifier.kind a.specifier = .windowsAbsolute →
      r.source.kind = .filesystem ∧ r'.source.kind = .filesystem)
    (he : l.error
      (Resolver.notFound (Specifier.normalize a.specifier) (r.baseDirectory a.referrer))
      (Resolver.notFound (Specifier.normalize a.specifier) (r'.baseDirectory b.referrer)))
    (hn : Option.Rel l.exact
      (r.normalize? (Resolver.pathOf (Specifier.kind a.specifier) (Specifier.normalize a.specifier)
        (r.baseDirectory a.referrer)))
      (r'.normalize? (Resolver.pathOf (Specifier.kind a.specifier) (Specifier.normalize a.specifier)
        (r'.baseDirectory b.referrer)))) :
    l.Agree o o' (l.Placed r.source.kind r'.source.kind) (r.search a) (r'.search b) := by
  obtain ⟨specifier, referrer, mode⟩ := a
  obtain ⟨specifier', referrer', mode'⟩ := b
  obtain rfl : specifier = specifier' := hs
  obtain rfl : mode = mode' := hm
  dsimp only at hp hw he hn
  have hne : specifier ≠ "" := by
    rintro rfl
    exact absurd hp (by decide)
  have hb : Specifier.kind specifier = .windowsAbsolute →
      r.source.kind ≠ .bundle ∧ r'.source.kind ≠ .bundle := fun h => by simp [hw h]
  unfold Resolver.search
  dsimp only
  rw [if_neg hne, if_neg hne, r.resolveKind_of_isPath hp fun h => (hb h).1,
    r'.resolveKind_of_isPath hp fun h => (hb h).2]
  refine (Agree.note _ _).andThen ?_
  refine (h.resolvePathSpecifier he _ mode hn).bind fun p q hpq => ?_
  refine (Agree.withPackages (h.detectFormat hpq)).bind fun f g hf => ?_
  refine (Agree.note _ _).andThen ((Agree.note _ _).andThen (Agree.pure ?_))
  exact ⟨hpq, rfl, rfl, hf⟩

end Probes

namespace Simulates

variable {m m' : Type → Type} [Monad m] [Monad m'] {σ σ' : Type} {l : Likeness σ σ'}
  {o : Observer m σ} {o' : Observer m' σ'} {r : Resolver m} {r' : Resolver m'}
  (h : Simulates l o o' r r')
include h

theorem probes : Probes l o o' r r' where
  extensions := h.extensions
  path_of_exact := h.path_of_exact
  append _ := h.append _
  index _ := h.joinText _
  main hd _ := h.normalize (h.joinText _ hd.root)
  parent := h.parent
  ancestors := h.ancestors
  extension := h.extension
  error := h.error
  existsFile := h.existsFile
  existsDir := h.existsDir
  load := h.load

theorem notFound (specifier : String) {p q : Path} (hp : l.path p q) :
    l.error (Resolver.notFound specifier p) (Resolver.notFound specifier q) :=
  h.error rfl fun hs => by rw [hs hp]

end Simulates

end ModuleLoader
