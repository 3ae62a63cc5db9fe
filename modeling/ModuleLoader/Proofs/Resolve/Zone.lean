import ModuleLoader.Proofs.Resolve.Observer

/-! Zones of paths. A resolver stays in a zone if each path that it goes on with lies in it again;
then the file that a search ends in has been looked at there. -/

namespace ModuleLoader

/-- What is known of the directories on the way, of paths in normal form, of the files found and of
the names of packages. -/
structure Zone where
  directory : Path → Prop
  exact : Path → Prop
  file : Path → Prop
  package : String → Prop

namespace Observer

variable {m : Type → Type} [Monad m] {σ : Type} {α β : Type}

/-- Every search that succeeds keeps the invariant of the cache and gives an answer with `post`. -/
def Ensures (o : Observer m σ) (I : PackageCache → σ → Prop) (post : α → Prop) (x : Search m α) :
    Prop :=
  ∀ ⦃s w a t v⦄, I s.packages w → o.search x s w = ((.ok a, t), v) → I t.packages v ∧ post a

variable {o : Observer m σ} {I : PackageCache → σ → Prop} {post : α → Prop} {post' : β → Prop}

theorem Ensures.pure {a : α} (h : post a) : o.Ensures I post (pure a) := by
  intro s w b t v hI hr
  rw [o.search_pure] at hr
  cases hr
  exact ⟨hI, h⟩

theorem Ensures.throw (e : ResolveError) : o.Ensures I post (throw e) := by
  intro s w a t v hI hr
  rw [o.search_throw] at hr
  cases hr

theorem Ensures.bind {x : Search m α} {f : α → Search m β} (h : o.Ensures I post x)
    (hf : ∀ a, post a → o.Ensures I post' (f a)) : o.Ensures I post' (x >>= f) := by
  intro s w b t v hI hr
  obtain ⟨a, s', w', hx, hfa⟩ := o.exists_of_search_bind_eq_ok s w hr
  obtain ⟨hI', ha⟩ := h hI hx
  exact hf a ha hI' hfa

theorem Ensures.bindOption {x : Search m (Option α)} {f : Option α → Search m β}
    (h : o.Ensures I (fun found => ∀ a ∈ found, post a) x)
    (hsome : ∀ a, post a → o.Ensures I post' (f (some a))) (hnone : o.Ensures I post' (f none)) :
    o.Ensures I post' (x >>= f) := by
  refine h.bind fun found hfound => ?_
  cases found with
  | none => exact hnone
  | some a => exact hsome a (hfound a rfl)

theorem Ensures.imp {post' : α → Prop} {x : Search m α} (h : o.Ensures I post x)
    (hp : ∀ a, post a → post' a) : o.Ensures I post' x := by
  intro s w a t v hI hr
  obtain ⟨hI', ha⟩ := h hI hr
  exact ⟨hI', hp a ha⟩

theorem Ensures.note (step : TraceStep) :
    o.Ensures I (fun _ => True) (Search.note step : Search m Unit) := by
  intro s w a t v hI hr
  rw [Search.note, o.search_modify] at hr
  cases hr
  exact ⟨hI, trivial⟩

theorem Ensures.warn (code message : String) :
    o.Ensures I (fun _ => True) (Search.warn code message : Search m Unit) := by
  intro s w a t v hI hr
  rw [Search.warn, o.search_modify] at hr
  cases hr
  exact ⟨hI, trivial⟩

theorem Ensures.tried (p : Path) :
    o.Ensures I (fun _ => True) (Search.tried p : Search m Unit) := by
  intro s w a t v hI hr
  rw [Search.tried, o.search_modify] at hr
  cases hr
  exact ⟨hI, trivial⟩

theorem Ensures.andThen {x : Search m Unit} {y : Search m β} (h : o.Ensures I (fun _ => True) x)
    (hy : o.Ensures I post' y) : o.Ensures I post' (x >>= fun _ => y) := h.bind fun _ _ => hy

theorem Ensures.ask {question : m Bool} {yes : Prop} {x y : Search m β}
    (h : ∀ ⦃packages w⦄, I packages w →
      I packages (o.run question w).2 ∧ ((o.run question w).1 = true → yes))
    (hx : yes → o.Ensures I post' x) (hy : o.Ensures I post' y) :
    o.Ensures I post' (Search.ask question >>= fun c => if c = true then x else y) := by
  intro s w b t v hI hr
  obtain ⟨hI', hyes⟩ := h hI
  rw [o.search_bind_of_ok s w (o.search_ask s w question)] at hr
  by_cases hc : (o.run question w).1 = true
  · rw [if_pos hc] at hr
    exact hx (hyes hc) hI' hr
  · rw [if_neg hc] at hr
    exact hy hI' hr

theorem Ensures.withPackages {x : StateT PackageCache m α}
    (h : ∀ ⦃packages w⦄, I packages w →
      I (o.look x packages w).1.2 (o.look x packages w).2 ∧ post (o.look x packages w).1.1) :
    o.Ensures I post (Search.withPackages x) := by
  intro s w a t v hI hr
  rw [o.search_withPackages] at hr
  cases hr
  exact h hI

theorem Ensures.post_of_eq_ok {x : Search m α} (h : o.Ensures I post x) {s : SearchState} {w : σ}
    {a : α} (hI : I s.packages w) (hr : (o.search x s w).1.1 = .ok a) : post a := by
  cases hx : o.search x s w with
  | mk answer v =>
    obtain ⟨answer, t⟩ := answer
    rw [hx] at hr
    obtain rfl : answer = .ok a := hr
    exact (h hI hx).2

end Observer

/-- A resolver that stays in a zone, whatever its cache holds under the invariant. -/
structure Confines {m : Type → Type} [Monad m] {σ : Type} (z : Zone) (o : Observer m σ)
    (I : PackageCache → σ → Prop) (r : Resolver m) : Prop where
  root : z.directory r.root
  directory_of_exact {p : Path} : z.exact p → z.directory p
  normalize {p q : Path} : r.normalize? p = some q → z.exact q
  ancestors {p q : Path} : z.directory p → q ∈ p.ancestors → z.directory q
  package {p : Path} {name : String} : z.directory p → z.package name →
    z.directory ((p.joinText Resolver.packagesDirectory).joinText name)
  index {p : Path} {ext : String} : z.directory p → ext ∈ ".js" :: r.extensions →
    z.directory (p.joinText ("index" ++ ext))
  append {p : Path} {ext : String} : z.exact p → ext ∈ r.extensions → z.directory (p.append ext)
  existsFile {p : Path} : z.directory p → ∀ ⦃packages w⦄, I packages w →
    I packages (o.run (r.source.existsFile p) w).2 ∧
      ((o.run (r.source.existsFile p) w).1 = true → z.file p)
  existsDir {p : Path} : z.directory p → ∀ ⦃packages w⦄, I packages w →
    I packages (o.run (r.source.existsDir p) w).2
  load {p : Path} : z.directory p → ∀ ⦃packages w⦄, I packages w →
    I (o.look (PackageCache.load r.source p) packages w).1.2
        (o.look (PackageCache.load r.source p) packages w).2 ∧
      ∀ d, (o.look (PackageCache.load r.source p) packages w).1.1 = .loaded d →
        z.directory d.root

/-! ## The package that is asked for -/

namespace Resolver

variable {m : Type → Type} [Monad m] (r : Resolver m)

/-- The target that the nearest `imports` above a directory select for a `#` specifier. -/
def selectImport (specifier : String) (base : Path) (mode : ResolveMode) :
    Search m (Option TargetMatch) := do
  match ← r.findImportsOwner none base.ancestors with
  | (some owner, _) =>
    match owner.imports with
    | some tree => selectTarget .imports tree specifier owner.root mode
    | none => return none
  | (none, _) => return none

/-- What a request looks up in `node_modules`, if anything: its specifier, or the target of
`imports` that it selects. -/
def packageText? (request : Request) : Search m (Option String) := do
  let kind := Specifier.kind request.specifier
  let specifier := Specifier.normalize request.specifier
  if kind = .hashImport then
    let found ← r.selectImport specifier (r.baseDirectory request.referrer) request.mode
    return found.map TargetMatch.target
  else if kind = .windowsAbsolute && r.source.kind = .bundle then return some specifier
  else if kind.isPath then return none
  else return some specifier

end Resolver

namespace Confines

variable {m : Type → Type} [Monad m] {σ : Type} {z : Zone} {o : Observer m σ}
  {I : PackageCache → σ → Prop} {r : Resolver m}

/-- Whether a specifier names a package of the zone, if it names one at all. -/
def Names (z : Zone) (specifier : String) : Prop :=
  ∀ bare, BareSpecifier.parse? specifier = some bare → z.package bare.package

variable (h : Confines z o I r)
include h

/-! ## Probing -/

theorem ite_existsFile {β : Type} {post : β → Prop} {p : Path} {x y : Search m β}
    (hp : z.directory p) (hx : z.file p → o.Ensures I post x) (hy : o.Ensures I post y) :
    o.Ensures I post (Search.ask (r.source.existsFile p) >>= fun c => if c = true then x else y) :=
  .ask (h.existsFile hp) hx hy

theorem ite_existsDir {β : Type} {post : β → Prop} {p : Path} {x y : Search m β}
    (hp : z.directory p) (hx : o.Ensures I post x) (hy : o.Ensures I post y) :
    o.Ensures I post (Search.ask (r.source.existsDir p) >>= fun c => if c = true then x else y) :=
  .ask (fun _ _ hI => ⟨h.existsDir hp hI, fun _ => trivial⟩) (fun _ : True => hx) hy

theorem probe (step : String) {candidates : List (Path × String)}
    (hc : ∀ candidate ∈ candidates, z.directory candidate.1) :
    o.Ensures I (fun found => ∀ file ∈ found, z.file file) (r.probe step candidates) := by
  induction candidates with
  | nil => exact .pure (by simp)
  | cons candidate rest ih =>
    have hrest := ih fun c hm => hc c (List.mem_cons_of_mem _ hm)
    refine (Observer.Ensures.tried _).andThen (h.ite_existsFile (hc candidate List.mem_cons_self) ?_ hrest)
    intro hfile
    exact (Observer.Ensures.note _).andThen (.pure (by simpa using hfile))

theorem loadAsFile {p : Path} (hp : z.exact p) :
    o.Ensures I (fun found => ∀ file ∈ found, z.file file) (r.loadAsFile p) := by
  refine h.probe _ fun candidate hm => ?_
  rcases List.mem_cons.mp hm with rfl | hm
  · exact h.directory_of_exact hp
  · obtain ⟨ext, he, rfl⟩ := List.mem_map.mp hm
    exact h.append hp he

theorem loadIndex {p : Path} (hp : z.directory p) :
    o.Ensures I (fun found => ∀ file ∈ found, z.file file) (r.loadIndex p) := by
  refine h.probe _ fun candidate hm => ?_
  obtain ⟨ext, he, rfl⟩ := List.mem_map.mp hm
  exact h.index hp (List.mem_cons_of_mem _ he)

theorem loadMain (d : PackageDescriptor) :
    o.Ensures I (fun found => ∀ file ∈ found, z.file file) (r.loadMain d) := by
  unfold Resolver.loadMain
  cases d.main with
  | none => exact .pure (by simp)
  | some main =>
    dsimp only
    cases hn : r.normalize? (d.root.joinText main) with
    | none => exact .pure (by simp)
    | some target =>
      have ht := h.normalize hn
      refine (h.loadAsFile ht).bind fun found hfound => ?_
      cases found with
      | some file =>
        have hsome : o.Ensures I (fun found => ∀ file ∈ found, z.file file)
            (pure (some file) : Search m _) := .pure hfound
        refine hsome.bind fun found hfound => ?_
        exact (Observer.Ensures.note _).andThen (.pure hfound)
      | none =>
        refine (h.loadIndex (h.directory_of_exact ht)).bind fun found hfound => ?_
        exact (Observer.Ensures.note _).andThen (.pure hfound)

theorem lookup {p : Path} (hp : z.directory p) :
    o.Ensures I (fun found => ∀ d, found = .loaded d → z.directory d.root) (r.package p) :=
  .withPackages (h.load hp)

theorem loadDirectoryMain {p : Path} (hp : z.directory p) :
    o.Ensures I (fun found => ∀ file ∈ found, z.file file) (r.loadDirectoryMain p) := by
  refine (h.lookup hp).bind fun found _ => ?_
  cases found with
  | missing => exact .pure (by simp)
  | invalid fault => exact (Observer.Ensures.warn _ _).andThen (.pure (by simp))
  | loaded d => exact h.loadMain d

theorem loadAsDirectory {p : Path} (hp : z.directory p) :
    o.Ensures I (fun found => ∀ file ∈ found, z.file file) (r.loadAsDirectory p) := by
  refine h.ite_existsDir hp ?_ (.pure (by simp))
  refine (h.loadDirectoryMain hp).bind fun found hfound => ?_
  cases found with
  | some file => exact .pure hfound
  | none => exact (Observer.Ensures.note _).andThen (h.loadIndex hp)

/-! ## Paths -/

theorem importPath {p : Path} (hp : z.exact p) (specifier : String) (base : Path) :
    o.Ensures I z.file (r.importPath p specifier base) := by
  have hd := h.directory_of_exact hp
  refine (Observer.Ensures.tried _).andThen (h.ite_existsFile hd ?_ ?_)
  · exact fun hfile => (Observer.Ensures.note _).andThen (.pure hfile)
  · refine (Observer.Ensures.note _).andThen (h.ite_existsDir hd (.throw _) ?_)
    split
    · exact .throw _
    · exact .throw _

theorem requirePath {p : Path} (hp : z.exact p) (specifier : String) (base : Path) :
    o.Ensures I z.file (r.requirePath p specifier base) := by
  have hdirectory := h.loadAsDirectory (h.directory_of_exact hp)
  refine (h.loadAsFile hp).bindOption (fun _ hfile => .pure hfile) ?_
  exact hdirectory.bindOption (fun _ hfile => .pure hfile) (.throw _)

theorem resolvePath (mode : ResolveMode) {p : Path} (hp : z.exact p) (specifier : String)
    (base : Path) : o.Ensures I z.file (r.resolvePath mode p specifier base) := by
  cases mode with
  | «import» => exact h.importPath hp specifier base
  | require => exact h.requirePath hp specifier base

theorem resolvePathSpecifier (kind : SpecifierKind) (specifier : String) (base : Path)
    (mode : ResolveMode) : o.Ensures I z.file (r.resolvePathSpecifier kind specifier base mode) := by
  unfold Resolver.resolvePathSpecifier
  cases hn : r.normalize? (Resolver.pathOf kind specifier base) with
  | none => exact .throw _
  | some target =>
    exact (Observer.Ensures.note _).andThen (h.resolvePath mode (h.normalize hn) specifier base)

/-! ## Packages -/

theorem findPackageRoot {name : String} (hname : z.package name) {dirs : List Path}
    (hd : ∀ dir ∈ dirs, z.directory dir) :
    o.Ensures I (fun found => ∀ root ∈ found, z.directory root) (r.findPackageRoot name dirs) := by
  induction dirs with
  | nil => exact (Observer.Ensures.note _).andThen (.pure (by simp))
  | cons dir rest ih =>
    have hrest := ih fun d hm => hd d (List.mem_cons_of_mem _ hm)
    unfold Resolver.findPackageRoot
    split
    · exact hrest
    · have hroot := h.package (hd dir List.mem_cons_self) hname
      refine (Observer.Ensures.tried _).andThen (h.ite_existsDir hroot ?_ hrest)
      exact (Observer.Ensures.note _).andThen (.pure (by simpa using hroot))

theorem resolvePackageFile (root : Path) (target key specifier : String) :
    o.Ensures I z.file (r.resolvePackageFile root target key specifier) := by
  unfold Resolver.resolvePackageFile
  cases hn : r.normalize? (root.joinText target) with
  | none => exact .throw _
  | some path =>
    have hp := h.directory_of_exact (h.normalize hn)
    refine (Observer.Ensures.tried _).andThen (h.ite_existsFile hp ?_ ?_)
    · exact fun hfile => (Observer.Ensures.note _).andThen (.pure hfile)
    · exact (Observer.Ensures.note _).andThen (.throw _)

omit h in
theorem selectTarget (field : TargetField) (tree : Json) (subpath : String) (root : Path)
    (mode : ResolveMode) :
    o.Ensures I (fun found => Target.select mode.conditions field subpath tree = .ok found)
      (Resolver.selectTarget field tree subpath root mode : Search m _) := by
  unfold Resolver.selectTarget
  split
  · next found hs => exact .pure hs
  · exact .throw _

theorem resolveExports (tree : Json) (root : Path) (subpath specifier : String)
    (mode : ResolveMode) :
    o.Ensures I z.file (r.resolveExports tree root subpath specifier mode) := by
  refine (selectTarget .exports tree subpath root mode).bind fun found _ => ?_
  cases found with
  | none => exact (Observer.Ensures.note _).andThen (.throw _)
  | some found =>
    exact (Observer.Ensures.note _).andThen (h.resolvePackageFile root found.target subpath specifier)

theorem resolveLiteralSubpath (root : Path) (subpath specifier : String) (mode : ResolveMode) :
    o.Ensures I z.file (r.resolveLiteralSubpath root subpath specifier mode) := by
  refine (Observer.Ensures.warn _ _).andThen ?_
  cases hn : r.normalize? (root.joinText subpath) with
  | none => exact .throw _
  | some target => exact h.resolvePath mode (h.normalize hn) specifier root

theorem loadPackageIndex {root : Path} (hr : z.directory root) (mode : ResolveMode) :
    o.Ensures I (fun found => ∀ file ∈ found, z.file file) (r.loadPackageIndex root mode) := by
  cases mode with
  | require => exact h.loadIndex hr
  | «import» =>
    have hext : ".js" ∈ ".js" :: r.extensions := List.mem_cons_self
    have hi : z.directory (root.joinText "index.js") := h.index hr hext
    refine (Observer.Ensures.tried _).andThen (h.ite_existsFile hi ?_ (.pure (by simp)))
    exact fun hfile => .pure (by simpa using hfile)

theorem resolveMainOrIndex (d : Option PackageDescriptor) {root : Path} (hr : z.directory root)
    (specifier : String) (mode : ResolveMode) :
    o.Ensures I z.file (r.resolveMainOrIndex d root specifier mode) := by
  have hindex := h.loadPackageIndex hr mode
  unfold Resolver.resolveMainOrIndex
  cases d with
  | none =>
    have hmain : o.Ensures I (fun found => ∀ file ∈ found, z.file file)
        (pure none : Search m (Option Path)) := .pure (by simp)
    refine hmain.bindOption (fun _ hfile => .pure hfile) ?_
    exact hindex.bindOption (fun _ hfile => .pure hfile) (.throw _)
  | some d =>
    refine (h.loadMain d).bindOption (fun _ hfile => .pure hfile) ?_
    exact hindex.bindOption (fun _ hfile => .pure hfile) (.throw _)

theorem resolveSubpath (d : Option PackageDescriptor) {root : Path} (hr : z.directory root)
    (subpath specifier : String) (mode : ResolveMode) :
    o.Ensures I z.file (r.resolveSubpath d root subpath specifier mode) := by
  unfold Resolver.resolveSubpath
  split
  · exact h.resolveExports _ root subpath specifier mode
  · split
    · exact h.resolveMainOrIndex d hr specifier mode
    · exact h.resolveLiteralSubpath root subpath specifier mode

theorem resolveBare {specifier : String} (hs : Names z specifier) {base : Path}
    (hb : z.directory base) (mode : ResolveMode) :
    o.Ensures I z.file (r.resolveBare specifier base mode) := by
  unfold Resolver.resolveBare
  cases hbare : BareSpecifier.parse? specifier with
  | none => exact .throw _
  | some bare =>
    have hname := hs bare hbare
    obtain ⟨name, subpath⟩ := bare
    refine (Observer.Ensures.note _).andThen ?_
    have hroots := h.findPackageRoot hname fun dir hm => h.ancestors hb hm
    refine hroots.bindOption (fun root hr => ?_) (.throw _)
    refine (h.lookup hr).bind fun found _ => ?_
    cases found with
    | missing => exact h.resolveSubpath none hr subpath specifier mode
    | invalid fault => exact .throw _
    | loaded d => exact h.resolveSubpath (some d) hr subpath specifier mode

/-! ## Imports -/

theorem findImportsOwner {nearest : Option Path} {dirs : List Path}
    (hd : ∀ dir ∈ dirs, z.directory dir) :
    o.Ensures I (fun found => ∀ d ∈ found.1, z.directory d.root)
      (r.findImportsOwner nearest dirs) := by
  induction dirs generalizing nearest with
  | nil => exact .pure (by simp)
  | cons dir rest ih =>
    have hrest (nearest : Option Path) :
        o.Ensures I (fun found => ∀ d ∈ found.1, z.directory d.root)
          (r.findImportsOwner nearest rest) := ih fun d hm => hd d (List.mem_cons_of_mem _ hm)
    unfold Resolver.findImportsOwner
    refine (h.lookup (hd dir List.mem_cons_self)).bind fun found hfound => ?_
    cases found with
    | missing => exact hrest _
    | invalid fault => exact hrest _
    | loaded d =>
      dsimp only
      split
      · exact .pure (by simpa using hfound d rfl)
      · exact hrest _

theorem resolveImports {owner : PackageDescriptor} (ho : z.directory owner.root) {tree : Json}
    {specifier : String} {mode : ResolveMode}
    (hs : ∀ found, Target.select mode.conditions .imports specifier tree = .ok (some found) →
      Names z found.target) :
    o.Ensures I z.file (r.resolveImports owner tree specifier mode) := by
  refine (selectTarget .imports tree specifier owner.root mode).bind fun found hfound => ?_
  cases found with
  | none => exact (Observer.Ensures.note _).andThen (.throw _)
  | some found =>
    refine (Observer.Ensures.note _).andThen ?_
    split
    · exact h.resolvePackageFile owner.root found.target specifier specifier
    · exact (Observer.Ensures.note _).andThen (h.resolveBare (hs found hfound) ho mode)

/-! ## Requests -/

theorem baseDirectory (referrer : Option Path) : z.directory (r.baseDirectory referrer) := by
  unfold Resolver.baseDirectory
  cases hn : (referrer.bind Path.parent?).bind r.normalize? with
  | none => exact h.root
  | some dir =>
    obtain ⟨parent, -, hp⟩ := Option.bind_eq_some_iff.mp hn
    exact h.directory_of_exact (h.normalize hp)

theorem firstFile {paths : List Path} (hp : ∀ p ∈ paths, z.directory p) :
    o.Ensures I (fun found => ∀ file ∈ found, z.file file) (r.firstFile paths) := by
  induction paths with
  | nil => exact .pure (by simp)
  | cons p rest ih =>
    have hrest := ih fun q hm => hp q (List.mem_cons_of_mem _ hm)
    refine h.ite_existsFile (hp p List.mem_cons_self) ?_ hrest
    exact fun hfile => .pure (by simpa using hfile)

theorem bundleFileFor (specifier : String) (base : Path) :
    o.Ensures I (fun found => ∀ file ∈ found, z.file file) (r.bundleFileFor specifier base) := by
  unfold Resolver.bundleFileFor
  split
  · exact .pure (by simp)
  · refine h.firstFile fun p hm => ?_
    obtain ⟨dir, -, hn⟩ := List.mem_filterMap.mp hm
    exact h.directory_of_exact (h.normalize hn)

theorem resolveName {specifier : String} (hs : Names z specifier) {base : Path}
    (hb : z.directory base) (mode : ResolveMode) :
    o.Ensures I z.file (r.resolveName specifier base mode) := by
  refine (h.bundleFileFor specifier base).bindOption (fun file hfile => ?_) ?_
  · exact (Observer.Ensures.warn _ _).andThen (.pure hfile)
  · exact h.resolveBare hs hb mode

section Runs

variable {s t : SearchState} {w v : σ}

/-- Only the target that is selected in this very search has to name a package of the zone. -/
theorem resolveHashImport {specifier : String} {base p : Path} {mode : ResolveMode}
    (hb : z.directory base) (hI : I s.packages w)
    (hs : ∀ found, (o.search (r.selectImport specifier base mode) s w).1.1 = .ok (some found) →
      Names z found.target)
    (hr : o.search (r.resolveHashImport specifier base mode) s w = ((.ok p, t), v)) :
    I t.packages v ∧ z.file p := by
  obtain ⟨⟨owner, nearest⟩, s', w', ho, hr⟩ := o.exists_of_search_bind_eq_ok s w hr
  -- The same owner is found when the target is only selected.
  rw [Resolver.selectImport, o.search_bind_of_ok s w ho] at hs
  obtain ⟨hI', hroot⟩ := h.findImportsOwner (fun dir hm => h.ancestors hb hm) hI ho
  cases owner with
  | none =>
    obtain ⟨_, _, _, -, hr⟩ := o.exists_of_search_bind_eq_ok _ _ hr
    rw [o.search_throw] at hr
    cases hr
  | some owner =>
    obtain ⟨_, s'', w'', hn, hr⟩ := o.exists_of_search_bind_eq_ok _ _ hr
    have hI'' := (Observer.Ensures.note _ hI' hn).1
    cases htree : owner.imports with
    | none =>
      simp only [htree] at hr
      rw [o.search_throw] at hr
      cases hr
    | some tree =>
      simp only [htree] at hr hs
      refine h.resolveImports (hroot owner rfl) (fun found hf => hs found ?_) hI'' hr
      rw [Resolver.selectTarget, hf]
      dsimp only
      rw [o.search_pure]

theorem resolveKind {request : Request} {packages : PackageCache} {trace : Trace} {p : Path}
    (hI : I packages w)
    (hs : ∀ text, (o.search (r.packageText? request) ⟨packages, trace⟩ w).1.1 =
      .ok (some text) → Names z text)
    (hr : o.search (r.resolveKind (Specifier.kind request.specifier)
      (Specifier.normalize request.specifier) (r.baseDirectory request.referrer) request.mode)
      ⟨packages, trace⟩ w = ((.ok p, t), v)) :
    I t.packages v ∧ z.file p := by
  have hb := h.baseDirectory request.referrer
  let s : SearchState := ⟨packages, trace⟩
  have hpure (text : String) : (o.search (pure (some text) : Search m _) s w).1.1 = .ok (some text) := by
    rw [o.search_pure]
  unfold Resolver.packageText? at hs
  unfold Resolver.resolveKind at hr
  dsimp only at hs
  split at hr
  · next hk =>
    simp only [hk, if_true] at hs
    refine h.resolveHashImport hb hI (fun found hf => hs found.target ?_) hr
    cases hx : o.search (r.selectImport (Specifier.normalize request.specifier)
        (r.baseDirectory request.referrer) request.mode) s w with
    | mk answer w' =>
      rw [hx] at hf
      obtain ⟨a, s'⟩ := answer
      obtain rfl : a = .ok (some found) := hf
      rw [o.search_bind_of_ok s w hx, o.search_pure]
      rfl
  · next hk =>
    simp only [hk, if_false] at hs
    split at hr
    · next hdrive =>
      simp only [hdrive, if_true] at hs
      exact h.resolveBare (hs _ (hpure _)) hb request.mode hI hr
    · next hdrive =>
      split at hr
      · exact h.resolvePathSpecifier _ _ _ _ hI hr
      · next hpath =>
        simp only [hdrive, hpath] at hs
        exact h.resolveName (hs _ (hpure _)) hb request.mode hI hr

/-- A request ends in a file of the zone, and its format is the one found there. -/
theorem search {request : Request} {resolved : ResolvedModule} (hI : I s.packages w)
    (hs : ∀ trace text, (o.search (r.packageText? request) ⟨s.packages, trace⟩ w).1.1 =
      .ok (some text) → Names z text)
    (hr : o.search (r.search request) s w = ((.ok resolved, t), v)) :
    z.file resolved.path ∧ resolved.storage = r.source.kind ∧
      ∃ packages u, I packages u ∧
        resolved.format = (o.look (r.detectFormat resolved.path) packages u).1.1 := by
  unfold Resolver.search at hr
  split at hr
  · obtain ⟨_, _, _, -, hr⟩ := o.exists_of_search_bind_eq_ok _ _ hr
    rw [o.search_throw] at hr
    cases hr
  · obtain ⟨_, s₁, w₁, hn, hr⟩ := o.exists_of_search_bind_eq_ok _ _ hr
    rw [Search.note, o.search_modify] at hn
    cases hn
    obtain ⟨path, s₂, w₂, hk, hr⟩ := o.exists_of_search_bind_eq_ok _ _ hr
    obtain ⟨hI₂, hfile⟩ := h.resolveKind hI (hs _) hk
    obtain ⟨format, s₃, w₃, hf, hr⟩ := o.exists_of_search_bind_eq_ok _ _ hr
    obtain ⟨_, _, _, -, hr⟩ := o.exists_of_search_bind_eq_ok _ _ hr
    obtain ⟨_, _, _, -, hr⟩ := o.exists_of_search_bind_eq_ok _ _ hr
    rw [o.search_pure] at hr
    rw [o.search_withPackages] at hf
    cases hr
    cases hf
    exact ⟨hfile, rfl, s₂.packages, w₂, hI₂, rfl⟩

theorem resolve {request : Request} {resolved : ResolvedModule} {packages : PackageCache}
    (hI : I packages w)
    (hs : ∀ trace text, (o.search (r.packageText? request) ⟨packages, trace⟩ w).1.1 =
      .ok (some text) → Names z text)
    (hr : (o.look (r.resolve request) packages w).1.1 = .ok resolved) :
    z.file resolved.path ∧ resolved.storage = r.source.kind ∧
      ∃ packages u, I packages u ∧
        resolved.format = (o.look (r.detectFormat resolved.path) packages u).1.1 := by
  rw [o.look_resolve] at hr
  cases hx : o.search (r.search request) ⟨packages, Trace.empty⟩ w with
  | mk answer v =>
    obtain ⟨a, t⟩ := answer
    rw [hx] at hr
    obtain rfl : a = .ok resolved := hr
    exact h.search hI hs hx

end Runs

end Confines

end ModuleLoader
