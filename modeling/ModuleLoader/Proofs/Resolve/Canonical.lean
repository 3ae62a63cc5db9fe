import ModuleLoader.Proofs.Package.Target
import ModuleLoader.Proofs.Path.Names
import ModuleLoader.Proofs.Resolve.Normal
import ModuleLoader.Proofs.Resolve.Replay
import ModuleLoader.Proofs.Resolve.Zone

/-! Canonical answers. A resolver with a normal root only answers with normal paths, so that a file
of a bundle is known by one path. -/

namespace ModuleLoader

open ModuleLoader.Path Text

/-! ## Normal paths -/

namespace StorageKind.IsNormal

variable {kind : StorageKind} {p q : Path}

theorem join (h : kind.IsNormal p) (hp : p.components ≠ []) (hq : q.isAbsolute = false)
    (hup : .up ∉ q.inner) (hb : ∀ text, .name text ∈ q.inner → kind.Admits text) :
    kind.IsNormal (p.join q) := by
  obtain ⟨names, hnames, hadmits⟩ := isNormal_iff.mp h
  obtain ⟨below, hbelow⟩ : ∃ below : List String, q.inner = below.map .name := by
    refine exists_eq_map_name fun c hc => ?_
    have hs := isStep_of_mem_filterMap hc
    cases c with
    | root => simp [Component.isStep] at hs
    | here => simp [Component.isStep] at hs
    | up => exact absurd hc hup
    | name text => exact ⟨text, rfl⟩
  have hpe : p.components.isEmpty = false := by simpa using hp
  refine isNormal_iff.mpr ⟨names ++ below, ?_, fun name hm => ?_⟩
  · rw [components_join, hq, hpe, hnames, hbelow]
    simp
  · rcases List.mem_append.mp hm with hm | hm
    · exact hadmits name hm
    · refine hb name ?_
      rw [hbelow]
      exact List.mem_map_of_mem hm

theorem joinText (h : kind.IsNormal p) {text : String} (ht : IsName text)
    (ha : kind.Admits text) : kind.IsNormal (p.joinText text) := by
  obtain ⟨names, hnames, hadmits⟩ := isNormal_iff.mp h
  refine isNormal_iff.mpr ⟨names ++ [text], ?_, fun name hm => ?_⟩
  · simp [components_joinText_of_isName ht, hnames]
  · rcases List.mem_append.mp hm with hm | hm
    · exact hadmits name hm
    · obtain rfl : name = text := by simpa using hm
      exact ha

theorem ancestors (h : kind.IsNormal p) (hq : q ∈ p.ancestors) : kind.IsNormal q := by
  obtain ⟨names, hnames, hadmits⟩ := isNormal_iff.mp h
  have hm := components_mem_upward hq
  obtain ⟨above, habove, hc⟩ : ∃ above, above <+: names.map Component.name ∧
      q.components = kind.start ++ above := by
    rw [hnames] at hm
    -- Going up gives prefixes; the root stays where there is one.
    cases kind with
    | filesystem => simpa [upward, start, List.inits_cons, eq_comm] using hm
    | bundle =>
      have hroot : (names.map Component.name).head? ≠ some .root := by
        cases names <;> simp
      have hi : q.components <+: names.map Component.name := by
        simpa [upward, start, hroot] using hm
      exact ⟨q.components, hi, rfl⟩
  obtain ⟨kept, hkept, rfl⟩ := List.prefix_map_iff.mp habove
  exact isNormal_iff.mpr ⟨kept, hc, fun name hn => hadmits name (hkept.subset hn)⟩

end StorageKind.IsNormal

/-- Whether a path is the normal form of its own text. Then text may be written behind it. -/
def StorageKind.IsExact (kind : StorageKind) (p : Path) : Prop :=
  ∃ rooted names, p = ofNames rooted names ∧
    (if rooted = true then [Component.root] else []) = kind.start ∧
    ∀ name ∈ names, IsName name ∧ kind.Admits name

namespace StorageKind.IsExact

variable {kind : StorageKind} {p : Path}

theorem isNormal (h : kind.IsExact p) : kind.IsNormal p := by
  obtain ⟨rooted, names, rfl, hstart, hnames⟩ := h
  refine isNormal_iff.mpr ⟨names, ?_, fun name hm => (hnames name hm).2⟩
  rw [components_ofNames _ fun name hm => (hnames name hm).1, hstart]

theorem append (h : kind.IsExact p) {ext : String} (hs : '/' ∉ ext.toList)
    (hb : '\\' ∉ ext.toList) (hl : 2 < ext.toList.length) : kind.IsExact (p.append ext) := by
  obtain ⟨rooted, names, rfl, hstart, hnames⟩ := h
  have hext : IsName ext ∧ kind.Admits ext := ⟨isName_of_length hs hl, fun _ => hb⟩
  cases names using List.reverseRecOn with
  | nil =>
    refine ⟨rooted, [ext], ?_, hstart, by simpa using hext⟩
    simp [ofNames, Path.append]
  | append_singleton names last =>
    refine ⟨rooted, names ++ [last ++ ext], ofNames_append rooted names last ext, hstart, ?_⟩
    intro name hm
    rcases List.mem_append.mp hm with hm | hm
    · exact hnames name (List.mem_append_left _ hm)
    · obtain rfl : name = last ++ ext := by simpa using hm
      obtain ⟨hlast, hadmits⟩ := hnames last (by simp)
      refine ⟨isName_of_length ?_ ?_, fun hk => ?_⟩
      · simp [hlast.1, hs]
      · simp only [String.toList_append, List.length_append]
        omega
      · simp [hadmits hk, hb]

end StorageKind.IsExact

namespace Bundle

theorem key?_of_isNormal {p : Path} (h : StorageKind.bundle.IsNormal p) {names : List String}
    (hc : p.components = names.map .name) : key? p = some (ofNames false names).text := by
  have hb : '\\' ∉ (ofNames false names).text.toList :=
    notMem_ofNames false (by decide) fun name hm => (h.isName hc name hm).2 rfl
  rw [key?, canonical?_of_isNormal h hc, Option.map_some, Path.display, forwardSlashes_eq_self hb]

theorem same_of_key?_eq {p q : Path} (hp : StorageKind.bundle.IsNormal p)
    (hq : StorageKind.bundle.IsNormal q) (h : key? p = key? q) : p.same q = true := by
  obtain ⟨names, hc, -⟩ := StorageKind.isNormal_iff.mp hp
  obtain ⟨names', hc', -⟩ := StorageKind.isNormal_iff.mp hq
  have htext : (ofNames false names).text = (ofNames false names').text := by
    rw [key?_of_isNormal hp hc, key?_of_isNormal hq hc'] at h
    exact Option.some.inj h
  have hcomponents := congrArg components (congrArg Path.mk htext)
  rw [components_ofNames false fun name hm => (hp.isName hc name hm).1,
    components_ofNames false fun name hm => (hq.isName hc' name hm).1] at hcomponents
  rw [Path.same_iff, hc, hc']
  exact hcomponents

end Bundle

/-! ## Names of packages -/

namespace BareSpecifier

theorem head?_ne_slash_of_splitName? {s name last rest : List Char}
    (h : splitName? s = some (name, last, rest)) : name.head? ≠ some '/' := by
  have htake : (s.takeWhile notSlash).head? ≠ some '/' := by
    cases s with
    | nil => simp
    | cons c s =>
      by_cases hc : notSlash c = true
      · rw [List.takeWhile_cons_of_pos hc]
        simpa [notSlash] using hc
      · simp [List.takeWhile_cons_of_neg hc]
  unfold splitName? at h
  dsimp only at h
  split at h
  · next hscope =>
    rw [startsWith_singleton, beq_iff_eq] at hscope
    split at h
    · cases h
    · split at h
      · cases h
      · obtain ⟨s, rfl⟩ := List.head?_eq_some_iff.mp hscope
        have hat : notSlash '@' = true := by decide
        simp only [Option.some.injEq, Prod.mk.injEq, List.takeWhile_cons_of_pos hat] at h
        simp [← h.1]
  · simp only [Option.some.injEq, Prod.mk.injEq] at h
    exact h.1 ▸ htake

/-- The name of a package is relative and has no backslash. It may still climb in its last part. -/
theorem parse?_package {specifier : String} {bare : BareSpecifier}
    (h : parse? specifier = some bare) :
    (Path.mk bare.package).isAbsolute = false ∧ '\\' ∉ bare.package.toList := by
  unfold parse? at h
  split at h
  · cases h
  · next name last rest hsplit =>
    have hhead := head?_ne_slash_of_splitName? hsplit
    split at h
    · next hv =>
      obtain rfl : _ = bare := Option.some.inj h
      simp only [isValidName, Bool.and_eq_true] at hv
      refine ⟨?_, by simpa using hv.1.2⟩
      rw [isAbsolute, String.toList_ofList, startsWith_singleton]
      simpa using hhead
    · cases h

end BareSpecifier

/-! ## The cache -/

/-- Whether each package that is kept is known by the directory that it was looked up in. -/
def PackageCache.Rooted (packages : PackageCache) : Prop :=
  ∀ entry ∈ packages.lookups.entries, ∀ d, entry.2 = .loaded d → d.root = entry.1

section Cache

variable {m : Type → Type} [Monad m] {σ : Type}

theorem PackageLookup.root_of_ofText {root : Path} {text : String} {d : PackageDescriptor}
    (h : ofText root text = .loaded d) : d.root = root := by
  unfold ofText at h
  split at h
  · cases h
  · next value _ =>
    cases value
    case object members =>
      obtain rfl := PackageLookup.loaded.inj h
      rfl
    all_goals cases h

theorem PackageLookup.root_of_read (o : Observer m σ) (source : FileSource m) {root : Path} {w : σ}
    {d : PackageDescriptor} (h : (o.run (read source root) w).1 = .loaded d) : d.root = root := by
  unfold read at h
  rw [o.run_bind] at h
  split at h
  · rw [o.run_bind] at h
    split at h
    · rw [o.run_pure] at h
      cases h
    · rw [o.run_pure] at h
      exact root_of_ofText h
  · rw [o.run_pure] at h
    cases h

namespace PackageCache.Rooted

theorem empty : PackageCache.empty.Rooted := fun _ h => absurd h List.not_mem_nil

theorem add {packages : PackageCache} (h : packages.Rooted) {root : Path} {lookup : PackageLookup}
    (hl : ∀ d, lookup = .loaded d → d.root = root) : (packages.add root lookup).Rooted := by
  intro entry hm
  rcases List.mem_append.mp hm with hm | hm
  · exact h entry hm
  · obtain rfl : entry = (root, lookup) := by simpa using hm
    exact hl

theorem load {packages : PackageCache} (h : packages.Rooted) (o : Observer m σ)
    (source : FileSource m) (p : Path) (w : σ) :
    (o.look (PackageCache.load source p) packages w).1.2.Rooted ∧
      ∀ d, (o.look (PackageCache.load source p) packages w).1.1 = .loaded d →
        d.root.components = p.components := by
  cases hf : packages.find? p with
  | some found =>
    rw [load_of_eq_some o source hf]
    obtain ⟨q, hm, hq⟩ := PathMap.exists_mem_of_find?_eq_some hf
    refine ⟨h, fun d hd => ?_⟩
    rw [h _ hm d hd, hq]
  | none =>
    rw [load_of_eq_none o source hf]
    have hread (d : PackageDescriptor) (hd : (o.run (PackageLookup.read source p) w).1 = .loaded d) :
        d.root = p := PackageLookup.root_of_read o source hd
    exact ⟨h.add hread, fun d hd => congrArg Path.components (hread d hd)⟩

end PackageCache.Rooted

/-- Everything is equal, and the cache satisfies an invariant. -/
def Likeness.same (σ : Type) (I : PackageCache → Prop) : Likeness σ σ where
  path := Eq
  exact := Eq
  error := Eq
  state packages w packages' v := packages = packages' ∧ w = v ∧ I packages

/-- A resolver beside itself. Packages stay known by their directories. -/
theorem Simulates.rooted (o : Observer m σ) (r : Resolver m) :
    Simulates (Likeness.same σ PackageCache.Rooted) o o r r := by
  refine .ofEq rfl rfl (fun _ => rfl) rfl rfl rfl rfl ?_ ?_ ?_
  · rintro p packages w _ _ ⟨rfl, rfl, hI⟩
    exact ⟨rfl, rfl, rfl, hI⟩
  · rintro p packages w _ _ ⟨rfl, rfl, hI⟩
    exact ⟨rfl, rfl, rfl, hI⟩
  · rintro p packages w _ _ ⟨rfl, rfl, hI⟩
    exact ⟨Likeness.lookup_refl (fun _ => rfl) (fun _ => trivial) _, rfl, rfl, (hI.load o r.source p w).1⟩

theorem Resolver.rooted_replay (r : Resolver m) (o : Observer m σ) (history : List Query) (w : σ) :
    (o.look (r.replay history) PackageCache.empty w).1.2.Rooted := by
  have hstate : (Likeness.same σ PackageCache.Rooted).state .empty w .empty w :=
    ⟨rfl, rfl, PackageCache.Rooted.empty⟩
  exact ((Simulates.rooted o r).replay (fun _ => rfl) history hstate).2.2.2

end Cache

/-! ## The package that is asked for -/

namespace Simulates

variable {m m' : Type → Type} [Monad m] [Monad m'] {σ σ' : Type} {l : Likeness σ σ'}
  {o : Observer m σ} {o' : Observer m' σ'} {r : Resolver m} {r' : Resolver m'}
  (h : Simulates l o o' r r')
include h

open Likeness

theorem selectImport (specifier : String) {base base' : Path} (mode : ResolveMode)
    (hb : l.path base base') :
    l.Agree o o' Eq (r.selectImport specifier base mode) (r'.selectImport specifier base' mode) := by
  refine (h.findImportsOwner .none (h.ancestors hb)).bind ?_
  rintro ⟨owner, nearest⟩ ⟨owner', nearest'⟩ ⟨ho, -⟩
  dsimp only at ho
  cases ho with
  | none => exact Agree.pure rfl
  | some hd =>
    dsimp only
    rw [hd.imports]
    split
    · exact h.selectTarget .imports _ specifier mode hd.root
    · exact Agree.pure rfl

theorem packageText? (hrefl : ∀ p, l.path p p) (request : Request) :
    l.Agree o o' Eq (r.packageText? request) (r'.packageText? request) := by
  have hb := h.baseDirectory (Requests.refl hrefl request).referrer
  unfold Resolver.packageText?
  dsimp only
  rw [h.kind]
  split
  · refine (h.selectImport _ request.mode hb).bind fun a b hab => ?_
    exact Agree.pure (by rw [hab])
  · split
    · exact Agree.pure rfl
    · split
      · exact Agree.pure rfl
      · exact Agree.pure rfl

end Simulates

/-- The text that a request looks up does not depend on what was recorded before. -/
theorem Resolver.search_packageText?_eq {m : Type → Type} [Monad m] {σ : Type} (o : Observer m σ)
    (r : Resolver m) (request : Request) {packages : PackageCache} (hI : packages.Rooted) {w : σ}
    {trace : Trace} (trace' : Trace) {text : Option String}
    (h : (o.search (r.packageText? request) ⟨packages, trace⟩ w).1.1 = .ok text) :
    (o.search (r.packageText? request) ⟨packages, trace'⟩ w).1.1 = .ok text := by
  let s : SearchState := ⟨packages, trace⟩
  let t : SearchState := ⟨packages, trace'⟩
  have hstate : (Likeness.same σ PackageCache.Rooted).state s.packages w t.packages w :=
    ⟨rfl, rfl, hI⟩
  have hagree := ((Simulates.rooted o r).packageText? (fun _ => rfl) request hstate).1
  rw [h] at hagree
  cases ha : (o.search (r.packageText? request) t w).1.1 with
  | error e => rw [ha] at hagree; exact hagree.elim
  | ok text' =>
    rw [ha] at hagree
    exact congrArg Except.ok (Eq.symm hagree)

/-! ## Answers -/

/-- Normal paths, and packages whose names do not climb. -/
def Zone.normal (kind : StorageKind) : Zone where
  directory := kind.IsNormal
  exact := kind.IsExact
  file := kind.IsNormal
  package name := Target.hasParentSegment name = false ∧ (Path.mk name).isAbsolute = false ∧
    '\\' ∉ name.toList

theorem index_admitted : ∀ ext ∈ ".js" :: defaultExtensions,
    IsName ("index" ++ ext) ∧ '\\' ∉ ("index" ++ ext).toList := by decide

theorem extension_admitted : ∀ ext ∈ defaultExtensions,
    '/' ∉ ext.toList ∧ '\\' ∉ ext.toList ∧ 2 < ext.toList.length := by decide

namespace Resolver

variable {m : Type → Type} [Monad m] {σ : Type}

theorem confines_normal (o : Observer m σ) {r : Resolver m} (hr : r.IsAnchored)
    (hx : r.extensions = defaultExtensions) (hroot : r.source.kind.IsNormal r.root) :
    Confines (Zone.normal r.source.kind) o (fun packages _ => packages.Rooted) r where
  root := hroot
  directory_of_exact h := h.isNormal
  normalize {p q} h := by
    obtain ⟨names, rfl, -, hnames⟩ := exists_names_of_normalize? hr h
    exact ⟨_, names, rfl, hr.isRooted_eq p, hnames⟩
  ancestors h hq := h.ancestors hq
  package {p name} h hn := by
    obtain ⟨hup, hrel, hb⟩ := hn
    have hdir : IsName packagesDirectory := by decide
    have hc := components_joinText_of_isName hdir p
    refine (h.joinText hdir fun _ => by decide).join (by simp [hc]) hrel
      (Target.up_notMem_inner hup) fun text hm _ => ?_
    exact fun hc => hb (mem_text_of_mem_name hm hc)
  index {p ext} h he := by
    rw [hx] at he
    obtain ⟨hname, hb⟩ := index_admitted ext he
    exact h.joinText hname fun _ => hb
  append {p ext} h he := by
    rw [hx] at he
    obtain ⟨hs, hb, hl⟩ := extension_admitted ext he
    exact (h.append hs hb hl).isNormal
  existsFile h _ _ hI := ⟨hI, fun _ => h⟩
  existsDir _ _ _ hI := hI
  load {p} h packages w hI := by
    obtain ⟨hkept, hloaded⟩ := hI.load o r.source p w
    exact ⟨hkept, fun d hd => h.congr (hloaded d hd).symm⟩

/-- Whether a file is the answer to some request, after some history. The source may change all the
time. A request may name any package, but not climb out of it. -/
def Answers (r : Resolver (StateM σ)) (found : ResolvedModule) : Prop :=
  ∃ (history : List Query) (before now : σ) (request : Request),
    let packages := (((r.replay history).run PackageCache.empty).run before).1.2
    (((r.resolve request).run packages).run now).1.1 = .ok found ∧
      ∀ text bare,
        ((((r.packageText? request).run).run ⟨packages, Trace.empty⟩).run now).1.1 =
          .ok (some text) →
        BareSpecifier.parse? text = some bare → Target.hasParentSegment bare.package = false

theorem isNormal_of_answers {r : Resolver (StateM σ)} (hr : r.IsAnchored)
    (hx : r.extensions = defaultExtensions) (hroot : r.source.kind.IsNormal r.root)
    {found : ResolvedModule} (h : r.Answers found) : r.source.kind.IsNormal found.path := by
  obtain ⟨history, before, now, request, hfound, hpackage⟩ := h
  have hkept := r.rooted_replay (Observer.state σ) history before
  refine ((confines_normal (Observer.state σ) hr hx hroot).resolve hkept ?_ hfound).1
  intro trace text ht bare hbare
  have htext := r.search_packageText?_eq (Observer.state σ) request hkept .empty ht
  exact ⟨hpackage text bare htext hbare, BareSpecifier.parse?_package hbare⟩

/-- Every answer is a path that normalization leaves alone, and two answers that a bundle keeps
under the same key are the same path. -/
theorem answers_canonical (r : Resolver (StateM σ)) (hr : r.IsAnchored)
    (hx : r.extensions = defaultExtensions) (hroot : r.source.kind.IsNormal r.root) :
    (∀ found, r.Answers found →
      (r.normalize? found.path).map components = some found.path.components ∧
        r.source.kind.IsNormal found.path) ∧
    (r.source.kind = .bundle → ∀ found found', r.Answers found → r.Answers found' →
      Bundle.key? found.path = Bundle.key? found'.path → found.path.same found'.path = true) := by
  have hnormal (found : ResolvedModule) (h : r.Answers found) :
      r.source.kind.IsNormal found.path := isNormal_of_answers hr hx hroot h
  refine ⟨fun found h => ⟨?_, hnormal found h⟩, fun hk found found' h h' hkey => ?_⟩
  · exact (map_components_normalize?_eq_iff hr).mpr (hnormal found h)
  · exact Bundle.same_of_key?_eq (hk ▸ hnormal found h) (hk ▸ hnormal found' h') hkey

/-- A file below a root that is written with two slashes, asked for by package name and by path. -/
theorem answers_canonical_bundle :
    let bundle := Bundle.ofEntries [("a/node_modules/p/index.js", "".toUTF8)]
    let r : Resolver (StateM Unit) := .ofSource bundle.toSource ⟨"a//"⟩ ⟨"/"⟩
    let named : ResolvedModule := ⟨⟨"a//node_modules/p/index.js"⟩, .bundle, .cjs⟩
    let written : ResolvedModule := ⟨⟨"a/node_modules/p/index.js"⟩, .bundle, .cjs⟩
    r.IsAnchored ∧ r.extensions = defaultExtensions ∧ r.source.kind.IsNormal r.root ∧
      r.Answers named ∧ r.Answers written ∧
      (r.normalize? named.path).map components = some named.path.components ∧
      named.path.same written.path = true := by
  intro bundle r named written
  have hr : r.IsAnchored := fun h => by cases h
  have hroot : r.source.kind.IsNormal r.root := by
    refine StorageKind.isNormal_iff.mpr ⟨["a"], by decide, fun name hm _ => ?_⟩
    obtain rfl : name = "a" := by simpa using hm
    decide
  have hnamed : r.Answers named := by
    refine ⟨[], (), (), ⟨"p", none, .import⟩, by decide +kernel, fun text bare h hb => ?_⟩
    have ht : (((r.packageText? ⟨"p", none, .import⟩).run.run ⟨.empty, .empty⟩).run ()).1.1 =
        .ok (some "p") := by decide +kernel
    obtain rfl : "p" = text := by simpa using ht.symm.trans h
    have hp : BareSpecifier.parse? "p" = some ⟨"p", "."⟩ := by decide
    obtain rfl : ⟨"p", "."⟩ = bare := Option.some.inj (hp.symm.trans hb)
    decide
  have hwritten : r.Answers written := by
    let request : Request := ⟨"./node_modules/p/index.js", none, .import⟩
    refine ⟨[], (), (), request, by decide +kernel, fun text bare h _ => ?_⟩
    have ht : (((r.packageText? request).run.run ⟨.empty, .empty⟩).run ()).1.1 = .ok none := by
      decide +kernel
    exact absurd (ht.symm.trans h) (by simp)
  obtain ⟨hnormal, hsame⟩ := r.answers_canonical hr rfl hroot
  have hcomponents : named.path.components = written.path.components := by decide
  have hkey : Bundle.key? named.path = Bundle.key? written.path := by
    rw [Bundle.key?, Bundle.key?, Bundle.canonical?_congr hcomponents]
  exact ⟨hr, rfl, hroot, hnamed, hwritten, (hnormal named hnamed).1,
    hsame rfl _ _ hnamed hwritten hkey⟩

end Resolver

end ModuleLoader
