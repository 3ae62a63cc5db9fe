import ModuleLoader.Proofs.Resolve.Containment
import ModuleLoader.Proofs.Resolve.Replay
import ModuleLoader.Proofs.Resolve.Canonical

/-! The configured root. A request without a referrer starts from it as it is written. For paths its
spelling makes no difference; a package is searched for in the directories that its text names. -/

namespace ModuleLoader

open ModuleLoader.Path Likeness

/-! ## Paths below the root -/

namespace Resolver

variable {r : Resolver Id} {p q : Path}

theorem exists_normalize?_filesystem (hk : r.source.kind = .filesystem)
    (hd : r.workingDirectory.isAbsolute = true) (p : Path) : ∃ q, r.normalize? p = some q := by
  have hr : r.IsAnchored := fun _ => hd
  have hrooted : r.isRooted p = true := by
    have hs := hr.isRooted_eq p
    rw [hk] at hs
    by_contra hcon
    simp [hcon, StorageKind.start] at hs
  obtain ⟨names, hnames⟩ := exists_settle_true (r.steps p) []
  exact ⟨_, by rw [r.normalize?_eq, hrooted, hnames]; rfl⟩

/-- What is written behind a path is normalized as it is behind the path's normal form. -/
theorem normalize?_joinText_of_normalize? (hr : r.IsAnchored) (h : r.normalize? p = some q)
    (text : String) : r.normalize? (p.joinText text) = r.normalize? (q.joinText text) := by
  by_cases ha : (Path.mk text).isAbsolute = true
  · simp [joinText, join, ha]
  · have hrel : (Path.mk text).isAbsolute = false := by simpa using ha
    have hrooted : r.isRooted p = r.isRooted q := by
      have he := (hr.isRooted_eq p).trans (hr.isRooted_eq q).symm
      cases hp : r.isRooted p <;> cases hq : r.isRooted q <;> simp [hp, hq] at he ⊢
    obtain ⟨names, rfl, hc, -⟩ := exists_names_of_normalize? hr h
    have hsteps := steps_of_isNormal (isNormal_of_normalize? hr h) hc
    have hsettle : settle (r.isRooted p) (r.steps p) [] = some names := by
      rw [r.normalize?_eq] at h
      obtain ⟨found, hfound, he⟩ := Option.map_eq_some_iff.mp h
      have hnames := isName_of_settle_steps hfound
      have hcomponents := congrArg components he
      rw [hc, components_ofNames _ fun name hm => (hnames name hm).1, hr.isRooted_eq] at hcomponents
      have hmap := List.append_cancel_left hcomponents
      have hinj : Function.Injective (Component.name) := fun a b hab => Component.name.inj hab
      rw [hfound, List.map_injective_iff.mpr hinj hmap]
    rw [joinText, joinText, r.normalize?_eq, r.normalize?_eq, isRooted_join hrel, isRooted_join hrel,
      steps_join hrel, steps_join hrel, ← hrooted, settle_append, hsettle, hsteps, settle_append,
      settle_map_name]
    rfl

theorem components_normalize? (hr : r.IsAnchored) (h : r.normalize? p = some q)
    (hp : r.source.kind.IsNormal p) : q.components = p.components := by
  have hm := (map_components_normalize?_eq_iff hr).mpr hp
  rw [h] at hm
  exact Option.some.inj hm

end Resolver

/-! ## Absolute answers -/

/-- Absolute paths, and packages that are named by relative ones. -/
def Zone.absolute : Zone where
  directory p := p.isAbsolute = true
  exact p := p.isAbsolute = true
  file p := p.isAbsolute = true
  package name := (Path.mk name).isAbsolute = false

theorem Path.isAbsolute_of_mem_ancestors {p q : Path} (hp : p.isAbsolute = true)
    (h : q ∈ p.ancestors) : q.isAbsolute = true := by
  rw [isAbsolute_eq, beq_iff_eq] at hp ⊢
  obtain ⟨rest, hc⟩ := List.head?_eq_some_iff.mp hp
  have hm := components_mem_upward h
  rw [upward, if_pos hp, hc, List.inits_cons] at hm
  obtain ⟨above, -, ha⟩ : ∃ above, above ∈ rest.inits ∧ .root :: above = q.components := by
    simpa using hm
  rw [← ha]
  rfl

theorem Path.isAbsolute_joinText {p : Path} (hp : p.isAbsolute = true) {text : String}
    (ht : (Path.mk text).isAbsolute = false) : (p.joinText text).isAbsolute = true := by
  rw [joinText, isAbsolute_join_of_relative ht, hp]

namespace Resolver

theorem confines_absolute {r : Resolver Id} (hk : r.source.kind = .filesystem)
    (hd : r.workingDirectory.isAbsolute = true) (hroot : r.root.isAbsolute = true) :
    Confines Zone.absolute Observer.plain (fun packages _ => packages.Rooted) r where
  root := hroot
  directory_of_exact h := h
  normalize h := (hk ▸ isNormal_of_normalize? (fun _ => hd) h).isAbsolute_iff.mpr rfl
  ancestors h hq := isAbsolute_of_mem_ancestors h hq
  package h hn := isAbsolute_joinText (isAbsolute_joinText h (by decide)) hn
  index {p ext} h _ := by
    refine isAbsolute_joinText h ?_
    have hi : ("index" ++ ext).toList = 'i' :: ("ndex".toList ++ ext.toList) := by
      rw [String.toList_append]
      rfl
    rw [isAbsolute, hi, Text.startsWith_singleton]
    rfl
  append {p ext} h _ := by
    have hp : p.isAbsolute = true := h
    rw [isAbsolute, Text.startsWith_singleton, beq_iff_eq] at hp
    obtain ⟨rest, ht⟩ := List.head?_eq_some_iff.mp hp
    change (p.append ext).isAbsolute = true
    rw [isAbsolute, append, String.toList_append, ht, Text.startsWith_singleton]
    rfl
  existsFile h _ _ hI := ⟨hI, fun _ => h⟩
  existsDir _ _ _ hI := hI
  load {p} h packages w hI := by
    obtain ⟨hkept, hloaded⟩ := hI.load Observer.plain r.source p w
    exact ⟨hkept, fun d hd => (isAbsolute_congr (hloaded d hd)).trans h⟩

/-! ## Two spellings of one root -/

/-- Answers of the same storage and format whose paths go together, or errors of the same code. -/
def SameAnswer (same : Path → Path → Prop) :
    Except ResolveError ResolvedModule → Except ResolveError ResolvedModule → Prop
  | .ok a, .ok b => same a.path b.path ∧ a.storage = b.storage ∧ a.format = b.format
  | .error e, .error f => e.code = f.code
  | _, _ => False

end Resolver

/-- Everything is equal but the texts of errors. -/
def Likeness.sameCode : Likeness Unit Unit where
  path := Eq
  exact := Eq
  error e f := e.code = f.code
  state packages _ packages' _ := packages = packages'

theorem Likeness.Outcome.sameAnswer {σ σ' : Type} {l : Likeness σ σ'}
    (he : ∀ e f, l.error e f → e.code = f.code) {same : Path → Path → Prop}
    {rel : ResolvedModule → ResolvedModule → Prop}
    (hrel : ∀ a b, rel a b → same a.path b.path ∧ a.storage = b.storage ∧ a.format = b.format)
    {a b : Except ResolveError ResolvedModule} (h : l.Outcome rel a b) :
    Resolver.SameAnswer same a b := by
  cases a <;> cases b
  · exact he _ _ h
  · exact h
  · exact h
  · exact hrel _ _ h

theorem Probes.withRoot {m m' : Type → Type} [Monad m] [Monad m'] {σ σ' : Type} {l : Likeness σ σ'}
    {o : Observer m σ} {o' : Observer m' σ'} {r : Resolver m} {r' : Resolver m'}
    (h : Probes l o o' r r') (root : Path) : Probes l o o' r { r' with root := root } := { h with }

namespace Resolver

/-- The answer of a new resolver to a request without a referrer. -/
def entry (r : Resolver Id) (specifier : String) (mode : ResolveMode) :
    Except ResolveError ResolvedModule :=
  ((r.resolve ⟨specifier, none, mode⟩).run PackageCache.empty).1

variable {r : Resolver Id} {root : Path}

theorem isAbsolute_of_entry (hk : r.source.kind = .filesystem)
    (hd : r.workingDirectory.isAbsolute = true) (hroot : r.root.isAbsolute = true)
    {specifier : String} {mode : ResolveMode} {found : ResolvedModule}
    (h : r.entry specifier mode = .ok found) : found.path.isAbsolute = true := by
  have hanswer : (Observer.plain.look (r.resolve ⟨specifier, none, mode⟩) .empty ()).1.1 =
      .ok found := h
  refine ((confines_absolute hk hd hroot).resolve PackageCache.Rooted.empty ?_ hanswer).1
  exact fun _ _ _ _ hbare => (BareSpecifier.parse?_package hbare).1

/-- A path is normalized with the root that it is joined to. -/
theorem sameAnswer_of_isPath (hk : r.source.kind = .filesystem)
    (hd : r.workingDirectory.isAbsolute = true) (hroot : r.normalize? r.root = some root)
    {specifier : String} (hp : (Specifier.kind specifier).isPath = true) (mode : ResolveMode) :
    SameAnswer Eq (r.entry specifier mode)
      (({ r with root := root } : Resolver Id).entry specifier mode) := by
  have hself : Simulates Likeness.sameCode Observer.plain Observer.plain r r := by
    refine .ofEq rfl rfl (fun _ => rfl) rfl rfl rfl rfl ?_ ?_ ?_
    · rintro p packages w _ _ rfl
      exact ⟨rfl, rfl⟩
    · rintro p packages w _ _ rfl
      exact ⟨rfl, rfl⟩
    · rintro p packages w _ _ rfl
      exact ⟨lookup_refl (fun _ => rfl) (fun _ => trivial) _, rfl⟩
  have hpath :
      r.normalize? (pathOf (Specifier.kind specifier) (Specifier.normalize specifier) r.root) =
      r.normalize? (pathOf (Specifier.kind specifier) (Specifier.normalize specifier) root) := by
    unfold pathOf
    split
    · exact normalize?_joinText_of_normalize? (fun _ => hd) hroot _
    · rfl
  have hn : Option.Rel Eq
      (r.normalize? (pathOf (Specifier.kind specifier) (Specifier.normalize specifier) r.root))
      (r.normalize? (pathOf (Specifier.kind specifier) (Specifier.normalize specifier) root)) := by
    rw [hpath]
    cases r.normalize? (pathOf _ _ root) with
    | none => exact .none
    | some target => exact .some rfl
  have hsearch := (hself.probes.withRoot root).search (a := ⟨specifier, none, mode⟩)
    (b := ⟨specifier, none, mode⟩) rfl rfl hp (fun _ => ⟨hk, hk⟩) rfl hn
  have hempty : Likeness.sameCode.state .empty () .empty () := rfl
  exact (hsearch.resolve hempty).1.sameAnswer (fun _ _ h => h)
    fun a b h => ⟨h.path, h.left.trans h.right.symm, h.format⟩

/-- An absolute root without `..` names the same directories as its normal form. -/
theorem sameAnswer_of_isAbsolute (hk : r.source.kind = .filesystem)
    (hd : r.workingDirectory.isAbsolute = true) (hroot : r.normalize? r.root = some root)
    (hr : r.source.RespectsPaths) (ha : r.root.isAbsolute = true) (hup : .up ∉ r.root.components)
    (specifier : String) (mode : ResolveMode) :
    SameAnswer (fun p q => p.same q = true) (r.entry specifier mode)
      (({ r with root := root } : Resolver Id).entry specifier mode) := by
  have hhere : .here ∉ r.root.components := by
    rw [isAbsolute_eq, beq_iff_eq] at ha
    obtain ⟨rest, hc⟩ := List.head?_eq_some_iff.mp ha
    intro hm
    rw [hc] at hm
    have ht : Component.here ∈ r.root.components.tail := by simpa [hc] using hm
    exact absurd (isStep_of_mem_tail ht) (by decide)
  have hnormal : r.source.kind.IsNormal r.root :=
    ⟨by simp [ha, hk], hhere, hup, fun hb => by rw [hk] at hb; cases hb⟩
  have hc := components_normalize? (fun _ => hd) hroot hnormal
  have hs : Simulates (Likeness.spelling r.source) Observer.plain Observer.plain r
      { r with root := root } := { Simulates.spelling r hr with root := hc.symm }
  have hrefl : ∀ p, (Likeness.spelling r.source).path p p := fun _ => rfl
  have hempty : (Likeness.spelling r.source).state .empty () .empty () :=
    ⟨.empty r.source, .empty r.source⟩
  exact (hs.resolve hrefl (.refl hrefl ⟨specifier, none, mode⟩) hempty).1.sameAnswer (fun _ _ h => h)
    fun a b h => ⟨Path.same_iff.mpr h.path, h.storage, h.format⟩

/-- Under the normal form of its root a resolver of a filesystem answers with absolute paths only. As
configured it answers paths alike, and all other specifiers too if its root is absolute and does not
climb. -/
theorem root_spelling (r : Resolver Id) (hk : r.source.kind = .filesystem)
    (hd : r.workingDirectory.isAbsolute = true) :
    ∃ root, (absolutize r.workingDirectory r.root).normalize? = some root ∧
      let normal : Resolver Id := { r with root := root }
      ∀ specifier mode,
        (∀ found, normal.entry specifier mode = .ok found → found.path.isAbsolute = true) ∧
        ((Specifier.kind specifier).isPath = true →
          SameAnswer Eq (r.entry specifier mode) (normal.entry specifier mode)) ∧
        (r.source.RespectsPaths → r.root.isAbsolute = true → .up ∉ r.root.components →
          SameAnswer (fun p q => p.same q = true) (r.entry specifier mode)
            (normal.entry specifier mode)) := by
  obtain ⟨root, hroot⟩ := exists_normalize?_filesystem hk hd r.root
  have habs : root.isAbsolute = true :=
    (hk ▸ isNormal_of_normalize? (fun _ => hd) hroot).isAbsolute_iff.mpr rfl
  refine ⟨root, ?_, fun specifier mode => ⟨fun found h => ?_, fun hp => ?_, fun hr ha hup => ?_⟩⟩
  · rw [normalize?, hk] at hroot
    exact hroot
  · exact isAbsolute_of_entry (r := { r with root := root }) hk hd habs h
  · exact sameAnswer_of_isPath hk hd hroot hp mode
  · exact sameAnswer_of_isAbsolute hk hd hroot hr ha hup specifier mode

/-- A root with idle pieces, asked for a package above it and for a file beside it. -/
theorem root_spelling_idle :
    let files := (MemoryFiles.empty.insertFile ⟨"/a/node_modules/p/index.js"⟩ (.ok "".toUTF8)).insertFile
      ⟨"/a/b/x.js"⟩ (.ok "".toUTF8)
    let r : Resolver Id := .ofSource files.toSource ⟨"/a//./c/"⟩ ⟨"/"⟩
    let normal : Resolver Id := { r with root := ⟨"/a/c"⟩ }
    r.source.kind = .filesystem ∧ r.workingDirectory.isAbsolute = true ∧
      r.source.RespectsPaths ∧ r.root.isAbsolute = true ∧ .up ∉ r.root.components ∧
      SameAnswer Eq (r.entry "../b/x" .require) (normal.entry "../b/x" .require) ∧
      SameAnswer (fun p q => p.same q = true) (r.entry "p" .require) (normal.entry "p" .require) ∧
      normal.entry "p" .require = .ok ⟨⟨"/a/node_modules/p/index.js"⟩, .filesystem, .cjs⟩ ∧
      (Path.mk "/a/node_modules/p/index.js").isAbsolute = true := by
  intro files r normal
  have hk : r.source.kind = .filesystem := rfl
  have hd : r.workingDirectory.isAbsolute = true := by decide +kernel
  have hr : r.source.RespectsPaths := files.toSource_respectsPaths
  have ha : r.root.isAbsolute = true := by decide +kernel
  have hup : .up ∉ r.root.components := by decide +kernel
  have hpath : (Specifier.kind "../b/x").isPath = true := by decide +kernel
  have hfound : normal.entry "p" .require =
      .ok ⟨⟨"/a/node_modules/p/index.js"⟩, .filesystem, .cjs⟩ := by decide +kernel
  have hnormal : (absolutize r.workingDirectory r.root).normalize? = some ⟨"/a/c"⟩ := by
    decide +kernel
  clear_value r
  obtain ⟨root, hroot, h⟩ := r.root_spelling hk hd
  obtain rfl : ⟨"/a/c"⟩ = root := Option.some.inj (hnormal.symm.trans hroot)
  exact ⟨hk, hd, hr, ha, hup, (h "../b/x" .require).2.1 hpath, (h "p" .require).2.2 hr ha hup,
    hfound, (h "p" .require).1 _ hfound⟩

/-- A root with `..` is searched along its text, and so is a relative one. The first finds the package
of another directory, and the second gives a relative path. -/
theorem entry_ne_of_root_spelling :
    let files := (MemoryFiles.empty.insertFile ⟨"/a/b/node_modules/p/index.js"⟩
      (.ok "".toUTF8)).insertFile ⟨"/node_modules/p/index.js"⟩ (.ok "".toUTF8)
    let r (root : String) : Resolver Id := .ofSource files.toSource ⟨root⟩ ⟨"/"⟩
    (absolutize ⟨"/"⟩ ⟨"/a/b/../c"⟩).normalize? = some ⟨"/a/c"⟩ ∧
      (r "/a/b/../c").entry "p" .require =
        .ok ⟨⟨"/a/b/node_modules/p/index.js"⟩, .filesystem, .cjs⟩ ∧
      (r "/a/c").entry "p" .require = .ok ⟨⟨"/node_modules/p/index.js"⟩, .filesystem, .cjs⟩ ∧
      (r "sub").entry "p" .require = .ok ⟨⟨"node_modules/p/index.js"⟩, .filesystem, .cjs⟩ ∧
      (Path.mk "node_modules/p/index.js").isAbsolute = false := by
  decide +kernel

end Resolver

end ModuleLoader
