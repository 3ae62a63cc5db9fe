import ModuleLoader.Proofs.Path.Map
import ModuleLoader.Proofs.Path.Spelling
import ModuleLoader.Proofs.Resolve.PackageSimulation
import ModuleLoader.Proofs.Source.Spelling

/-! Memoized lookups. A cache of right lookups does not show in what a resolver answers, and every
step of a resolver that may fill the cache is a look at one directory. -/

namespace ModuleLoader

open Likeness

namespace PackageCache

/-- Each kept lookup is what reading gives, and each directory was looked up once at most. -/
structure Faithful (source : FileSource Id) (packages : PackageCache) : Prop where
  entries : ∀ entry ∈ packages.lookups.entries, entry.2 = PackageLookup.read source entry.1
  distinct : packages.lookups.Distinct

theorem Faithful.empty (source : FileSource Id) : Faithful source PackageCache.empty :=
  ⟨fun _ h => by simp [PackageCache.empty, PathMap.empty] at h, List.Pairwise.nil⟩

theorem Faithful.add {source : FileSource Id} {packages : PackageCache} {root : Path}
    (h : Faithful source packages) (hn : packages.find? root = none) :
    Faithful source (packages.add root (PackageLookup.read source root)) := by
  refine ⟨fun entry hm => ?_, h.distinct.push hn _⟩
  rcases List.mem_append.mp hm with hm | hm
  · exact h.entries entry hm
  · obtain rfl : entry = (root, PackageLookup.read source root) := by simpa using hm
    rfl

theorem load_of_eq_some {m : Type → Type} [Monad m] {σ : Type} (o : Observer m σ)
    (source : FileSource m) {packages : PackageCache} {root : Path} {found : PackageLookup}
    (h : packages.find? root = some found) (w : σ) :
    o.look (load source root) packages w = ((found, packages), w) := by
  rw [load, o.look_bind, o.look_get]
  simp only [h]
  exact o.look_pure w packages found

theorem load_of_eq_none {m : Type → Type} [Monad m] {σ : Type} (o : Observer m σ)
    (source : FileSource m) {packages : PackageCache} {root : Path}
    (h : packages.find? root = none) (w : σ) :
    o.look (load source root) packages w =
      (((o.run (PackageLookup.read source root) w).1,
        packages.add root (o.run (PackageLookup.read source root) w).1),
        (o.run (PackageLookup.read source root) w).2) := by
  rw [load, o.look_bind, o.look_get]
  simp only [h]
  rw [o.look_bind, o.look_lift, o.look_bind, o.look_modify, o.look_pure]

end PackageCache

/-! ## Reading -/

namespace PackageLookup

def ofRead (root : Path) : Except ReadError ByteArray → PackageLookup
  | .error error => .invalid (.unreadable error)
  | .ok bytes => ofText root (Text.readLossy bytes)

theorem read_eq {m : Type → Type} [Monad m] [LawfulMonad m] (source : FileSource m) (root : Path) :
    read source root = (do
      if ← source.existsFile (root.joinText manifestName) then
        ofRead root <$> source.read (root.joinText manifestName)
      else return .missing) := by
  unfold read
  dsimp only
  congr 1
  funext found
  split
  · rw [map_eq_pure_bind]
    congr 1
    funext answer
    cases answer <;> rfl
  · rfl

theorem read_eq_ite (source : FileSource Id) (root : Path) :
    read source root = if Id.run (source.existsFile (root.joinText manifestName)) = true then
      ofRead root (Id.run (source.read (root.joinText manifestName))) else .missing := by
  rw [read_eq]
  rfl

variable {σ σ' : Type} {l : Likeness σ σ'} {p q : Path}

theorem lookup_ofText (h : l.path p q) {text : String}
    (hk : ∀ d, ofText p text = .loaded d → l.known d) :
    l.Lookup (ofText p text) (ofText q text) := by
  unfold ofText at hk ⊢
  generalize Json.parse text = parsed at hk ⊢
  cases parsed with
  | error e => exact .invalid fun _ => rfl
  | ok json =>
    dsimp only at hk ⊢
    cases json
    case object members => exact .loaded ⟨hk _ rfl, h, rfl, rfl, rfl, rfl⟩
    all_goals exact .invalid fun _ => rfl

theorem lookup_ofRead (h : l.path p q) {a b : Except ReadError ByteArray}
    (hab : Except.toOption a = Except.toOption b) (hs : ¬l.Strict)
    (hk : ∀ d, ofRead p a = .loaded d → l.known d) :
    l.Lookup (ofRead p a) (ofRead q b) := by
  cases a with
  | error e =>
    cases b with
    | error f => exact .invalid fun hl => (hs hl).elim
    | ok bytes => cases hab
  | ok bytes =>
    cases b with
    | error f => cases hab
    | ok bytes' =>
      obtain rfl : bytes = bytes' := Option.some.inj hab
      exact lookup_ofText h hk

theorem lookup_read {source : FileSource Id} (hr : source.RespectsPaths)
    (hc : p.components = q.components) (h : l.path p q) (hs : ¬l.Strict) (hk : ∀ d, l.known d) :
    l.Lookup (read source p) (read source q) := by
  have hm := Path.joinText_congr hc manifestName
  rw [read_eq_ite, read_eq_ite, hr.existsFile hm]
  split
  · exact lookup_ofRead h (hr.read hm) hs fun d _ => hk d
  · exact .missing

end PackageLookup

/-- A cache of right lookups answers rightly, if not always for the spelling asked for. -/
theorem PackageCache.Faithful.load {source : FileSource Id} {packages : PackageCache}
    (h : Faithful source packages) (p : Path) :
    (∃ q, q.components = p.components ∧
      (Observer.plain.look (PackageCache.load source p) packages ()).1.1 =
        PackageLookup.read source q) ∧
      Faithful source (Observer.plain.look (PackageCache.load source p) packages ()).1.2 := by
  cases hf : packages.find? p with
  | some found =>
    rw [load_of_eq_some _ _ hf]
    obtain ⟨q, hm, hq⟩ := PathMap.exists_mem_of_find?_eq_some hf
    exact ⟨⟨q, hq, h.entries _ hm⟩, h⟩
  | none =>
    rw [load_of_eq_none _ _ hf]
    exact ⟨⟨p, rfl, rfl⟩, h.add hf⟩

/-! ## Any cache against any other -/

namespace Likeness

/-- Paths are told apart by their components and errors by their codes. Both caches keep right
lookups, whichever these are. -/
def spelling (source : FileSource Id) : Likeness Unit Unit where
  path p q := p.components = q.components
  exact p q := p = q
  error e f := e.code = f.code
  state packages _ packages' _ := packages.Faithful source ∧ packages'.Faithful source

theorem spelling_not_strict (source : FileSource Id) : ¬(spelling source).Strict := by
  intro hs
  have hc : (Path.mk "a").components = (Path.mk "a/").components := by decide
  have he : Path.mk "a" = Path.mk "a/" := hs hc
  exact absurd he (by decide)

end Likeness

namespace Simulates

theorem spelling (r : Resolver Id) (hr : r.source.RespectsPaths) :
    Simulates (Likeness.spelling r.source) Observer.plain Observer.plain r r where
  kind := rfl
  extensions := rfl
  root := rfl
  path_of_exact h := congrArg Path.components h
  joinText text h := Path.joinText_congr h text
  append text h := congrArg (fun p : Path => (p.append text).components) h
  parent {p q} h := by
    have hm := Path.parent?_congr h
    cases hp : p.parent? <;> cases hq : q.parent? <;> rw [hp, hq] at hm
    · exact .none
    · cases hm
    · cases hm
    · exact .some (Option.some.inj hm)
  ancestors h := Path.ancestors_congr h
  fileName h := Path.fileName?_congr h
  extension h := Path.extension?_congr h
  normalize {p q} h := by
    rw [r.normalize?_congr h]
    cases r.normalize? q with
    | none => exact .none
    | some target => exact .some rfl
  error h _ := h
  existsFile h _ _ _ _ hs := ⟨hr.existsFile h, hs⟩
  existsDir h _ _ _ _ hs := ⟨hr.existsDir h, hs⟩
  load {p q} h packages w packages' v hs := by
    obtain ⟨⟨p', hp, hpe⟩, hp'⟩ := hs.1.load p
    obtain ⟨⟨q', hq, hqe⟩, hq'⟩ := hs.2.load q
    have hc : p'.components = q'.components := hp.trans (Eq.trans h hq.symm)
    refine ⟨?_, hp', hq'⟩
    have hread : (Likeness.spelling r.source).Lookup (PackageLookup.read r.source p')
        (PackageLookup.read r.source q') := PackageLookup.lookup_read hr hc hc (spelling_not_strict _) fun _ => trivial
    rw [← hpe, ← hqe] at hread
    exact hread

end Simulates

/-! ## The same cache, watched -/

namespace Likeness

/-- Everything is equal, and the cache and what is watched satisfy an invariant. -/
def keeping {σ : Type} (I : PackageCache → σ → Prop) : Likeness Unit σ where
  path p q := p = q
  exact p q := p = q
  error e f := e = f
  state packages _ packages' w := packages = packages' ∧ I packages w

theorem lookup_refl {σ σ' : Type} {l : Likeness σ σ'} (hrefl : ∀ p, l.path p p)
    (hk : ∀ d, l.known d) (lookup : PackageLookup) : l.Lookup lookup lookup := by
  cases lookup with
  | missing => exact .missing
  | invalid fault => exact .invalid fun _ => rfl
  | loaded d => exact .loaded ⟨hk d, hrefl d.root, rfl, rfl, rfl, rfl⟩

end Likeness

namespace Simulates

/-- Where only equal paths go together, it is left to see that the sources answer alike. -/
theorem ofEq {m m' : Type → Type} [Monad m] [Monad m'] {σ σ' : Type} {l : Likeness σ σ'}
    {o : Observer m σ} {o' : Observer m' σ'} {r : Resolver m} {r' : Resolver m'}
    (hpath : l.path = Eq) (hexact : l.exact = Eq) (herror : ∀ e, l.error e e)
    (hk : r.source.kind = r'.source.kind) (hx : r.extensions = r'.extensions)
    (hroot : r.root = r'.root) (hd : r.workingDirectory = r'.workingDirectory)
    (hf : ∀ p, l.Asks o o' (r.source.existsFile p) (r'.source.existsFile p))
    (hdir : ∀ p, l.Asks o o' (r.source.existsDir p) (r'.source.existsDir p))
    (hload : ∀ p, l.Looks o o' l.Lookup (PackageCache.load r.source p)
      (PackageCache.load r'.source p)) : Simulates l o o' r r' := by
  obtain ⟨path, exact, error, state, known⟩ := l
  subst hpath hexact
  have hstrict : Likeness.Strict ⟨Eq, Eq, error, state, known⟩ := fun _ _ h => h
  have hrel {α : Type} (a : Option α) : Option.Rel Eq a a := by
    cases a with
    | none => exact .none
    | some a => exact .some rfl
  have hnormalize (p : Path) : r.normalize? p = r'.normalize? p := by
    unfold Resolver.normalize?
    rw [hk, hd]
  exact {
    kind := hk
    extensions := hx
    root := hroot
    path_of_exact := fun h => h
    joinText := fun text h => congrArg (Path.joinText · text) h
    append := fun text h => congrArg (Path.append · text) h
    parent := fun h => h ▸ hrel _
    ancestors := fun h => h ▸ List.forall₂_same.mpr fun _ _ => rfl
    fileName := fun h => congrArg Path.fileName? h
    extension := fun h => congrArg Path.extension? h
    normalize := fun {p q} h => h ▸ hnormalize p ▸ hrel _
    error := fun _ h => h hstrict ▸ herror _
    existsFile := fun {p q} h => h ▸ hf p
    existsDir := fun {p q} h => h ▸ hdir p
    load := fun {p q} h => h ▸ hload p }

/-- Looking at the cache is the only step in which a resolver and its watched like may differ. -/
theorem keeping {m : Type → Type} [Monad m] {σ : Type} {o : Observer m σ} {r : Resolver Id}
    {r' : Resolver m} {I : PackageCache → σ → Prop} (hk : r.source.kind = r'.source.kind)
    (hx : r.extensions = r'.extensions) (hroot : r.root = r'.root)
    (hd : r.workingDirectory = r'.workingDirectory)
    (hf : ∀ p w, o.run (r'.source.existsFile p) w = (r.source.existsFile p, w))
    (hdir : ∀ p w, o.run (r'.source.existsDir p) w = (r.source.existsDir p, w))
    (hload : ∀ p packages w, packages.find? p = none → I packages w →
      (o.run (PackageLookup.read r'.source p) w).1 = PackageLookup.read r.source p ∧
        I (packages.add p (PackageLookup.read r.source p))
          (o.run (PackageLookup.read r'.source p) w).2) :
    Simulates (Likeness.keeping I) Observer.plain o r r' := by
  refine ofEq rfl rfl (fun _ => rfl) hk hx hroot hd ?_ ?_ ?_
  · intro p packages w packages' v hs
    rw [hf]
    exact ⟨rfl, hs⟩
  · intro p packages w packages' v hs
    rw [hdir]
    exact ⟨rfl, hs⟩
  · intro p packages w packages' v hs
    obtain ⟨rfl, hI⟩ := hs
    cases hp : packages.find? p with
    | some found =>
      rw [PackageCache.load_of_eq_some _ _ hp, PackageCache.load_of_eq_some _ _ hp]
      exact ⟨lookup_refl (fun _ => rfl) (fun _ => trivial) found, rfl, hI⟩
    | none =>
      obtain ⟨he, hI'⟩ := hload p packages v hp hI
      rw [PackageCache.load_of_eq_none _ _ hp, PackageCache.load_of_eq_none _ _ hp, he]
      exact ⟨lookup_refl (fun _ => rfl) (fun _ => trivial) _, rfl, hI'⟩

end Simulates

end ModuleLoader
