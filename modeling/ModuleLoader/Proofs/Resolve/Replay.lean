import ModuleLoader.Proofs.Path.Normal
import ModuleLoader.Proofs.Resolve.Memo

/-! Histories of queries. Whatever was asked of a resolver before, it answers as a new one would, and
no `package.json` is read twice. -/

namespace ModuleLoader

open Likeness

/-- What a caller asks of a resolver. -/
inductive Query where
  | resolve (request : Request)
  | detectFormat (path : Path)

def Resolver.replay {m : Type → Type} [Monad m] (r : Resolver m) :
    List Query → StateT PackageCache m Unit
  | [] => return ()
  | .resolve request :: rest => do
    let _ ← r.resolve request
    replay r rest
  | .detectFormat path :: rest => do
    let _ ← r.detectFormat path
    replay r rest

/-- The source with a record of the files that are read, newest first. -/
def FileSource.watched (source : FileSource Id) : FileSource (StateM (List Path)) where
  kind := source.kind
  existsFile p := pure (source.existsFile p)
  existsDir p := pure (source.existsDir p)
  read p := do
    modify fun paths => p :: paths
    pure (source.read p)

def Resolver.watched (r : Resolver Id) : Resolver (StateM (List Path)) :=
  ⟨r.source.watched, r.root, r.extensions, r.workingDirectory⟩

namespace Simulates

variable {m m' : Type → Type} [Monad m] [Monad m'] {σ σ' : Type} {l : Likeness σ σ'}
  {o : Observer m σ} {o' : Observer m' σ'} {r : Resolver m} {r' : Resolver m'}

theorem replay (h : Simulates l o o' r r') (hrefl : ∀ p, l.path p p) (queries : List Query) :
    l.Looks o o' (fun _ _ => True) (r.replay queries) (r'.replay queries) := by
  induction queries with
  | nil => exact Looks.pure trivial
  | cons query rest ih =>
    cases query with
    | resolve request =>
      exact (h.resolve hrefl (.refl hrefl request)).bind fun _ _ _ => ih
    | detectFormat path => exact (h.probes.detectFormat (hrefl path)).bind fun _ _ _ => ih

end Simulates

/-! ## What is read -/

theorem Path.components_joinText_manifestName (p : Path) :
    (p.joinText manifestName).components = p.components ++ [.name manifestName] :=
  components_joinText_of_isName (by decide) p

/-- Each file that was read is the manifest of a directory looked up, and was read once. -/
structure PackageCache.ReadOnce (packages : PackageCache) (paths : List Path) : Prop where
  ofLookup : ∀ path ∈ paths, ∃ entry ∈ packages.lookups.entries,
    path = entry.1.joinText manifestName
  distinct : paths.Pairwise fun p q => p.same q = false

namespace PackageCache.ReadOnce

variable {packages : PackageCache} {paths : List Path} {root : Path}

theorem add (h : ReadOnce packages paths) (root : Path) (lookup : PackageLookup) :
    ReadOnce (packages.add root lookup) paths := by
  refine ⟨fun path hp => ?_, h.distinct⟩
  obtain ⟨entry, hm, he⟩ := h.ofLookup path hp
  exact ⟨entry, List.mem_append_left _ hm, he⟩

theorem read (h : ReadOnce packages paths) (hn : packages.find? root = none)
    (lookup : PackageLookup) :
    ReadOnce (packages.add root lookup) (root.joinText manifestName :: paths) := by
  refine ⟨fun path hp => ?_, List.pairwise_cons.mpr ⟨fun path hp => ?_, h.distinct⟩⟩
  · rcases List.mem_cons.mp hp with rfl | hp
    · exact ⟨(root, lookup), List.mem_append_right _ (by simp), rfl⟩
    · exact (h.add root lookup).ofLookup path hp
  · obtain ⟨entry, hm, rfl⟩ := h.ofLookup path hp
    have hne := PathMap.find?_eq_none_iff.mp hn entry hm
    rw [Path.same_eq_false_iff, Path.components_joinText_manifestName,
      Path.components_joinText_manifestName]
    exact fun he => hne (List.append_cancel_right he).symm

theorem countP_le_one (h : ReadOnce packages paths) (p : Path) :
    paths.countP (fun path => path.same p) ≤ 1 := by
  have hd : PathMap.Distinct ⟨paths.map fun path => (path, ())⟩ :=
    List.pairwise_map.mpr h.distinct
  have hc := hd.countP_le_one p
  rw [List.countP_map] at hc
  exact hc

end PackageCache.ReadOnce

/-- A look at a directory reads its manifest if there is one, and nothing else. -/
theorem PackageLookup.run_read_watched (source : FileSource Id) (root : Path) (paths : List Path) :
    (Observer.state (List Path)).run (read source.watched root) paths =
      (read source root, if Id.run (source.existsFile (root.joinText manifestName)) = true then
        root.joinText manifestName :: paths else paths) := by
  rw [read_eq, read_eq]
  have he : source.watched.existsFile (root.joinText manifestName) =
      pure (source.existsFile (root.joinText manifestName)) := rfl
  rw [he, pure_bind]
  generalize source.existsFile (root.joinText manifestName) = found
  cases (found : Bool) <;> rfl

namespace Simulates

/-- Under the record of what is read, nothing is answered otherwise. -/
theorem watched (r : Resolver Id) :
    Simulates (Likeness.keeping PackageCache.ReadOnce) Observer.plain (Observer.state (List Path))
      r r.watched := by
  refine keeping rfl rfl rfl rfl (fun _ _ => rfl) (fun _ _ => rfl) fun root packages paths hn h => ?_
  have hread := PackageLookup.run_read_watched r.source root paths
  rw [show r.watched.source = r.source.watched from rfl, hread]
  refine ⟨rfl, ?_⟩
  dsimp only
  split
  · exact h.read hn _
  · exact h.add root _

end Simulates

/-! ## Histories -/

/-- What was asked before makes no difference. A request is answered as by a new resolver, up to
spelling, and what is kept is what reading gives. Each directory was looked up once, and each
manifest read once, at most. -/
theorem Resolver.replay_invisible (r : Resolver Id) (hr : r.source.RespectsPaths)
    (history : List Query) :
    let packages := ((r.replay history).run PackageCache.empty).2
    let log := ((r.watched.replay history).run PackageCache.empty).run []
    (∀ request, match ((r.resolve request).run PackageCache.empty).1 with
      | .ok fresh => ∃ answer, ((r.resolve request).run packages).1 = .ok answer ∧
          answer.path.same fresh.path = true ∧ answer.storage = fresh.storage ∧
          answer.format = fresh.format
      | .error fresh => ∃ error, ((r.resolve request).run packages).1 = .error error ∧
          error.code = fresh.code) ∧
    (∀ path, ((r.detectFormat path).run packages).1 =
      ((r.detectFormat path).run PackageCache.empty).1) ∧
    (∀ entry ∈ packages.lookups.entries, entry.2 = PackageLookup.read r.source entry.1) ∧
    (∀ root, packages.lookups.entries.countP (fun entry => entry.1.same root) ≤ 1) ∧
    log.1.2 = packages ∧
    (∀ root : Path, log.2.countP (fun path => path.same (root.joinText manifestName)) ≤ 1) := by
  intro packages log
  have hs := Simulates.spelling r hr
  have hrefl : ∀ p, (Likeness.spelling r.source).path p p := fun _ => rfl
  have hempty := PackageCache.Faithful.empty r.source
  -- The history is run against itself, so its cache is one of right lookups.
  have hnew : (Likeness.spelling r.source).state .empty () .empty () := ⟨hempty, hempty⟩
  have hkept : packages.Faithful r.source := (hs.replay hrefl history hnew).2.1
  have hstate : (Likeness.spelling r.source).state packages () .empty () := ⟨hkept, hempty⟩
  have hunread : (Likeness.keeping PackageCache.ReadOnce).state .empty () .empty [] :=
    ⟨rfl, fun _ h => absurd h List.not_mem_nil, List.Pairwise.nil⟩
  obtain ⟨-, hsame, honce⟩ := (Simulates.watched r).replay (fun _ => rfl) history hunread
  refine ⟨fun request => ?_, fun path => ?_, hkept.entries, hkept.distinct.countP_le_one, hsame.symm,
    fun root => honce.countP_le_one _⟩
  · have hanswer : (Likeness.spelling r.source).Outcome (Likeness.spelling r.source).Resolved
        ((r.resolve request).run packages).1 ((r.resolve request).run PackageCache.empty).1 :=
      (hs.resolve hrefl (.refl hrefl request) hstate).1
    cases hf : ((r.resolve request).run PackageCache.empty).1 with
    | ok fresh =>
      cases ha : ((r.resolve request).run packages).1 with
      | error error => rw [hf, ha] at hanswer; exact hanswer.elim
      | ok answer =>
        rw [hf, ha] at hanswer
        exact ⟨answer, rfl, Path.same_iff.mpr hanswer.path, hanswer.storage, hanswer.format⟩
    | error fresh =>
      cases ha : ((r.resolve request).run packages).1 with
      | ok answer => rw [hf, ha] at hanswer; exact hanswer.elim
      | error error =>
        rw [hf, ha] at hanswer
        exact ⟨error, rfl, hanswer⟩
  · exact (hs.probes.detectFormat (hrefl path) hstate).1

/-- A file of a module package keeps its format under another spelling, after it was resolved. -/
theorem Resolver.replay_invisible_bundle :
    let bundle := Bundle.ofEntries
      [("pkg/package.json", "\x7b\"type\":\"module\"\x7d".toUTF8), ("pkg/a.js", "".toUTF8)]
    let r : Resolver Id := .ofSource bundle.toSource ⟨""⟩ ⟨"/"⟩
    let history := [.resolve ⟨"./pkg/a.js", none, .require⟩, .detectFormat ⟨"pkg//"⟩]
    r.source.RespectsPaths ∧
      ((r.detectFormat ⟨"pkg//a.js"⟩).run ((r.replay history).run PackageCache.empty).2).1 =
        .esm := by
  intro bundle r history
  have hr : r.source.RespectsPaths := bundle.toSource_respectsPaths
  refine ⟨hr, ?_⟩
  rw [(r.replay_invisible hr history).2.1]
  decide +kernel

end ModuleLoader
