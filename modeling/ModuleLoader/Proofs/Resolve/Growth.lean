import ModuleLoader.Proofs.Resolve.Memo

/-! Growth of the package cache. Resolution only adds lookups, so a format that was detected once is
detected ever after, for all spellings of the file's path. -/

namespace ModuleLoader

namespace PackageCache

/-- Whether what one cache finds is found in another one too. -/
def Extends (packages packages' : PackageCache) : Prop :=
  ∀ root found, packages.find? root = some found → packages'.find? root = some found

variable {a b c : PackageCache}

theorem Extends.refl (a : PackageCache) : Extends a a := fun _ _ h => h

theorem Extends.trans (hab : Extends a b) (hbc : Extends b c) : Extends a c :=
  fun root found h => hbc root found (hab root found h)

theorem extends_add (a : PackageCache) (root : Path) (lookup : PackageLookup) :
    Extends a (a.add root lookup) :=
  fun _ _ h => PathMap.find?_push_of_eq_some h root lookup

theorem find?_congr {p q : Path} (h : p.components = q.components) (a : PackageCache) :
    a.find? p = a.find? q := PathMap.find?_congr h a.lookups

variable (source : FileSource Id)

theorem run_load_of_eq_some {dir : Path} {packages : PackageCache} {found : PackageLookup}
    (h : packages.find? dir = some found) :
    (load source dir).run packages = (found, packages) :=
  congrArg Prod.fst (load_of_eq_some Observer.plain source h ())

theorem run_load_of_eq_none {dir : Path} {packages : PackageCache}
    (h : packages.find? dir = none) : (load source dir).run packages =
      (PackageLookup.read source dir, packages.add dir (PackageLookup.read source dir)) :=
  congrArg Prod.fst (load_of_eq_none Observer.plain source h ())

theorem find?_load (dir : Path) (packages : PackageCache) :
    ((load source dir).run packages).2.find? dir = some ((load source dir).run packages).1 := by
  cases h : packages.find? dir with
  | some found =>
    rw [run_load_of_eq_some source h]
    exact h
  | none =>
    rw [run_load_of_eq_none source h]
    have hn : packages.lookups.find? dir = none := h
    have hp : (packages.lookups.push dir (PackageLookup.read source dir)).find? dir =
        some (PackageLookup.read source dir) := by
      rw [PathMap.find?_push, hn, Path.same_self]
      rfl
    exact hp

theorem run_loadFirst_cons (dir : Path) (rest : List Path) (packages packages' : PackageCache)
    (found : PackageLookup) : (load source dir).run packages = (found, packages') →
    (loadFirst source (dir :: rest)).run packages =
      match found with
      | .missing => (loadFirst source rest).run packages'
      | found => (found, packages') := by
  intro h
  rw [loadFirst, StateT.run_bind, h]
  cases found <;> rfl

end PackageCache

namespace Resolver

open PackageCache

variable (r : Resolver Id)

/-- A resolver beside itself, whose cache has all that a given one has. -/
theorem simulates_extends (packages : PackageCache) :
    Simulates (Likeness.keeping fun packages' (_ : Unit) => packages.Extends packages')
      Observer.plain Observer.plain r r :=
  .keeping rfl rfl rfl rfl (fun _ _ => rfl) (fun _ _ => rfl) fun root packages' _ _ h =>
    ⟨rfl, h.trans (extends_add packages' root _)⟩

theorem extends_of_looks {α : Type} {rel : α → α → Prop} {packages : PackageCache}
    {x : StateT PackageCache Id α}
    (hx : (Likeness.keeping fun packages' (_ : Unit) => packages.Extends packages').Looks
      Observer.plain Observer.plain rel x x) : packages.Extends (x.run packages).2 := by
  have hs : (Likeness.keeping fun packages' (_ : Unit) => packages.Extends packages').state
      packages () packages () := ⟨rfl, .refl packages⟩
  exact (hx hs).2.2

theorem extends_loadFirst (dirs : List Path) (packages : PackageCache) :
    packages.Extends ((loadFirst r.source dirs).run packages).2 :=
  extends_of_looks ((r.simulates_extends packages).probes.loadFirst (List.forall₂_same.mpr fun _ _ => rfl))

theorem extends_detectFormat (path : Path) (packages : PackageCache) :
    packages.Extends ((r.detectFormat path).run packages).2 :=
  extends_of_looks ((r.simulates_extends packages).probes.detectFormat rfl)

theorem extends_resolve (request : Request) (packages : PackageCache) :
    packages.Extends ((r.resolve request).run packages).2 :=
  extends_of_looks ((r.simulates_extends packages).resolve (fun _ => rfl) (.refl (fun _ => rfl) request))

/-! ## Formats -/

/-- Looks along the same directories find the same, in any cache that has grown since. -/
theorem loadFirst_of_extends {dirs dirs' : List Path}
    (hd : List.Forall₂ (fun p q : Path => p.components = q.components) dirs dirs')
    {packages packages' : PackageCache}
    (he : ((loadFirst r.source dirs).run packages).2.Extends packages') :
    (loadFirst r.source dirs').run packages' =
      (((loadFirst r.source dirs).run packages).1, packages') := by
  induction hd generalizing packages with
  | nil => rfl
  | @cons dir dir' rest rest' hc _ ih =>
    obtain ⟨found, packages₁, hl⟩ : ∃ found packages₁,
        (load r.source dir).run packages = (found, packages₁) := ⟨_, _, rfl⟩
    have hkept : packages₁.find? dir = some found := by
      have h := find?_load r.source dir packages
      rw [hl] at h
      exact h
    -- Whatever the look has found, the later cache has it too.
    have hlater (h : packages₁.Extends packages') :
        (load r.source dir').run packages' = (found, packages') := by
      refine run_load_of_eq_some r.source ?_
      rw [← find?_congr hc]
      exact h dir found hkept
    rw [run_loadFirst_cons r.source dir rest packages packages₁ found hl] at he ⊢
    cases found with
    | missing =>
      have hrest := (r.extends_loadFirst rest packages₁).trans he
      rw [run_loadFirst_cons r.source dir' rest' packages' packages' _ (hlater hrest)]
      exact ih he
    | invalid fault => exact run_loadFirst_cons r.source dir' rest' packages' packages' _ (hlater he)
    | loaded d => exact run_loadFirst_cons r.source dir' rest' packages' packages' _ (hlater he)

/-- Whether a path has a format in a cache that no later look will change. -/
def Settles (packages : PackageCache) (path : Path) (format : ModuleFormat) : Prop :=
  ∀ ⦃q packages'⦄, path.components = q.components → packages.Extends packages' →
    (r.detectFormat q).run packages' = (format, packages')

variable {r} {packages packages' : PackageCache} {p q : Path} {format format' : ModuleFormat}

theorem Settles.mono (h : r.Settles packages p format) (he : packages.Extends packages') :
    r.Settles packages' p format := fun _ _ hc he' => h hc (he.trans he')

theorem Settles.congr (h : r.Settles packages p format) (hc : p.components = q.components) :
    r.Settles packages q format := fun _ _ hc' he => h (hc.trans hc') he

theorem Settles.unique (h : r.Settles packages p format) (h' : r.Settles packages p format') :
    format = format' :=
  congrArg Prod.fst ((h rfl (.refl packages)).symm.trans (h' rfl (.refl packages)))

theorem settles_detectFormat (path : Path) (packages : PackageCache) :
    r.Settles ((r.detectFormat path).run packages).2 path ((r.detectFormat path).run packages).1 := by
  intro q packages' hc he
  have hdirs := Path.ancestors_congr (Path.parent?_getD_congr hc)
  have hrun (dir : Path) (c : PackageCache) : (do
      return scriptFormat (← findNearest r.source dir) :
        StateT PackageCache Id ModuleFormat).run c =
      (scriptFormat ((loadFirst r.source dir.ancestors).run c).1,
        ((loadFirst r.source dir.ancestors).run c).2) := rfl
  unfold detectFormat at he ⊢
  rw [← Path.extension?_congr hc]
  split at he
  case h_6 | h_7 | h_8 =>
    rw [hrun] at he
    dsimp only at he
    have hl := r.loadFirst_of_extends hdirs he
    rw [hrun, hrun, hl]
  all_goals rfl

theorem settles_resolve {request : Request} {resolved : ResolvedModule}
    (h : (r.resolve request).run packages = (.ok resolved, packages')) :
    r.Settles packages' resolved.path resolved.format := by
  have hl := Observer.plain.look_resolve () packages r request
  have hx : Observer.plain.look (r.resolve request) packages () = ((.ok resolved, packages'), ()) :=
    congrArg (fun a => (a, ())) h
  rw [hx] at hl
  obtain ⟨t, hs, rfl⟩ : ∃ t, Observer.plain.search (r.search request) ⟨packages, Trace.empty⟩ () =
      ((.ok resolved, t), ()) ∧ t.packages = packages' := by
    generalize Observer.plain.search (r.search request) ⟨packages, Trace.empty⟩ () = out at hl
    obtain ⟨⟨answer, t⟩, u⟩ := out
    obtain ⟨⟨rfl, rfl⟩, -⟩ := Prod.mk.inj hl |>.imp_left Prod.mk.inj
    exact ⟨t, rfl, rfl⟩
  unfold search at hs
  split at hs
  · obtain ⟨_, _, _, -, hs⟩ := Observer.plain.exists_of_search_bind_eq_ok _ _ hs
    rw [Observer.plain.search_throw] at hs
    cases hs
  · obtain ⟨_, _, _, -, hs⟩ := Observer.plain.exists_of_search_bind_eq_ok _ _ hs
    obtain ⟨path, s, _, -, hs⟩ := Observer.plain.exists_of_search_bind_eq_ok _ _ hs
    obtain ⟨format, s', _, hf, hs⟩ := Observer.plain.exists_of_search_bind_eq_ok _ _ hs
    obtain ⟨_, _, _, hn, hs⟩ := Observer.plain.exists_of_search_bind_eq_ok _ _ hs
    obtain ⟨_, _, _, hn', hs⟩ := Observer.plain.exists_of_search_bind_eq_ok _ _ hs
    rw [Observer.plain.search_pure] at hs
    rw [Search.note, Observer.plain.search_modify] at hn hn'
    rw [Observer.plain.search_withPackages] at hf
    -- The record after the look changes nothing of the cache that the look has left.
    cases hs
    cases hn'
    cases hn
    cases hf
    exact settles_detectFormat path s.packages

end Resolver

end ModuleLoader
