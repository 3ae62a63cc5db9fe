import ModuleLoader.Proofs.Resolve.Observer

/-! The outcome of a search. Over plain answers it is one value, which what was recorded before does
not change, and where the search looks at files only, nor does the cache. -/

namespace ModuleLoader

namespace Search

variable {α β : Type}

/-- Whether a search ends in an outcome from every state, and leaves the cache alone. -/
def Gives (x : Search Id α) (outcome : Except ResolveError α) : Prop :=
  ∀ s, ∃ t, Observer.plain.search x s () = ((outcome, t), ()) ∧ t.packages = s.packages

theorem gives_pure (a : α) : Gives (pure a) (.ok a) :=
  fun s => ⟨s, Observer.plain.search_pure s () a, rfl⟩

theorem gives_throw (e : ResolveError) : Gives (throw e : Search Id α) (.error e) :=
  fun s => ⟨s, Observer.plain.search_throw s () e, rfl⟩

theorem gives_modify {f : SearchState → SearchState} (h : ∀ s, (f s).packages = s.packages) :
    Gives (modify f : Search Id PUnit) (.ok ⟨⟩) :=
  fun s => ⟨f s, Observer.plain.search_modify s () f, h s⟩

theorem gives_note (step : TraceStep) : Gives (note step) (.ok ()) := gives_modify fun _ => rfl

theorem gives_warn (code message : String) : Gives (warn code message) (.ok ()) :=
  gives_modify fun _ => rfl

theorem Gives.bind {x : Search Id α} {f : α → Search Id β} {a : α} {outcome : Except ResolveError β}
    (h : Gives x (.ok a)) (hf : Gives (f a) outcome) : Gives (x >>= f) outcome := by
  intro s
  obtain ⟨t, ht, htp⟩ := h s
  obtain ⟨u, hu, hup⟩ := hf t
  exact ⟨u, (Observer.plain.search_bind_of_ok s () ht).trans hu, hup.trans htp⟩

theorem Gives.afterNote {x : Search Id α} {outcome : Except ResolveError α} (h : Gives x outcome)
    (step : TraceStep) : Gives (note step >>= fun _ => x) outcome := (gives_note step).bind h

/-! ## Caches -/

/-- Whether a search that starts with one cache ends in an outcome with another cache. -/
def Ends (packages : PackageCache) (x : Search Id α) (outcome : Except ResolveError α)
    (packages' : PackageCache) : Prop :=
  ∀ s, s.packages = packages →
    ∃ t, Observer.plain.search x s () = ((outcome, t), ()) ∧ t.packages = packages'

section Ends

variable {a b c : PackageCache} {x : Search Id α} {f : α → Search Id β}
  {outcome : Except ResolveError β}

theorem Gives.ends {outcome : Except ResolveError α} (h : Gives x outcome) (a : PackageCache) :
    Ends a x outcome a := by
  rintro s rfl
  exact h s

theorem Ends.bind {v : α} (h : Ends a x (.ok v) b) (hf : Ends b (f v) outcome c) :
    Ends a (x >>= f) outcome c := by
  intro s hs
  obtain ⟨t, ht, htp⟩ := h s hs
  obtain ⟨u, hu, hup⟩ := hf t htp
  exact ⟨u, (Observer.plain.search_bind_of_ok s () ht).trans hu, hup⟩

theorem Ends.bind_error {e : ResolveError} (h : Ends a x (.error e) b) (f : α → Search Id β) :
    Ends a (x >>= f) (.error e) b := by
  intro s hs
  obtain ⟨t, ht, htp⟩ := h s hs
  exact ⟨t, Observer.plain.search_bind_of_error s () ht, htp⟩

theorem Gives.bind_ends {v : α} (h : Gives x (.ok v)) (hf : Ends a (f v) outcome b) :
    Ends a (x >>= f) outcome b := (h.ends a).bind hf

theorem ends_withPackages (look : StateT PackageCache Id α) (a : PackageCache) :
    Ends a (withPackages look) (.ok (look.run a).1) (look.run a).2 := by
  rintro s rfl
  exact ⟨_, Observer.plain.search_withPackages s () look, rfl⟩

end Ends

end Search

namespace Resolver

open Search

variable (r : Resolver Id)

/-! ## Requests -/

/-- What a resolver answers once the search for a file has ended: the file with its format, which is
detected in the cache that the search has left. -/
def answer (packages : PackageCache) (outcome : Except ResolveError Path) :
    Except ResolveError ResolvedModule :=
  outcome.map fun path => ⟨path, r.source.kind, ((r.detectFormat path).run packages).1⟩

theorem answer_error (packages : PackageCache) (e : ResolveError) :
    r.answer packages (.error e) = .error e := rfl

theorem answer_ok (packages : PackageCache) (path : Path) : r.answer packages (.ok path) =
    .ok ⟨path, r.source.kind, ((r.detectFormat path).run packages).1⟩ := rfl

/-- The search for the file that a request asks for. -/
def fileSearch (request : Request) : Search Id Path :=
  r.resolveKind (Specifier.kind request.specifier) (Specifier.normalize request.specifier)
    (r.baseDirectory request.referrer) request.mode

theorem resolve_eq_answer (request : Request) (hne : request.specifier ≠ "")
    {packages packages' : PackageCache} {outcome : Except ResolveError Path}
    (h : Ends packages (r.fileSearch request) outcome packages') :
    ((r.resolve request).run packages).1 = r.answer packages' outcome := by
  have hsearch : ∃ last, Ends packages (r.search request) (r.answer packages' outcome) last := by
    unfold search
    rw [if_neg hne]
    cases outcome with
    | error e => exact ⟨packages', (gives_note _).bind_ends (h.bind_error _)⟩
    | ok path =>
      have hformat := ends_withPackages (r.detectFormat path) packages'
      have hanswer : Gives (pure ⟨path, r.source.kind, ((r.detectFormat path).run packages').1⟩)
          (r.answer packages' (.ok path)) := gives_pure _
      refine ⟨((r.detectFormat path).run packages').2,
        (gives_note _).bind_ends (h.bind (hformat.bind ?_))⟩
      exact ((hanswer.afterNote _).afterNote _).ends _
  obtain ⟨last, hlast⟩ := hsearch
  obtain ⟨t, ht, -⟩ := hlast ⟨packages, Trace.empty⟩ rfl
  have hlook := Observer.plain.look_resolve () packages r request
  rw [ht] at hlook
  exact congrArg (fun out => out.1.1) hlook

end Resolver

end ModuleLoader
