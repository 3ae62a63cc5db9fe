import ModuleLoader.Resolve.Resolver

/-! Watching a search. What the questions to a source do to a watched value is all that is known of
the monad they are asked in. -/

namespace ModuleLoader

/-- A reading of a monad as functions on a watched value. -/
structure Observer (m : Type → Type) [Monad m] (σ : Type) where
  run {α : Type} : m α → σ → α × σ
  run_pure {α : Type} (a : α) (w : σ) : run (pure a) w = (a, w)
  run_bind {α β : Type} (x : m α) (f : α → m β) (w : σ) :
    run (x >>= f) w = run (f (run x w).1) (run x w).2

namespace Observer

def plain : Observer Id Unit where
  run x w := (x, w)
  run_pure _ _ := rfl
  run_bind _ _ _ := rfl

def state (σ : Type) : Observer (StateM σ) σ where
  run x w := x.run w
  run_pure _ _ := rfl
  run_bind _ _ _ := rfl

variable {m : Type → Type} [Monad m] {σ : Type} (o : Observer m σ)

def search {α : Type} (x : Search m α) (s : SearchState) (w : σ) :
    (Except ResolveError α × SearchState) × σ := o.run ((ExceptT.run x).run s) w

def look {α : Type} (x : StateT PackageCache m α) (packages : PackageCache) (w : σ) :
    (α × PackageCache) × σ := o.run (x.run packages) w

variable {α β : Type} (s : SearchState) (w : σ)

theorem search_pure (a : α) : o.search (pure a) s w = ((.ok a, s), w) := o.run_pure _ w

theorem search_throw (e : ResolveError) :
    o.search (throw e : Search m α) s w = ((.error e, s), w) := o.run_pure _ w

theorem search_bind_of_ok {x : Search m α} {f : α → Search m β} {a : α} {t : SearchState} {v : σ}
    (h : o.search x s w = ((.ok a, t), v)) : o.search (x >>= f) s w = o.search (f a) t v := by
  have hb : o.search (x >>= f) s w = o.run (((ExceptT.run x) >>= ExceptT.bindCont f).run s) w := rfl
  rw [hb, StateT.run_bind, o.run_bind]
  have hx : o.run ((ExceptT.run x).run s) w = ((.ok a, t), v) := h
  rw [hx]
  rfl

theorem search_bind_of_error {x : Search m α} {f : α → Search m β} {e : ResolveError}
    {t : SearchState} {v : σ} (h : o.search x s w = ((.error e, t), v)) :
    o.search (x >>= f) s w = ((.error e, t), v) := by
  have hb : o.search (x >>= f) s w = o.run (((ExceptT.run x) >>= ExceptT.bindCont f).run s) w := rfl
  rw [hb, StateT.run_bind, o.run_bind]
  have hx : o.run ((ExceptT.run x).run s) w = ((.error e, t), v) := h
  rw [hx]
  exact o.run_pure _ v

theorem exists_of_search_bind_eq_ok {x : Search m α} {f : α → Search m β} {b : β}
    {t : SearchState} {v : σ} (h : o.search (x >>= f) s w = ((.ok b, t), v)) :
    ∃ a s' w', o.search x s w = ((.ok a, s'), w') ∧ o.search (f a) s' w' = ((.ok b, t), v) := by
  cases hx : o.search x s w with
  | mk xa w' =>
    obtain ⟨a, s'⟩ := xa
    cases a with
    | ok a =>
      rw [o.search_bind_of_ok s w hx] at h
      exact ⟨a, s', w', rfl, h⟩
    | error e =>
      rw [o.search_bind_of_error s w hx] at h
      cases h

theorem search_modify (f : SearchState → SearchState) :
    o.search (modify f : Search m PUnit) s w = ((.ok ⟨⟩, f s), w) := by
  have hm : o.search (modify f : Search m PUnit) s w =
      o.run (pure ((PUnit.unit, f s) : PUnit × SearchState) >>=
        fun r => pure (Except.ok r.1, r.2)) w := rfl
  rw [hm, o.run_bind, o.run_pure, o.run_pure]

theorem search_ask (question : m α) :
    o.search (Search.ask question) s w =
      ((.ok (o.run question w).1, s), (o.run question w).2) := by
  have ha : o.search (Search.ask question) s w =
      o.run ((question >>= fun a => pure (a, s)) >>= fun r => pure (Except.ok r.1, r.2)) w := rfl
  rw [ha, o.run_bind, o.run_bind, o.run_pure, o.run_pure]

theorem search_withPackages (x : StateT PackageCache m α) :
    o.search (Search.withPackages x) s w =
      ((.ok (o.look x s.packages w).1.1, { s with packages := (o.look x s.packages w).1.2 }),
        (o.look x s.packages w).2) := by
  have hp : o.search (Search.withPackages x) s w =
      o.run ((x.run s.packages >>= fun r => pure (r.1, { s with packages := r.2 })) >>=
        fun r => pure (Except.ok r.1, r.2)) w := rfl
  rw [hp, o.run_bind, o.run_bind, o.run_pure, o.run_pure]
  rfl

variable (packages : PackageCache)

theorem look_pure (a : α) : o.look (pure a) packages w = ((a, packages), w) := o.run_pure _ w

theorem look_bind (x : StateT PackageCache m α) (f : α → StateT PackageCache m β) :
    o.look (x >>= f) packages w =
      o.look (f (o.look x packages w).1.1) (o.look x packages w).1.2 (o.look x packages w).2 := by
  rw [look, StateT.run_bind, o.run_bind]
  rfl

theorem look_get :
    o.look (get : StateT PackageCache m PackageCache) packages w = ((packages, packages), w) :=
  o.run_pure _ w

theorem look_modify (f : PackageCache → PackageCache) :
    o.look (modify f : StateT PackageCache m PUnit) packages w = ((⟨⟩, f packages), w) :=
  o.run_pure _ w

theorem look_lift (question : m α) :
    o.look (StateT.lift question) packages w =
      (((o.run question w).1, packages), (o.run question w).2) := by
  have hl : o.look (StateT.lift question) packages w =
      o.run (question >>= fun a => pure (a, packages)) w := rfl
  rw [hl, o.run_bind, o.run_pure]

theorem look_resolve (r : Resolver m) (request : Request) :
    o.look (r.resolve request) packages w =
      (((o.search (r.search request) ⟨packages, Trace.empty⟩ w).1.1,
        (o.search (r.search request) ⟨packages, Trace.empty⟩ w).1.2.packages),
        (o.search (r.search request) ⟨packages, Trace.empty⟩ w).2) := by
  have hr : o.look (r.resolve request) packages w =
      o.run (((ExceptT.run (r.search request)).run ⟨packages, Trace.empty⟩ >>= fun out =>
        pure ((out.1, out.2.trace), out.2.packages)) >>= fun out => pure (out.1.1, out.2)) w := rfl
  rw [hr, o.run_bind, o.run_bind, o.run_pure, o.run_pure]
  rfl

end Observer

end ModuleLoader
