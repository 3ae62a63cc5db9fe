import Mathlib.Data.List.Forall2
import Mathlib.Data.Option.Defs
import ModuleLoader.Proofs.Resolve.Observer

/-! Searches that are alike. Two resolvers are run side by side, each from its own cache, and every
step of one goes with a step of the other. -/

namespace ModuleLoader

/-- Which paths, errors and watched caches go together in two searches. Exact paths are those that
have a normal form for their text, so that text may be written behind them. -/
structure Likeness (σ σ' : Type) where
  path : Path → Path → Prop
  exact : Path → Path → Prop
  error : ResolveError → ResolveError → Prop
  state : PackageCache → σ → PackageCache → σ' → Prop
  /-- What is known of every package that is looked up. -/
  known : PackageDescriptor → Prop := fun _ => True

namespace Likeness

variable {σ σ' : Type} (l : Likeness σ σ') {α β γ δ : Type}

/-- Whether only equal paths go together. -/
def Strict : Prop := ∀ ⦃p q : Path⦄, l.path p q → p = q

def Outcome (rel : α → β → Prop) : Except ResolveError α → Except ResolveError β → Prop
  | .ok a, .ok b => rel a b
  | .error e, .error f => l.error e f
  | _, _ => False

structure Descriptor (d d' : PackageDescriptor) : Prop where
  known : l.known d
  root : l.path d.root d'.root
  type : d.type = d'.type
  main : d.main = d'.main
  exports : d.exports = d'.exports
  imports : d.imports = d'.imports

inductive Lookup : PackageLookup → PackageLookup → Prop where
  | missing : Lookup .missing .missing
  | invalid {fault fault' : ManifestFault} (h : l.Strict → fault = fault') :
    Lookup (.invalid fault) (.invalid fault')
  | loaded {d d' : PackageDescriptor} (h : l.Descriptor d d') : Lookup (.loaded d) (.loaded d')

structure Resolved (a b : ResolvedModule) : Prop where
  path : l.path a.path b.path
  storage : a.storage = b.storage
  format : a.format = b.format

/-- Answers that go together, each one kept in a source of its own kind. -/
structure Placed (kind kind' : StorageKind) (a b : ResolvedModule) : Prop where
  path : l.path a.path b.path
  left : a.storage = kind
  right : b.storage = kind'
  format : a.format = b.format

variable {m m' : Type → Type} [Monad m] [Monad m'] (o : Observer m σ) (o' : Observer m' σ')

def Asks (x : m α) (y : m' α) : Prop :=
  ∀ ⦃packages w packages' v⦄, l.state packages w packages' v →
    (o.run x w).1 = (o'.run y v).1 ∧ l.state packages (o.run x w).2 packages' (o'.run y v).2

def Looks (rel : α → β → Prop) (x : StateT PackageCache m α) (y : StateT PackageCache m' β) : Prop :=
  ∀ ⦃packages w packages' v⦄, l.state packages w packages' v →
    rel (o.look x packages w).1.1 (o'.look y packages' v).1.1 ∧
      l.state (o.look x packages w).1.2 (o.look x packages w).2
        (o'.look y packages' v).1.2 (o'.look y packages' v).2

/-- Two searches that go together. What they record does not matter. -/
def Agree (rel : α → β → Prop) (x : Search m α) (y : Search m' β) : Prop :=
  ∀ ⦃s w t v⦄, l.state s.packages w t.packages v →
    l.Outcome rel (o.search x s w).1.1 (o'.search y t v).1.1 ∧
      l.state (o.search x s w).1.2.packages (o.search x s w).2
        (o'.search y t v).1.2.packages (o'.search y t v).2

variable {l o o'} {rel : α → β → Prop} {rel' : γ → δ → Prop}

theorem Agree.pure {a : α} {b : β} (h : rel a b) :
    l.Agree o o' rel (pure a : Search m α) (pure b) := by
  intro s w t v hs
  rw [o.search_pure, o'.search_pure]
  exact ⟨h, hs⟩

theorem Agree.throw {e f : ResolveError} (h : l.error e f) :
    l.Agree o o' rel (throw e : Search m α) (throw f) := by
  intro s w t v hs
  rw [o.search_throw, o'.search_throw]
  exact ⟨h, hs⟩

theorem Agree.bind {x : Search m α} {y : Search m' β} {f : α → Search m γ} {g : β → Search m' δ}
    (h : l.Agree o o' rel x y) (hf : ∀ a b, rel a b → l.Agree o o' rel' (f a) (g b)) :
    l.Agree o o' rel' (x >>= f) (y >>= g) := by
  intro s w t v hs
  obtain ⟨hout, hst⟩ := h hs
  cases hx : o.search x s w with
  | mk xa w' =>
    cases hy : o'.search y t v with
    | mk yb v' =>
      obtain ⟨a, s'⟩ := xa
      obtain ⟨b, t'⟩ := yb
      rw [hx, hy] at hout hst
      cases a with
      | ok a =>
        cases b with
        | ok b =>
          rw [o.search_bind_of_ok s w hx, o'.search_bind_of_ok t v hy]
          exact hf a b hout hst
        | error e => exact hout.elim
      | error e =>
        cases b with
        | ok b => exact hout.elim
        | error e' =>
          rw [o.search_bind_of_error s w hx, o'.search_bind_of_error t v hy]
          exact ⟨hout, hst⟩

theorem Agree.modify {f g : SearchState → SearchState} (hf : ∀ s, (f s).packages = s.packages)
    (hg : ∀ s, (g s).packages = s.packages) :
    l.Agree o o' Eq (modify f : Search m PUnit) (modify g) := by
  intro s w t v hs
  rw [o.search_modify, o'.search_modify]
  refine ⟨rfl, ?_⟩
  rw [hf, hg]
  exact hs

theorem Agree.note (a b : TraceStep) : l.Agree o o' Eq (Search.note a : Search m Unit) (Search.note b) :=
  Agree.modify (fun _ => rfl) fun _ => rfl

theorem Agree.warn (code code' message message' : String) :
    l.Agree o o' Eq (Search.warn code message : Search m Unit) (Search.warn code' message') :=
  Agree.modify (fun _ => rfl) fun _ => rfl

theorem Agree.tried (p q : Path) :
    l.Agree o o' Eq (Search.tried p : Search m Unit) (Search.tried q) :=
  Agree.modify (fun _ => rfl) fun _ => rfl

theorem Agree.ask {x : m α} {y : m' α} (h : l.Asks o o' x y) :
    l.Agree o o' Eq (Search.ask x) (Search.ask y) := by
  intro s w t v hs
  rw [o.search_ask, o'.search_ask]
  exact h hs

theorem Agree.withPackages {x : StateT PackageCache m α} {y : StateT PackageCache m' β}
    (h : l.Looks o o' rel x y) :
    l.Agree o o' rel (Search.withPackages x) (Search.withPackages y) := by
  intro s w t v hs
  rw [o.search_withPackages, o'.search_withPackages]
  exact h hs

theorem Agree.andThen {x : Search m Unit} {y : Search m' Unit} {x' : Search m γ}
    {y' : Search m' δ}
    (h : l.Agree o o' Eq x y) (h' : l.Agree o o' rel' x' y') :
    l.Agree o o' rel' (x >>= fun _ => x') (y >>= fun _ => y') := h.bind fun _ _ _ => h'

theorem Agree.ite {x : Search m Bool} {y : Search m' Bool} {a b : Search m γ}
    {a' b' : Search m' δ}
    (h : l.Agree o o' Eq x y) (ht : l.Agree o o' rel' a a') (hf : l.Agree o o' rel' b b') :
    l.Agree o o' rel' (x >>= fun c => if c = true then a else b)
      (y >>= fun c => if c = true then a' else b') := by
  refine h.bind fun c c' hc => ?_
  subst hc
  cases c
  · simpa using hf
  · simpa using ht

theorem Agree.normalized {p? q? : Option Path} {x : Search m α} {y : Search m' β}
    {f : Path → Search m α} {g : Path → Search m' β} (hx : l.Agree o o' rel x y)
    (hf : ∀ p q, l.exact p q → l.Agree o o' rel (f p) (g q)) :
    Option.Rel l.exact p? q? → l.Agree o o' rel (match p? with | none => x | some p => f p)
      (match q? with | none => y | some q => g q) := by
  intro h
  cases h with
  | none => exact hx
  | some h => exact hf _ _ h

theorem Looks.pure {a : α} {b : β} (h : rel a b) :
    l.Looks o o' rel (pure a : StateT PackageCache m α) (pure b) := by
  intro packages w packages' v hs
  rw [o.look_pure, o'.look_pure]
  exact ⟨h, hs⟩

theorem Looks.bind {x : StateT PackageCache m α} {y : StateT PackageCache m' β}
    {f : α → StateT PackageCache m γ} {g : β → StateT PackageCache m' δ}
    (h : l.Looks o o' rel x y) (hf : ∀ a b, rel a b → l.Looks o o' rel' (f a) (g b)) :
    l.Looks o o' rel' (x >>= f) (y >>= g) := by
  intro packages w packages' v hs
  obtain ⟨hr, hst⟩ := h hs
  rw [o.look_bind, o'.look_bind]
  exact hf _ _ hr hst

/-- Searches that agree answer alike, and the caches stay alike. -/
theorem Agree.resolve {r : Resolver m} {r' : Resolver m'} {a b : Request}
    {rel : ResolvedModule → ResolvedModule → Prop}
    (h : l.Agree o o' rel (r.search a) (r'.search b)) :
    l.Looks o o' (l.Outcome rel) (r.resolve a) (r'.resolve b) := by
  intro packages w packages' v hs
  let s : SearchState := ⟨packages, Trace.empty⟩
  let t : SearchState := ⟨packages', Trace.empty⟩
  have hst : l.state s.packages w t.packages v := hs
  rw [o.look_resolve, o'.look_resolve]
  exact h hst

end Likeness

end ModuleLoader
