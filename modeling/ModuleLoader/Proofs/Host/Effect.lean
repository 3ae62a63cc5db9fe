import ModuleLoader.Proofs.Host.Runs
import ModuleLoader.Proofs.Resolve.Growth

/-! What a step can do to the modules that are known. Most steps do nothing to them. The others begin
an evaluation, compile it, or end it in one of the ways there are. -/

namespace ModuleLoader

namespace Waiting

def isActive : Waiting → Bool
  | .json _ => true
  | .compilation _ _ _ _ _ => true
  | .evaluation _ _ _ => true
  | _ => false

end Waiting

namespace Moment

/-- The evaluations under way, innermost first. -/
def active (c : Moment) : List Waiting := c.waiting.filter Waiting.isActive

end Moment

/-- What is known of modules, with the values that are pinned for it. -/
structure Tables where
  cache : PathMap Value
  loading : PathMap Value
  pins : Pins

namespace Tables

variable (t : Tables)

def mark (path : Path) (module : Value) : Tables :=
  { t with loading := t.loading.insert path module, pins := t.pins.protect module }

def unmark (path : Path) : Tables :=
  { t with
    loading := t.loading.erase path
    pins := (t.loading.find? path).elim t.pins t.pins.release }

def pin (v : Value) : Tables := { t with pins := t.pins.protect v }

def unpin (v : Value) : Tables := { t with pins := t.pins.release v }

def keep (path : Path) (exports : Value) : Tables :=
  { t with
    cache := t.cache.insert path exports
    pins := (t.cache.find? path).elim (t.pins.protect exports) (t.pins.protect exports).release }

end Tables

def HostState.tables (s : HostState) : Tables := ⟨s.registry.cache, s.registry.loading, s.pins⟩

namespace Host

open HostM

/-- Two states that know the same modules, the second one with more of packages, if anything. -/
structure Alike (s t : HostState) : Prop where
  tables : t.tables = s.tables
  packages : s.packages.Extends t.packages

variable (h : Host)

/-! ## Operations -/

section

variable (path : Path) (s : HostState)

theorem allocateWith_run (kind : ObjectKind) (properties : List (String × Value)) :
    (allocateWith kind properties).run s =
      ((s.heap.allocateWith kind properties).1,
        { s with heap := (s.heap.allocateWith kind properties).2 }) := rfl

theorem protect_run (v : Value) :
    (protect v).run s = ((), { s with pins := s.pins.protect v }) := rfl

theorem updateRegistry_run (f : Registry → Registry) :
    (updateRegistry f).run s = ((), { s with registry := f s.registry }) := rfl

/-- A module object is made, pinned and marked before a script runs. -/
theorem prepare_state {mode : ResolveMode} {module exports require : Value} {t : HostState}
    (hp : (prepare path mode).run s = ((module, exports, require), t)) :
    ∃ heap, t = { s with
      heap := heap
      pins := s.pins.protect module
      registry := s.registry.beginLoading path module } := by
  simp only [prepare, makeModule, makeRequire, HostM.run_bind, allocateWith_run, protect_run,
    updateRegistry_run, HostM.run_pure] at hp
  cases hp
  exact ⟨_, rfl⟩

theorem prepare_run {mode : ResolveMode} {module exports require : Value} {t : HostState}
    (hp : (prepare path mode).run s = ((module, exports, require), t)) :
    t.tables = s.tables.mark path module ∧ t.packages = s.packages := by
  obtain ⟨heap, rfl⟩ := prepare_state path s hp
  exact ⟨rfl, rfl⟩

theorem release_state (v : Option Value) :
    ∃ pins, ((v.forM release).run s).2 = { s with pins := pins } := by
  cases v with
  | none => exact ⟨s.pins, rfl⟩
  | some v => exact ⟨s.pins.release v, rfl⟩

theorem cacheExports_state (v : Value) : ∃ pins, ((cacheExports path v).run s).2 =
    { s with pins := pins, registry := s.registry.complete path v } :=
  release_state { s with pins := s.pins.protect v, registry := s.registry.complete path v }
    (s.registry.cache.find? path)

theorem endLoading_state : ∃ pins, ((endLoading path).run s).2 =
    { s with pins := pins, registry := s.registry.endLoading path } :=
  release_state { s with registry := s.registry.endLoading path } (s.registry.loading.find? path)

theorem complete_state (module wrapper : Value) : ∃ pins log,
    ((complete path module wrapper).run s).2 = { s with
      heap := s.heap.set module "loaded" (.bool true)
      pins := pins
      registry := (s.registry.complete path (s.heap.get module "exports")).endLoading path
      log := log } := by
  let exports := s.heap.get module "exports"
  let s₁ : HostState := { s with
    pins := s.pins.release wrapper
    heap := s.heap.set module "loaded" (.bool true) }
  have hr : ((complete path module wrapper).run s).2 = ((endLoading path).run
      ((report (.completed path)).run ((cacheExports path exports).run s₁).2).2).2 := rfl
  obtain ⟨kept, hkept⟩ := cacheExports_state path s₁ exports
  rw [hr, hkept]
  obtain ⟨pins, hpins⟩ := endLoading_state path
    ((report (.completed path)).run { s₁ with
      pins := kept
      registry := s₁.registry.complete path exports }).2
  exact ⟨pins, _, hpins⟩

theorem evalJson_state (text : String) : ∃ heap pending events,
    ((evalJson text).run s).2 = { s with heap := heap, pending := pending, events := events } := by
  unfold evalJson
  cases Json.parse text with
  | error e => exact ⟨_, _, _, rfl⟩
  | ok json => exact ⟨_, _, _, rfl⟩

theorem bodyFunction_state (filename : String) (v : Value) :
    ∃ heap, ((bodyFunction filename v).run s).2 = { s with heap := heap } := by
  cases v <;> exact ⟨_, rfl⟩

theorem returnAnswer_state (referrer : Path) (loaded : Except ModuleError Value) :
    ∃ pending events log, ((returnAnswer referrer loaded).run s).2 =
      { s with pending := pending, events := events, log := log } := by
  cases loaded with
  | ok v => exact ⟨s.pending, s.events, s.log, rfl⟩
  | error e =>
    have hr : (returnAnswer referrer (.error e)).run s =
        (fail referrer e >>= unlessPending).run s := rfl
    rw [hr, fail]
    cases e.isPending <;> exact ⟨_, _, _, rfl⟩

theorem cacheExports_run (v : Value) :
    ((cacheExports path v).run s).2.tables = s.tables.keep path v ∧
      ((cacheExports path v).run s).2.packages = s.packages := by
  have hr : (cacheExports path v).run s = ((s.registry.cache.find? path).forM release).run
      { s with pins := s.pins.protect v, registry := s.registry.complete path v } := rfl
  have ht : s.tables.keep path v =
      ⟨s.registry.cache.insert path v, s.registry.loading,
        (s.registry.cache.find? path).elim (s.pins.protect v) (s.pins.protect v).release⟩ := rfl
  rw [hr, ht]
  cases s.registry.cache.find? path <;> exact ⟨rfl, rfl⟩

theorem endLoading_run :
    ((endLoading path).run s).2.tables = s.tables.unmark path ∧
      ((endLoading path).run s).2.packages = s.packages := by
  have hr : (endLoading path).run s = ((s.registry.loading.find? path).forM release).run
      { s with registry := s.registry.endLoading path } := rfl
  have ht : s.tables.unmark path =
      ⟨s.registry.cache, s.registry.loading.erase path,
        (s.registry.loading.find? path).elim s.pins s.pins.release⟩ := rfl
  rw [hr, ht]
  cases s.registry.loading.find? path <;> exact ⟨rfl, rfl⟩

theorem abandon_run (wrapper : Value) :
    ((abandon path wrapper).run s).2.tables = (s.tables.unpin wrapper).unmark path ∧
      ((abandon path wrapper).run s).2.packages = s.packages :=
  endLoading_run path { s with pins := s.pins.release wrapper }

/-- What an evaluation leaves is what `module.exports` holds at its end. -/
theorem complete_run (module wrapper : Value) :
    ((complete path module wrapper).run s).1 = s.heap.get module "exports" ∧
      ((complete path module wrapper).run s).2.tables =
        ((s.tables.unpin wrapper).keep path (s.heap.get module "exports")).unmark path ∧
      ((complete path module wrapper).run s).2.packages = s.packages := by
  let exports := s.heap.get module "exports"
  let s₁ : HostState := { s with
    pins := s.pins.release wrapper
    heap := s.heap.set module "loaded" (.bool true) }
  have hr : (complete path module wrapper).run s =
      (exports, ((endLoading path).run
        ((report (.completed path)).run ((cacheExports path exports).run s₁).2).2).2) := rfl
  obtain ⟨hct, hcp⟩ := cacheExports_run path s₁ exports
  obtain ⟨het, hep⟩ := endLoading_run path
    ((report (.completed path)).run ((cacheExports path exports).run s₁).2).2
  rw [hr]
  refine ⟨rfl, het.trans ?_, hep.trans hcp⟩
  exact congrArg (Tables.unmark · path) hct

theorem resolve_run (request : Request) :
    (h.resolve request).run.run s =
      (match ((h.resolver.resolve request).run s.packages).1 with
        | .ok resolved => .ok resolved
        | .error error => .error (.resolve error),
        { s with packages := ((h.resolver.resolve request).run s.packages).2 }) := by
  have hw : (withPackages (h.resolver.resolve request)).run s =
      (((h.resolver.resolve request).run s.packages).1,
        { s with packages := ((h.resolver.resolve request).run s.packages).2 }) := rfl
  rw [resolve, ExceptT.run_bind_lift, HostM.run_bind, hw]
  cases ((h.resolver.resolve request).run s.packages).1 <;> rfl

variable {h s} in
theorem resolve_state {request : Request} {t : HostState}
    {answer : Except ModuleError ResolvedModule} (hr : (h.resolve request).run.run s = (answer, t)) :
    t = { s with packages := ((h.resolver.resolve request).run s.packages).2 } := by
  rw [resolve_run] at hr
  exact (Prod.mk.inj hr).2.symm

end

/-! ## Quiet operations -/

theorem alike_evalJson (text : String) (s : HostState) : Alike s ((evalJson text).run s).2 := by
  obtain ⟨heap, pending, events, he⟩ := evalJson_state s text
  rw [he]
  exact ⟨rfl, .refl _⟩

theorem alike_bodyFunction (filename : String) (v : Value) (s : HostState) :
    Alike s ((bodyFunction filename v).run s).2 := by
  obtain ⟨heap, hv⟩ := bodyFunction_state s filename v
  rw [hv]
  exact ⟨rfl, .refl _⟩

theorem alike_returnAnswer (referrer : Path) (answer : Except ModuleError Value) (s : HostState) :
    Alike s ((returnAnswer referrer answer).run s).2 := by
  obtain ⟨pending, events, log, ha⟩ := returnAnswer_state s referrer answer
  rw [ha]
  exact ⟨rfl, .refl _⟩

theorem alike_withPackages {α : Type} {look : StateT PackageCache Id α} {s : HostState}
    (he : s.packages.Extends (look.run s.packages).2) : Alike s ((withPackages look).run s).2 :=
  ⟨rfl, he⟩

variable {h} in
theorem alike_of_resolve {request : Request} {s t : HostState}
    {answer : Except ModuleError ResolvedModule}
    (hr : (h.resolve request).run.run s = (answer, t)) : Alike s t := by
  rw [resolve_state hr]
  exact ⟨rfl, h.resolver.extends_resolve request s.packages⟩

theorem resolveDisplay_state (request : Request) (s : HostState) :
    ((h.resolveDisplay request).run.run s).2 = ((h.resolve request).run.run s).2 := by
  obtain ⟨answer, t, hr⟩ : ∃ answer t, (h.resolve request).run.run s = (answer, t) := ⟨_, _, rfl⟩
  rw [resolveDisplay, hr]
  cases answer with
  | ok resolved =>
    rw [Loading.run_bind_of_ok hr]
    rfl
  | error e => rw [Loading.run_bind_of_error hr]

theorem alike_resolveDisplay (request : Request) (s : HostState) :
    Alike s ((h.resolveDisplay request).run.run s).2 := by
  rw [resolveDisplay_state]
  exact alike_of_resolve rfl

/-! ## Steps -/

/-- What a step may do to the modules known and to the evaluations under way. -/
inductive Effect (c c' : Moment) : Prop where
  | quiet (ht : c'.state.tables = c.state.tables) (ha : c'.active = c.active)
  | beginJson {d path} (hr : c.task = .read d path .json) (ht : c'.state.tables = c.state.tables)
    (ha : c'.active = .json path :: c.active)
  | beginScript {d path format module exports require} (hr : c.task = .read d path format)
    (hj : format ≠ .json) (hn : format = .esm → h.nativeEsm = false)
    (ht : c'.state.tables = c.state.tables.mark path module)
    (ha : c'.active = .compilation d path module exports require :: c.active)
  | compiled {d path module exports require wrapper ws}
    (ha : c.active = .compilation d path module exports require :: ws)
    (ht : c'.state.tables = c.state.tables.pin wrapper)
    (ha' : c'.active = .evaluation path module wrapper :: ws)
  | jsonFailed {path} (ha : c.active = .json path :: c'.active)
    (ht : c'.state.tables = c.state.tables)
  | jsonKept {path v} (ha : c.active = .json path :: c'.active)
    (ht : c'.state.tables = c.state.tables.keep path v)
  | notCompiled {d path module exports require}
    (ha : c.active = .compilation d path module exports require :: c'.active)
    (ht : c'.state.tables = c.state.tables.unmark path)
  | threw {path module wrapper} (ha : c.active = .evaluation path module wrapper :: c'.active)
    (ht : c'.state.tables = (c.state.tables.unpin wrapper).unmark path)
  | completed {path module wrapper exports}
    (ha : c.active = .evaluation path module wrapper :: c'.active)
    (ht : c'.state.tables = ((c.state.tables.unpin wrapper).keep path exports).unmark path)

variable {h}

theorem format_of_scriptOf {format : ModuleFormat} {text code : String} {mode : ResolveMode}
    (hf : h.scriptOf format text = some (code, mode)) :
    format ≠ .json ∧ (format = .esm → h.nativeEsm = false) := by
  cases format with
  | json => cases hf
  | cjs => exact ⟨nofun, nofun⟩
  | esm =>
    refine ⟨nofun, fun _ => ?_⟩
    by_contra hn
    have hn' : h.nativeEsm = true := by simpa using hn
    rw [scriptOf, hn', if_pos rfl] at hf
    cases hf

theorem Effect.of_alike {c c' : Moment} (hs : Alike c.state c'.state) (ha : c'.active = c.active) :
    h.Effect c c' ∧ c.state.packages.Extends c'.state.packages :=
  ⟨.quiet hs.tables ha, hs.packages⟩

/-- Every step has one of these effects, and only adds to what is known of packages. -/
theorem Step.effect {c c' : Moment} (hs : h.Step c c') :
    h.Effect c c' ∧ c.state.packages.Extends c'.state.packages := by
  have hkept : ∀ {s t : HostState}, t.packages = s.packages → s.packages.Extends t.packages :=
    fun ht => ht ▸ .refl _
  cases hs
  case compiled => exact ⟨.compiled rfl rfl rfl, .refl _⟩
  case jsonFailed => exact ⟨.jsonFailed rfl rfl, .refl _⟩
  case jsonCached path v ws s =>
    obtain ⟨ht, hp⟩ := cacheExports_run path s v
    exact ⟨.jsonKept rfl ht, hkept hp⟩
  case notCompiled path module exports require ws s =>
    obtain ⟨ht, hp⟩ := endLoading_run path s
    exact ⟨.notCompiled rfl ht, hkept hp⟩
  case threw path module wrapper ws s =>
    obtain ⟨ht, hp⟩ := abandon_run path s wrapper
    exact ⟨.threw rfl ht, hkept hp⟩
  case completed path module wrapper v ws s =>
    obtain ⟨-, ht, hp⟩ := complete_run path s module wrapper
    exact ⟨.completed rfl ht, hkept hp⟩
  case readJson => exact ⟨.beginJson rfl rfl rfl, .refl _⟩
  case readScript hr hf hp =>
    obtain ⟨hj, hn⟩ := format_of_scriptOf hf
    obtain ⟨ht, hk⟩ := prepare_run _ _ hp
    exact ⟨.beginScript rfl hj hn ht rfl, hkept hk⟩
  case parse d code filename text ws s hj hb =>
    have he := alike_evalJson text ((HostM.record (.evaluated filename code)).run s).2
    exact Effect.of_alike ⟨he.tables, he.packages⟩ rfl
  case jsonRan => exact Effect.of_alike (alike_evalJson _ _) rfl
  case aroundRan => exact Effect.of_alike (alike_bodyFunction _ _ _) rfl
  case unresolved hr => exact Effect.of_alike (alike_of_resolve hr) rfl
  case entryUnresolved hr => exact Effect.of_alike (alike_of_resolve hr) rfl
  case resolved hr =>
    have ht := alike_of_resolve hr
    exact Effect.of_alike ⟨ht.tables, ht.packages⟩ rfl
  case entryLoad hr _ =>
    have ht := alike_of_resolve hr
    exact Effect.of_alike ⟨ht.tables, ht.packages⟩ rfl
  case entryEnter hr _ =>
    have ht := alike_of_resolve hr
    exact Effect.of_alike ⟨ht.tables, ht.packages⟩ rfl
  case hostRequirePath =>
    exact Effect.of_alike (alike_withPackages (h.resolver.extends_detectFormat _ _)) rfl
  case hostResolve => exact Effect.of_alike (h.alike_resolveDisplay _ _) rfl
  case hostReturn => exact Effect.of_alike (alike_returnAnswer _ _ _) rfl
  all_goals exact Effect.of_alike ⟨rfl, .refl _⟩ rfl

theorem esmSource_state (path : Path) (s : HostState) :
    ((h.esmSource path).run.run s).2 =
      ((withPackages (h.resolver.detectFormat path)).run s).2 := by
  have hl : (ExceptT.lift (withPackages (h.resolver.detectFormat path)) : Loading _).run.run s =
    (.ok ((withPackages (h.resolver.detectFormat path)).run s).1,
      ((withPackages (h.resolver.detectFormat path)).run s).2) := rfl
  rw [esmSource, Loading.run_bind_of_ok hl]
  generalize ((withPackages (h.resolver.detectFormat path)).run s).2 = t
  obtain ⟨source, hs⟩ := h.exists_readSource_run path t
  cases ((withPackages (h.resolver.detectFormat path)).run s).1 with
  | json => rfl
  | esm => rw [hs]
  | cjs =>
    cases source with
    | error e => rw [Loading.run_bind_of_error hs]
    | ok text =>
      rw [Loading.run_bind_of_ok hs]
      rfl

theorem alike_esmSource (path : Path) (s : HostState) :
    Alike s ((h.esmSource path).run.run s).2 := by
  rw [esmSource_state]
  exact alike_withPackages (h.resolver.extends_detectFormat path s.packages)

/-- A new action does nothing to the modules before its first step. -/
theorem Next.effect {c c' : Moment} (hn : h.Next c c') :
    h.Effect c c' ∧ c.state.packages.Extends c'.state.packages := by
  cases hn with
  | step hs => exact hs.effect
  | action hi a =>
    have ha : (h.start a c.state).active = c.active := by
      have hc : c.active = [] := by rw [Moment.active, hi.1]; rfl
      rw [hc]
      cases a <;> rfl
    refine Effect.of_alike ?_ ha
    cases a
    case resolveImport specifier referrer => exact alike_of_resolve rfl
    case esmSource path => exact alike_esmSource path c.state
    all_goals exact ⟨rfl, .refl _⟩

/-! ## Tasks -/

theorem settles_of_resolve {request : Request} {resolved : ResolvedModule} {s t : HostState}
    (hr : (h.resolve request).run.run s = (.ok resolved, t)) :
    h.resolver.Settles t.packages resolved.path resolved.format := by
  rw [resolve_run] at hr
  obtain ⟨ha, rfl⟩ := Prod.mk.inj hr
  generalize hx : (h.resolver.resolve request).run s.packages = out at ha ⊢
  obtain ⟨answer, packages⟩ := out
  cases answer with
  | error e => cases ha
  | ok found =>
    cases ha
    exact Resolver.settles_resolve hx

section

variable {c c' : Moment} {d : Nat} {path : Path} {format : ModuleFormat}

/-- Every file is loaded in the format that it has from then on. -/
theorem Next.settles_of_load (hn : h.Next c c') (ht : c'.task = .load d path format) :
    h.resolver.Settles c'.state.packages path format := by
  cases hn with
  | action hi a => cases a <;> cases ht
  | step hs =>
    cases hs
    case hostRequirePath =>
      cases ht
      exact Resolver.settles_detectFormat _ _
    case resolved hr =>
      cases ht
      have hs := settles_of_resolve hr
      exact hs
    case entryLoad hr _ =>
      cases ht
      have hs := settles_of_resolve hr
      exact hs
    all_goals cases ht

/-- Only a file that is neither kept nor being evaluated is read. -/
theorem Next.of_read (hn : h.Next c c') (ht : c'.task = .read d path format) :
    c.task = .load d path format ∧ c'.state = c.state ∧ c'.active = c.active ∧
      c.state.registry.cache.find? path = none ∧ c.state.registry.loading.find? path = none := by
  cases hn with
  | action hi a => cases a <;> cases ht
  | step hs =>
    cases hs
    case new hc hl =>
      cases ht
      exact ⟨rfl, rfl, rfl, hc, hl⟩
    all_goals cases ht

theorem Next.of_enter (hn : h.Next c c') (ht : c'.task = .enter d path) :
    h.resolver.Settles c'.state.packages path .esm ∧ h.nativeEsm = true := by
  cases hn with
  | action hi a => cases a <;> cases ht
  | step hs =>
    cases hs
    case entryEnter hr hn =>
      cases ht
      have hs := settles_of_resolve hr
      obtain ⟨hf, hn⟩ : _ = ModuleFormat.esm ∧ h.nativeEsm = true := by simpa using hn
      rw [hf] at hs
      exact ⟨hs, hn⟩
    all_goals cases ht

end

end Host

end ModuleLoader
