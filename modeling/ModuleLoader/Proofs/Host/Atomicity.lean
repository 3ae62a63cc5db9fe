import Mathlib.Data.Prod.Basic
import ModuleLoader.Proofs.Host.Completions
import ModuleLoader.Proofs.Host.Marks

/-! Loads that fail. One that fails before it evaluates its file changes nothing. One whose file is
evaluated in vain leaves no trace of the file, but keeps what was completed until then. -/

namespace ModuleLoader

namespace Moment

/-- Whether a load of a file begins here. -/
def Loads (path : Path) (c : Moment) : Prop := ∃ q ∈ c.loads, q.same path = true

/-- Whether the exports of a file are not kept and nothing is done that could keep them. -/
structure Absent (path : Path) (c : Moment) : Prop where
  uncached : c.state.registry.cache.find? path = none
  marks : ∀ mark ∈ c.marks, mark.1.same path = false
  jsons : ∀ q ∈ c.jsons, q.same path = false
  reads {d q format} : c.task = .read d q format → q.same path = false

namespace Absent

variable {h : Host} {path : Path} {c c' : Moment}

theorem effect (ha : Absent path c) (he : h.Effect c c') :
    c'.state.registry.cache.find? path = none := by
  rcases he.cache with hc | ⟨q, v, hc, hq | ⟨module, hq⟩⟩
  · rw [hc]
    exact ha.uncached
  · rw [hc, PathMap.find?_insert_of_not_same _ (ha.jsons q hq)]
    exact ha.uncached
  · have hs : q.same path = false := ha.marks (q, module) hq
    rw [hc, PathMap.find?_insert_of_not_same _ hs]
    exact ha.uncached

theorem next (ha : Absent path c) (hl : ¬c.Loads path) (hn : h.Next c c') : Absent path c' := by
  obtain ⟨he, -⟩ := hn.effect
  refine ⟨ha.effect he, fun mark hm => ?_, fun q hm => ?_, fun ht => ?_⟩
  · rcases he.of_mem_marks hm with hm | ⟨d, format, ht, -, -⟩
    · exact ha.marks mark hm
    · exact ha.reads ht
  · rcases he.of_mem_jsons hm with hm | ⟨d, ht⟩
    · exact ha.jsons q hm
    · exact ha.reads ht
  · -- What is read was about to be loaded.
    obtain ⟨hload, -⟩ := hn.of_read ht
    by_contra hs
    refine hl ⟨_, ?_, by simpa using hs⟩
    rw [Moment.loads, hload]
    exact List.mem_singleton_self _

theorem find?_loading (ha : Absent path c)
    (hm : Marked c.state.registry.cache c.state.registry.loading c.marks) :
    c.state.registry.loading.find? path = none := hm.find?_loading_eq_none ha.marks

end Absent

end Moment

namespace Host

open HostM

variable {h : Host} {call : CallFunction} {c c' : Moment} {d : Nat} {path : Path}
  {format : ModuleFormat} {s t : HostState} {e : ModuleError}

/-- Some time later, or now, without a load of a file from here until then. -/
def LaterWithout (h : Host) (path : Path) : Moment → Moment → Prop :=
  Relation.ReflTransGen fun c c' => ¬c.Loads path ∧ h.Next c c'

theorem LaterWithout.later (hl : h.LaterWithout path c c') : h.Later c c' :=
  Relation.ReflTransGen.mono (fun _ _ hn => hn.2) _ _ hl

theorem LaterWithout.absent (hl : h.LaterWithout path c c') (ha : c.Absent path) :
    c'.Absent path := by
  induction hl with
  | refl => exact ha
  | tail _ hn ih => exact ih.next hn.1 hn.2

theorem Later.extends (hl : h.Later c c') : c.state.packages.Extends c'.state.packages := by
  induction hl with
  | refl => exact .refl _
  | tail _ hn ih => exact ih.trans hn.effect.2

/-! ## How a load fails -/

theorem run_of_map_error {α β : Type} {f : α → β} {x : Loading α}
    (hr : (f <$> x).run.run s = (.error e, t)) : x.run.run s = (.error e, t) := by
  obtain ⟨answer, u, hx⟩ : ∃ answer u, x.run.run s = (answer, u) := ⟨_, _, rfl⟩
  have hm : (f <$> x).run.run s = ((x.run.run s).1.map f, (x.run.run s).2) := by
    rw [ExceptT.run_map]
    rfl
  rw [hm, hx] at hr
  cases answer with
  | error error =>
    cases hr
    exact hx
  | ok a => cases hr

theorem resolve_error {request : Request} (hr : (h.resolve request).run.run s = (.error e, t)) :
    e.isPending = false := by
  rw [resolve_run] at hr
  generalize ((h.resolver.resolve request).run s.packages).1 = found at hr
  cases found <;> cases hr
  rfl

theorem resolveDisplay_error {request : Request}
    (hr : (h.resolveDisplay request).run.run s = (.error e, t)) : e.isPending = false := by
  obtain ⟨answer, u, hu⟩ : ∃ answer t, (h.resolve request).run.run s = (answer, t) := ⟨_, _, rfl⟩
  rw [resolveDisplay] at hr
  cases answer with
  | error error =>
    rw [Loading.run_bind_of_error hu] at hr
    cases hr
    exact resolve_error hu
  | ok resolved =>
    rw [Loading.run_bind_of_ok hu] at hr
    cases hr

theorem readSource_error (hr : (h.readSource path).run.run s = (.error e, t)) :
    e.isPending = false ∧ t = s := by
  unfold readSource at hr
  cases hread : h.resolver.source.read path with
  | error error =>
    rw [hread] at hr
    cases hr
    exact ⟨rfl, rfl⟩
  | ok bytes =>
    rw [hread] at hr
    dsimp only at hr
    split at hr
    · split at hr
      · split at hr
        · cases hr
        · cases hr
          exact ⟨rfl, rfl⟩
      · cases hr
        exact ⟨rfl, rfl⟩
    · cases hr

/-- How the evaluation of a file may end: before it began, with nothing changed, or in vain, or with
its exports kept. -/
inductive Evaluated (p : Path) (before : HostState) :
    Except ModuleError Value → HostState → Prop where
  | unread {error} (he : error.isPending = false) : Evaluated p before (.error error) before
  | failed {error after} (he : error = .compile p ∨ error = .exception p) :
    Evaluated p before (.error error) after
  | kept {v after} (hk : after.registry.cache.find? p = some v) : Evaluated p before (.ok v) after

theorem Evaluated.of_cacheExports (v : Value) (u : HostState) :
    Evaluated path s (.ok v) ((cacheExports path v).run u).2 := by
  refine .kept ?_
  rw [registry_cacheExports]
  exact PathMap.find?_insert_self u.registry.cache path v

theorem Evaluated.of_complete (module wrapper : Value) (u : HostState) :
    Evaluated path s (.ok ((complete path module wrapper).run u).1)
      ((complete path module wrapper).run u).2 := by
  refine .kept ?_
  rw [registry_complete, (complete_run path u module wrapper).1]
  exact PathMap.find?_insert_self u.registry.cache path (u.heap.get module "exports")

theorem evaluated_loadScript (code : String) (mode : ResolveMode) (u : HostState) :
    Evaluated path s ((h.loadScript call path code mode).run.run u).1
      ((h.loadScript call path code mode).run.run u).2 := by
  rw [loadScript_run]
  simp only [HostM.run_bind]
  generalize (prepare path mode).run u = r
  obtain ⟨⟨module, exports, require⟩, u₁⟩ := r
  dsimp only
  generalize (h.evalScript _ _ _).run u₁ = r
  obtain ⟨compiled, u₂⟩ := r
  cases compiled with
  | none => exact .failed (.inl rfl)
  | some wrapper =>
    dsimp only
    simp only [HostM.run_bind]
    generalize (call wrapper exports _).run _ = r
    obtain ⟨result, u₃⟩ := r
    cases result with
    | none => exact .failed (.inr rfl)
    | some result => exact .of_complete module wrapper u₃

theorem evaluated_evaluate (h : Host) (call : CallFunction) (path : Path) (format : ModuleFormat)
    (s : HostState) :
    Evaluated path s ((h.evaluate call path format).run.run s).1
      ((h.evaluate call path format).run.run s).2 := by
  obtain ⟨source, hs⟩ := h.exists_readSource_run path s
  have unread {e : ModuleError} (hs : (h.readSource path).run.run s = (.error e, s)) :
      Evaluated path s (.error e) s := .unread (readSource_error hs).1
  cases format with
  | json =>
    rw [evaluate, loadJson]
    cases source with
    | error e =>
      rw [Loading.run_bind_of_error hs]
      exact unread hs
    | ok text =>
      rw [Loading.run_bind_of_ok hs, Loading.run_lift_bind]
      generalize (h.evalScript _ _ _).run s = r
      obtain ⟨value, u⟩ := r
      cases value with
      | none => exact .failed (.inl rfl)
      | some v => exact .of_cacheExports v u
  | cjs =>
    rw [evaluate]
    cases source with
    | error e =>
      rw [Loading.run_bind_of_error hs]
      exact unread hs
    | ok text =>
      rw [Loading.run_bind_of_ok hs]
      exact evaluated_loadScript text .require s
  | esm =>
    rw [evaluate]
    split
    · exact .unread rfl
    · cases source with
      | error e =>
        rw [Loading.run_bind_of_error hs]
        exact unread hs
      | ok text =>
        rw [Loading.run_bind_of_ok hs]
        exact evaluated_loadScript _ .import s

/-- A load fails before the evaluation of its file and changes nothing, or because of it. -/
theorem load_error (hr : (h.load call path format).run.run s = (.error e, t)) :
    s.registry.cache.find? path = none ∧ s.registry.loading.find? path = none ∧
      (e.isPending = false ∧ t = s ∨ e = .compile path ∨ e = .exception path) := by
  cases hcache : s.registry.cache.find? path with
  | some exports =>
    rw [load_of_cached hcache] at hr
    cases hr
  | none =>
    cases hload : s.registry.loading.find? path with
    | some module =>
      rw [load_of_loading hcache hload] at hr
      cases hr
    | none =>
      have he := evaluated_evaluate h call path format s
      rw [← load_of_new hcache hload, hr] at he
      cases he with
      | unread he => exact ⟨rfl, rfl, .inl ⟨he, rfl⟩⟩
      | failed he => exact ⟨rfl, rfl, .inr he⟩

theorem load_error_of_not_pending (hr : (h.load call path format).run.run s = (.error e, t))
    (he : e.isPending = false) : t = s := by
  rcases (load_error hr).2.2 with ⟨-, ht⟩ | rfl | rfl
  · exact ht
  · cases he
  · cases he

theorem load_error_of_pending (hr : (h.load call path format).run.run s = (.error e, t))
    (he : e.isPending = true) : e = .compile path ∨ e = .exception path := by
  rcases (load_error hr).2.2 with ⟨hn, -⟩ | hcause
  · rw [he] at hn
    cases hn
  · exact hcause

/-- Whether two states know the same modules and pin the same values. -/
def SameModules (s t : HostState) : Prop := t.registry = s.registry ∧ t.pins = s.pins

theorem sameModules_of_resolve {request : Request} {answer : Except ModuleError ResolvedModule}
    (hr : (h.resolve request).run.run s = (answer, t)) : SameModules s t := by
  rw [resolve_state hr]
  exact ⟨rfl, rfl⟩

theorem requireWith_error {request : Request}
    (hr : (h.requireWith call request).run.run s = (.error e, t)) :
    (e.isPending = false ∧ SameModules s t) ∨
      ∃ resolved u, (h.resolve request).run.run s = (.ok resolved, u) ∧
        (e = .compile resolved.path ∨ e = .exception resolved.path) := by
  obtain ⟨answer, u, hu⟩ : ∃ answer t, (h.resolve request).run.run s = (answer, t) := ⟨_, _, rfl⟩
  have hsame := sameModules_of_resolve hu
  rw [requireWith] at hr
  cases answer with
  | error error =>
    rw [Loading.run_bind_of_error hu] at hr
    cases hr
    exact .inl ⟨resolve_error hu, hsame⟩
  | ok resolved =>
    rw [Loading.run_bind_of_ok hu, Loading.run_lift_bind] at hr
    rcases (load_error hr).2.2 with ⟨he, rfl⟩ | he
    · exact .inl ⟨he, hsame⟩
    · exact .inr ⟨resolved, u, hu, he⟩

theorem enter_error (hr : (h.enter call path).run.run s = (.error e, t))
    (he : e.isPending = false) : t = s := by
  obtain ⟨source, hs⟩ := h.exists_readSource_run path s
  rw [enter] at hr
  cases source with
  | error error =>
    rw [Loading.run_bind_of_error hs] at hr
    cases hr
    rfl
  | ok text =>
    rw [Loading.run_bind_of_ok hs, Loading.run_lift_bind] at hr
    generalize (h.evalModule _ _ _).run s = r at hr
    obtain ⟨ran, u⟩ := r
    cases ran with
    | true => cases hr
    | false =>
      cases hr
      cases he

theorem loadEntry_error {name : String} (hr : (h.loadEntry name).run.run s = (.error e, t))
    (he : e.isPending = false) : SameModules s t := by
  obtain ⟨answer, u, hu⟩ : ∃ answer t,
      (h.resolve ⟨entrySpecifier name, none, .require⟩).run.run s = (answer, t) := ⟨_, _, rfl⟩
  have hsame := sameModules_of_resolve hu
  rw [loadEntry] at hr
  cases answer with
  | error error =>
    rw [Loading.run_bind_of_error hu] at hr
    cases hr
    exact hsame
  | ok resolved =>
    rw [Loading.run_bind_of_ok hu, Loading.run_lift_bind] at hr
    have ht : t = ((report (.entry name resolved.path resolved.format)).run u).2 := by
      split at hr
      · exact enter_error (run_of_map_error hr) he
      · exact load_error_of_not_pending (run_of_map_error hr) he
    rw [ht]
    exact hsame

/-! ## Evaluations that fail -/

/-- The last step of an evaluation that failed keeps nothing. -/
theorem Step.of_failed (hs : h.Step c c') (ht : c'.task = .loaded (.error e))
    (he : e = .compile path ∨ e = .exception path) :
    c'.state.registry.cache = c.state.registry.cache ∧
      (path ∈ c.jsons ∨ ∃ module, (path, module) ∈ c.marks) := by
  have hpending : e.isPending ≠ false := by rcases he with rfl | rfl <;> nofun
  cases hs
  case hostResolve referrer mode text ws s hk ha hv =>
    have hr : ((h.resolveDisplay ⟨text, some referrer, mode⟩).run.run s).1 = .error e :=
      Task.loaded.inj ht
    exact absurd (resolveDisplay_error (Prod.ext hr rfl)) hpending
  case unresolved hr =>
    cases ht
    exact absurd (resolve_error hr) hpending
  case entryUnresolved hr =>
    cases ht
    exact absurd (resolve_error hr) hpending
  case unreadable hr =>
    cases ht
    exact absurd (readSource_error hr).1 hpending
  case entryUnreadable hr =>
    cases ht
    exact absurd (readSource_error hr).1 hpending
  case jsonFailed =>
    cases ht
    obtain ⟨rfl⟩ : _ = path := by simpa using he
    exact ⟨rfl, .inl List.mem_cons_self⟩
  case notCompiled q module exports require ws s =>
    cases ht
    obtain rfl : q = path := by simpa using he
    exact ⟨congrArg Tables.cache (endLoading_run q s).1, .inr ⟨module, List.mem_cons_self⟩⟩
  case threw q module wrapper ws s =>
    cases ht
    obtain rfl : q = path := by simpa using he
    exact ⟨congrArg Tables.cache (abandon_run q s wrapper).1, .inr ⟨module, List.mem_cons_self⟩⟩
  all_goals cases ht
  all_goals rcases he with he | he <;> cases he

theorem steps_of_load {answer : Except ModuleError Value}
    (hr : (h.load (h.callWithin d) path format).run.run s = (answer, t)) (ws : List Waiting) :
    h.Steps ⟨.load d path format, ws, s⟩ ⟨.loaded answer, ws, t⟩ := by
  have hs : h.Steps _ _ := runs_load (runs_call d) path format ws s
  rwa [hr] at hs

theorem Reaches.loaded {paths : List Path} {answer : Except ModuleError Value}
    (hc : h.Reaches paths c) (ht : c.task = .load d path format)
    (hr : (h.load (h.callWithin d) path format).run.run c.state = (answer, t)) :
    ∃ paths', h.Reaches paths' ⟨.loaded answer, c.waiting, t⟩ := by
  obtain ⟨task, ws, s⟩ := c
  obtain rfl : task = .load d path format := ht
  exact hc.later (.of_steps (steps_of_load hr ws))

/-- A script file that was evaluated in vain is not kept, and nothing works on it. -/
theorem Reaches.absent {paths : List Path} (hc : h.Reaches paths c)
    (ht : c.task = .load d path format) (hf : format ≠ .json)
    (hr : (h.load (h.callWithin d) path format).run.run c.state = (.error e, t))
    (he : e.isPending = true) : Moment.Absent path ⟨.loaded (.error e), c.waiting, t⟩ := by
  obtain ⟨task, ws, s⟩ := c
  obtain rfl : task = .load d path format := ht
  obtain ⟨-, hunmarked, -⟩ := load_error hr
  have hsteps := steps_of_load hr ws
  have hlater := Later.of_steps hsteps
  obtain ⟨paths', hc'⟩ := hc.later hlater
  have hscript : h.resolver.Settles t.packages path format := (hc.typed.load rfl).mono hlater.extends
  refine ⟨?_, fun mark hm => ?_, fun q hm => ?_, nofun⟩
  · rcases Relation.ReflTransGen.cases_tail hsteps with heq | ⟨b, hb, hs⟩
    · cases heq
    · obtain ⟨paths'', hcb⟩ := hc.later (.of_steps hb)
      obtain ⟨hcache, hj | ⟨module, hm⟩⟩ := hs.of_failed rfl (load_error_of_pending hr he)
      · have hj' := (hcb.typed.jsons path hj).mono (Later.of_steps (.single hs)).extends
        exact absurd (hscript.unique hj') hf
      · rw [hcache]
        exact hcb.sound.marked.uncached (path, module) hm
  · -- What waits below waited before the load, which found no mark of the file.
    have hfound : s.registry.loading.find? mark.1 = some mark.2 :=
      hc.sound.marked.find?_eq_some hm
    refine Path.same_eq_false_iff.mpr fun hs => ?_
    rw [PathMap.find?_congr hs, hunmarked] at hfound
    cases hfound
  · refine Path.same_eq_false_iff.mpr fun hs => hf ?_
    exact hscript.unique ((hc'.typed.jsons q hm).congr hs)

/-- A host with three files. The first requires the second, which requires the third and throws. -/
def chain : Host where
  resolver := .ofSource (Bundle.ofEntries
    [("a.cjs", "".toUTF8), ("b.cjs", "".toUTF8), ("c.cjs", "".toUTF8)]).toSource ⟨""⟩ ⟨"/"⟩
  typeScript := .absent
  nativeEsm := false
  body?
    | "a.cjs" => some fun frame =>
      .call (frame.arguments.getD 1 .undefined) [.string "./b.cjs"] .done
    | "b.cjs" => some fun frame =>
      .call (frame.arguments.getD 1 .undefined) [.string "./c.cjs"] fun _ => .throw "boom"
    | _ => some fun _ => .done .undefined
  module? _ := none
  callDepth := 9

theorem resolve_initial {request : Request} {resolved : ResolvedModule}
    (ha : ((h.resolver.resolve request).run PackageCache.empty).1 = .ok resolved)
    (hp : ((h.resolver.resolve request).run PackageCache.empty).2.lookups.entries.isEmpty = true) :
    (h.resolve request).run.run HostState.initial = (.ok resolved, HostState.initial) := by
  have hinitial : HostState.initial.packages = PackageCache.empty := rfl
  rw [resolve_run, hinitial]
  generalize (h.resolver.resolve request).run PackageCache.empty = r at ha hp ⊢
  obtain ⟨answer, ⟨⟨entries⟩⟩⟩ := r
  obtain rfl : answer = .ok resolved := ha
  obtain rfl : entries = [] := List.isEmpty_iff.mp hp
  rfl

theorem resolve_chain : (chain.resolve ⟨"./a.cjs", none, .require⟩).run.run HostState.initial =
    (.ok ⟨⟨"a.cjs"⟩, .bundle, .cjs⟩, HostState.initial) :=
  resolve_initial (by decide +kernel) (by decide +kernel)

/-- The first file fails, and the third is loaded then. -/
theorem exists_reaches_chain : ∃ paths s t,
    chain.Reaches paths ⟨.load 9 ⟨"a.cjs"⟩ .cjs, [], s⟩ ∧
    (chain.load (chain.callWithin 9) ⟨"a.cjs"⟩ .cjs).run.run s =
      (.error (.exception ⟨"a.cjs"⟩), t) ∧
    s.registry.loaded = [] ∧ t.registry.loaded = [⟨"c.cjs"⟩] := by
  have hstart : chain.Reaches _ _ :=
    .next .initial (.action ⟨rfl, .inl ⟨_, rfl⟩⟩ (.require "./a.cjs" none))
  exact ⟨_, _, _, .next hstart (.step (.resolved resolve_chain)),
    Prod.fst_eq_iff.mp (by decide +kernel), rfl, by decide +kernel⟩

/-- A load that fails to resolve, to read or to strip a file of types, or that the engine's own ES
modules do not allow, leaves the modules known, their marks and all pins as they were. A script file
that does not compile or throws is neither kept nor marked afterwards, and what was kept before it is
kept as before. The evaluations that were completed during the load are all that it adds, in their
order. The next load of the file reads and evaluates it from the start. -/
theorem failed_load_atomic (h : Host) :
    (∀ d request s e t, (h.requireWith (h.callWithin d) request).run.run s = (.error e, t) →
      e.isPending = false → SameModules s t) ∧
    (∀ name s e t, (h.loadEntry name).run.run s = (.error e, t) →
      e.isPending = false → SameModules s t) ∧
    (∀ d path format s e t, (h.load (h.callWithin d) path format).run.run s = (.error e, t) →
      e.isPending = false → t = s) ∧
    ∀ paths c d path format e t, h.Reaches paths c → c.task = .load d path format → format ≠ .json →
      (h.load (h.callWithin d) path format).run.run c.state = (.error e, t) → e.isPending = true →
      let failed : Moment := ⟨.loaded (.error e), c.waiting, t⟩
      (e = .compile path ∨ e = .exception path) ∧
      t.registry.isCached path = false ∧ t.registry.isLoading path = false ∧
      (∀ q v, c.state.registry.cache.find? q = some v → t.registry.cache.find? q = some v) ∧
      (∃ passed, h.Passes c passed failed ∧
        let done := passed.filterMap Moment.completion?
        t.registry = c.state.registry.completeAll done ∧
        t.registry.loaded = c.state.registry.loaded ++ done.map Prod.fst ∧
        ∀ q v, t.registry.cache.find? q = some v →
          c.state.registry.cache.find? q = some v ∨ ∃ p, (p, v) ∈ done ∧ p.same q = true) ∧
      ∀ c', h.LaterWithout path failed c' → ∀ d' q format', q.same path = true →
        (h.load (h.callWithin d') q format').run.run c'.state =
          (h.evaluate (h.callWithin d') q format').run.run c'.state := by
  refine ⟨fun d request s e t hr he => ?_, fun name s e t => loadEntry_error,
    fun d path format s e t => load_error_of_not_pending,
    fun paths c d path format e t hc ht hf hr he => ?_⟩
  · rcases requireWith_error hr with ⟨-, hs⟩ | ⟨resolved, u, -, rfl | rfl⟩
    · exact hs
    · cases he
    · cases he
  have habsent := hc.absent ht hf hr he
  obtain ⟨paths', hfailed⟩ := hc.loaded ht hr
  obtain ⟨task, ws, s⟩ := c
  obtain rfl : task = .load d path format := ht
  obtain ⟨passed, hpasses, hregistry, hkept⟩ := exists_passes_load h d path format ws s
  rw [hr] at hpasses hregistry hkept
  refine ⟨load_error_of_pending hr he, ?_, ?_, hkept, ⟨passed, hpasses, hregistry, ?_, ?_⟩, ?_⟩
  · rw [Registry.isCached, PathMap.contains, habsent.uncached]
    rfl
  · rw [Registry.isLoading, PathMap.contains, habsent.find?_loading hfailed.sound.marked]
    rfl
  · rw [hregistry]
    exact Registry.loaded_completeAll _ _
  · intro q v hv
    rw [hregistry] at hv
    exact Registry.find?_completeAll hv
  · intro c' hl d' q format' hq
    obtain ⟨_, hc'⟩ := hfailed.later hl.later
    have habsent' := hl.absent habsent
    have hcomponents := Path.same_iff.mp hq
    refine load_of_new ?_ ?_
    · rw [PathMap.find?_congr hcomponents]
      exact habsent'.uncached
    · rw [PathMap.find?_congr hcomponents]
      exact habsent'.find?_loading hc'.sound.marked

/-- A fourth file is missing, which changes nothing. Of the failed load of the first file only the
evaluation of the third one stays. -/
theorem failed_load_atomic_chain :
    (∃ t, (chain.requireWith (chain.callWithin 9) ⟨"./d.cjs", none, .require⟩).run.run
        HostState.initial = (.error (.resolve (.moduleNotFound "./d.cjs" "")), t) ∧
      SameModules HostState.initial t) ∧
    ∃ s passed t,
      chain.Passes ⟨.load 9 ⟨"a.cjs"⟩ .cjs, [], s⟩ passed
        ⟨.loaded (.error (.exception ⟨"a.cjs"⟩)), [], t⟩ ∧
      (passed.filterMap Moment.completion?).map Prod.fst = [⟨"c.cjs"⟩] ∧
      t.registry.isCached ⟨"a.cjs"⟩ = false ∧ t.registry.isLoading ⟨"a.cjs"⟩ = false := by
  constructor
  · have hmissing : (chain.requireWith (chain.callWithin 9) ⟨"./d.cjs", none, .require⟩).run.run
        HostState.initial = (.error (.resolve (.moduleNotFound "./d.cjs" "")), _) :=
      Prod.fst_eq_iff.mp (by decide +kernel)
    exact ⟨_, hmissing, (failed_load_atomic chain).1 _ _ _ _ _ hmissing rfl⟩
  · obtain ⟨paths, s, t, hc, hr, hbefore, hafter⟩ := exists_reaches_chain
    obtain ⟨-, hcached, hloading, -, ⟨passed, hpasses, -, hloaded, -⟩, -⟩ :=
      (failed_load_atomic chain).2.2.2 paths _ 9 ⟨"a.cjs"⟩ .cjs _ t hc rfl (by decide) hr rfl
    rw [hafter] at hloaded
    dsimp only at hloaded
    rw [hbefore, List.nil_append] at hloaded
    exact ⟨s, passed, t, hpasses, hloaded.symm, hcached, hloading⟩

end Host

end ModuleLoader
