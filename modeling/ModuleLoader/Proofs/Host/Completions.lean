import ModuleLoader.Proofs.Host.Formats
import ModuleLoader.Proofs.Host.Restore

/-! The evaluations that a run completes. Each of them adds its file to the modules loaded and keeps
its exports, and nothing else does either, so the completed evaluations tell all that a load changes
in the registry. What was kept before the load stays as it was. -/

namespace ModuleLoader

namespace Registry

/-- The registry without the marks of the modules under evaluation. -/
def unmarked (r : Registry) : Registry := { r with loading := PathMap.empty }

/-- The registry after evaluations were completed in this order. -/
def completeAll (r : Registry) (done : List (Path × Value)) : Registry :=
  done.foldl (fun r entry => r.complete entry.1 entry.2) r

variable (r : Registry) (done : List (Path × Value))

theorem isCached_complete (path : Path) (v : Value) : (r.complete path v).isCached path = true :=
  congrArg Option.isSome (PathMap.find?_insert_self r.cache path v)

theorem completeAll_append (more : List (Path × Value)) :
    r.completeAll (done ++ more) = (r.completeAll done).completeAll more :=
  List.foldl_append

theorem unmarked_completeAll : (r.completeAll done).unmarked = r.unmarked.completeAll done := by
  induction done generalizing r with
  | nil => rfl
  | cons entry rest ih => exact ih (r.complete entry.1 entry.2)

theorem loading_completeAll : (r.completeAll done).loading = r.loading := by
  induction done generalizing r with
  | nil => rfl
  | cons entry rest ih => exact ih (r.complete entry.1 entry.2)

theorem loaded_completeAll : (r.completeAll done).loaded = r.loaded ++ done.map Prod.fst := by
  induction done generalizing r with
  | nil => exact (List.append_nil _).symm
  | cons entry rest ih =>
    have hr : (r.complete entry.1 entry.2).loaded = r.loaded ++ [entry.1] := rfl
    have hi := ih (r.complete entry.1 entry.2)
    rw [hr, List.append_assoc] at hi
    exact hi

variable {r done}

theorem find?_completeAll {path : Path} {v : Value}
    (hf : (r.completeAll done).cache.find? path = some v) :
    r.cache.find? path = some v ∨ ∃ q, (q, v) ∈ done ∧ q.same path = true := by
  induction done generalizing r with
  | nil => exact .inl hf
  | cons entry rest ih =>
    obtain ⟨q, exports⟩ := entry
    rcases ih (r := r.complete q exports) hf with hf | ⟨p, hm, hp⟩
    · have hc : (r.complete q exports).cache = r.cache.insert q exports := rfl
      rw [hc] at hf
      cases hs : q.same path with
      | true =>
        rw [← PathMap.find?_congr (Path.same_iff.mp hs), PathMap.find?_insert_self] at hf
        cases hf
        exact .inr ⟨q, List.mem_cons_self, hs⟩
      | false =>
        rw [PathMap.find?_insert_of_not_same _ hs] at hf
        exact .inl hf
    · exact .inr ⟨p, List.mem_cons_of_mem _ hm, hp⟩

theorem eq_of_unmarked {r t : Registry} (hu : t.unmarked = r.unmarked)
    (hl : t.loading = r.loading) : t = r := by
  obtain ⟨cache, loading, loaded⟩ := r
  obtain ⟨cache', loading', loaded'⟩ := t
  obtain rfl : loading' = loading := hl
  simp only [unmarked, mk.injEq] at hu
  rw [hu.1, hu.2.2]

end Registry

namespace Moment

/-- The file whose evaluation ends here without an exception, with what is kept of it. -/
def completion? (c : Moment) : Option (Path × Value) :=
  match c.task, c.waiting with
  | .returned (some v), .json path :: _ => some (path, v)
  | .returned (some _), .evaluation path module _ :: _ =>
    some (path, c.state.heap.get module "exports")
  | _, _ => none

/-- Whether an ES module is entered, or runs, that the engine evaluates itself. -/
def Enters (c : Moment) : Prop :=
  (∃ d path, c.task = .enter d path) ∨ ∃ path, Waiting.entry path ∈ c.waiting

/-- The moment with more that waits below. -/
def onto (c : Moment) (ws : List Waiting) : Moment := { c with waiting := c.waiting ++ ws }

end Moment

namespace Host

open HostM

/-- Steps from one moment to another, with the moments that they leave. -/
inductive Passes (h : Host) : Moment → List Moment → Moment → Prop where
  | refl {a} : Passes h a [] a
  | head {a b c passed} (hs : h.Step a b) (hp : Passes h b passed c) : Passes h a (a :: passed) c

variable {h : Host} {a b c c' : Moment} {passed : List Moment}

theorem Steps.exists_passes (hs : h.Steps a b) : ∃ passed, h.Passes a passed b := by
  induction hs using Relation.ReflTransGen.head_induction_on with
  | refl => exact ⟨[], .refl⟩
  | head hs _ ih =>
    obtain ⟨passed, hp⟩ := ih
    exact ⟨_, .head hs hp⟩

/-- A run ends in one way. -/
theorem Steps.unique_loaded {answer answer' : Except ModuleError Value} {t u : HostState}
    (ha : h.Steps c ⟨.loaded answer, [], t⟩) (hb : h.Steps c ⟨.loaded answer', [], u⟩) :
    (answer, t) = (answer', u) := by
  have stuck {r r' : Except ModuleError Value} {v v' : HostState}
      (hs : h.Steps ⟨.loaded r, [], v⟩ ⟨.loaded r', [], v'⟩) : (r, v) = (r', v') := by
    rcases Relation.ReflTransGen.cases_head hs with heq | ⟨b, hb, -⟩
    · cases heq
      rfl
    · cases hb
  rcases ha.total hb with hs | hs
  · exact stuck hs
  · exact (stuck hs).symm

/-! ## What waits below -/

theorem Step.onto (hs : h.Step c c') (ws : List Waiting) : h.Step (c.onto ws) (c'.onto ws) := by
  cases hs <;> constructor <;> assumption

theorem Step.completion?_onto (hs : h.Step c c') (ws : List Waiting) :
    (c.onto ws).completion? = c.completion? := by
  cases hs
  case body result ws s => cases result <;> rfl
  all_goals rfl

theorem Passes.onto (hp : h.Passes a passed b) (ws : List Waiting) :
    h.Passes (a.onto ws) (passed.map (·.onto ws)) (b.onto ws) ∧
      (passed.map (·.onto ws)).filterMap Moment.completion? =
        passed.filterMap Moment.completion? := by
  induction hp with
  | refl => exact ⟨.refl, rfl⟩
  | head hs _ ih =>
    obtain ⟨hp, hc⟩ := ih
    refine ⟨.head (hs.onto ws) hp, ?_⟩
    rw [List.map_cons, List.filterMap_cons, List.filterMap_cons, hs.completion?_onto, hc]

/-! ## Completions -/

section

variable (s : HostState)

theorem registry_evalJson (text : String) : ((evalJson text).run s).2.registry = s.registry := by
  obtain ⟨heap, pending, events, he⟩ := evalJson_state s text
  rw [he]

theorem registry_bodyFunction (filename : String) (v : Value) :
    ((bodyFunction filename v).run s).2.registry = s.registry := by
  obtain ⟨heap, hv⟩ := bodyFunction_state s filename v
  rw [hv]

theorem registry_returnAnswer (referrer : Path) (loaded : Except ModuleError Value) :
    ((returnAnswer referrer loaded).run s).2.registry = s.registry := by
  obtain ⟨pending, events, log, ha⟩ := returnAnswer_state s referrer loaded
  rw [ha]

theorem registry_of_resolve {request : Request} {s t : HostState}
    {answer : Except ModuleError ResolvedModule}
    (hr : (h.resolve request).run.run s = (answer, t)) : t.registry = s.registry := by
  rw [resolve_state hr]

theorem registry_resolveDisplay (request : Request) :
    ((h.resolveDisplay request).run.run s).2.registry = s.registry := by
  rw [resolveDisplay_state]
  exact registry_of_resolve rfl

theorem registry_prepare {path : Path} {mode : ResolveMode} {module exports require : Value}
    {t : HostState} (hp : (prepare path mode).run s = ((module, exports, require), t)) :
    t.registry = s.registry.beginLoading path module := by
  obtain ⟨heap, rfl⟩ := prepare_state path s hp
  rfl

theorem registry_cacheExports (path : Path) (v : Value) :
    ((cacheExports path v).run s).2.registry = s.registry.complete path v := by
  obtain ⟨pins, hc⟩ := cacheExports_state path s v
  rw [hc]

theorem registry_endLoading (path : Path) :
    ((endLoading path).run s).2.registry = s.registry.endLoading path := by
  obtain ⟨pins, he⟩ := endLoading_state path s
  rw [he]

theorem registry_complete (path : Path) (module wrapper : Value) :
    ((complete path module wrapper).run s).2.registry =
      (s.registry.complete path (s.heap.get module "exports")).endLoading path := by
  obtain ⟨pins, log, hc⟩ := complete_state path s module wrapper
  rw [hc]

end

/-- But for the marks, a step changes the registry only where it completes an evaluation. -/
theorem Step.registry (hs : h.Step c c') (he : ¬c.Enters) :
    c'.state.registry.unmarked = c.state.registry.unmarked.completeAll c.completion?.toList := by
  have hsame {s t : HostState} (ht : t.registry = s.registry) :
      t.registry.unmarked = s.registry.unmarked := congrArg Registry.unmarked ht
  cases hs
  case jsonCached path v ws s =>
    exact congrArg Registry.unmarked (registry_cacheExports s path v)
  case completed path module wrapper v ws s =>
    exact congrArg Registry.unmarked (registry_complete s path module wrapper)
  case notCompiled path module exports require ws s =>
    have hr := congrArg Registry.unmarked (registry_endLoading s path)
    exact hr
  case threw path module wrapper ws s =>
    have hr := congrArg Registry.unmarked
      (registry_endLoading { s with pins := s.pins.release wrapper } path)
    exact hr
  case readScript s t _ _ hp =>
    have hr := congrArg Registry.unmarked (registry_prepare s hp)
    exact hr
  case parse s _ _ => exact hsame (registry_evalJson _ _)
  case jsonRan => exact hsame (registry_evalJson _ _)
  case aroundRan => exact hsame (registry_bodyFunction _ _ _)
  case hostResolve => exact hsame (registry_resolveDisplay _ _)
  case hostReturn => exact hsame (registry_returnAnswer _ _ _)
  case resolved hr =>
    have ht := hsame (registry_of_resolve hr)
    exact ht
  case unresolved hr =>
    have ht := hsame (registry_of_resolve hr)
    exact ht
  case entryUnresolved hr =>
    have ht := hsame (registry_of_resolve hr)
    exact ht
  case entryLoad hr _ =>
    have ht := hsame (registry_of_resolve hr)
    exact ht
  case entryEnter hr _ =>
    have ht := hsame (registry_of_resolve hr)
    exact ht
  case entryRan path _ _ _ => exact absurd (.inr ⟨path, List.mem_cons_self⟩) he
  case body result ws s => cases result <;> rfl
  all_goals rfl

/-- Only an entry leads to an ES module that the engine evaluates itself. -/
theorem Step.of_enters (hs : h.Step c c') (he : c'.Enters) :
    c.Enters ∨ h.nativeEsm = true ∧ ∃ d name, c.task = .entry d name := by
  rcases he with ⟨d, path, ht⟩ | ⟨path, hm⟩
  · have hn : h.Next c c' := .step hs
    refine .inr ⟨(hn.of_enter ht).2, ?_⟩
    cases hs <;> cases ht
    exact ⟨_, _, rfl⟩
  · refine .inl ?_
    cases hs
    case entryRuns => exact .inl ⟨_, _, rfl⟩
    case compiled => exact .inr ⟨path, .tail _ ((List.mem_cons.mp hm).resolve_left nofun)⟩
    all_goals first
      | exact .inr ⟨path, hm⟩
      | exact .inr ⟨path, .tail _ hm⟩
      | exact .inr ⟨path, (List.mem_cons.mp hm).resolve_left nofun⟩

theorem Step.not_entry (hs : h.Step c c') (d : Nat) (name : String) : c'.task ≠ .entry d name := by
  cases hs <;> nofun

theorem Passes.registry (hp : h.Passes a passed b) (he : ¬a.Enters)
    (ht : ∀ d name, a.task ≠ .entry d name) :
    b.state.registry.unmarked =
      a.state.registry.unmarked.completeAll (passed.filterMap Moment.completion?) := by
  induction hp with
  | refl => rfl
  | @head a b c passed hs _ ih =>
    have hb : ¬b.Enters := fun hb => by
      rcases hs.of_enters hb with ha | ⟨-, d, name, hn⟩
      · exact he ha
      · exact ht d name hn
    have hl : (a :: passed).filterMap Moment.completion? =
        a.completion?.toList ++ passed.filterMap Moment.completion? := by
      rw [List.filterMap_cons]
      cases a.completion? <;> rfl
    rw [ih hb hs.not_entry, hs.registry he, hl, Registry.completeAll_append]

/-! ## What was kept before -/

/-- At most the exports of one file are kept anew, and those of a file under evaluation. -/
theorem Effect.cache (he : h.Effect c c') :
    c'.state.registry.cache = c.state.registry.cache ∨
      ∃ q v, c'.state.registry.cache = c.state.registry.cache.insert q v ∧
        (q ∈ c.jsons ∨ ∃ module, (q, module) ∈ c.marks) := by
  have hcache : c'.state.registry.cache = c'.state.tables.cache := rfl
  rw [hcache]
  cases he with
  | quiet ht _ | beginJson _ ht _ | beginScript _ _ _ ht _ | compiled _ ht _ | jsonFailed _ ht
  | notCompiled _ ht | threw _ ht =>
    rw [ht]
    exact .inl rfl
  | @jsonKept q v ha ht =>
    rw [ht]
    refine .inr ⟨q, v, rfl, .inl ?_⟩
    rw [Moment.jsons, ha]
    exact List.mem_cons_self
  | @completed q module wrapper v ha ht =>
    rw [ht]
    refine .inr ⟨q, v, rfl, .inr ⟨module, ?_⟩⟩
    rw [Moment.marks, ha]
    exact List.mem_cons_self

/-- What a run keeps that began with these exports kept. -/
structure Beyond (cache : PathMap Value) (c : Moment) : Prop where
  found {path v} : cache.find? path = some v → c.state.registry.cache.find? path = some v
  marks : ∀ mark ∈ c.marks, cache.find? mark.1 = none
  jsons : ∀ path ∈ c.jsons, cache.find? path = none
  read {d path format} : c.task = .read d path format → cache.find? path = none

namespace Beyond

variable {cache : PathMap Value} {path q : Path} {v : Value}

theorem find?_insert (hb : Beyond cache c) (hq : cache.find? q = none)
    (hf : cache.find? path = some v) (exports : Value) :
    (c.state.registry.cache.insert q exports).find? path = some v := by
  have hs : q.same path = false := Path.same_eq_false_iff.mpr fun hs => by
    rw [PathMap.find?_congr hs, hf] at hq
    cases hq
  rw [PathMap.find?_insert_of_not_same _ hs]
  exact hb.found hf

theorem effect (hb : Beyond cache c) (he : h.Effect c c') (hf : cache.find? path = some v) :
    c'.state.registry.cache.find? path = some v := by
  rcases he.cache with hc | ⟨q, exports, hc, hq | ⟨module, hq⟩⟩
  · rw [hc]
    exact hb.found hf
  · rw [hc]
    exact hb.find?_insert (hb.jsons q hq) hf exports
  · rw [hc]
    exact hb.find?_insert (hb.marks _ hq) hf exports

theorem step (hb : Beyond cache c) (hs : h.Step c c') : Beyond cache c' := by
  have hn : h.Next c c' := .step hs
  obtain ⟨he, -⟩ := hs.effect
  refine ⟨hb.effect he, fun mark hm => ?_, fun path hm => ?_, fun ht => ?_⟩
  · rcases he.of_mem_marks hm with hm | ⟨d, format, ht, -, -⟩
    · exact hb.marks mark hm
    · exact hb.read ht
  · rcases he.of_mem_jsons hm with hm | ⟨d, ht⟩
    · exact hb.jsons path hm
    · exact hb.read ht
  · -- Only what is not kept now is read, and so it was not kept then.
    have hnone := (hn.of_read ht).2.2.2.1
    cases hf : cache.find? _ with
    | none => rfl
    | some v =>
      rw [hb.found hf] at hnone
      cases hnone

theorem steps (hb : Beyond cache c) (hs : h.Steps c c') : Beyond cache c' := by
  induction hs with
  | refl => exact hb
  | tail _ hs ih => exact ih.step hs

end Beyond

/-! ## Loads -/

/-- The moments of a load, with what they change in the registry. -/
theorem exists_passes_load (h : Host) (d : Nat) (path : Path) (format : ModuleFormat)
    (ws : List Waiting) (s : HostState) :
    let loaded := (h.load (h.callWithin d) path format).run.run s
    ∃ passed, h.Passes ⟨.load d path format, ws, s⟩ passed ⟨.loaded loaded.1, ws, loaded.2⟩ ∧
      loaded.2.registry = s.registry.completeAll (passed.filterMap Moment.completion?) ∧
      ∀ q v, s.registry.cache.find? q = some v → loaded.2.registry.cache.find? q = some v := by
  intro loaded
  have hsteps : h.Steps ⟨.load d path format, [], s⟩ ⟨.loaded loaded.1, [], loaded.2⟩ :=
    runs_load (runs_call d) path format [] s
  obtain ⟨passed, hp⟩ := hsteps.exists_passes
  obtain ⟨honto, hcompletions⟩ := hp.onto ws
  have hbeyond : Beyond s.registry.cache ⟨.load d path format, [], s⟩ :=
    ⟨id, fun mark hm => absurd hm List.not_mem_nil, fun q hm => absurd hm List.not_mem_nil, nofun⟩
  refine ⟨_, honto, ?_, fun q v hf => (hbeyond.steps hsteps).found hf⟩
  rw [hcompletions]
  refine Registry.eq_of_unmarked ?_ ?_
  · rw [Registry.unmarked_completeAll]
    exact hp.registry (by rintro (⟨_, _, ht⟩ | ⟨_, hm⟩) <;> contradiction) nofun
  · rw [Registry.loading_completeAll]
    exact keepsMarks_load (keepsMarks_callWithin h d) path format s

end Host

end ModuleLoader
