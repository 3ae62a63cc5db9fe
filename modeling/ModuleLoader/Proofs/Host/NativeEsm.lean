import ModuleLoader.Proofs.Host.Exceptions

/-! Engines that evaluate ES modules themselves. A host on such an engine never keeps, marks or
compiles an ES module, whatever is asked of it: a `require` of one fails and changes nothing. An
entry that is one is left to the engine, and what is known of modules changes meanwhile only inside
of what the entry requires. -/

namespace ModuleLoader

namespace Host

open HostM

variable {h : Host} {c c' : Moment} {path q : Path} {s t : HostState} {format : ModuleFormat}

/-! ## Hosts that work -/

section

variable (s : HostState)

theorem alive_evalJson (text : String) : ((evalJson text).run s).2.alive = s.alive := by
  obtain ⟨heap, pending, events, he⟩ := evalJson_state s text
  rw [he]

theorem alive_bodyFunction (filename : String) (v : Value) :
    ((bodyFunction filename v).run s).2.alive = s.alive := by
  obtain ⟨heap, hv⟩ := bodyFunction_state s filename v
  rw [hv]

theorem alive_cacheExports (path : Path) (v : Value) :
    ((cacheExports path v).run s).2.alive = s.alive := by
  obtain ⟨pins, hc⟩ := cacheExports_state path s v
  rw [hc]

theorem alive_endLoading (path : Path) : ((endLoading path).run s).2.alive = s.alive := by
  obtain ⟨pins, he⟩ := endLoading_state path s
  rw [he]

theorem alive_returnAnswer (referrer : Path) (loaded : Except ModuleError Value) :
    ((returnAnswer referrer loaded).run s).2.alive = s.alive := by
  obtain ⟨pending, events, log, ha⟩ := returnAnswer_state s referrer loaded
  rw [ha]

theorem alive_prepare {path : Path} {mode : ResolveMode} {module exports require : Value}
    {t : HostState} (hp : (prepare path mode).run s = ((module, exports, require), t)) :
    t.alive = s.alive := by
  obtain ⟨heap, rfl⟩ := prepare_state path s hp
  rfl

theorem alive_complete (path : Path) (module wrapper : Value) :
    ((complete path module wrapper).run s).2.alive = s.alive := by
  obtain ⟨pins, log, hc⟩ := complete_state path s module wrapper
  rw [hc]

end

theorem alive_of_resolve {request : Request} {answer : Except ModuleError ResolvedModule}
    (hr : (h.resolve request).run.run s = (answer, t)) : t.alive = s.alive := by
  rw [resolve_state hr]

theorem Step.alive (hs : h.Step c c') : c'.state.alive = c.state.alive := by
  cases hs
  case parse => exact alive_evalJson _ _
  case jsonRan => exact alive_evalJson _ _
  case aroundRan => exact alive_bodyFunction _ _ _
  case hostReturn => exact alive_returnAnswer _ _ _
  case hostResolve =>
    dsimp only
    rw [resolveDisplay_state]
    exact alive_of_resolve rfl
  case unresolved hr => exact alive_of_resolve hr
  case entryUnresolved hr => exact alive_of_resolve hr
  case resolved hr | entryLoad hr _ | entryEnter hr _ =>
    have ha := alive_of_resolve hr
    exact ha
  case readScript hp => exact alive_prepare _ hp
  case jsonCached => exact alive_cacheExports _ _ _
  case notCompiled => exact alive_endLoading _ _
  case threw => exact alive_endLoading _ _
  case completed => exact alive_complete _ _ _ _
  all_goals rfl

theorem Next.alive (hn : h.Next c c') : c'.state.alive = c.state.alive := by
  cases hn with
  | step hs => exact hs.alive
  | action hi a =>
    cases a
    case resolveImport specifier referrer => exact alive_of_resolve rfl
    case esmSource path =>
      show ((h.esmSource path).run.run _).2.alive = _
      rw [esmSource_state]
      rfl
    all_goals rfl

/-- The functions of a host answer in all sessions, as only a host that was shut down refuses to. -/
theorem Reaches.alive {paths : List Path} (hc : h.Reaches paths c) : c.state.alive = true := by
  induction hc with
  | initial => rfl
  | next _ hn ih => exact hn.alive.trans ih

/-! ## Formats of what is known -/

/-- The format that a look at a file finds. -/
def detected (h : Host) (path : Path) (s : HostState) : ModuleFormat :=
  ((h.resolver.detectFormat path).run s.packages).1

theorem format_of_resolve {request : Request} {resolved : ResolvedModule}
    (hr : (h.resolve request).run.run s = (.ok resolved, t)) :
    resolved.format = h.detected resolved.path t :=
  (congrArg Prod.fst (settles_of_resolve hr rfl (.refl _))).symm

/-- Whether a file is no ES module and will be none. -/
def NoEsm (h : Host) (packages : PackageCache) (path : Path) : Prop :=
  ∃ format, h.resolver.Settles packages path format ∧ format ≠ .esm

variable {packages packages' : PackageCache}

theorem NoEsm.mono (hp : h.NoEsm packages path) (he : packages.Extends packages') :
    h.NoEsm packages' path := by
  obtain ⟨format, hs, hf⟩ := hp
  exact ⟨format, hs.mono he, hf⟩

theorem NoEsm.congr (hp : h.NoEsm packages path) (hq : path.same q = true) :
    h.NoEsm packages q := by
  obtain ⟨format, hs, hf⟩ := hp
  exact ⟨format, hs.congr (Path.same_iff.mp hq), hf⟩

theorem NoEsm.detected_ne (hp : h.NoEsm s.packages path) (he : s.packages.Extends t.packages) :
    h.detected path t ≠ .esm := by
  obtain ⟨format, hs, hf⟩ := hp
  have hd : h.detected path t = format := congrArg Prod.fst (hs rfl he)
  rwa [hd]

theorem IsScript.noEsm (hs : h.IsScript packages path) (hn : h.nativeEsm = true) :
    h.NoEsm packages path := by
  obtain ⟨format, hf, -, hesm⟩ := hs
  refine ⟨format, hf, fun he => ?_⟩
  simp [hesm he] at hn

theorem Reaches.noEsm_of_cached {paths : List Path} {v : Value} (hn : h.nativeEsm = true)
    (hc : h.Reaches paths c) (hv : c.state.registry.cache.find? path = some v) :
    h.NoEsm c.state.packages path := by
  induction hc generalizing v with
  | initial => cases hv
  | @next paths c c' hc hnext ih =>
    obtain ⟨he, hp⟩ := hnext.effect
    rcases he.cache with hcache | ⟨q, exports, hcache, hq⟩
    · rw [hcache] at hv
      exact (ih hv).mono hp
    · by_cases hs : q.same path = true
      · have hno : h.NoEsm c.state.packages q := by
          rcases hq with hq | ⟨module, hq⟩
          · exact ⟨.json, hc.typed.jsons q hq, nofun⟩
          · exact (hc.typed.scripts _ hq).noEsm hn
        exact (hno.congr hs).mono hp
      · rw [hcache, PathMap.find?_insert_of_not_same _ (by simpa using hs)] at hv
        exact (ih hv).mono hp

end Host

namespace Moment

/-- Whether a file is neither kept nor marked, and no text of it is compiled or runs. -/
structure Unknown (path : Path) (c : Moment) : Prop where
  uncached : c.state.registry.cache.find? path = none
  unmarked : c.state.registry.loading.find? path = none
  scripts : ∀ mark ∈ c.marks, mark.1.same path = false
  jsons : ∀ q ∈ c.jsons, q.same path = false

end Moment

namespace Host

open HostM

variable {h : Host} {c c' : Moment} {path : Path} {s t u : HostState} {paths : List Path}

/-- A file that is an ES module, at this moment or after more looks, is unknown. -/
theorem Reaches.unknown (hn : h.nativeEsm = true) (hc : h.Reaches paths c)
    (he : c.state.packages.Extends t.packages) (hd : h.detected path t = .esm) :
    c.Unknown path := by
  have other {q : Path} (hq : h.NoEsm c.state.packages q) : q.same path = false := by
    by_contra hs
    exact (hq.congr (by simpa using hs)).detected_ne he hd
  have hscripts : ∀ mark ∈ c.marks, mark.1.same path = false :=
    fun mark hm => other ((hc.typed.scripts mark hm).noEsm hn)
  refine ⟨?_, hc.sound.marked.find?_loading_eq_none hscripts, hscripts,
    fun q hm => other ⟨.json, hc.typed.jsons q hm, nofun⟩⟩
  cases hv : c.state.registry.cache.find? path with
  | none => rfl
  | some v => exact absurd hd ((hc.noEsm_of_cached hn hv).detected_ne he)

/-! ## Requires -/

theorem load_esm {call : CallFunction} (hn : h.nativeEsm = true)
    (hc : s.registry.cache.find? path = none) (hl : s.registry.loading.find? path = none) :
    (h.load call path .esm).run.run s = (.error (.requireEsm path), s) := by
  rw [load_of_new hc hl, evaluate, if_pos hn]
  rfl

theorem Reaches.requireWith_esm {d : Nat} {request : Request} {resolved : ResolvedModule}
    (hn : h.nativeEsm = true) (hc : h.Reaches paths c)
    (hr : (h.resolve request).run.run c.state = (.ok resolved, u))
    (hd : h.detected resolved.path u = .esm) :
    ∃ t, (h.requireWith (h.callWithin d) request).run.run c.state =
      (.error (.requireEsm resolved.path), t) ∧ SameModules c.state t := by
  have hunknown := hc.unknown hn (alike_of_resolve hr).packages hd
  have hsame := sameModules_of_resolve hr
  have hformat : resolved.format = .esm := (format_of_resolve hr).trans hd
  let v := ((report (.require request.specifier request.mode resolved.path)).run u).2
  have hregistry : v.registry = c.state.registry := hsame.1
  have hcache : v.registry.cache.find? resolved.path = none := by
    rw [hregistry, hunknown.uncached]
  have hloading : v.registry.loading.find? resolved.path = none := by
    rw [hregistry, hunknown.unmarked]
  refine ⟨v, ?_, hsame⟩
  rw [requireWith, Loading.run_bind_of_ok hr, Loading.run_lift_bind, hformat]
  exact load_esm hn hcache hloading

/-- Whether a function of the host is asked for an ES module, by a specifier or by its path. -/
inductive AsksForEsm (h : Host) (text : String) (s : HostState) : HostFunction → Path → Prop where
  | require {referrer mode resolved u}
    (hr : (h.resolve ⟨text, some referrer, mode⟩).run.run s = (.ok resolved, u))
    (hd : h.detected resolved.path u = .esm) :
    AsksForEsm h text s (.require referrer mode) resolved.path
  | requirePath (hd : h.detected ⟨text⟩ s = .esm) : AsksForEsm h text s .requirePath ⟨text⟩

theorem Reaches.functionLoad_esm {d : Nat} {text : String} {function : HostFunction}
    (hn : h.nativeEsm = true) (hc : h.Reaches paths c)
    (ha : h.AsksForEsm text c.state function path) :
    ∃ t, (h.functionLoad (h.callWithin d) text function).run.run c.state =
      (.error (.requireEsm path), t) ∧ SameModules c.state t := by
  cases ha with
  | require hr hd => exact hc.requireWith_esm hn hr hd
  | requirePath hd =>
    have hunknown := hc.unknown hn (.refl _) hd
    let u := ((withPackages (h.resolver.detectFormat ⟨text⟩)).run c.state).2
    have hload : (h.functionLoad (h.callWithin d) text .requirePath).run.run c.state =
        (h.load (h.callWithin d) ⟨text⟩ (h.detected ⟨text⟩ c.state)).run.run u := rfl
    refine ⟨u, ?_, rfl, rfl⟩
    rw [hload, hd]
    exact load_esm hn hunknown.uncached hunknown.unmarked

/-- In a script the failure is an exception. -/
theorem Reaches.callWithin_esm {d : Nat} {f receiver : Value} {arguments : List Value}
    {function : HostFunction} {text : String} (hn : h.nativeEsm = true) (hc : h.Reaches paths c)
    (hf : c.state.heap.kind? f = some (.host function))
    (ht : arguments.head?.bind Value.string? = some text)
    (ha : h.AsksForEsm text c.state function path) :
    ∃ t, (h.callWithin (d + 1) f receiver arguments).run c.state = (none, t) ∧
      t.pending = some (ModuleError.requireEsm path).message ∧ SameModules c.state t := by
  obtain ⟨u, hu, hsame⟩ := hc.functionLoad_esm (d := d) hn ha
  let v := ((fail (functionReferrer text function) (.requireEsm path)).run u).2
  have hanswer : (h.callHostFunction (h.callWithin d) function arguments).run c.state =
      (.undefined, v) := by
    rw [callHostFunction_run, if_pos hc.alive, ht]
    dsimp only
    rw [applyFunction_eq, answer, HostM.run_bind, hu]
    rfl
  refine ⟨v, ?_, rfl, hsame⟩
  rw [callWithin_succ, hf]
  dsimp only
  rw [HostM.run_bind, hanswer]
  rfl

/-! ## Entries -/

/-- What waits while the engine evaluates an entry. Each evaluation there is one that a function of
the host waits for. -/
inductive Hosted (path : Path) : List Waiting → Prop where
  | entry : Hosted path [.entry path]
  | other {w ws} (hw : w.isActive = false) (hs : Hosted path ws) : Hosted path (w :: ws)
  | active {w referrer ws} (hw : w.isActive = true) (hs : Hosted path ws) :
    Hosted path (w :: .hostFunction referrer :: ws)

namespace Hosted

variable {w : Waiting} {ws : List Waiting}

theorem tail (hs : Hosted path (w :: ws)) (hw : w ≠ .entry path) : Hosted path ws := by
  cases hs with
  | entry => exact absurd rfl hw
  | other _ hs => exact hs
  | active _ hs => exact .other rfl hs

/-- An evaluation may pass into its next stage. -/
theorem replace {w' : Waiting} (hs : Hosted path (w :: ws)) (hw : w.isActive = true)
    (hw' : w'.isActive = true) : Hosted path (w' :: ws) := by
  cases hs with
  | entry => cases hw
  | other hno _ => simp [hw] at hno
  | active _ hs => exact .active hw' hs

theorem exists_inside (hs : Hosted path ws) : ∃ inside, ws = inside ++ [.entry path] := by
  induction hs with
  | entry => exact ⟨[], rfl⟩
  | @other w ws _ _ ih =>
    obtain ⟨inside, rfl⟩ := ih
    exact ⟨w :: inside, rfl⟩
  | @active w referrer ws _ _ ih =>
    obtain ⟨inside, rfl⟩ := ih
    exact ⟨w :: .hostFunction referrer :: inside, rfl⟩

theorem exists_of_active (hs : Hosted path ws) (hm : w ∈ ws) (hw : w.isActive = true) :
    ∃ inside evaluation referrer outside, evaluation.isActive = true ∧
      ws = inside ++ evaluation :: .hostFunction referrer :: (outside ++ [.entry path]) := by
  induction hs with
  | entry =>
    obtain rfl := List.mem_singleton.mp hm
    cases hw
  | @other w' ws hno _ ih =>
    rcases List.mem_cons.mp hm with rfl | hm
    · simp [hw] at hno
    · obtain ⟨inside, evaluation, referrer, outside, ha, rfl⟩ := ih hm
      exact ⟨w' :: inside, evaluation, referrer, outside, ha, rfl⟩
  | @active evaluation referrer ws ha hs _ =>
    obtain ⟨outside, rfl⟩ := hs.exists_inside
    exact ⟨[], evaluation, referrer, outside, ha, rfl⟩

end Hosted

end Host

namespace Task

/-- Whether a task may lead to the evaluation of a file. -/
def isRequest : Task → Bool
  | .entry _ _ => true
  | .require _ _ => true
  | .load _ _ _ => true
  | .read _ _ _ => true
  | _ => false

end Task

namespace Moment

/-- Whether the engine evaluates an entry, and all that is requested is what a function of the host
waits for. -/
structure InEntry (path : Path) (c : Moment) : Prop where
  waiting : Host.Hosted path c.waiting
  request : c.task.isRequest = true → ∃ referrer ws, c.waiting = .hostFunction referrer :: ws

/-- Whether a file is requested or evaluated for a function of the host that an entry waits for. -/
inductive Requires (path : Path) : Moment → Prop where
  | requests {task referrer outside s} (ht : Task.isRequest task = true) :
    Requires path ⟨task, .hostFunction referrer :: (outside ++ [.entry path]), s⟩
  | evaluates {task inside evaluation referrer outside s}
    (ha : Waiting.isActive evaluation = true) :
    Requires path
      ⟨task, inside ++ evaluation :: .hostFunction referrer :: (outside ++ [.entry path]), s⟩

end Moment

namespace Host

open HostM

variable {h : Host} {b b' c c' : Moment} {path : Path} {s u : HostState}

theorem Step.inEntry (hs : h.Step c c') (hc : c.InEntry path) :
    c'.InEntry path ∨ c'.waiting = [] ∧ ∃ answer, c'.task = .loaded answer := by
  obtain ⟨hw, hr⟩ := hc
  cases hs
  -- A load keeps the function that waits for it.
  case resolved | entryLoad | new => exact .inl ⟨hw, fun _ => hr rfl⟩
  case readJson | readScript =>
    obtain ⟨referrer, ws, rfl⟩ := hr rfl
    exact .inl ⟨.active rfl (hw.tail nofun), nofun⟩
  case compiled => exact .inl ⟨hw.replace rfl rfl, nofun⟩
  case hostRequire | hostRequirePath => exact .inl ⟨.other rfl hw, fun _ => ⟨_, _, rfl⟩⟩
  -- With the entry itself all that waits is gone.
  case entryThrew | entryRan =>
    cases hw with
    | entry => exact .inr ⟨rfl, _, rfl⟩
    | other _ hw => exact .inl ⟨hw, nofun⟩
    | active ha _ => cases ha
  all_goals first
    | exact .inl ⟨hw, nofun⟩
    | exact .inl ⟨.other rfl hw, nofun⟩
    | exact .inl ⟨hw.tail nofun, nofun⟩

/-- Maps change only where a file is about to be evaluated or is under evaluation. -/
theorem Effect.maps (he : h.Effect c c') :
    (c'.state.registry.cache = c.state.registry.cache ∧
      c'.state.registry.loading = c.state.registry.loading) ∨
    c.task.isRequest = true ∨ ∃ w ∈ c.waiting, w.isActive = true := by
  have hactive {w ws} (ha : c.active = w :: ws) : ∃ w ∈ c.waiting, w.isActive = true := by
    have hm : w ∈ c.waiting.filter Waiting.isActive := by
      rw [← Moment.active, ha]
      exact List.mem_cons_self
    exact ⟨w, List.mem_filter.mp hm⟩
  cases he with
  | quiet ht _ => exact .inl ⟨congrArg Tables.cache ht, congrArg Tables.loading ht⟩
  | beginJson hr _ _ | beginScript hr _ _ _ _ =>
    rw [hr]
    exact .inr (.inl rfl)
  | compiled ha _ _ | jsonFailed ha _ | jsonKept ha _ | notCompiled ha _ | threw ha _
  | completed ha _ => exact .inr (.inr (hactive ha))

theorem requires_of_inEntry (hc : c.InEntry path)
    (hw : c.task.isRequest = true ∨ ∃ w ∈ c.waiting, w.isActive = true) : c.Requires path := by
  obtain ⟨task, ws, s⟩ := c
  obtain ⟨hwaiting, hrequest⟩ := hc
  rcases hw with ht | ⟨w, hm, ha⟩
  · obtain ⟨referrer, ws, rfl⟩ := hrequest ht
    obtain ⟨outside, rfl⟩ := (hwaiting.tail nofun).exists_inside
    exact .requests ht
  · obtain ⟨inside, evaluation, referrer, outside, ha, rfl⟩ := hwaiting.exists_of_active hm ha
    exact .evaluates ha

theorem Step.not_ended (hs : h.Step c c') (hw : c.waiting = [])
    (answer : Except ModuleError Value) : c.task ≠ .loaded answer := by
  intro ht
  obtain ⟨task, ws, s⟩ := c
  obtain rfl : ws = [] := hw
  obtain rfl : task = .loaded answer := ht
  cases hs

/-- The moments of an entry that the engine evaluates itself, after it was resolved. -/
theorem Steps.inEntry {d : Nat} (hs : h.Steps ⟨.enter d path, [], s⟩ c) :
    (∃ d s, c = ⟨.enter d path, [], s⟩) ∨ c.InEntry path ∨
      c.waiting = [] ∧ ∃ answer, c.task = .loaded answer := by
  induction hs with
  | refl => exact .inl ⟨d, s, rfl⟩
  | tail _ hs ih =>
    rcases ih with ⟨d, s, rfl⟩ | hc | ⟨hw, answer, ht⟩
    · refine .inr ?_
      cases hs with
      | entryUnreadable | entryFailed => exact .inr ⟨rfl, _, rfl⟩
      | entryRuns => exact .inl ⟨.entry, nofun⟩
    · exact .inr (hs.inEntry hc)
    · exact absurd ht (hs.not_ended hw answer)

theorem Steps.maps_of_entry {name : String} {resolved : ResolvedModule}
    (hn : h.nativeEsm = true)
    (hr : (h.resolve ⟨entrySpecifier name, none, .require⟩).run.run s = (.ok resolved, u))
    (hd : h.detected resolved.path u = .esm) (hb : h.Steps (h.start (.loadEntry name) s) b)
    (hs : h.Step b b') :
    (b'.state.registry.cache = b.state.registry.cache ∧
      b'.state.registry.loading = b.state.registry.loading) ∨ b.Requires resolved.path := by
  have hesm : (resolved.format = .esm && h.nativeEsm : Bool) = true := by
    simp [format_of_resolve hr, hd, hn]
  have hstart : h.Step (h.start (.loadEntry name) s) ⟨.enter h.callDepth resolved.path, [],
      ((report (.entry name resolved.path resolved.format)).run u).2⟩ := .entryEnter hr hesm
  rcases Relation.ReflTransGen.cases_head hb with rfl | ⟨m, hm, hb⟩
  · obtain rfl := hstart.unique hs
    have hregistry := (sameModules_of_resolve hr).1
    exact .inl ⟨congrArg Registry.cache hregistry, congrArg Registry.loading hregistry⟩
  · obtain rfl := hstart.unique hm
    rcases hs.effect.1.maps with hmaps | hw
    · exact .inl hmaps
    · rcases Steps.inEntry hb with ⟨d, t, rfl⟩ | hc | ⟨hwaiting, answer, ht⟩
      · rcases hw with hw | ⟨w, hw, -⟩ <;> cases hw
      · exact .inr (requires_of_inEntry hc hw)
      · exact absurd ht (hs.not_ended hwaiting answer)

/-- On an engine that has ES modules of its own, the host evaluates none. A file that is an ES module
now or turns out to be one later is unknown, and so is, ever after, one that a look has found to be
one. A `require` of an ES module fails with an error that names it, and changes neither the modules
known nor the pins. This holds for callers and for scripts, by a specifier and by the path. While an
entry that is an ES module is loaded, the maps change only where a file is requested or evaluated
for a function of the host that the entry waits for. -/
theorem esm_never_required (h : Host) (hn : h.nativeEsm = true) :
    (∀ paths c c' path, h.Reaches paths c → h.Later c c' →
      (h.detected path c'.state = .esm → c.Unknown path) ∧
      (h.resolver.Settles c.state.packages path .esm → c'.Unknown path)) ∧
    (∀ paths c d request resolved u, h.Reaches paths c →
      (h.resolve request).run.run c.state = (.ok resolved, u) →
      h.detected resolved.path u = .esm →
      ∃ t, (h.requireWith (h.callWithin d) request).run.run c.state =
        (.error (.requireEsm resolved.path), t) ∧ SameModules c.state t) ∧
    (∀ paths c d f receiver arguments function text path, h.Reaches paths c →
      c.state.heap.kind? f = some (.host function) →
      arguments.head?.bind Value.string? = some text →
      h.AsksForEsm text c.state function path →
      ∃ t, (h.callWithin (d + 1) f receiver arguments).run c.state = (none, t) ∧
        t.pending = some (ModuleError.requireEsm path).message ∧ SameModules c.state t) ∧
    ∀ name s resolved u b b',
      (h.resolve ⟨entrySpecifier name, none, .require⟩).run.run s = (.ok resolved, u) →
      h.detected resolved.path u = .esm →
      h.Steps (h.start (.loadEntry name) s) b → h.Step b b' →
      (b'.state.registry.cache = b.state.registry.cache ∧
        b'.state.registry.loading = b.state.registry.loading) ∨ b.Requires resolved.path := by
  refine ⟨fun paths c c' path hc hl => ⟨fun hd => ?_, fun hs => ?_⟩,
    fun paths c d request resolved u hc hr hd => hc.requireWith_esm hn hr hd,
    fun paths c d f receiver arguments function text path hc hf ht ha =>
      hc.callWithin_esm hn hf ht ha,
    fun name s resolved u b b' hr hd hb hs => Steps.maps_of_entry hn hr hd hb hs⟩
  · exact hc.unknown hn hl.extends hd
  · obtain ⟨paths', hc'⟩ := hc.later hl
    have hd : h.detected path c'.state = .esm := congrArg Prod.fst (hs rfl hl.extends)
    exact hc'.unknown hn (.refl _) hd

/-- A host whose one file is an ES module. -/
def native : Host where
  resolver := .ofSource (Bundle.ofEntries [("a.mjs", "".toUTF8)]).toSource ⟨""⟩ ⟨"/"⟩
  typeScript := .absent
  nativeEsm := true
  body? _ := none
  module? _ := some (.done .undefined)
  callDepth := 2

theorem resolve_native : (native.resolve ⟨"./a.mjs", none, .require⟩).run.run HostState.initial =
    (.ok ⟨⟨"a.mjs"⟩, .bundle, .esm⟩, HostState.initial) :=
  resolve_initial (by decide +kernel) (by decide +kernel)

/-- A script calls the global function with the path of the file. -/
theorem exists_reaches_native : ∃ paths s, native.Reaches paths
    ⟨.call 2 (.object 1) .undefined [.string "a.mjs"], [.script 2 .done none], s⟩ ∧
    s.heap.kind? (.object 1) = some (.host .requirePath) ∧
    native.detected ⟨"a.mjs"⟩ s = .esm := by
  have hinstalled : native.Reaches _ _ :=
    .next .initial (.action ⟨rfl, .inl ⟨_, rfl⟩⟩ .installGlobals)
  have hscript : native.Reaches _ _ := .next hinstalled
    (.action ⟨rfl, .inl ⟨_, rfl⟩⟩ (.runScript (.call (.object 1) [.string "a.mjs"] .done)))
  exact ⟨_, _, .next hscript (.step .call), rfl, rfl⟩

/-- The script gets an exception, a caller gets the error, and the entry runs without a change to
the maps. -/
theorem esm_never_required_native :
    (∃ paths c t, native.Reaches paths c ∧ c.Unknown ⟨"a.mjs"⟩ ∧
      (native.callWithin 2 (.object 1) .undefined [.string "a.mjs"]).run c.state = (none, t) ∧
      t.pending = some (ModuleError.requireEsm ⟨"a.mjs"⟩).message ∧ SameModules c.state t) ∧
    (∃ t, (native.requireWith (native.callWithin 2) ⟨"./a.mjs", none, .require⟩).run.run
      HostState.initial = (.error (.requireEsm ⟨"a.mjs"⟩), t) ∧ SameModules HostState.initial t) ∧
    ∃ b b', native.Steps (native.start (.loadEntry "a.mjs") HostState.initial) b ∧
      native.Step b b' ∧ b.task = .enter 2 ⟨"a.mjs"⟩ ∧
      b'.state.registry.loading = b.state.registry.loading := by
  obtain ⟨hunknown, hrequire, hcall, hentry⟩ := esm_never_required native rfl
  refine ⟨?_, hrequire [] Moment.initial 2 _ _ _ .initial resolve_native rfl, ?_⟩
  · obtain ⟨paths, s, hc, hf, hd⟩ := exists_reaches_native
    obtain ⟨t, ht⟩ := hcall paths _ 1 (.object 1) .undefined [.string "a.mjs"] _ _ _ hc hf rfl
      (.requirePath hd)
    exact ⟨paths, _, t, hc, (hunknown paths _ _ _ hc .refl).1 hd, ht⟩
  · have hr : ∀ s, (native.readSource ⟨"a.mjs"⟩).run.run s = (.ok "", s) := fun _ => rfl
    have hstart : native.Step (native.start (.loadEntry "a.mjs") HostState.initial) _ :=
      .entryEnter resolve_native rfl
    obtain ⟨s, hb⟩ : ∃ s, native.Steps (native.start (.loadEntry "a.mjs") HostState.initial)
        ⟨.enter 2 ⟨"a.mjs"⟩, [], s⟩ := ⟨_, .single hstart⟩
    have hs : native.Step ⟨.enter 2 ⟨"a.mjs"⟩, [], s⟩ _ := .entryRuns (hr s) rfl
    refine ⟨_, _, hb, hs, rfl, ?_⟩
    rcases hentry "a.mjs" _ _ _ _ _ resolve_native rfl hb hs with hmaps | hrequires
    · exact hmaps.2
    · -- Nothing waits at that moment, so nothing is required.
      generalize hb : Moment.mk (.enter 2 ⟨"a.mjs"⟩) [] s = b at hrequires
      cases hrequires <;> simp at hb

end Host

end ModuleLoader
