import ModuleLoader.Proofs.Host.Functions

/-! The functions bound to a module. Its `require` and its `require.resolve` resolve alike for as
long as scripts hold them, and a host that was shut down refuses both. -/

namespace ModuleLoader

namespace Host

open HostM

variable {h : Host} {c c' : Moment} {d : Nat} {path : Path} {mode : ResolveMode}
  {format : ModuleFormat} {s t : HostState} {f receiver module exports require : Value}
  {arguments : List Value} {text : String} {e : ModuleError} {resolved : ResolvedModule}

/-! ## Where the functions are made -/

/-- The evaluation of a script file begins with its functions, in the mode of its format. -/
theorem Next.functions_of_read (hn : h.Next c c') (ht : c.task = .read d path format)
    (hw : c'.waiting = .compilation d path module exports require :: c.waiting) :
    ∃ mode, (mode = .import ↔ format = .esm) ∧
      c'.state.heap.kind? require = some (.host (.require path mode)) ∧
      c'.state.heap.kind? (c'.state.heap.get require "resolve") =
        some (.host (.resolve path mode)) := by
  cases hn with
  | action hi a =>
    rcases hi.2 with ⟨result, hr⟩ | ⟨answer, hr⟩
    · rw [ht] at hr
      cases hr
    · rw [ht] at hr
      cases hr
  | step hs =>
    cases hs
    case readScript hr hf hp =>
      cases ht
      cases hw
      exact ⟨_, mode_of_scriptOf hf, (prepare_heap hp).2⟩
    case requireEsm | unreadable | readJson => cases hw
    all_goals cases ht

theorem detected_of_settles (hs : h.resolver.Settles s.packages path format)
    (he : s.packages.Extends t.packages) : h.detected path t = format := congrArg Prod.fst (hs rfl he)

theorem Reaches.mode_iff {paths : List Path} (hc : h.Reaches paths c) {kind : ObjectKind}
    (hk : c.state.heap.kind? f = some kind) (ho : kind.owner? = some (path, mode)) :
    mode = .import ↔ h.detected path c.state = .esm := by
  obtain ⟨format, hs, hf⟩ := hc.isModeOf hk ho
  rw [detected_of_settles hs (.refl _)]
  exact hf

/-! ## Calls -/

theorem callWithin_require_ok (hk : s.heap.kind? f = some (.host (.require path mode)))
    (ha : s.alive = true) (ht : arguments.head?.bind Value.string? = some text)
    (hr : (h.resolve ⟨text, some path, mode⟩).run.run s = (.ok resolved, t)) :
    (h.callWithin (d + 1) f receiver arguments).run s =
      ((h.load (h.callWithin d) resolved.path resolved.format).run >>= returnAnswer path).run
        ((report (.require text mode resolved.path)).run t).2 := by
  have hload : (h.functionLoad (h.callWithin d) text (.require path mode)).run.run s =
      (h.load (h.callWithin d) resolved.path resolved.format).run.run
        ((report (.require text mode resolved.path)).run t).2 := by
    rw [functionLoad, requireWith, Loading.run_bind_of_ok hr, Loading.run_lift_bind]
  rw [callWithin_host hk ha ht, HostM.run_bind, HostM.run_bind, hload]
  rfl

theorem callWithin_resolve_ok (hk : s.heap.kind? f = some (.host (.resolve path mode)))
    (ha : s.alive = true) (ht : arguments.head?.bind Value.string? = some text)
    (hr : (h.resolve ⟨text, some path, mode⟩).run.run s = (.ok resolved, t)) :
    (h.callWithin (d + 1) f receiver arguments).run s =
      (if s.pending.isSome then none else some (.string resolved.path.display), t) := by
  have hload : (h.functionLoad (h.callWithin d) text (.resolve path mode)).run.run s =
      (.ok (.string resolved.path.display), t) := by
    rw [functionLoad, resolveDisplay, Loading.run_bind_of_ok hr]
    rfl
  rw [callWithin_host hk ha ht, HostM.run_bind, hload, ← pending_of_resolve hr]
  rfl

/-- Both functions hand on why a text does not resolve. -/
theorem callWithin_unresolved {function : HostFunction}
    (hf : function = .require path mode ∨ function = .resolve path mode)
    (hk : s.heap.kind? f = some (.host function)) (ha : s.alive = true)
    (ht : arguments.head?.bind Value.string? = some text)
    (hr : (h.resolve ⟨text, some path, mode⟩).run.run s = (.error e, t)) :
    (h.callWithin (d + 1) f receiver arguments).run s =
      (none, { t with
        pending := some e.message
        events := .thrown e.message :: t.events
        log := .failed path e :: t.log }) := by
  rcases hf with rfl | rfl
  · exact callWithin_host_error hk ha ht (Loading.run_bind_of_error hr) (resolve_error hr)
  · exact callWithin_host_error hk ha ht (Loading.run_bind_of_error hr) (resolve_error hr)

/-- Whether nothing happened but looks at packages, with a record of what was found or failed. -/
structure OnlyLooked (s t : HostState) : Prop where
  heap : t.heap = s.heap
  pins : t.pins = s.pins
  registry : t.registry = s.registry
  alive : t.alive = s.alive
  runs : t.runs = s.runs
  saved : t.saved = s.saved

theorem OnlyLooked.report {s t : HostState} (ho : OnlyLooked s t) (entry : LogRecord) :
    OnlyLooked s ((HostM.report entry).run t).2 :=
  ⟨ho.heap, ho.pins, ho.registry, ho.alive, ho.runs, ho.saved⟩

theorem onlyLooked_of_resolve {request : Request} {answer : Except ModuleError ResolvedModule}
    (hr : (h.resolve request).run.run s = (answer, t)) : OnlyLooked s t := by
  rw [resolve_state hr]
  exact ⟨rfl, rfl, rfl, rfl, rfl, rfl⟩

theorem callWithin_resolve_onlyLooked (hk : s.heap.kind? f = some (.host (.resolve path mode))) :
    OnlyLooked s ((h.callWithin (d + 1) f receiver arguments).run s).2 := by
  cases ha : s.alive with
  | false =>
    rw [callWithin_gone hk ha]
    exact ⟨rfl, rfl, rfl, rfl, rfl, rfl⟩
  | true =>
    cases ht : arguments.head?.bind Value.string? with
    | none =>
      have hrun : (h.callWithin (d + 1) f receiver arguments).run s =
          (refuse (expectation (.resolve path mode)) >>= unlessPending).run s := by
        rw [callWithin_succ, hk]
        dsimp only
        rw [HostM.run_bind, callHostFunction_run, if_pos ha, ht]
        rfl
      rw [hrun]
      exact ⟨rfl, rfl, rfl, rfl, rfl, rfl⟩
    | some text =>
      obtain ⟨answer, t, hr⟩ : ∃ answer t,
          (h.resolve ⟨text, some path, mode⟩).run.run s = (answer, t) := ⟨_, _, rfl⟩
      have hlooked := onlyLooked_of_resolve hr
      cases answer with
      | ok resolved =>
        rw [callWithin_resolve_ok hk ha ht hr]
        exact hlooked
      | error e =>
        rw [callWithin_unresolved (.inr rfl) hk ha ht hr]
        exact ⟨hlooked.heap, hlooked.pins, hlooked.registry, hlooked.alive, hlooked.runs,
          hlooked.saved⟩

/-! ## Hosts that were shut down -/

theorem exists_pins_forM_release (values : List Value) (s : HostState) :
    ∃ pins, ((values.forM release).run s).2 = { s with pins := pins } := by
  induction values generalizing s with
  | nil => exact ⟨s.pins, rfl⟩
  | cons v rest ih =>
    obtain ⟨pins, hr⟩ := ih { s with pins := s.pins.release v }
    exact ⟨pins, hr⟩

/-- Functions outlive the host that they belong to. -/
theorem shutDown_run (s : HostState) :
    (shutDown.run s).2.alive = false ∧ (shutDown.run s).2.heap = s.heap := by
  obtain ⟨pins, hr⟩ :=
    exists_pins_forM_release (s.registry.cache.values ++ s.registry.loading.values) s
  have hrun : (shutDown.run s).2 =
      let t := (((s.registry.cache.values ++ s.registry.loading.values).forM release).run s).2
      { t with
        alive := false
        registry := { t.registry with cache := PathMap.empty, loading := PathMap.empty } } := rfl
  rw [hrun, hr]
  exact ⟨rfl, rfl⟩

theorem Later.alive (hl : h.Later c c') : c'.state.alive = c.state.alive := by
  induction hl with
  | refl => rfl
  | tail _ hn ih => exact hn.alive.trans ih

/-- The evaluation of the single file begins. -/
theorem exists_reaches_functions : ∃ paths c c', single.Reaches paths c ∧ single.Next c c' ∧
    c.task = .read 2 ⟨"a.cjs"⟩ .cjs ∧
    c'.waiting = .compilation 2 ⟨"a.cjs"⟩ (.object 2) (.object 1) (.object 4) :: c.waiting ∧
    c'.state.packages = PackageCache.empty ∧ c'.state.alive = true ∧ c'.state.pending = none ∧
    c'.state.heap.kind? (.object 4) = some (.host (.require ⟨"a.cjs"⟩ .require)) ∧
    c'.state.heap.kind? (.object 3) = some (.host (.resolve ⟨"a.cjs"⟩ .require)) ∧
    c'.state.heap.get (.object 4) "resolve" = .object 3 := by
  have hstart : single.Reaches _ _ :=
    .next .initial (.action ⟨rfl, .inl ⟨_, rfl⟩⟩ (.require "./a.cjs" none))
  have hfound : (single.resolve ⟨"./a.cjs", none, .require⟩).run.run HostState.initial =
      (.ok ⟨⟨"a.cjs"⟩, .bundle, .cjs⟩, HostState.initial) :=
    resolve_initial (by decide +kernel) (by decide +kernel)
  have hload : single.Reaches _ _ := .next hstart (.step (.resolved hfound))
  have hread : single.Reaches _ _ := .next hload (.step (.new rfl rfl))
  have hr : ∀ s, (single.readSource ⟨"a.cjs"⟩).run.run s = (.ok "", s) := fun _ => rfl
  exact ⟨_, _, _, hread, .step (.readScript (hr _) rfl rfl), rfl, rfl, rfl, rfl, rfl, rfl, rfl, rfl⟩

/-- The functions of a module resolve from its file, in the mode that its format calls for, however
the module was reached and however late they are called. For a text, `require.resolve` answers the
file that `require` goes on to load, or throws what `require` throws when there is none. It changes
nothing but what is known of packages. Once the host was shut down both throw and do nothing else. -/
theorem bound_functions_agree (h : Host) :
    (∀ paths c c' d path format module exports require, h.Reaches paths c → h.Next c c' →
      c.task = .read d path format →
      c'.waiting = .compilation d path module exports require :: c.waiting →
      ∃ mode, (mode = .import ↔ format = .esm) ∧
        let resolve := c'.state.heap.get require "resolve"
        ∀ c'', h.Later c' c'' → h.detected path c''.state = format ∧
          c''.state.heap.kind? require = some (.host (.require path mode)) ∧
          c''.state.heap.kind? resolve = some (.host (.resolve path mode))) ∧
    (∀ paths c f path mode, h.Reaches paths c →
      c.state.heap.kind? f = some (.host (.require path mode)) ∨
        c.state.heap.kind? f = some (.host (.resolve path mode)) →
      (mode = .import ↔ h.detected path c.state = .esm)) ∧
    (∀ d s require resolve receiver receiver' text rest path mode, s.alive = true →
      s.heap.kind? require = some (.host (.require path mode)) →
      s.heap.kind? resolve = some (.host (.resolve path mode)) →
      let resolution := (h.resolve ⟨text, some path, mode⟩).run.run s
      let required := (h.callWithin (d + 1) require receiver (.string text :: rest)).run s
      let displayed := (h.callWithin (d + 1) resolve receiver' (.string text :: rest)).run s
      (∀ resolved t, resolution = (.ok resolved, t) →
        required =
          ((h.load (h.callWithin d) resolved.path resolved.format).run >>= returnAnswer path).run
            ((report (.require text mode resolved.path)).run t).2 ∧
        displayed =
          (if s.pending.isSome then none else some (.string resolved.path.display), t)) ∧
      ∀ e t, resolution = (.error e, t) → required = displayed ∧
        displayed.1 = none ∧ displayed.2.pending = some e.message) ∧
    (∀ d s resolve receiver arguments path mode,
      s.heap.kind? resolve = some (.host (.resolve path mode)) →
      OnlyLooked s ((h.callWithin (d + 1) resolve receiver arguments).run s).2) ∧
    ∀ s task ws c, h.Later ⟨task, ws, (shutDown.run s).2⟩ c →
      ∀ f function, s.heap.kind? f = some (.host function) → ∀ d receiver arguments,
        (h.callWithin (d + 1) f receiver arguments).run c.state =
          (none, { c.state with
            pending := some "module system is no longer available"
            events := .thrown "module system is no longer available" :: c.state.events }) := by
  refine ⟨fun paths c c' d path format module exports require hc hn ht hw => ?_,
    fun paths c f path mode hc hk => ?_,
    fun d s require resolve receiver receiver' text rest path mode ha hrequire hresolve => ⟨?_, ?_⟩,
    fun d s resolve receiver arguments path mode => callWithin_resolve_onlyLooked,
    fun s task ws c hl f function hk d receiver arguments => ?_⟩
  · obtain ⟨mode, hmode, hrequire, hresolve⟩ := hn.functions_of_read ht hw
    refine ⟨mode, hmode, fun c'' hl => ⟨?_, hl.kind? hrequire, hl.kind? hresolve⟩⟩
    exact detected_of_settles (hc.typed.read ht) (hn.effect.2.trans hl.extends)
  · rcases hk with hk | hk
    · exact hc.mode_iff hk rfl
    · exact hc.mode_iff hk rfl
  · intro resolved t hr
    exact ⟨callWithin_require_ok hrequire ha rfl hr, callWithin_resolve_ok hresolve ha rfl hr⟩
  · intro e t hr
    have hrequired : (h.callWithin (d + 1) require receiver (.string text :: rest)).run s = _ :=
      callWithin_unresolved (.inl rfl) hrequire ha rfl hr
    have hdisplayed : (h.callWithin (d + 1) resolve receiver' (.string text :: rest)).run s = _ :=
      callWithin_unresolved (.inr rfl) hresolve ha rfl hr
    rw [hrequired, hdisplayed]
    exact ⟨rfl, rfl, rfl⟩
  · obtain ⟨hgone, hheap⟩ := shutDown_run s
    have hkept : c.state.heap.kind? f = some (.host function) := hl.kind? (by rwa [hheap])
    exact callWithin_gone hkept (hl.alive.trans hgone)

/-- The functions of the single file find the file itself, and no other one. -/
theorem bound_functions_agree_single : ∃ paths c, single.Reaches paths c ∧
    (∀ c', single.Later c c' → ∃ mode,
      c'.state.heap.kind? (.object 4) = some (.host (.require ⟨"a.cjs"⟩ mode)) ∧
      c'.state.heap.kind? (.object 3) = some (.host (.resolve ⟨"a.cjs"⟩ mode))) ∧
    ((single.callWithin 1 (.object 3) .undefined [.string "./a.cjs"]).run c.state).1 =
      some (.string "a.cjs") ∧
    (single.callWithin 1 (.object 4) .undefined [.string "./b.cjs"]).run c.state =
      (single.callWithin 1 (.object 3) .undefined [.string "./b.cjs"]).run c.state := by
  obtain ⟨paths, c, c', hc, hn, ht, hw, hpackages, halive, hpending, hrequire, hresolve, hget⟩ :=
    exists_reaches_functions
  obtain ⟨hmade, -, hcalls, -⟩ := bound_functions_agree single
  obtain ⟨mode, -, hlater⟩ := hmade _ _ _ _ _ _ _ _ _ hc hn ht hw
  rw [hget] at hlater
  have hcall := hcalls 0 c'.state (.object 4) (.object 3) .undefined .undefined
  refine ⟨_, c', hc.next hn, fun c'' hl => ⟨mode, (hlater c'' hl).2⟩, ?_, ?_⟩
  · have hfound : ((single.resolver.resolve ⟨"./a.cjs", some ⟨"a.cjs"⟩, .require⟩).run
        PackageCache.empty).1 = .ok ⟨⟨"a.cjs"⟩, .bundle, .cjs⟩ := by decide +kernel
    have hr : (single.resolve ⟨"./a.cjs", some ⟨"a.cjs"⟩, .require⟩).run.run c'.state =
        (.ok ⟨⟨"a.cjs"⟩, .bundle, .cjs⟩, _) := Prod.fst_eq_iff.mp (by
      rw [resolve_run, hpackages, hfound])
    rw [((hcall "./a.cjs" [] ⟨"a.cjs"⟩ .require halive hrequire hresolve).1 _ _ hr).2, hpending]
    rfl
  · have hmissing : ((single.resolver.resolve ⟨"./b.cjs", some ⟨"a.cjs"⟩, .require⟩).run
        PackageCache.empty).1 = .error (.moduleNotFound "./b.cjs" "") := by decide +kernel
    have hr : (single.resolve ⟨"./b.cjs", some ⟨"a.cjs"⟩, .require⟩).run.run c'.state =
        (.error (.resolve (.moduleNotFound "./b.cjs" "")), _) := Prod.fst_eq_iff.mp (by
      rw [resolve_run, hpackages, hmissing])
    exact ((hcall "./b.cjs" [] ⟨"a.cjs"⟩ .require halive hrequire hresolve).2 _ _ hr).1

end Host

end ModuleLoader
