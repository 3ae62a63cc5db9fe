import ModuleLoader.Proofs.Host.Machine

/-! The steps of a run add up to what the host does as a whole: whatever a task is for, its steps
come to the same result in the same state, and what waits below is not touched. -/

namespace ModuleLoader

theorem HostM.run_bind {α β : Type} (x : HostM α) (f : α → HostM β) (s : HostState) :
    (x >>= f).run s = (f (x.run s).1).run (x.run s).2 := rfl

theorem HostM.run_pure {α : Type} (a : α) (s : HostState) :
    (pure a : HostM α).run s = (a, s) := rfl

namespace Loading

variable {α β : Type} {x : Loading α} {f : α → Loading β} {s t : HostState}

theorem run_bind_of_ok {a : α} (hx : x.run.run s = (.ok a, t)) :
    (x >>= f).run.run s = (f a).run.run t := by
  rw [ExceptT.run_bind, HostM.run_bind, hx]

theorem run_bind_of_error {e : ModuleError} (hx : x.run.run s = (.error e, t)) :
    (x >>= f).run.run s = (.error e, t) := by
  rw [ExceptT.run_bind, HostM.run_bind, hx]
  rfl

theorem run_map (f : α → β) (x : Loading α) (s : HostState) :
    ((f <$> x).run.run s).2 = (x.run.run s).2 := by
  rw [ExceptT.run_map]
  rfl

theorem run_lift_bind {x : HostM α} :
    ((liftM x : Loading α) >>= f).run.run s = (f (x.run s).1).run.run (x.run s).2 := rfl

theorem run_get_bind {f : HostState → Loading β} :
    ((get : Loading HostState) >>= f).run.run s = (f s).run.run s := rfl

end Loading

namespace Host

open HostM Relation

variable (h : Host)

abbrev Steps : Moment → Moment → Prop := ReflTransGen h.Step

/-- The steps of a task end as the action says. -/
def Runs {α : Type} (task : Task) (finish : α → Task) (action : HostM α) : Prop :=
  ∀ ws s, h.Steps ⟨task, ws, s⟩ ⟨finish (action.run s).1, ws, (action.run s).2⟩

/-- All calls at a depth are run as they are made. -/
def CallsRun (depth : Nat) : Prop := ∀ f receiver arguments,
  h.Runs (.call depth f receiver arguments) .returned (h.callWithin depth f receiver arguments)

variable {h}

theorem Steps.head {a b c : Moment} (hab : h.Step a b) (hbc : h.Steps b c) : h.Steps a c :=
  ReflTransGen.head hab hbc

/-- The task and what waits first for it leave one step, as the conditions exclude each other. -/
theorem Step.unique {a b c : Moment} (hb : h.Step a b) (hc : h.Step a c) : b = c := by
  cases hb <;> cases hc <;> grind [scriptOf]

/-- What the steps of a run pass through, they pass through in one order. -/
theorem Steps.total {a b c : Moment} (hb : h.Steps a b) (hc : h.Steps a c) :
    h.Steps b c ∨ h.Steps c b :=
  ReflTransGen.total_of_right_unique (fun _ _ _ => Step.unique) hb hc

theorem runs_script {d : Nat} (hc : h.CallsRun d) (script : Script) :
    h.Runs (.script d script) .returned (script.run (h.callWithin d)) := by
  induction script with
  | done v => exact fun ws s => .single .done
  | throw message => exact fun ws s => .single .throw
  | look next ih => exact fun ws s => (ih s ws s).head .look
  | allocate next ih => exact fun ws s => (ih _ ws _).head .allocate
  | set object name value next ih => exact fun ws s => (ih ws _).head .set
  | save name value next ih => exact fun ws s => (ih ws _).head .save
  | record event next ih => exact fun ws s => (ih ws _).head .record
  | call f arguments next ih =>
    intro ws s
    refine .head .call ((hc f .undefined arguments _ s).trans ?_)
    simp only [Script.run, HostM.run_bind]
    generalize (h.callWithin d f .undefined arguments).run s = r
    obtain ⟨v, t⟩ := r
    cases v with
    | none => exact .single .uncaught
    | some v => exact (ih v ws t).head .resume
  | attempt f arguments next caught ih ihc =>
    intro ws s
    refine .head .attempt ((hc f .undefined arguments _ s).trans ?_)
    simp only [Script.run, HostM.run_bind]
    generalize (h.callWithin d f .undefined arguments).run s = r
    obtain ⟨v, t⟩ := r
    cases v with
    | none => exact (ihc _ ws _).head .caught
    | some v => exact (ih v ws t).head .resume

theorem runs_evaluate {d : Nat} (hc : h.CallsRun d) (code filename : String) :
    h.Runs (.evaluate d code filename) .returned
      (h.evalScript (h.callWithin d) code filename) := by
  intro ws s
  cases hj : CommonJs.jsonText? code with
  | some text =>
    cases hb : h.body? filename with
    | none =>
      simp only [evalScript, HostM.run_bind, hj, hb]
      exact .single (.parse hj hb)
    | some body =>
      refine .head (.runJson hj hb) ((runs_script hc _ _ _).trans ?_)
      simp only [evalScript, runBody, startEvaluation, HostM.run_bind, hj, hb]
      generalize StateT.run (Script.run _ _) _ = r
      obtain ⟨v, u⟩ := r
      cases v with
      | none => exact .single .jsonThrew
      | some v => exact .single .jsonRan
  | none =>
    cases hb : h.body? filename with
    | none =>
      simp only [evalScript, HostM.run_bind, hj, hb]
      exact .single (.evalFailed hj hb)
    | some body =>
      refine .head (.runAround hj hb) ((runs_script hc _ _ _).trans ?_)
      simp only [evalScript, HostM.run_bind, hj, hb]
      generalize StateT.run (Script.run _ _) _ = r
      obtain ⟨v, u⟩ := r
      cases v with
      | none => exact .single .aroundThrew
      | some v => exact .single .aroundRan

/-! ## Loads -/

theorem exists_readSource_run (h : Host) (path : Path) (s : HostState) :
    ∃ source, (h.readSource path).run.run s = (source, s) := by
  unfold readSource
  cases h.resolver.source.read path with
  | error e => exact ⟨_, rfl⟩
  | ok bytes =>
    dsimp only
    split
    · split
      · split <;> exact ⟨_, rfl⟩
      · exact ⟨_, rfl⟩
    · exact ⟨_, rfl⟩

theorem loadScript_run (call : CallFunction) (path : Path) (code : String) (mode : ResolveMode) :
    (h.loadScript call path code mode).run = (do
      let (module, exports, require) ← prepare path mode
      match ← h.evalScript call (CommonJs.wrap code) path.display with
      | none =>
        endLoading path
        return .error (.compile path)
      | some wrapper =>
        protect wrapper
        match ← call wrapper exports (moduleArguments path exports require module) with
        | none =>
          abandon path wrapper
          return .error (.exception path)
        | some _ => .ok <$> complete path module wrapper : HostM (Except ModuleError Value)) := by
  simp only [loadScript, whileLoading, evaluateScript, callPinned, prepare, abandon, liftM, monadLift,
    MonadLift.monadLift, ExceptT.run_bind_lift, ExceptT.run_mk, bind_assoc, pure_bind]
  refine bind_congr fun exports => bind_congr fun module => bind_congr fun _ => bind_congr fun _ =>
    bind_congr fun require => bind_congr fun compiled => ?_
  cases compiled with
  | none => rfl
  | some wrapper =>
    simp only [ExceptT.run_bind_lift, bind_assoc, pure_bind]
    refine bind_congr fun _ => bind_congr fun result => ?_
    cases result <;> rfl

theorem runs_loadScript {d : Nat} (hc : h.CallsRun d) (path : Path) (code : String)
    (mode : ResolveMode) {module exports require : Value} {s t : HostState} (ws : List Waiting)
    (hp : (prepare path mode).run s = ((module, exports, require), t)) :
    h.Steps
      ⟨.evaluate d (CommonJs.wrap code) path.display,
        .compilation d path module exports require :: ws, t⟩
      ⟨.loaded ((h.loadScript (h.callWithin d) path code mode).run.run s).1, ws,
        ((h.loadScript (h.callWithin d) path code mode).run.run s).2⟩ := by
  refine (runs_evaluate hc _ _ _ _).trans ?_
  rw [loadScript_run]
  simp only [HostM.run_bind, hp]
  generalize (h.evalScript _ _ _).run t = r
  obtain ⟨compiled, u⟩ := r
  cases compiled with
  | none => exact .single .notCompiled
  | some wrapper =>
    refine .head .compiled ((hc _ _ _ _ _).trans ?_)
    simp only [HostM.run_bind]
    generalize (h.callWithin d wrapper exports _).run _ = r
    obtain ⟨result, v⟩ := r
    cases result with
    | none => exact .single .threw
    | some result => exact .single .completed

theorem runs_read {d : Nat} (hc : h.CallsRun d) (path : Path) (format : ModuleFormat) :
    h.Runs (.read d path format) .loaded (h.evaluate (h.callWithin d) path format).run := by
  intro ws s
  obtain ⟨source, hs⟩ := h.exists_readSource_run path s
  cases format with
  | json =>
    rw [evaluate, loadJson]
    cases source with
    | error error =>
      rw [Loading.run_bind_of_error hs]
      exact .single (.unreadable (fun hf => by cases hf) hs)
    | ok text =>
      rw [Loading.run_bind_of_ok hs, Loading.run_lift_bind]
      refine .head (.readJson hs) ((runs_evaluate hc _ _ _ s).trans ?_)
      generalize (h.evalScript _ _ _).run s = r
      obtain ⟨value, t⟩ := r
      cases value with
      | none => exact .single .jsonFailed
      | some value => exact .single .jsonCached
  | cjs =>
    rw [evaluate]
    cases source with
    | error error =>
      rw [Loading.run_bind_of_error hs]
      exact .single (.unreadable (fun hf => by cases hf) hs)
    | ok text =>
      rw [Loading.run_bind_of_ok hs]
      exact .head (.readScript hs rfl rfl) (runs_loadScript hc path text .require ws rfl)
  | esm =>
    rw [evaluate]
    split
    · next hn => exact .single (.requireEsm hn)
    · next hn =>
      have hn' : h.nativeEsm = false := by simpa using hn
      cases source with
      | error error =>
        rw [Loading.run_bind_of_error hs]
        exact .single (.unreadable (fun _ => hn') hs)
      | ok text =>
        rw [Loading.run_bind_of_ok hs]
        have hf : h.scriptOf .esm text = some (Transpile.transpile text, .import) := by
          simp [scriptOf, hn']
        exact .head (.readScript hs hf rfl) (runs_loadScript hc path _ .import ws rfl)

section

variable {call : CallFunction} {path : Path} {format : ModuleFormat} {s : HostState}

theorem load_of_cached {exports : Value} (hc : s.registry.cache.find? path = some exports) :
    (h.load call path format).run.run s = (.ok exports, s) := by
  rw [load, Loading.run_get_bind]
  simp only [hc]
  rfl

theorem load_of_loading {module : Value} (hc : s.registry.cache.find? path = none)
    (hm : s.registry.loading.find? path = some module) :
    (h.load call path format).run.run s =
      (.ok (s.heap.get module "exports"), ((report (.circular path)).run s).2) := by
  rw [load, Loading.run_get_bind]
  simp only [hc, hm]
  rfl

theorem load_of_new (hc : s.registry.cache.find? path = none)
    (hm : s.registry.loading.find? path = none) :
    (h.load call path format).run.run s = (h.evaluate call path format).run.run s := by
  rw [load, Loading.run_get_bind]
  simp only [hc, hm]

end

theorem runs_load {d : Nat} (hc : h.CallsRun d) (path : Path) (format : ModuleFormat) :
    h.Runs (.load d path format) .loaded (h.load (h.callWithin d) path format).run := by
  intro ws s
  cases hcache : s.registry.cache.find? path with
  | some exports =>
    rw [load_of_cached hcache]
    exact .single (.cached hcache)
  | none =>
    cases hload : s.registry.loading.find? path with
    | some module =>
      rw [load_of_loading hcache hload]
      exact .single (.circular hcache hload)
    | none =>
      rw [load_of_new hcache hload]
      exact (runs_read hc path format ws s).head (.new hcache hload)

theorem runs_require {d : Nat} (hc : h.CallsRun d) (request : Request) :
    h.Runs (.require d request) .loaded (h.requireWith (h.callWithin d) request).run := by
  intro ws s
  obtain ⟨answer, t, hr⟩ : ∃ answer t, (h.resolve request).run.run s = (answer, t) := ⟨_, _, rfl⟩
  rw [requireWith]
  cases answer with
  | error error =>
    rw [Loading.run_bind_of_error hr]
    exact .single (.unresolved hr)
  | ok resolved =>
    rw [Loading.run_bind_of_ok hr, Loading.run_lift_bind]
    exact (runs_load hc _ _ ws _).head (.resolved hr)

/-! ## Calls -/

theorem callWithin_succ (d : Nat) (f receiver : Value) (arguments : List Value) (s : HostState) :
    (h.callWithin (d + 1) f receiver arguments).run s =
      (match s.heap.kind? f with
        | some (.wrapper filename) => h.runWrapper (h.callWithin d) filename receiver arguments
        | some (.host function) => do
          unlessPending (← h.callHostFunction (h.callWithin d) function arguments)
        | _ => do
          throwException "TypeError: not a function"
          return none : HostM (Option Value)).run s := rfl

theorem callHostFunction_run (call : CallFunction) (function : HostFunction)
    (arguments : List Value) (s : HostState) :
    (h.callHostFunction call function arguments).run s =
      (if s.alive = true then
        match arguments.head?.bind Value.string? with
        | some text => h.applyFunction call text function
        | none => refuse (expectation function)
      else refuse "module system is no longer available" : HostM Value).run s := rfl

theorem runs_answer {task : Task} {load : Loading Value} (hl : h.Runs task .loaded load.run)
    (referrer : Path) (ws : List Waiting) (s : HostState) :
    h.Steps ⟨task, .hostFunction referrer :: ws, s⟩
      ⟨.returned ((answer referrer load >>= unlessPending).run s).1, ws,
        ((answer referrer load >>= unlessPending).run s).2⟩ :=
  (hl _ s).trans (.single .hostReturn)

theorem runs_call (d : Nat) : h.CallsRun d := by
  induction d with
  | zero => exact fun f receiver arguments ws s => .single .tooDeep
  | succ d ih =>
    intro f receiver arguments ws s
    rw [callWithin_succ]
    cases hk : s.heap.kind? f with
    | none => exact .single (.noFunction (.inl hk))
    | some kind =>
      cases kind with
      | plain => exact .single (.noFunction (.inr hk))
      | wrapper filename =>
        dsimp only
        rw [runWrapper, HostM.run_bind]
        cases hb : h.body? filename with
        | none => exact .single (.noBody hk hb)
        | some body =>
          refine .head (.wrapper hk hb) ((runs_script ih _ _ _).trans ?_)
          exact .single .body
      | host function =>
        dsimp only
        rw [HostM.run_bind, callHostFunction_run]
        cases ha : s.alive with
        | false => exact .single (.gone hk ha)
        | true =>
          cases ht : arguments.head?.bind Value.string? with
          | none => exact .single (.noText hk ha ht)
          | some text =>
            rw [if_pos rfl]
            cases function with
            | require referrer mode =>
              exact .head (.hostRequire hk ha ht) (runs_answer (runs_require ih _) referrer ws s)
            | resolve referrer mode => exact .head (.hostResolve hk ha ht) (.single .hostReturn)
            | requirePath =>
              exact .head (.hostRequirePath hk ha ht) (runs_answer (runs_load ih _ _) ⟨text⟩ ws _)

/-! ## Actions -/

theorem runs_enter (d : Nat) (path : Path) :
    h.Runs (.enter d path) (fun answer => .loaded (answer.map fun _ => .undefined))
      (h.enter (h.callWithin d) path).run := by
  intro ws s
  obtain ⟨source, hs⟩ := h.exists_readSource_run path s
  rw [enter]
  cases source with
  | error error =>
    rw [Loading.run_bind_of_error hs]
    exact .single (.entryUnreadable hs)
  | ok text =>
    rw [Loading.run_bind_of_ok hs, Loading.run_lift_bind, evalModule, HostM.run_bind]
    cases hm : h.module? path.display with
    | none => exact .single (.entryFailed hs hm)
    | some script =>
      refine .head (.entryRuns hs hm) ((runs_script (runs_call d) _ _ _).trans ?_)
      dsimp only
      rw [HostM.run_bind]
      generalize (script.run _).run _ = r
      obtain ⟨result, t⟩ := r
      cases result with
      | none => exact .single .entryThrew
      | some result => exact .single .entryRan

theorem exists_idle_perform (a : Action) (s : HostState) :
    ∃ c, h.Steps (h.start a s) c ∧ c.Idle ∧ c.state = ((h.perform a).run s).2 := by
  have hreturned : ∀ r t, (Moment.mk (.returned r) [] t).Idle := fun r t => ⟨rfl, .inl ⟨r, rfl⟩⟩
  have hloaded : ∀ r t, (Moment.mk (.loaded r) [] t).Idle := fun r t => ⟨rfl, .inr ⟨r, rfl⟩⟩
  cases a with
  | runScript script => exact ⟨_, runs_script (runs_call _) script [] s, hreturned _ _, rfl⟩
  | require specifier referrer =>
    exact ⟨_, runs_require (runs_call _) _ [] s, hloaded _ _, rfl⟩
  | loadEntry name =>
    obtain ⟨answer, t, hr⟩ : ∃ answer t,
        (h.resolve ⟨entrySpecifier name, none, .require⟩).run.run s = (answer, t) := ⟨_, _, rfl⟩
    have hp : ((h.perform (.loadEntry name)).run s).2 = ((h.loadEntry name).run.run s).2 := rfl
    rw [hp, loadEntry]
    cases answer with
    | error error =>
      rw [Loading.run_bind_of_error hr]
      exact ⟨_, .single (.entryUnresolved hr), hloaded _ _, rfl⟩
    | ok resolved =>
      rw [Loading.run_bind_of_ok hr, Loading.run_lift_bind]
      cases hn : (resolved.format = .esm && h.nativeEsm : Bool) with
      | false =>
        refine ⟨_, .head (.entryLoad hr hn) (runs_load (runs_call _) _ _ [] _), hloaded _ _, ?_⟩
        rw [if_neg (by simp), Loading.run_map]
        rfl
      | true =>
        refine ⟨_, .head (.entryEnter hr hn) (runs_enter _ resolved.path [] _), hloaded _ _, ?_⟩
        rw [if_pos rfl, Loading.run_map]
        rfl
  | _ => exact ⟨_, .refl, hreturned _ _, rfl⟩

/-! ## Sessions -/

theorem Later.of_steps {c c' : Moment} (hs : h.Steps c c') : h.Later c c' :=
  ReflTransGen.mono (fun _ _ => .step) _ _ hs

theorem Reaches.later {paths : List Path} {c c' : Moment} (hc : h.Reaches paths c)
    (hl : h.Later c c') : ∃ paths', h.Reaches paths' c' := by
  induction hl with
  | refl => exact ⟨paths, hc⟩
  | tail _ hn ih =>
    obtain ⟨paths', hc'⟩ := ih
    exact ⟨_, hc'.next hn⟩

/-- A session ends in an idle moment, with the state that its actions leave. -/
theorem Reaches.session {paths : List Path} {c : Moment} (hc : h.Reaches paths c) (hi : c.Idle)
    (actions : List Action) :
    ∃ paths' c', h.Reaches paths' c' ∧ c'.Idle ∧
      c'.state = ((h.session actions).run c.state).2 := by
  induction actions generalizing paths c with
  | nil => exact ⟨paths, c, hc, hi, rfl⟩
  | cons a rest ih =>
    obtain ⟨c', hs, hi', he⟩ := exists_idle_perform (h := h) a c.state
    obtain ⟨_, hc'⟩ := (hc.next (.action hi a)).later (.of_steps hs)
    obtain ⟨paths'', c'', hc'', hi'', he'⟩ := ih hc' hi'
    refine ⟨paths'', c'', hc'', hi'', ?_⟩
    rw [he', he]
    rfl

theorem exists_reaches_session (h : Host) (actions : List Action) :
    ∃ paths c, h.Reaches paths c ∧ c.Idle ∧
      c.state = ((h.session actions).run HostState.initial).2 :=
  Reaches.initial.session ⟨rfl, .inl ⟨none, rfl⟩⟩ actions

/-- A host with one file, whose body does nothing. -/
def single : Host where
  resolver := .ofSource (Bundle.ofEntries [("a.cjs", "".toUTF8)]).toSource ⟨""⟩ ⟨"/"⟩
  typeScript := .absent
  nativeEsm := false
  body? _ := some fun _ => .done .undefined
  module? _ := none
  callDepth := 2

/-- The body of the file returns after a script has loaded it by its path. -/
theorem exists_reaches_single : ∃ paths s, single.Reaches paths ⟨.returned (some .undefined),
    [.evaluation ⟨"a.cjs"⟩ (.object 3) (.object 6), .hostFunction ⟨"a.cjs"⟩, .script 2 .done none],
    s⟩ := by
  have hinstalled : single.Reaches _ _ :=
    .next .initial (.action ⟨rfl, .inl ⟨_, rfl⟩⟩ .installGlobals)
  have hscript : single.Reaches _ _ := .next hinstalled
    (.action ⟨rfl, .inl ⟨_, rfl⟩⟩ (.runScript (.call (.object 1) [.string "a.cjs"] .done)))
  have hcall : single.Reaches _ _ := .next hscript (.step .call)
  have hload : single.Reaches _ _ := .next hcall (.step (.hostRequirePath rfl rfl rfl))
  have hread : single.Reaches _ _ := .next hload (.step (.new rfl rfl))
  have hr : ∀ s, (single.readSource ⟨"a.cjs"⟩).run.run s = (.ok "", s) := fun _ => rfl
  have hevaluate : single.Reaches _ _ :=
    .next hread (.step (.readScript (hr _) rfl rfl))
  have haround : single.Reaches _ _ :=
    .next hevaluate (.step (.runAround (by decide +kernel) rfl))
  have hfunction : single.Reaches _ _ := .next (.next haround (.step .done)) (.step .aroundRan)
  have hbody : single.Reaches _ _ :=
    .next (.next hfunction (.step .compiled)) (.step (.wrapper rfl rfl))
  exact ⟨_, _, .next (.next hbody (.step .done)) (.step .body)⟩

end Host

end ModuleLoader
