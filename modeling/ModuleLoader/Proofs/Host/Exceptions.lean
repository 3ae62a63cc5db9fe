import ModuleLoader.Proofs.Host.Atomicity

/-! Failures become exceptions. An exception is pending exactly where something answers that it
threw, and what passes a failure on leaves it as it is, so the innermost failure is the one that is
pending in the end. -/

namespace ModuleLoader

namespace Task

/-- Whether a task tells that an exception has been thrown. -/
def throws : Task → Bool
  | .returned result => result.isNone
  | .loaded (.error e) => e.isPending
  | _ => false

end Task

namespace Moment

/-- Whether an exception is pending exactly if the task tells so. An entry that the engine evaluates
itself may fail without one. -/
def Faithful (c : Moment) : Prop :=
  (∀ path, c.task ≠ .loaded (.error (.entry path))) → c.state.pending.isSome = c.task.throws

end Moment

namespace Host

open HostM

variable {h : Host} {c c' : Moment} {path : Path} {e : ModuleError} {s t : HostState}

/-! ## Operations -/

section

variable (s : HostState)

theorem pending_evalJson (text : String) (hs : s.pending = none) :
    ((evalJson text).run s).2.pending.isSome = ((evalJson text).run s).1.isNone := by
  unfold evalJson
  cases Json.parse text with
  | error error => rfl
  | ok json => exact congrArg Option.isSome hs

theorem pending_bodyFunction (filename : String) (v : Value) :
    ((bodyFunction filename v).run s).2.pending = s.pending := by
  obtain ⟨heap, hv⟩ := bodyFunction_state s filename v
  rw [hv]

theorem pending_cacheExports (path : Path) (v : Value) :
    ((cacheExports path v).run s).2.pending = s.pending := by
  obtain ⟨pins, hc⟩ := cacheExports_state path s v
  rw [hc]

theorem pending_endLoading (path : Path) : ((endLoading path).run s).2.pending = s.pending := by
  obtain ⟨pins, he⟩ := endLoading_state path s
  rw [he]

theorem pending_complete (path : Path) (module wrapper : Value) :
    ((complete path module wrapper).run s).2.pending = s.pending := by
  obtain ⟨pins, log, hc⟩ := complete_state path s module wrapper
  rw [hc]

theorem pending_prepare {path : Path} {mode : ResolveMode} {module exports require : Value}
    {t : HostState} (hp : (prepare path mode).run s = ((module, exports, require), t)) :
    t.pending = s.pending := by
  obtain ⟨heap, rfl⟩ := prepare_state path s hp
  rfl

theorem pending_of_resolve {request : Request} {s t : HostState}
    {answer : Except ModuleError ResolvedModule}
    (hr : (h.resolve request).run.run s = (answer, t)) : t.pending = s.pending := by
  rw [resolve_state hr]

theorem pending_resolveDisplay (request : Request) :
    ((h.resolveDisplay request).run.run s).2.pending = s.pending := by
  rw [resolveDisplay_state]
  exact pending_of_resolve rfl

theorem pending_unlessPending (v : Value) :
    ((unlessPending v).run s).2.pending.isSome = ((unlessPending v).run s).1.isNone := by
  have hr : (unlessPending v).run s = (if s.pending.isSome then none else some v, s) := rfl
  rw [hr]
  cases s.pending <;> rfl

end

/-! ## Steps -/

theorem throws_resolveDisplay (request : Request) (s : HostState) :
    (Task.loaded ((h.resolveDisplay request).run.run s).1).throws = false := by
  obtain ⟨answer, t, hr⟩ : ∃ answer t, (h.resolveDisplay request).run.run s = (answer, t) :=
    ⟨_, _, rfl⟩
  rw [hr]
  cases answer with
  | ok v => rfl
  | error e => exact resolveDisplay_error hr

/-- An exception stays pending until it is caught. -/
theorem Step.faithful (hs : h.Step c c') (hc : c.Faithful) : c'.Faithful := by
  intro hentry
  have keep (hl : ∀ path, c.task ≠ .loaded (.error (.entry path)))
      (hp : c'.state.pending = c.state.pending) (ht : c'.task.throws = c.task.throws) :
      c'.state.pending.isSome = c'.task.throws := by
    rw [hp, ht]
    exact hc hl
  have quiet (hl : ∀ path, c.task ≠ .loaded (.error (.entry path))) (ht : c.task.throws = false) :
      c.state.pending = none := by
    have hp := hc hl
    rwa [ht, Option.isSome_eq_false_iff, Option.isNone_iff_eq_none] at hp
  cases hs
  -- Something is thrown, caught, or answered as the pending exception tells.
  case throw | tooDeep | noFunction | gone | noText | evalFailed | caught => rfl
  case hostReturn => exact pending_unlessPending _ _
  case parse hj hb => exact pending_evalJson _ _ (quiet nofun rfl)
  case jsonRan => exact pending_evalJson _ _ (quiet nofun rfl)
  -- All else leaves the exception that is pending, if any.
  case body result _ _ =>
    refine keep nofun rfl ?_
    cases result <;> rfl
  case hostResolve =>
    exact keep nofun (pending_resolveDisplay _ _) (throws_resolveDisplay _ _)
  case resolved hr =>
    have hp := pending_of_resolve hr
    exact keep nofun hp rfl
  case unresolved hr => exact keep nofun (pending_of_resolve hr) (resolve_error hr)
  case entryUnresolved hr => exact keep nofun (pending_of_resolve hr) (resolve_error hr)
  case entryLoad hr _ =>
    have hp := pending_of_resolve hr
    exact keep nofun hp rfl
  case entryEnter hr _ =>
    have hp := pending_of_resolve hr
    exact keep nofun hp rfl
  case unreadable hr => exact keep nofun rfl (readSource_error hr).1
  case entryUnreadable hr => exact keep nofun rfl (readSource_error hr).1
  case readScript hp => exact keep nofun (pending_prepare _ hp) rfl
  case aroundRan => exact keep nofun (pending_bodyFunction _ _ _) rfl
  case jsonCached => exact keep nofun (pending_cacheExports _ _ _) rfl
  case notCompiled => exact keep nofun (pending_endLoading _ _) rfl
  case threw => exact keep nofun (pending_endLoading _ _) rfl
  case completed => exact keep nofun (pending_complete _ _ _ _) rfl
  case entryFailed => exact absurd rfl (hentry _)
  case entryThrew => exact absurd rfl (hentry _)
  all_goals exact keep nofun rfl rfl

theorem faithful_of_quiet {task : Task} (hs : s.pending = none) (ht : task.throws = false)
    (ws : List Waiting) : Moment.Faithful ⟨task, ws, s⟩ := by
  intro _
  rw [hs, ht]
  rfl

theorem Steps.faithful (hs : h.Steps c c') (hc : c.Faithful) : c'.Faithful := by
  induction hs with
  | refl => exact hc
  | tail _ hs ih => exact hs.faithful ih

/-! ## Functions of the host -/

/-- What a function of the host loads for its text. -/
def functionLoad (h : Host) (call : CallFunction) (text : String) : HostFunction → Loading Value
  | .require referrer mode => h.requireWith call ⟨text, some referrer, mode⟩
  | .resolve referrer mode => h.resolveDisplay ⟨text, some referrer, mode⟩
  | .requirePath => do
    let format ← ExceptT.lift (withPackages (h.resolver.detectFormat ⟨text⟩))
    h.load call ⟨text⟩ format

def functionReferrer (text : String) : HostFunction → Path
  | .require referrer _ => referrer
  | .resolve referrer _ => referrer
  | .requirePath => ⟨text⟩

theorem applyFunction_eq (h : Host) (call : CallFunction) (text : String)
    (function : HostFunction) : h.applyFunction call text function =
      answer (functionReferrer text function) (h.functionLoad call text function) := by
  cases function <;> rfl

/-- A load that fails in a script leaves an exception only if it evaluated something. -/
theorem functionLoad_error {d : Nat} {text : String} {function : HostFunction}
    (hs : s.pending = none)
    (hr : (h.functionLoad (h.callWithin d) text function).run.run s = (.error e, t)) :
    e.isPending = false ∨
      (∃ path, e = .compile path ∨ e = .exception path) ∧ t.pending.isSome = true := by
  have key {task : Task} {u : HostState} (hu : u.pending = none) (ht : task.throws = false)
      (hsteps : h.Steps ⟨task, [], u⟩ ⟨.loaded (.error e), [], t⟩)
      (he : e.isPending = false ∨ ∃ path, e = .compile path ∨ e = .exception path) :
      e.isPending = false ∨
        (∃ path, e = .compile path ∨ e = .exception path) ∧ t.pending.isSome = true := by
    have hf := hsteps.faithful (faithful_of_quiet hu ht [])
    rcases he with he | ⟨path, rfl | rfl⟩
    · exact .inl he
    · exact .inr ⟨⟨path, .inl rfl⟩, hf nofun⟩
    · exact .inr ⟨⟨path, .inr rfl⟩, hf nofun⟩
  cases function with
  | require referrer mode =>
    have hsteps : h.Steps _ _ := runs_require (runs_call d) ⟨text, some referrer, mode⟩ [] s
    have hr' : (h.requireWith (h.callWithin d) ⟨text, some referrer, mode⟩).run.run s =
      (.error e, t) := hr
    rw [hr'] at hsteps
    refine key hs rfl hsteps ?_
    rcases requireWith_error hr' with ⟨he, -⟩ | ⟨resolved, -, -, he⟩
    · exact .inl he
    · exact .inr ⟨resolved.path, he⟩
  | resolve referrer mode => exact .inl (resolveDisplay_error hr)
  | requirePath =>
    obtain ⟨format, u, hu, hload⟩ : ∃ format u, u.pending = none ∧
        (h.load (h.callWithin d) ⟨text⟩ format).run.run u = (.error e, t) := ⟨_, _, hs, hr⟩
    refine key hu rfl (steps_of_load hload []) ?_
    rcases (load_error hload).2.2 with ⟨he, -⟩ | he
    · exact .inl he
    · exact .inr ⟨⟨text⟩, he⟩

theorem fail_run (referrer : Path) (e : ModuleError) (s : HostState) :
    ((fail referrer e).run s).1 = .undefined ∧ ((fail referrer e).run s).2.pending =
      if e.isPending = true then s.pending else some e.message := by
  unfold fail
  cases e.isPending <;> exact ⟨rfl, rfl⟩

/-- A function whose load fails answers undefined and leaves an exception. -/
theorem callHostFunction_failed {d : Nat} {text : String} {function : HostFunction}
    {arguments : List Value} (hs : s.pending = none) (ha : s.alive = true)
    (ht : arguments.head?.bind Value.string? = some text)
    (hr : (h.functionLoad (h.callWithin d) text function).run.run s = (.error e, t)) :
    ∃ u message, (h.callHostFunction (h.callWithin d) function arguments).run s = (.undefined, u) ∧
      u.pending = some message ∧
      (e.isPending = false ∧ message = e.message ∨
        (∃ path, e = .compile path ∨ e = .exception path) ∧ t.pending = some message) := by
  have hrun : (h.callHostFunction (h.callWithin d) function arguments).run s =
      (fail (functionReferrer text function) e).run t := by
    rw [callHostFunction_run, if_pos ha, ht]
    dsimp only
    rw [applyFunction_eq, answer, HostM.run_bind, hr]
  obtain ⟨hvalue, hpending⟩ := fail_run (functionReferrer text function) e t
  rw [hrun]
  generalize (fail (functionReferrer text function) e).run t = r at hvalue hpending ⊢
  obtain ⟨v, u⟩ := r
  obtain rfl : v = .undefined := hvalue
  rcases functionLoad_error hs hr with he | ⟨hcause, hsome⟩
  · rw [he] at hpending
    exact ⟨u, e.message, rfl, hpending, .inl ⟨he, rfl⟩⟩
  · obtain ⟨message, hmessage⟩ := Option.isSome_iff_exists.mp hsome
    have he : e.isPending = true := by
      obtain ⟨path, rfl | rfl⟩ := hcause <;> rfl
    rw [he, if_pos rfl, hmessage] at hpending
    exact ⟨u, message, rfl, hpending, .inr ⟨hcause, hmessage⟩⟩

/-! ## Chains -/

/-- Frames that hand a failure on to a caller from outside: bodies that do not catch, evaluations,
and the `require` calls that wait for them. The path is that of the outermost evaluation. -/
inductive Uncaught : List Waiting → Path → Prop where
  | outermost {path module wrapper} : Uncaught [.evaluation path module wrapper] path
  | nested {path module wrapper referrer ws outer} (hw : Uncaught ws outer) :
    Uncaught (.evaluation path module wrapper :: .hostFunction referrer :: ws) outer
  | body {ws outer} (hw : Uncaught ws outer) : Uncaught (.body :: ws) outer
  | script {d next ws outer} (hw : Uncaught ws outer) : Uncaught (.script d next none :: ws) outer

/-- A failure with its message, and the frames that it is handed on to. -/
inductive Fails (message : String) : Moment → List Waiting → Prop where
  | thrown {ws s} (hp : s.pending = some message) : Fails message ⟨.returned none, ws, s⟩ ws
  | unloaded {e referrer ws s} (he : e.isPending = false) (hm : message = e.message) :
    Fails message ⟨.loaded (.error e), .hostFunction referrer :: ws, s⟩ ws
  | evaluated {e referrer ws s} (he : e.isPending = true) (hp : s.pending = some message) :
    Fails message ⟨.loaded (.error e), .hostFunction referrer :: ws, s⟩ ws

variable {ws : List Waiting} {outer : Path} {message : String}

theorem returnAnswer_error (referrer : Path)
    (hp : (if e.isPending = true then s.pending else some e.message) = some message) :
    ((returnAnswer referrer (.error e)).run s).1 = none ∧
      ((returnAnswer referrer (.error e)).run s).2.pending = some message := by
  have hr : (returnAnswer referrer (.error e)).run s =
      (fail referrer e >>= unlessPending).run s := rfl
  have hf := (fail_run referrer e s).2
  rw [hp] at hf
  rw [hr, HostM.run_bind]
  generalize (fail referrer e).run s = r at hf ⊢
  obtain ⟨v, u⟩ := r
  have hu : u.pending = some message := hf
  have hr : (unlessPending v).run u = (if u.pending.isSome then none else some v, u) := rfl
  rw [hr, hu]
  exact ⟨rfl, rfl⟩

theorem Uncaught.steps (hw : Uncaught ws outer) (hp : s.pending = some message) :
    ∃ u, h.Steps ⟨.returned none, ws, s⟩ ⟨.loaded (.error (.exception outer)), [], u⟩ ∧
      u.pending = some message := by
  induction hw generalizing s with
  | @outermost path module wrapper =>
    exact ⟨_, .single .threw, (pending_endLoading _ path).trans hp⟩
  | @nested path module wrapper referrer ws outer _ ih =>
    have hthrew : ((abandon path wrapper).run s).2.pending = some message :=
      (pending_endLoading _ path).trans hp
    obtain ⟨hnone, hkept⟩ := returnAnswer_error (e := .exception path) referrer hthrew
    obtain ⟨u, hs, hu⟩ := ih hkept
    refine ⟨u, .head .threw (.head .hostReturn ?_), hu⟩
    rw [hnone]
    exact hs
  | body _ ih =>
    obtain ⟨u, hs, hu⟩ := ih hp
    exact ⟨u, .head .body hs, hu⟩
  | script _ ih =>
    obtain ⟨u, hs, hu⟩ := ih hp
    exact ⟨u, .head .uncaught hs, hu⟩

theorem Fails.steps (hf : Fails message c ws) (hw : Uncaught ws outer) :
    ∃ u, h.Steps c ⟨.loaded (.error (.exception outer)), [], u⟩ ∧ u.pending = some message := by
  have unloaded {e referrer s}
      (hp : (if e.isPending = true then s.pending else some e.message) = some message) :
      ∃ u, h.Steps ⟨.loaded (.error e), .hostFunction referrer :: ws, s⟩
        ⟨.loaded (.error (.exception outer)), [], u⟩ ∧ u.pending = some message := by
    obtain ⟨hnone, hkept⟩ := returnAnswer_error referrer hp
    obtain ⟨u, hs, hu⟩ := hw.steps hkept
    refine ⟨u, .head .hostReturn ?_, hu⟩
    rw [hnone]
    exact hs
  cases hf with
  | thrown hp => exact hw.steps hp
  | unloaded he hm =>
    refine unloaded ?_
    rw [he, hm]
    rfl
  | evaluated he hp =>
    refine unloaded ?_
    rw [he, if_pos rfl, hp]

theorem Steps.exists_fails {d : Nat} {request : Request} {referrer : Path}
    (hs : h.Steps c ⟨.require d request, .hostFunction referrer :: ws, s⟩)
    (hr : ((h.requireWith (h.callWithin d) request).run.run s).1 = .error e)
    (he : e.isPending = true)
    (hp : ((h.requireWith (h.callWithin d) request).run.run s).2.pending = some message) :
    ∃ c', h.Steps c c' ∧ Fails message c' ws := by
  have hrun : h.Steps _ _ := hs.trans (runs_require (runs_call d) request _ s)
  rw [hr] at hrun
  exact ⟨_, hrun, .evaluated he hp⟩

/-- The second file of the chain fails inside of the first, which does not catch the failure. -/
theorem exists_steps_chain : ∃ ws c,
    chain.Steps (chain.start (.require "./a.cjs" none) HostState.initial) c ∧
      Fails "boom" c ws ∧ Uncaught ws ⟨"a.cjs"⟩ := by
  have hload : chain.Steps (chain.start (.require "./a.cjs" none) HostState.initial) _ :=
    .single (.resolved resolve_chain)
  have hr : ∀ s, (chain.readSource ⟨"a.cjs"⟩).run.run s = (.ok "", s) := fun _ => rfl
  have hread : chain.Steps _ _ := (hload.tail (.new rfl rfl)).tail (.readScript (hr _) rfl rfl)
  have haround : chain.Steps _ _ := hread.tail (.runAround (by decide +kernel) rfl)
  have hfunction : chain.Steps _ _ := (haround.tail .done).tail .aroundRan
  have hbody : chain.Steps _ _ := (hfunction.tail .compiled).tail (.wrapper rfl rfl)
  have hrequire : chain.Steps _ _ := (hbody.tail .call).tail (.hostRequire rfl rfl rfl)
  obtain ⟨c, hs, hf⟩ := hrequire.exists_fails
    (by decide +kernel : _ = Except.error (ModuleError.exception ⟨"b.cjs"⟩)) rfl
    (by decide +kernel : _ = some "boom")
  exact ⟨_, c, hs, hf, .script (.body .outermost)⟩

/-- No failure is lost. In a run that begins with nothing pending, an exception is pending exactly
where a task tells of one. A function of the host whose load fails, or that is called in vain, answers
undefined with an exception pending: that which an evaluation left, and otherwise the message of the
error. A failure that no body catches makes the `require` that began it all fail with the exception
of the outermost file, and what is pending then is the message of the innermost failure. -/
theorem innermost_failure_pending (h : Host) :
    (∀ task ws s c, s.pending = none → task.throws = false → h.Steps ⟨task, ws, s⟩ c → c.Faithful) ∧
    (∀ d function text arguments s e t, s.pending = none → s.alive = true →
      arguments.head?.bind Value.string? = some text →
      (h.functionLoad (h.callWithin d) text function).run.run s = (.error e, t) →
      ∃ u message,
        (h.callHostFunction (h.callWithin d) function arguments).run s = (.undefined, u) ∧
        u.pending = some message ∧
        (e.isPending = false ∧ message = e.message ∨
          (∃ path, e = .compile path ∨ e = .exception path) ∧ t.pending = some message)) ∧
    (∀ d function arguments s,
      s.alive = false ∨ arguments.head?.bind Value.string? = none →
      ∃ u message,
        (h.callHostFunction (h.callWithin d) function arguments).run s = (.undefined, u) ∧
        u.pending = some message) ∧
    ∀ specifier referrer s c ws outer message,
      h.Steps (h.start (.require specifier referrer) s) c → Fails message c ws → Uncaught ws outer →
      (∃ resolved t, (h.resolve ⟨specifier, referrer, .require⟩).run.run s = (.ok resolved, t) ∧
        resolved.path = outer) ∧
      ∃ u, (h.require specifier referrer).run.run s = (.error (.exception outer), u) ∧
        (ModuleError.exception outer).isPending = true ∧ u.pending = some message := by
  refine ⟨fun task ws s c hs ht hsteps => hsteps.faithful (faithful_of_quiet hs ht ws),
    fun d function text arguments s e t => callHostFunction_failed,
    fun d function arguments s hrefused => ?_,
    fun specifier referrer s c ws outer message hsteps hf hw => ?_⟩
  · rw [callHostFunction_run]
    cases ha : s.alive with
    | false => exact ⟨_, _, rfl, rfl⟩
    | true =>
      have hnone := hrefused.resolve_left (by rw [ha]; nofun)
      rw [if_pos rfl, hnone]
      exact ⟨_, _, rfl, rfl⟩
  · obtain ⟨u, hfailed, hu⟩ := hf.steps (h := h) hw
    have hrun : h.Steps (h.start (.require specifier referrer) s) _ :=
      runs_require (runs_call h.callDepth) ⟨specifier, referrer, .require⟩ [] s
    have hanswer : (h.require specifier referrer).run.run s = (.error (.exception outer), u) :=
      hrun.unique_loaded (hsteps.trans hfailed)
    refine ⟨?_, u, hanswer, rfl, hu⟩
    rcases requireWith_error hanswer with ⟨he, -⟩ | ⟨resolved, t, hr, he | he⟩
    · cases he
    · cases he
    · cases he
      exact ⟨resolved, t, hr, rfl⟩

/-- A `require` of a missing file leaves the message of its error. What the second file throws is
pending when the first one has failed. -/
theorem innermost_failure_pending_chain :
    (∃ u message, (chain.callHostFunction (chain.callWithin 9) (.require ⟨"a.cjs"⟩ .require)
        [.string "./d.cjs"]).run HostState.initial = (.undefined, u) ∧ u.pending = some message) ∧
    ∃ u, (chain.require "./a.cjs" none).run.run HostState.initial =
      (.error (.exception ⟨"a.cjs"⟩), u) ∧ u.pending = some "boom" := by
  constructor
  · have hmissing : (chain.functionLoad (chain.callWithin 9) "./d.cjs"
        (.require ⟨"a.cjs"⟩ .require)).run.run HostState.initial =
          (.error (.resolve (.moduleNotFound "./d.cjs" "")), _) :=
      Prod.fst_eq_iff.mp (by decide +kernel)
    obtain ⟨u, message, hr, hu, -⟩ := (innermost_failure_pending chain).2.1 9
      (.require ⟨"a.cjs"⟩ .require) "./d.cjs" [.string "./d.cjs"] _ _ _ rfl rfl rfl hmissing
    exact ⟨u, message, hr, hu⟩
  · obtain ⟨ws, c, hs, hf, hw⟩ := exists_steps_chain
    obtain ⟨-, u, hr, -, hu⟩ := (innermost_failure_pending chain).2.2.2 _ _ _ c ws _ _ hs hf hw
    exact ⟨u, hr, hu⟩

end Host

end ModuleLoader
