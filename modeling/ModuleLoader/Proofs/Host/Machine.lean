import Mathlib.Logic.Relation
import ModuleLoader.Host.Call

/-! The host step by step. Between two steps stands one moment of a run: what is done next, what
waits for its result, and the state that a script sees. -/

namespace ModuleLoader

open HostM

/-- What is done next. The depth is the number of levels that calls may still be nested. -/
inductive Task where
  | script (depth : Nat) (script : Script)
  | call (depth : Nat) (function receiver : Value) (arguments : List Value)
  | entry (depth : Nat) (name : String)
  | require (depth : Nat) (request : Request)
  | load (depth : Nat) (path : Path) (format : ModuleFormat)
  | read (depth : Nat) (path : Path) (format : ModuleFormat)
  | enter (depth : Nat) (path : Path)
  | evaluate (depth : Nat) (code filename : String)
  | returned (result : Option Value)
  | loaded (answer : Except ModuleError Value)

inductive Waiting where
  | script (depth : Nat) (next : Value → Script) (caught : Option (String → Script))
  | body
  | hostFunction (referrer : Path)
  | json (path : Path)
  | jsonText (text : String)
  | around (filename : String)
  | compilation (depth : Nat) (path : Path) (module exports require : Value)
  | evaluation (path : Path) (module wrapper : Value)
  | entry (path : Path)

structure Moment where
  task : Task
  waiting : List Waiting
  state : HostState

namespace Host

variable (h : Host)

/-- The code that a script file of a format is compiled from, and the mode of its `require`. -/
def scriptOf : ModuleFormat → String → Option (String × ResolveMode)
  | .json, _ => none
  | .cjs, text => some (text, .require)
  | .esm, text => if h.nativeEsm then none else some (Transpile.transpile text, .import)

def prepare (path : Path) (mode : ResolveMode) : HostM (Value × Value × Value) := do
  let exports ← allocateWith .plain []
  let module ← makeModule path exports
  protect module
  updateRegistry (·.beginLoading path module)
  let require ← makeRequire path mode
  return (module, exports, require)

def startEvaluation (code filename : String) : HostM Nat := do
  HostM.record (.evaluated filename code)
  countRun filename

def abandon (path : Path) (wrapper : Value) : HostM Unit := do
  release wrapper
  endLoading path

def complete (path : Path) (module wrapper : Value) : HostM Value := do
  release wrapper
  let exports ← getProperty module "exports"
  setProperty module "loaded" (.bool true)
  cacheExports path exports
  report (.completed path)
  endLoading path
  return exports

def returnAnswer (referrer : Path) (loaded : Except ModuleError Value) : HostM (Option Value) := do
  unlessPending (← answer referrer (ExceptT.mk (pure loaded)))

inductive Step : Moment → Moment → Prop where
  -- Scripts
  | done {d v ws s} : Step ⟨.script d (.done v), ws, s⟩ ⟨.returned (some v), ws, s⟩
  | throw {d message ws s} :
    Step ⟨.script d (.throw message), ws, s⟩
      ⟨.returned none, ws, ((throwException message).run s).2⟩
  | look {d next ws s} : Step ⟨.script d (.look next), ws, s⟩ ⟨.script d (next s), ws, s⟩
  | allocate {d next ws s} :
    Step ⟨.script d (.allocate next), ws, s⟩
      ⟨.script d (next ((allocateWith .plain []).run s).1), ws, ((allocateWith .plain []).run s).2⟩
  | set {d object name value next ws s} :
    Step ⟨.script d (.set object name value next), ws, s⟩
      ⟨.script d next, ws, ((setProperty object name value).run s).2⟩
  | save {d name value next ws s} :
    Step ⟨.script d (.save name value next), ws, s⟩
      ⟨.script d next, ws, ((HostM.save name value).run s).2⟩
  | record {d event next ws s} :
    Step ⟨.script d (.record event next), ws, s⟩
      ⟨.script d next, ws, ((HostM.record event).run s).2⟩
  | call {d f arguments next ws s} :
    Step ⟨.script d (.call f arguments next), ws, s⟩
      ⟨.call d f .undefined arguments, .script d next none :: ws, s⟩
  | attempt {d f arguments next caught ws s} :
    Step ⟨.script d (.attempt f arguments next caught), ws, s⟩
      ⟨.call d f .undefined arguments, .script d next (some caught) :: ws, s⟩
  | resume {d next caught v ws s} :
    Step ⟨.returned (some v), .script d next caught :: ws, s⟩ ⟨.script d (next v), ws, s⟩
  | uncaught {d next ws s} :
    Step ⟨.returned none, .script d next none :: ws, s⟩ ⟨.returned none, ws, s⟩
  | caught {d next caught ws s} :
    Step ⟨.returned none, .script d next (some caught) :: ws, s⟩
      ⟨.script d (caught (catchException.run s).1), ws, (catchException.run s).2⟩
  -- Calls
  | tooDeep {f receiver arguments ws s} :
    Step ⟨.call 0 f receiver arguments, ws, s⟩
      ⟨.returned none, ws, ((throwException "RangeError: call depth exceeded").run s).2⟩
  | noFunction {d f receiver arguments ws s}
    (hk : s.heap.kind? f = none ∨ s.heap.kind? f = some .plain) :
    Step ⟨.call (d + 1) f receiver arguments, ws, s⟩
      ⟨.returned none, ws, ((throwException "TypeError: not a function").run s).2⟩
  | noBody {d f receiver arguments filename ws s}
    (hk : s.heap.kind? f = some (.wrapper filename)) (hb : h.body? filename = none) :
    Step ⟨.call (d + 1) f receiver arguments, ws, s⟩
      ⟨.returned (some .undefined), ws,
        ((startBody filename receiver arguments).run s).2⟩
  | wrapper {d f receiver arguments filename body ws s}
    (hk : s.heap.kind? f = some (.wrapper filename)) (hb : h.body? filename = some body) :
    Step ⟨.call (d + 1) f receiver arguments, ws, s⟩
      ⟨.script d (body ⟨arguments, ((startBody filename receiver arguments).run s).1⟩), .body :: ws,
        ((startBody filename receiver arguments).run s).2⟩
  | body {result ws s} :
    Step ⟨.returned result, .body :: ws, s⟩ ⟨.returned (result.map fun _ => .undefined), ws, s⟩
  -- Functions of the host
  | gone {d f receiver arguments function ws s}
    (hk : s.heap.kind? f = some (.host function)) (ha : s.alive = false) :
    Step ⟨.call (d + 1) f receiver arguments, ws, s⟩
      ⟨.returned none, ws, ((refuse "module system is no longer available").run s).2⟩
  | noText {d f receiver arguments function ws s}
    (hk : s.heap.kind? f = some (.host function)) (ha : s.alive = true)
    (ht : arguments.head?.bind Value.string? = none) :
    Step ⟨.call (d + 1) f receiver arguments, ws, s⟩
      ⟨.returned none, ws, ((refuse (expectation function)).run s).2⟩
  | hostRequire {d f receiver arguments referrer mode text ws s}
    (hk : s.heap.kind? f = some (.host (.require referrer mode))) (ha : s.alive = true)
    (ht : arguments.head?.bind Value.string? = some text) :
    Step ⟨.call (d + 1) f receiver arguments, ws, s⟩
      ⟨.require d ⟨text, some referrer, mode⟩, .hostFunction referrer :: ws, s⟩
  | hostResolve {d f receiver arguments referrer mode text ws s}
    (hk : s.heap.kind? f = some (.host (.resolve referrer mode))) (ha : s.alive = true)
    (ht : arguments.head?.bind Value.string? = some text) :
    Step ⟨.call (d + 1) f receiver arguments, ws, s⟩
      ⟨.loaded ((h.resolveDisplay ⟨text, some referrer, mode⟩).run.run s).1,
        .hostFunction referrer :: ws,
        ((h.resolveDisplay ⟨text, some referrer, mode⟩).run.run s).2⟩
  | hostRequirePath {d f receiver arguments text ws s}
    (hk : s.heap.kind? f = some (.host .requirePath)) (ha : s.alive = true)
    (ht : arguments.head?.bind Value.string? = some text) :
    Step ⟨.call (d + 1) f receiver arguments, ws, s⟩
      ⟨.load d ⟨text⟩ ((withPackages (h.resolver.detectFormat ⟨text⟩)).run s).1,
        .hostFunction ⟨text⟩ :: ws, ((withPackages (h.resolver.detectFormat ⟨text⟩)).run s).2⟩
  | hostReturn {answer referrer ws s} :
    Step ⟨.loaded answer, .hostFunction referrer :: ws, s⟩
      ⟨.returned ((returnAnswer referrer answer).run s).1, ws,
        ((returnAnswer referrer answer).run s).2⟩
  -- Requests
  | resolved {d request resolved ws s t} (hr : (h.resolve request).run.run s = (.ok resolved, t)) :
    Step ⟨.require d request, ws, s⟩
      ⟨.load d resolved.path resolved.format, ws,
        ((report (.require request.specifier request.mode resolved.path)).run t).2⟩
  | unresolved {d request error ws s t} (hr : (h.resolve request).run.run s = (.error error, t)) :
    Step ⟨.require d request, ws, s⟩ ⟨.loaded (.error error), ws, t⟩
  | entryUnresolved {d name error ws s t}
    (hr : (h.resolve ⟨entrySpecifier name, none, .require⟩).run.run s = (.error error, t)) :
    Step ⟨.entry d name, ws, s⟩ ⟨.loaded (.error error), ws, t⟩
  | entryLoad {d name resolved ws s t}
    (hr : (h.resolve ⟨entrySpecifier name, none, .require⟩).run.run s = (.ok resolved, t))
    (hn : (resolved.format = .esm && h.nativeEsm) = false) :
    Step ⟨.entry d name, ws, s⟩
      ⟨.load d resolved.path resolved.format, ws,
        ((report (.entry name resolved.path resolved.format)).run t).2⟩
  | entryEnter {d name resolved ws s t}
    (hr : (h.resolve ⟨entrySpecifier name, none, .require⟩).run.run s = (.ok resolved, t))
    (hn : (resolved.format = .esm && h.nativeEsm) = true) :
    Step ⟨.entry d name, ws, s⟩
      ⟨.enter d resolved.path, ws, ((report (.entry name resolved.path resolved.format)).run t).2⟩
  -- Loads
  | cached {d path format exports ws s} (hc : s.registry.cache.find? path = some exports) :
    Step ⟨.load d path format, ws, s⟩ ⟨.loaded (.ok exports), ws, s⟩
  | circular {d path format module ws s} (hc : s.registry.cache.find? path = none)
    (hl : s.registry.loading.find? path = some module) :
    Step ⟨.load d path format, ws, s⟩
      ⟨.loaded (.ok (s.heap.get module "exports")), ws, ((report (.circular path)).run s).2⟩
  | new {d path format ws s} (hc : s.registry.cache.find? path = none)
    (hl : s.registry.loading.find? path = none) :
    Step ⟨.load d path format, ws, s⟩ ⟨.read d path format, ws, s⟩
  | requireEsm {d path ws s} (hn : h.nativeEsm = true) :
    Step ⟨.read d path .esm, ws, s⟩ ⟨.loaded (.error (.requireEsm path)), ws, s⟩
  | unreadable {d path format error ws s} (hn : format = .esm → h.nativeEsm = false)
    (hr : (h.readSource path).run.run s = (.error error, s)) :
    Step ⟨.read d path format, ws, s⟩ ⟨.loaded (.error error), ws, s⟩
  | readJson {d path text ws s} (hr : (h.readSource path).run.run s = (.ok text, s)) :
    Step ⟨.read d path .json, ws, s⟩
      ⟨.evaluate d (CommonJs.jsonScript text) path.display, .json path :: ws, s⟩
  | readScript {d path format text mode code module exports require ws s t}
    (hr : (h.readSource path).run.run s = (.ok text, s))
    (hf : h.scriptOf format text = some (code, mode))
    (hp : (prepare path mode).run s = ((module, exports, require), t)) :
    Step ⟨.read d path format, ws, s⟩
      ⟨.evaluate d (CommonJs.wrap code) path.display,
        .compilation d path module exports require :: ws, t⟩
  -- Engine texts
  | parse {d code filename text ws s} (hj : CommonJs.jsonText? code = some text)
    (hb : h.body? filename = none) :
    Step ⟨.evaluate d code filename, ws, s⟩
      ⟨.returned ((evalJson text).run ((HostM.record (.evaluated filename code)).run s).2).1, ws,
        ((evalJson text).run ((HostM.record (.evaluated filename code)).run s).2).2⟩
  | runJson {d code filename text body ws s} (hj : CommonJs.jsonText? code = some text)
    (hb : h.body? filename = some body) :
    Step ⟨.evaluate d code filename, ws, s⟩
      ⟨.script d (body ⟨[], ((startEvaluation code filename).run s).1⟩), .jsonText text :: ws,
        ((startEvaluation code filename).run s).2⟩
  | jsonThrew {text ws s} :
    Step ⟨.returned none, .jsonText text :: ws, s⟩ ⟨.returned none, ws, s⟩
  | jsonRan {text v ws s} :
    Step ⟨.returned (some v), .jsonText text :: ws, s⟩
      ⟨.returned ((evalJson text).run s).1, ws, ((evalJson text).run s).2⟩
  | runAround {d code filename body ws s} (hj : CommonJs.jsonText? code = none)
    (hb : h.body? filename = some body) :
    Step ⟨.evaluate d code filename, ws, s⟩
      ⟨.script d (h.around filename), .around filename :: ws,
        ((HostM.record (.evaluated filename code)).run s).2⟩
  | aroundThrew {filename ws s} :
    Step ⟨.returned none, .around filename :: ws, s⟩ ⟨.returned none, ws, s⟩
  | aroundRan {filename v ws s} :
    Step ⟨.returned (some v), .around filename :: ws, s⟩
      ⟨.returned (some ((bodyFunction filename v).run s).1), ws, ((bodyFunction filename v).run s).2⟩
  | evalFailed {d code filename ws s} (hj : CommonJs.jsonText? code = none)
    (hb : h.body? filename = none) :
    Step ⟨.evaluate d code filename, ws, s⟩
      ⟨.returned none, ws, ((evalError ("no body for " ++ filename)).run
        ((HostM.record (.evaluated filename code)).run s).2).2⟩
  -- Evaluations
  | jsonFailed {path ws s} :
    Step ⟨.returned none, .json path :: ws, s⟩ ⟨.loaded (.error (.compile path)), ws, s⟩
  | jsonCached {path v ws s} :
    Step ⟨.returned (some v), .json path :: ws, s⟩
      ⟨.loaded (.ok v), ws, ((cacheExports path v).run s).2⟩
  | notCompiled {d path module exports require ws s} :
    Step ⟨.returned none, .compilation d path module exports require :: ws, s⟩
      ⟨.loaded (.error (.compile path)), ws, ((endLoading path).run s).2⟩
  | compiled {d path module exports require wrapper ws s} :
    Step ⟨.returned (some wrapper), .compilation d path module exports require :: ws, s⟩
      ⟨.call d wrapper exports (moduleArguments path exports require module),
        .evaluation path module wrapper :: ws, ((protect wrapper).run s).2⟩
  | threw {path module wrapper ws s} :
    Step ⟨.returned none, .evaluation path module wrapper :: ws, s⟩
      ⟨.loaded (.error (.exception path)), ws, ((abandon path wrapper).run s).2⟩
  | completed {path module wrapper v ws s} :
    Step ⟨.returned (some v), .evaluation path module wrapper :: ws, s⟩
      ⟨.loaded (.ok ((complete path module wrapper).run s).1), ws,
        ((complete path module wrapper).run s).2⟩
  -- ES modules that the engine evaluates itself
  | entryUnreadable {d path error ws s} (hr : (h.readSource path).run.run s = (.error error, s)) :
    Step ⟨.enter d path, ws, s⟩ ⟨.loaded (.error error), ws, s⟩
  | entryFailed {d path text ws s} (hr : (h.readSource path).run.run s = (.ok text, s))
    (hm : h.module? path.display = none) :
    Step ⟨.enter d path, ws, s⟩
      ⟨.loaded (.error (.entry path)), ws,
        ((HostM.record (.moduleEvaluated path.display text)).run s).2⟩
  | entryRuns {d path text script ws s} (hr : (h.readSource path).run.run s = (.ok text, s))
    (hm : h.module? path.display = some script) :
    Step ⟨.enter d path, ws, s⟩
      ⟨.script d script, .entry path :: ws,
        ((HostM.record (.moduleEvaluated path.display text)).run s).2⟩
  | entryThrew {path ws s} :
    Step ⟨.returned none, .entry path :: ws, s⟩ ⟨.loaded (.error (.entry path)), ws, s⟩
  | entryRan {path v ws s} :
    Step ⟨.returned (some v), .entry path :: ws, s⟩
      ⟨.loaded (.ok .undefined), ws, ((updateRegistry (·.addLoaded path)).run s).2⟩

/-! ## Sessions -/

end Host

namespace Moment

/-- Whether a call from outside has returned. -/
def Idle (c : Moment) : Prop :=
  c.waiting = [] ∧ ((∃ result, c.task = .returned result) ∨ ∃ answer, c.task = .loaded answer)

def loads (c : Moment) : List Path :=
  match c.task with
  | .load _ path _ => [path]
  | _ => []

def initial : Moment := ⟨.returned none, [], HostState.initial⟩

end Moment

/-- What a caller may ask of a host, in any order. -/
inductive Action where
  | runScript (script : Script)
  | require (specifier : String) (referrer : Option Path)
  | loadEntry (name : String)
  | resolveImport (specifier : String) (referrer : Path)
  | esmSource (path : Path)
  | installGlobals
  | catchException
  | settle

namespace Host

variable (h : Host)

def perform : Action → HostM Unit
  | .runScript script => do let _ ← h.runScript script
  | .require specifier referrer => do let _ ← (h.require specifier referrer).run
  | .loadEntry name => do let _ ← (h.loadEntry name).run
  | .resolveImport specifier referrer => do let _ ← (h.resolveImport specifier referrer).run
  | .esmSource path => do let _ ← (h.esmSource path).run
  | .installGlobals => installGlobals
  | .catchException => do let _ ← catchException
  | .settle => modify HostState.settle

def session : List Action → HostM Unit
  | [] => return ()
  | action :: rest => do
    h.perform action
    session rest

/-- The moment at which an action begins. Those that run no script end at once. -/
def start : Action → HostState → Moment
  | .runScript script, s => ⟨.script h.callDepth script, [], s⟩
  | .require specifier referrer, s => ⟨.require h.callDepth ⟨specifier, referrer, .require⟩, [], s⟩
  | .loadEntry name, s => ⟨.entry h.callDepth name, [], s⟩
  | action, s => ⟨.returned none, [], ((h.perform action).run s).2⟩

/-- What follows a moment: a step of what is being done, or a new action. -/
inductive Next : Moment → Moment → Prop where
  | step {c c'} (hs : h.Step c c') : Next c c'
  | action {c} (hi : c.Idle) (a : Action) : Next c (h.start a c.state)

/-- The moments of all sessions, with the paths that were loaded until then. -/
inductive Reaches : List Path → Moment → Prop where
  | initial : Reaches [] Moment.initial
  | next {paths c c'} (hc : Reaches paths c) (hn : h.Next c c') : Reaches (c'.loads ++ paths) c'

/-- Some time later, or now. -/
def Later : Moment → Moment → Prop := Relation.ReflTransGen h.Next

end Host

end ModuleLoader
