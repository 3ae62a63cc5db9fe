import ModuleLoader.Host.Script
import ModuleLoader.Host.TypeScript
import ModuleLoader.Resolve.Resolver
import ModuleLoader.Transpile.Source

/-! Loading of modules. A module is marked as loading before its body runs and the mark goes away
however the evaluation ends, so that a circular `require` sees the exports made so far and a module
that threw can be required again. -/

namespace ModuleLoader

open HostM

/-- What a host works with: the files, the engine, and the code that the engine runs for them. -/
structure Host where
  resolver : Resolver Id
  typeScript : TypeScriptTranspiler
  /-- Whether the engine evaluates ES modules itself. -/
  nativeEsm : Bool
  /-- What the body of a script file does. A file without one does not compile. -/
  body? : String → Option Body
  /-- What the text around the body of a script file does. Another value than undefined takes the
  place of the function of the body. -/
  around : String → Script := fun _ => .done .undefined
  /-- What an ES module does that the engine evaluates itself. A file without one fails. -/
  module? : String → Option Script
  callDepth : Nat

namespace Host

variable (h : Host)

/-! ## The engine -/

def runBody (call : CallFunction) (filename : String) (body : Body) (arguments : List Value) :
    HostM (Option Value) := do
  let run ← countRun filename
  (body ⟨arguments, run⟩).run call

def evalError (message : String) : HostM (Option Value) := do
  throwException ("SyntaxError: " ++ message)
  return none

def evalJson (text : String) : HostM (Option Value) := do
  match Json.parse text with
  | .error error => evalError error.message
  | .ok json =>
    modifyGet fun s =>
      let (value, heap) := s.heap.ofJson json
      (some value, { s with heap := heap })

/-- The function that a script file gives, where the text around its body gave `value`. -/
def bodyFunction (filename : String) : Value → HostM Value
  | .undefined => allocateWith (.wrapper filename) []
  | value => return value

/-- Evaluates a script to its value: that of a JSON text, or a function around a module. No result
means that an exception is pending. A body of a JSON file runs before its text is parsed. -/
def evalScript (call : CallFunction) (code filename : String) : HostM (Option Value) := do
  record (.evaluated filename code)
  match CommonJs.jsonText? code, h.body? filename with
  | some text, none => evalJson text
  | some text, some body =>
    match ← runBody call filename body [] with
    | none => return none
    | some _ => evalJson text
  | none, some _ =>
    match ← (h.around filename).run call with
    | none => return none
    | some value => some <$> bodyFunction filename value
  | none, none => evalError ("no body for " ++ filename)

def evalModule (call : CallFunction) (code filename : String) : HostM Bool := do
  record (.moduleEvaluated filename code)
  match h.module? filename with
  | none => return false
  | some script => return (← script.run call).isSome

/-! ## Sources -/

def resolve (request : Request) : Loading ResolvedModule := do
  match ← ExceptT.lift (withPackages (h.resolver.resolve request)) with
  | .ok resolved => return resolved
  | .error error => throw (.resolve error)

/-- The text of a file, without types if it is TypeScript. -/
def readSource (path : Path) : Loading String := do
  match h.resolver.source.read path with
  | .error error => throw (.unreadable path error)
  | .ok bytes =>
    let text := Text.readLossy bytes
    if path.isTypeScript then
      if h.typeScript.isAvailable then
        match h.typeScript.transpile text path.display with
        | .ok code => return code
        | .error reason => throw (.typeScript path reason)
      else throw (.noTypeScript path)
    else return text

/-! ## Evaluation -/

/-- Keeps the exports of an evaluated module. They are pinned in place of any kept before. -/
def cacheExports (path : Path) (exports : Value) : HostM Unit := do
  protect exports
  let previous := (← get).registry.cache.find? path
  updateRegistry (·.complete path exports)
  previous.forM release

def endLoading (path : Path) : HostM Unit := do
  let module := (← get).registry.loading.find? path
  updateRegistry (·.endLoading path)
  module.forM release

/-- A load during which `path` is marked as loading. The mark goes away however the load ends. -/
def whileLoading {α : Type} (path : Path) (module : Value) (load : Loading α) : Loading α :=
  ExceptT.mk do
    protect module
    updateRegistry (·.beginLoading path module)
    let answer ← load.run
    endLoading path
    return answer

/-- The `require` function of the module at `path`, with its `resolve` function. -/
def makeRequire (path : Path) (mode : ResolveMode) : HostM Value := do
  let resolveFunction ← allocateWith (.host (.resolve path mode)) []
  allocateWith (.host (.require path mode)) [("resolve", resolveFunction)]

def makeModule (path : Path) (exports : Value) : HostM Value :=
  allocateWith .plain
    [("exports", exports), ("id", .string path.display), ("filename", .string path.display),
      ("loaded", .bool false)]

/-- Calls a function that is pinned as long as it runs. -/
def callPinned (call : CallFunction) (function receiver : Value) (arguments : List Value) :
    HostM (Option Value) := do
  protect function
  let result ← call function receiver arguments
  release function
  return result

def moduleArguments (path : Path) (exports require module : Value) : List Value :=
  let directory := (path.parent?.map Path.display).getD ""
  [exports, require, module, .string path.display, .string directory]

def evaluateScript (call : CallFunction) (path : Path) (source : String) (mode : ResolveMode)
    (module exports : Value) : Loading Value := do
  let require ← makeRequire path mode
  match ← h.evalScript call (CommonJs.wrap source) path.display with
  | none => throw (.compile path)
  | some wrapper =>
    match ← callPinned call wrapper exports (moduleArguments path exports require module) with
    | none => throw (.exception path)
    | some _ =>
      let exports ← getProperty module "exports"
      setProperty module "loaded" (.bool true)
      cacheExports path exports
      report (.completed path)
      return exports

/-- Evaluates a CommonJS source. The mode is that of its `require` function. -/
def loadScript (call : CallFunction) (path : Path) (source : String) (mode : ResolveMode) :
    Loading Value := do
  let exports ← allocateWith .plain []
  let module ← makeModule path exports
  whileLoading path module (h.evaluateScript call path source mode module exports)

def loadJson (call : CallFunction) (path : Path) : Loading Value := do
  let text ← h.readSource path
  match ← h.evalScript call (CommonJs.jsonScript text) path.display with
  | none => throw (.compile path)
  | some value =>
    cacheExports path value
    return value

/-- Reads and evaluates a module. An ES module runs as CommonJS whose imports stay imports, unless
the engine has ES modules of its own, which cannot be required. -/
def evaluate (call : CallFunction) (path : Path) : ModuleFormat → Loading Value
  | .json => h.loadJson call path
  | .cjs => do h.loadScript call path (← h.readSource path) .require
  | .esm =>
    if h.nativeEsm then throw (.requireEsm path)
    else do h.loadScript call path (Transpile.transpile (← h.readSource path)) .import

/-- The exports of a module: those kept, or those made so far if it is being evaluated, or those
that evaluating it gives. -/
def load (call : CallFunction) (path : Path) (format : ModuleFormat) : Loading Value := do
  let registry := (← get).registry
  match registry.cache.find? path, registry.loading.find? path with
  | some exports, _ => return exports
  | none, some module =>
    report (.circular path)
    getProperty module "exports"
  | none, none => h.evaluate call path format

def requireWith (call : CallFunction) (request : Request) : Loading Value := do
  let resolved ← h.resolve request
  report (.require request.specifier request.mode resolved.path)
  h.load call resolved.path resolved.format

end Host

end ModuleLoader
