import ModuleLoader.Host.Load

/-! Calls of functions, and what callers ask of a host. A call nested too deep throws. -/

namespace ModuleLoader.Host

open HostM

variable (h : Host)

/-- Reports a load that failed inside a script and throws its message, unless the script has thrown
already. -/
def fail (referrer : Path) (error : ModuleError) : HostM Value := do
  report (.failed referrer error)
  if !error.isPending then throwException error.message
  return .undefined

def refuse (message : String) : HostM Value := do
  throwException message
  return .undefined

def answer (referrer : Path) (load : Loading Value) : HostM Value := do
  match ← load.run with
  | .ok value => return value
  | .error error => fail referrer error

def expectation : HostFunction → String
  | .require _ _ => "require() expects a string specifier"
  | .resolve _ _ => "require.resolve() expects a string specifier"
  | .requirePath => CommonJs.requireGlobal ++ "() expects a module path"

/-- The file that a request resolves to, as a text. -/
def resolveDisplay (request : Request) : Loading Value := do
  let resolved ← h.resolve request
  return .string resolved.path.display

def applyFunction (call : CallFunction) (text : String) : HostFunction → HostM Value
  | .require referrer mode => answer referrer (h.requireWith call ⟨text, some referrer, mode⟩)
  | .resolve referrer mode => answer referrer (h.resolveDisplay ⟨text, some referrer, mode⟩)
  | .requirePath => do
    let format ← withPackages (h.resolver.detectFormat ⟨text⟩)
    answer ⟨text⟩ (h.load call ⟨text⟩ format)

def callHostFunction (call : CallFunction) (function : HostFunction) (arguments : List Value) :
    HostM Value := do
  if (← get).alive then
    match arguments.head?.bind Value.string? with
    | some text => h.applyFunction call text function
    | none => refuse (expectation function)
  else refuse "module system is no longer available"

/-- The result of a function, unless it left an exception. -/
def unlessPending (result : Value) : HostM (Option Value) :=
  return if (← get).pending.isSome then none else some result

/-- Starts the body of a wrapper's file. The answer is how many of them have been started. -/
def startBody (filename : String) (receiver : Value) (arguments : List Value) : HostM Nat := do
  let run ← countRun filename
  record (.ran filename run arguments.length (arguments.head? == some receiver))
  return run

def runWrapper (call : CallFunction) (filename : String) (receiver : Value)
    (arguments : List Value) : HostM (Option Value) := do
  let run ← startBody filename receiver arguments
  match h.body? filename with
  | none => return some .undefined
  | some body => return (← (body ⟨arguments, run⟩).run call).map fun _ => .undefined

/-- Calls within a number of levels. -/
def callWithin : Nat → CallFunction
  | 0, _, _, _ => do
    throwException "RangeError: call depth exceeded"
    return none
  | depth + 1, function, receiver, arguments => do
    match (← get).heap.kind? function with
    | some (.wrapper filename) => h.runWrapper (callWithin depth) filename receiver arguments
    | some (.host hostFunction) =>
      unlessPending (← h.callHostFunction (callWithin depth) hostFunction arguments)
    | _ =>
      throwException "TypeError: not a function"
      return none

def call : CallFunction := h.callWithin h.callDepth

/-! ## Requests of callers -/

def runScript (script : Script) : HostM (Option Value) := script.run h.call

/-- `require` as seen from a file, or from the root. -/
def require (specifier : String) (referrer : Option Path) : Loading Value :=
  h.requireWith h.call ⟨specifier, referrer, .require⟩

/-- A bare entry such as `main.js` is relative to the root. -/
def entrySpecifier (entry : String) : String :=
  match Specifier.kind entry with
  | .bare => "./" ++ entry
  | _ => entry

def enter (call : CallFunction) (path : Path) : Loading Unit := do
  let source ← h.readSource path
  if ← h.evalModule call source path.display then updateRegistry (·.addLoaded path)
  else throw (.entry path)

/-- Loads a program's entry. An ES module that the engine evaluates itself has no exports to
answer. -/
def loadEntry (entry : String) : Loading (Option Value) := do
  let resolved ← h.resolve ⟨entrySpecifier entry, none, .require⟩
  report (.entry entry resolved.path resolved.format)
  if resolved.format = .esm && h.nativeEsm then
    (fun _ => none) <$> h.enter h.call resolved.path
  else some <$> h.load h.call resolved.path resolved.format

def resolveImport (specifier : String) (referrer : Path) : Loading ResolvedModule :=
  h.resolve ⟨specifier, some referrer, .import⟩

/-- The ES module source for a file. What is no ES module gets one that loads it by its path. -/
def esmSource (path : Path) : Loading String := do
  match ← ExceptT.lift (withPackages (h.resolver.detectFormat path)) with
  | .esm => h.readSource path
  | .cjs => return CommonJs.bridge path (← h.readSource path)
  | .json => return CommonJs.bridge path ""

/-- Gives scripts the global function that loads a module by its path. -/
def installGlobals : HostM Unit := do
  let function ← allocateWith (.host .requirePath) []
  setProperty Heap.globalObject HostFunction.requirePath.name function

/-- Ends the host. It releases all that it has pinned, and its functions throw from now on. -/
def shutDown : HostM Unit := do
  let registry := (← get).registry
  (registry.cache.values ++ registry.loading.values).forM release
  modify fun s => { s with
    alive := false
    registry := { s.registry with cache := PathMap.empty, loading := PathMap.empty } }

end ModuleLoader.Host
