import ModuleLoader.Host.Error
import ModuleLoader.Host.Heap
import ModuleLoader.Host.Registry
import ModuleLoader.Host.Snapshot
import ModuleLoader.Package.Cache

/-! The state of a host: the scripts' heap, the modules known, and a record of what happened. -/

namespace ModuleLoader

inductive Event where
  | evaluated (filename code : String)
  | moduleEvaluated (filename code : String)
  | ran (filename : String) (run arguments : Nat) (receiverIsFirst : Bool)
  | thrown (message : String)
  | logged (value : Snapshot)
  | compared (same : Bool)
  | probed (path : Path) (loading cached : Bool) (loaded : Nat) (pins : Int)

inductive LogRecord where
  | entry (specifier : String) (path : Path) (format : ModuleFormat)
  | require (specifier : String) (mode : ResolveMode) (path : Path)
  | circular (path : Path)
  | completed (path : Path)
  | failed (referrer : Path) (error : ModuleError)

namespace LogRecord

def level : LogRecord → String
  | require _ _ _ => "TRACE"
  | failed _ _ => "ERROR"
  | _ => "DEBUG"

def message : LogRecord → String
  | entry specifier path format =>
    "entry '" ++ specifier ++ "' resolved to '" ++ path.display ++ "' (" ++ format.toString ++ ")"
  | require specifier mode path =>
    "require '" ++ specifier ++ "' (" ++ mode.toString ++ ") -> '" ++ path.display ++ "'"
  | circular path => "circular require of '" ++ path.display ++ "', returning partial exports"
  | completed path => "loaded '" ++ path.display ++ "'"
  | failed referrer error =>
    "[" ++ error.code ++ "] in '" ++ referrer.display ++ "': " ++ error.message

end LogRecord

structure HostState where
  heap : Heap
  pins : Pins
  /-- The message of the exception that has been thrown and not been caught. -/
  pending : Option String
  registry : Registry
  packages : PackageCache
  /-- Whether the host still loads modules. Its functions stay with the scripts that have them. -/
  alive : Bool
  /-- The files whose bodies were started, newest first. -/
  runs : List String
  /-- Values that scripts and callers have put aside under names. -/
  saved : Members Value
  /-- Newest first. -/
  events : List Event
  /-- Newest first. -/
  log : List LogRecord

abbrev HostM := StateM HostState

/-- A load may fail, and what it did until then stays done. -/
abbrev Loading := ExceptT ModuleError HostM

namespace HostState

def initial : HostState where
  heap := Heap.initial
  pins := Pins.none
  pending := none
  registry := Registry.empty
  packages := PackageCache.empty
  alive := true
  runs := []
  saved := Members.empty
  events := []
  log := []

/-- The state without the record of what happened and with nothing pending. -/
def settle (s : HostState) : HostState := { s with pending := none, events := [], log := [] }

end HostState

namespace HostM

def record (event : Event) : HostM Unit := modify fun s => { s with events := event :: s.events }

def report (entry : LogRecord) : HostM Unit := modify fun s => { s with log := entry :: s.log }

def protect (value : Value) : HostM Unit := modify fun s => { s with pins := s.pins.protect value }

def release (value : Value) : HostM Unit := modify fun s => { s with pins := s.pins.release value }

def throwException (message : String) : HostM Unit :=
  modify fun s => { s with pending := some message, events := .thrown message :: s.events }

def catchException : HostM String :=
  modifyGet fun s => (s.pending.getD "", { s with pending := none })

def allocateWith (kind : ObjectKind) (properties : List (String × Value)) : HostM Value :=
  modifyGet fun s =>
    let (value, heap) := s.heap.allocateWith kind properties
    (value, { s with heap := heap })

def getProperty (value : Value) (name : String) : HostM Value := return (← get).heap.get value name

def setProperty (value : Value) (name : String) (property : Value) : HostM Unit :=
  modify fun s => { s with heap := s.heap.set value name property }

def save (name : String) (value : Value) : HostM Unit :=
  modify fun s => { s with saved := s.saved.insert name value }

def updateRegistry (f : Registry → Registry) : HostM Unit :=
  modify fun s => { s with registry := f s.registry }

/-- Starts a body of a file. The answer is how many of them have been started, this one included. -/
def countRun (filename : String) : HostM Nat :=
  modifyGet fun s => (s.runs.count filename + 1, { s with runs := filename :: s.runs })

/-- A look at package descriptors, with what it adds to the cache. -/
def withPackages {α : Type} (look : StateT PackageCache Id α) : HostM α :=
  modifyGet fun s =>
    let (a, packages) := look.run s.packages
    (a, { s with packages := packages })

end HostM

end ModuleLoader
