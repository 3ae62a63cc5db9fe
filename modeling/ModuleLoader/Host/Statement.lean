import ModuleLoader.Host.Script

/-! A small language for the bodies of modules: expressions and statements over variables, and the
scripts that they stand for. -/

namespace ModuleLoader

inductive Expr where
  | undefined
  | bool (value : Bool)
  | number (value : Binary64)
  | string (value : String)
  /-- A variable, or else a value put aside under the name. -/
  | var (name : String)
  | property (object : Expr) (name : String)
  /-- A new object, whose properties are evaluated in order. -/
  | object (properties : List (String × Expr))
  | call (function : Expr) (arguments : List Expr)

instance : Inhabited Expr := ⟨.undefined⟩

inductive Statement where
  | assign (name : String) (value : Expr)
  | setProperty (object : Expr) (name : String) (value : Expr)
  | throw (message : String)
  /-- Throws in the first runs of the body, as many as given. -/
  | failRuns (count : Nat) (message : String)
  /-- Statements for the first run of the body only. -/
  | once (body : List Statement)
  /-- An exception in `body` is caught and its message assigned to `name`. -/
  | attempt (body : List Statement) (name : String)
  | save (name : String) (value : Expr)
  | log (value : Expr)
  | compare (left right : Expr)
  | probe (path : Path)

instance : Inhabited Statement := ⟨.once []⟩

/-- The variables of a body, the newest of a name in front. -/
abbrev Variables := List (String × Value)

/-- What an exception leads to, if it is caught: the script that goes on with its message. -/
abbrev Handler := Option (String → Script)

namespace Expr

def evaluateVariable (scope : Variables) (name : String) (next : Value → Script) : Script :=
  match scope.lookup name with
  | some value => next value
  | none => .look fun s => next ((s.saved.get? name).getD .undefined)

def evaluateCall (handler : Handler) (function : Value) (arguments : List Value)
    (next : Value → Script) : Script :=
  match handler with
  | none => .call function arguments next
  | some caught => .attempt function arguments next caught

mutual

/-- The script that evaluates an expression and goes on with its value. -/
def evaluate (scope : Variables) (handler : Handler) : Expr → (Value → Script) → Script
  | .undefined, next => next .undefined
  | .bool b, next => next (.bool b)
  | .number x, next => next (.number x)
  | .string s, next => next (.string s)
  | .var name, next => evaluateVariable scope name next
  | .property e name, next =>
    evaluate scope handler e fun value => .look fun s => next (s.heap.get value name)
  | .object properties, next =>
    .allocate fun o => evaluateProperties scope handler o properties (next o)
  | .call function arguments, next =>
    evaluate scope handler function fun f =>
      evaluateAll scope handler arguments fun values => evaluateCall handler f values next

def evaluateAll (scope : Variables) (handler : Handler) :
    List Expr → (List Value → Script) → Script
  | [], next => next []
  | e :: rest, next =>
    evaluate scope handler e fun value =>
      evaluateAll scope handler rest fun values => next (value :: values)

def evaluateProperties (scope : Variables) (handler : Handler) (object : Value) :
    List (String × Expr) → Script → Script
  | [], next => next
  | (name, e) :: rest, next =>
    evaluate scope handler e fun value =>
      .set object name value (evaluateProperties scope handler object rest next)

end

def toScript (scope : Variables) (e : Expr) : Script := e.evaluate scope none .done

end Expr

namespace Statement

/-- What an exception leads to, given the variables at that point. -/
abbrev Catch := Option (Variables → String → Script)

def Catch.at (catcher : Catch) (scope : Variables) : Handler :=
  catcher.map fun caught => caught scope

/-- Throws. What is caught is only recorded. -/
def throwing (message : String) : Handler → Script
  | none => .throw message
  | some caught => .record (.thrown message) (caught message)

def probing (path : Path) (s : HostState) : Event :=
  .probed path (s.registry.isLoading path) (s.registry.isCached path) s.registry.loaded.length
    s.pins.total

mutual

/-- The script of a statement in a given run of its body. It goes on with the variables. -/
def execute (run : Nat) (scope : Variables) (catcher : Catch) :
    Statement → (Variables → Script) → Script
  | .assign name value, next =>
    value.evaluate scope (catcher.at scope) fun v => next ((name, v) :: scope)
  | .setProperty object name value, next =>
    object.evaluate scope (catcher.at scope) fun o =>
      value.evaluate scope (catcher.at scope) fun v =>
        .set o name v (next scope)
  | .throw message, _ => throwing message (catcher.at scope)
  | .failRuns count message, next =>
    if run ≤ count then throwing message (catcher.at scope) else next scope
  | .once body, next =>
    if run = 1 then executeAll run scope catcher body next else next scope
  | .attempt body name, next =>
    executeAll run scope
      (some fun scope message => next ((name, .string message) :: scope)) body next
  | .save name value, next =>
    value.evaluate scope (catcher.at scope) fun v => .save name v (next scope)
  | .log value, next =>
    value.evaluate scope (catcher.at scope) fun v =>
      .look fun s => .record (.logged (Snapshot.ofValue s.heap v)) (next scope)
  | .compare left right, next =>
    left.evaluate scope (catcher.at scope) fun l =>
      right.evaluate scope (catcher.at scope) fun r =>
        .record (.compared (l == r)) (next scope)
  | .probe path, next => .look fun s => .record (probing path s) (next scope)

def executeAll (run : Nat) (scope : Variables) (catcher : Catch) :
    List Statement → (Variables → Script) → Script
  | [], next => next scope
  | s :: rest, next =>
    execute run scope catcher s fun scope => executeAll run scope catcher rest next

end

def parameters : List String := ["exports", "require", "module", "__filename", "__dirname"]

def globalVariables : Variables := [("global", Heap.globalObject)]

/-- The body that runs the statements, with the parameters of a module for its arguments. -/
def toBody (statements : List Statement) : Body := fun frame =>
  executeAll frame.run (parameters.zip frame.arguments ++ globalVariables) none statements
    fun _ => .done .undefined

end Statement

end ModuleLoader
