import ModuleLoader.Host.State

/-! Scripts, as trees of what they do next. A script may look at anything, but it acts only through
the steps here. A call that leaves an exception ends the script, unless it was an attempt. -/

namespace ModuleLoader

inductive Script where
  | done (result : Value)
  | throw (message : String)
  | look (next : HostState → Script)
  | allocate (next : Value → Script)
  | set (object : Value) (name : String) (value : Value) (next : Script)
  | save (name : String) (value : Value) (next : Script)
  | record (event : Event) (next : Script)
  | call (function : Value) (arguments : List Value) (next : Value → Script)
  | attempt (function : Value) (arguments : List Value) (next : Value → Script)
      (caught : String → Script)

/-- What a body is started with: its arguments, and how many bodies of its file have been
started. -/
structure Frame where
  arguments : List Value
  run : Nat

abbrev Body := Frame → Script

/-- Calls a function on a receiver and arguments. No result means that an exception is pending. -/
abbrev CallFunction := Value → Value → List Value → HostM (Option Value)

namespace Script

open HostM

/-- Runs a script, given how calls are made. No result means that an exception is pending. -/
def run (call : CallFunction) : Script → HostM (Option Value)
  | .done result => return some result
  | .throw message => do
    throwException message
    return none
  | .look next => do run call (next (← get))
  | .allocate next => do run call (next (← allocateWith .plain []))
  | .set object name value next => do
    setProperty object name value
    run call next
  | .save name value next => do
    HostM.save name value
    run call next
  | .record event next => do
    HostM.record event
    run call next
  | .call function arguments next => do
    match ← call function .undefined arguments with
    | some result => run call (next result)
    | none => return none
  | .attempt function arguments next caught => do
    match ← call function .undefined arguments with
    | some result => run call (next result)
    | none => run call (caught (← catchException))

end Script

end ModuleLoader
