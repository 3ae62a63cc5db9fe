import ModuleLoader.CommonJs.Wrapper
import ModuleLoader.Json.Value
import ModuleLoader.Resolve.Basic

/-! Values of scripts. Objects and functions live on a heap, and a value that is one names its place
there, so that two values are the same object exactly when they are equal. -/

namespace ModuleLoader

abbrev ObjectId := Nat

inductive Value where
  | undefined
  | bool (value : Bool)
  | number (value : Binary64)
  | string (value : String)
  | object (id : ObjectId)
deriving DecidableEq

instance : Inhabited Value := ⟨.undefined⟩

def Value.string? : Value → Option String
  | .string s => some s
  | _ => none

/-- The functions that a host gives to scripts. The first two belong to one module and resolve from
its file. -/
inductive HostFunction where
  | require (referrer : Path) (mode : ResolveMode)
  | resolve (referrer : Path) (mode : ResolveMode)
  | requirePath
deriving DecidableEq

def HostFunction.name : HostFunction → String
  | require _ _ => "require"
  | resolve _ _ => "resolve"
  | requirePath => CommonJs.requireGlobal

inductive ObjectKind where
  | plain
  | host (function : HostFunction)
  | wrapper (filename : String)
deriving DecidableEq

end ModuleLoader
