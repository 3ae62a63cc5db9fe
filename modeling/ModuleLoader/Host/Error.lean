import ModuleLoader.Resolve.Error

/-! Why a module does not load. -/

namespace ModuleLoader

inductive ModuleError where
  | resolve (error : ResolveError)
  | unreadable (path : Path) (error : ReadError)
  | noTypeScript (path : Path)
  | typeScript (path : Path) (reason : String)
  | compile (path : Path)
  | exception (path : Path)
  | requireEsm (path : Path)
  | entry (path : Path)
deriving DecidableEq

namespace ModuleError

def code : ModuleError → String
  | resolve error => error.code
  | unreadable _ _ => "READ_FAILED"
  | noTypeScript _ => "TYPESCRIPT_UNAVAILABLE"
  | typeScript _ _ => "TYPESCRIPT_FAILED"
  | compile _ => "COMPILE_FAILED"
  | exception _ => "EXCEPTION"
  | requireEsm _ => "REQUIRE_ESM"
  | entry _ => "ENTRY_FAILED"

def message : ModuleError → String
  | resolve error => error.message
  | unreadable path error => "failed to read '" ++ path.text ++ "': " ++ error.message
  | noTypeScript path =>
    "cannot load '" ++ path.text ++ "': no TypeScript transpiler is available"
  | typeScript path reason =>
    "TypeScript transpile of '" ++ path.text ++ "' failed: " ++ reason
  | compile path => "failed to compile '" ++ path.text ++ "'"
  | exception path => "uncaught exception while evaluating '" ++ path.text ++ "'"
  | requireEsm path =>
    "require() of ES module '" ++ path.text ++ "' is not supported; use import instead"
  | entry path => "failed to evaluate entry module '" ++ path.text ++ "'"

/-- Whether a script has thrown already, so that its own exception tells what went wrong. -/
def isPending : ModuleError → Bool
  | compile _ => true
  | exception _ => true
  | entry _ => true
  | _ => false

end ModuleError

end ModuleLoader
