/-! What turns TypeScript into plain source text, where there is anything that does. -/

namespace ModuleLoader

structure TypeScriptTranspiler where
  isAvailable : Bool
  /-- The text without types, given the source and its file name, or why there is none. -/
  transpile : (source filename : String) → Except String String

namespace TypeScriptTranspiler

def absent : TypeScriptTranspiler where
  isAvailable := false
  transpile _ filename := .error ("no TypeScript transpiler available for " ++ filename)

end TypeScriptTranspiler

end ModuleLoader
