import ModuleLoader.CommonJs.Exports
import ModuleLoader.Json.Parser
import ModuleLoader.Path
import ModuleLoader.Text.Quoted

/-! The scripts that modules are evaluated as: the function around a CommonJS module, the parse call
of a JSON module, and the ES module that hands out a CommonJS module. -/

namespace ModuleLoader.CommonJs

open Text

/-- The name of the global function that loads a module by its path. -/
def requireGlobal : String := "__modhost_require"

def wrapperParameters : String := "exports, require, module, __filename, __dirname"

/-- The module as a function. Its text starts on the first line, so that lines keep their numbers. -/
def wrap (source : String) : String :=
  "(function (" ++ wrapperParameters ++ ") \x7b " ++ source ++ "\n\x7d)"

def jsonScript (text : String) : String := "JSON.parse(" ++ quote text ++ ")"

/-- The JSON text that a script parses, if it is such a call. -/
def jsonText? (code : String) : Option String :=
  match after? "JSON.parse(".toList code.toList with
  | none => none
  | some rest =>
    match Json.parse (String.ofList rest.dropLast) with
    | .ok (.string text) => some text
    | _ => none

/-- The words that a module cannot declare, and the names that mean something else on exports. -/
def reservedWords : List String :=
  ["break", "case", "catch", "continue", "debugger", "default", "delete", "do", "else", "export",
    "extends", "finally", "for", "function", "if", "import", "in", "instanceof", "new", "return",
    "super", "switch", "this", "throw", "try", "typeof", "var", "void", "while", "with", "yield",
    "class", "const", "enum", "let", "static", "implements", "interface", "package", "private",
    "protected", "public", "await", "null", "true", "false", "undefined", "__esModule"]

def declaration (name : String) : String :=
  "export const " ++ name ++ " = __modhost_cjs." ++ name ++ ";\n"

def declarations (names : List String) : String :=
  String.join ((names.filter (!reservedWords.contains ·)).map declaration)

def bridge (path : Path) (source : String) : String :=
  "const __modhost_cjs = globalThis." ++ requireGlobal ++ "(" ++ quote path.display ++ ");\n" ++
    "export default __modhost_cjs;\n" ++ declarations (exportedNames source)

end ModuleLoader.CommonJs
