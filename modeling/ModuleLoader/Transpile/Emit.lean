import ModuleLoader.Text.Quoted
import ModuleLoader.Transpile.Statement

/-! The CommonJS text of a statement, and what it exports. Exports become getters, which are
installed together in one header. -/

namespace ModuleLoader.Transpile

open Text

structure Getter where
  name : String
  expression : String
deriving DecidableEq

/-- What a statement turns into: its text, the getters it asks for, whether it exports anything,
and the number of temporaries it uses. -/
structure Emission where
  text : String
  getters : List Getter
  isExport : Bool
  temporaries : Nat
deriving DecidableEq

def requireCall (specifier : String) : String := "require(" ++ quote specifier ++ ")"

def temporary (n : Nat) : String := "__mod" ++ toString n

/-- The default export of a module, which is the module itself unless it was an ES module. -/
def defaultOf (temp : String) : String :=
  temp ++ " && " ++ temp ++ ".__esModule ? " ++ temp ++ ".default : " ++ temp

def Getter.text (g : Getter) : String :=
  "Object.defineProperty(exports, " ++ quote g.name ++
    ", \x7b enumerable: true, get: function () \x7b return " ++ g.expression ++ "; \x7d \x7d);"

def constText (pattern value : String) : String := "const " ++ pattern ++ " = " ++ value ++ ";"

def ListEntry.binding (e : ListEntry) : String :=
  if e.source = e.asName then e.asName else e.source ++ ": " ++ e.asName

def listPattern (entries : List ListEntry) : String :=
  if entries.isEmpty then "\x7b\x7d"
  else "\x7b " ++ ", ".intercalate (entries.map ListEntry.binding) ++ " \x7d"

def copyAllCall (specifier : String) : String :=
  "(function (m) \x7b Object.keys(m).forEach(function (k) \x7b if (k !== \"default\" && " ++
    "!Object.prototype.hasOwnProperty.call(exports, k)) Object.defineProperty(exports, k, " ++
    "\x7b enumerable: true, get: function () \x7b return m[k]; \x7d \x7d); \x7d); \x7d)(" ++
    requireCall specifier ++ ");"

/-- The expression for an entry of a list exported from the module in `temp`. -/
def ListEntry.expression (temp : String) (e : ListEntry) : String :=
  if e.source = "default" then defaultOf temp else temp ++ "[" ++ quote e.source ++ "]"

/-- The declarations for a clause. One kind of binding is declared directly, and more than one, or
a default, by way of a temporary. -/
def importText (temp : String) (specifier : String) : ImportClause → String
  | .types => ""
  | .bindings none (some whole) none => constText whole (requireCall specifier)
  | .bindings none none (some named) => constText (listPattern named) (requireCall specifier)
  | .bindings none none none => requireCall specifier ++ ";"
  | .bindings main whole named =>
    constText temp (requireCall specifier) ++
      (main.elim "" fun name => " " ++ constText name (defaultOf temp)) ++
      (whole.elim "" fun name => " " ++ constText name temp) ++
      (named.elim "" fun entries => " " ++ constText (listPattern entries) temp)

def ImportClause.needsTemporary : ImportClause → Bool
  | .types => false
  | .bindings none (some _) none => false
  | .bindings none none _ => false
  | .bindings _ _ _ => true

def exportText (text : String) (getters : List Getter) : Emission := ⟨text, getters, true, 0⟩

/-- The emission of a statement that may use the temporaries from number `n` on. -/
def Statement.emit (n : Nat) : Statement → Emission
  | .importOnly specifier => ⟨requireCall specifier ++ ";", [], false, 0⟩
  | .importFrom clause specifier =>
    ⟨importText (temporary n) specifier clause, [], false, if clause.needsTemporary then 1 else 0⟩
  | .exportAllAs name specifier =>
    exportText ("exports." ++ name ++ " = " ++ requireCall specifier ++ ";") []
  | .exportAll specifier => exportText (copyAllCall specifier) []
  | .exportListFrom entries specifier =>
    let temp := temporary n
    let getters := entries.map fun e => Getter.text ⟨e.asName, e.expression temp⟩
    ⟨" ".intercalate (constText temp (requireCall specifier) :: getters), [], true, 1⟩
  | .exportList entries => exportText "" (entries.map fun e => ⟨e.asName, e.source⟩)
  | .exportDefaultFunction name text => exportText ("exports.default = " ++ name ++ "; " ++ text) []
  | .exportDefaultClass name text => exportText text [⟨"default", name⟩]
  | .exportDefault expression => exportText ("exports.default = " ++ expression) []
  | .exportDeclaration names text => exportText text (names.map fun name => ⟨name, name⟩)

/-- The text that marks the module as an ES module and installs its getters. -/
def headerText (getters : List Getter) : String :=
  " ".intercalate ("exports.__esModule = true;" :: getters.map Getter.text)

end ModuleLoader.Transpile
