import ModuleLoader.Text.Blank
import ModuleLoader.Text.Split
import ModuleLoader.Text.Word
import ModuleLoader.Transpile.Binding

/-! The import and export statements that fit on one line, and how they are recognized. A statement
may end in a semicolon and a line comment. -/

namespace ModuleLoader.Transpile

open Text

/-- An entry of a list in braces: `source` or `source as asName`. -/
structure ListEntry where
  source : String
  asName : String
deriving DecidableEq

inductive ImportClause where
  /-- Types only, which leave nothing to import. -/
  | types
  /-- A default name, a name for the whole module, and a list. -/
  | bindings (main : Option String) (whole : Option String) (named : Option (List ListEntry))
deriving DecidableEq

inductive Statement where
  | importOnly (specifier : String)
  | importFrom (clause : ImportClause) (specifier : String)
  | exportAllAs (name : String) (specifier : String)
  | exportAll (specifier : String)
  | exportListFrom (entries : List ListEntry) (specifier : String)
  | exportList (entries : List ListEntry)
  /-- A named function, with the text that declares it. -/
  | exportDefaultFunction (name : String) (text : String)
  /-- A named class, with the text that declares it. -/
  | exportDefaultClass (name : String) (text : String)
  | exportDefault (expression : String)
  /-- A declaration and the names that it binds. -/
  | exportDeclaration (names : List String) (text : String)
deriving DecidableEq

/-! ## Pieces of statements -/

def blanks? (s : List Char) : Option (List Char) :=
  match s with
  | c :: _ => if isBlank c then some (trimStart s) else none
  | [] => none

/-- Whether what is left of a line is only a semicolon and a comment. -/
def endsStatement (s : List Char) : Bool :=
  let rest := match trimStart s with
    | ';' :: r => trimStart r
    | r => r
  rest.isEmpty || startsWith ['/', '/'] rest

def isQuoteMark (c : Char) : Bool := c == '"' || c == '\''

/-- A specifier between quotes, and what follows it. Either quote ends it. -/
def specifier? (s : List Char) : Option (String × List Char) :=
  match s with
  | [] => none
  | c :: r =>
    if isQuoteMark c then
      match r.takeWhile (!isQuoteMark ·), r.dropWhile (!isQuoteMark ·) with
      | d :: text, _ :: rest => some (String.ofList (d :: text), rest)
      | _, _ => none
    else none

def finalSpecifier? (s : List Char) : Option String := do
  let (specifier, rest) ← specifier? (trimStart s)
  if endsStatement rest then some specifier else none

/-- The specifier of a `from` that ends a statement. -/
def fromSpecifier? (s : List Char) : Option String := do
  finalSpecifier? (← after? "from".toList (trimStart s))

def isNotBrace (c : Char) : Bool := c != '\x7d'

def braced? (s : List Char) : Option (List Char × List Char) :=
  match trimStart s with
  | '\x7b' :: r =>
    match r.dropWhile isNotBrace with
    | _ :: rest => some (r.takeWhile isNotBrace, rest)
    | [] => none
  | _ => none

/-! ## Lists -/

def listEntry (entry : List Char) : ListEntry :=
  match cutAt? " as ".toList entry with
  | some (source, asName) => ⟨String.ofList (trim source), String.ofList (trim asName)⟩
  | none => ⟨String.ofList entry, String.ofList entry⟩

/-- The entries of a list. Empty ones and those of types are no entries. -/
def listEntries (list : List Char) : List ListEntry :=
  (((list.splitOn ',').map trim).filter fun entry =>
    !entry.isEmpty && !startsWith "type ".toList entry).map listEntry

/-! ## Imports -/

def isTypeClause (clause : List Char) : Bool :=
  match after? "type ".toList clause with
  | some rest =>
    let rest := trimStart rest
    startsWith ['\x7b'] rest || isAsciiName rest
  | none => false

/-- The default name in front of a clause, and what follows its comma. -/
def defaultName? (clause : List Char) : Option (Option String × List Char) :=
  if startsWith ['\x7b'] clause || startsWith ['*'] clause then some (none, clause)
  else
    let (name, rest) := match cutAt? [','] clause with
      | some (name, rest) => (trim name, trim rest)
      | none => (clause, [])
    if isAsciiName name then some (some (String.ofList name), rest) else none

/-- The name for the whole module or the list that ends a clause. -/
def bindings? (main : Option String) (clause : List Char) : Option ImportClause :=
  match clause with
  | [] => some (.bindings main none none)
  | '*' :: rest => do
    let name := trim (← after? "as".toList (trimStart rest))
    if isAsciiName name then some (.bindings main (some (String.ofList name)) none) else none
  | '\x7b' :: rest =>
    if rest.getLast? = some '\x7d' then
      some (.bindings main none (some (listEntries rest.dropLast)))
    else none
  | _ => none

def importClause? (clause : List Char) : Option ImportClause :=
  let clause := trim clause
  if isTypeClause clause then some .types
  else do
    let (main, rest) ← defaultName? clause
    bindings? main rest

/-- The shortest clause, of one character at least, that a `from` with a specifier follows. -/
def clauseBeforeFrom? : List Char → Option (List Char × String)
  | [] => none
  | c :: r =>
    match fromSpecifier? r with
    | some specifier => some ([c], specifier)
    | none => (clauseBeforeFrom? r).map fun (clause, specifier) => (c :: clause, specifier)

def importFrom? (s : List Char) : Option Statement := do
  let (clause, specifier) ← clauseBeforeFrom? (← blanks? s)
  return .importFrom (← importClause? clause) specifier

/-- The statement that goes on with `s` after `import`. -/
def importStatement? (s : List Char) : Option Statement :=
  match finalSpecifier? s with
  | some specifier => some (.importOnly specifier)
  | none => importFrom? s

/-! ## Exports -/

def exportAll? (s : List Char) : Option Statement :=
  match trimStart s with
  | '*' :: r =>
    let named : Option Statement := do
      let (name, rest) ← takeName? (← blanks? (← after? "as".toList (trimStart r)))
      return .exportAllAs (String.ofList name) (← fromSpecifier? (← blanks? rest))
    named.or ((fromSpecifier? r).map .exportAll)
  | _ => none

def exportList? (s : List Char) : Option Statement := do
  let (list, rest) ← braced? s
  match fromSpecifier? rest with
  | some specifier => return .exportListFrom (listEntries list) specifier
  | none => if endsStatement rest then return .exportList (listEntries list) else none

/-- What follows a keyword that is not the front of a longer word. -/
def keyword? (word s : List Char) : Option (List Char) := do
  let rest ← after? word s
  match rest with
  | c :: _ => if isWord c then none else return rest
  | [] => return []

def functionName? (s : List Char) : Option (List Char) := do
  let s ← match after? "async".toList s with
    | some rest => blanks? rest
    | none => some s
  let rest := trimStart (← keyword? "function".toList s)
  let rest := match rest with
    | '*' :: r => trimStart r
    | r => r
  return (← takeName? rest).1

def className? (s : List Char) : Option (List Char) := do
  let (name, _) ← takeName? (← blanks? (← after? "class".toList s))
  return name

/-- The class name that a default export binds. A class without a name may go on with `extends`. -/
def defaultClassName? (s : List Char) : Option (List Char) :=
  (className? s).filter (· ≠ "extends".toList)

def exportDefault? (s : List Char) : Option Statement := do
  let value ← blanks? (← after? "default".toList (← blanks? s))
  let text := String.ofList value
  match functionName? value with
  | some name => return .exportDefaultFunction (String.ofList name) text
  | none =>
    match defaultClassName? value with
    | some name => return .exportDefaultClass (String.ofList name) text
    | none => return .exportDefault text

def declarators? (s : List Char) : Option (List Char) :=
  ["const", "let", "var"].findSome? fun word => (after? word.toList s).bind blanks?

def declarationNames? (s : List Char) : Option (List (List Char)) :=
  ((functionName? s).map fun name => [name]).or <|
    ((className? s).map fun name => [name]).or ((declarators? s).map declaredNames)

def exportDeclaration? (s : List Char) : Option Statement := do
  let text ← blanks? s
  let names ← declarationNames? text
  return .exportDeclaration (names.map String.ofList) (String.ofList text)

/-- The statement that goes on with `s` after `export`. -/
def exportStatement? (s : List Char) : Option Statement :=
  (exportAll? s).or <| (exportList? s).or <| (exportDefault? s).or (exportDeclaration? s)

def Statement.recognize? (line : List Char) : Option Statement :=
  match after? "import".toList line with
  | some rest => importStatement? rest
  | none => (after? "export".toList line).bind exportStatement?

end ModuleLoader.Transpile
