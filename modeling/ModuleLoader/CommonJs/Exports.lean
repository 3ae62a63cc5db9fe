import ModuleLoader.Text.Blank
import ModuleLoader.Text.Split
import ModuleLoader.Text.Word

/-! The names that a CommonJS text visibly exports: assignments to properties of `exports`,
definitions of its properties, and the keys of an object assigned to `module.exports`. -/

namespace ModuleLoader.CommonJs

open Text

/-- The text after an optional `module.` and `exports`. -/
def exportsObject? (s : List Char) : Option (List Char) :=
  match after? "module.".toList s with
  | some rest => after? "exports".toList rest
  | none => after? "exports".toList s

def exportsLength (s : List Char) : Nat :=
  if startsWith "module.".toList s then "module.exports".length else "exports".length

def blankCount (s : List Char) : Nat := (s.takeWhile isBlank).length

/-- A run of name characters, and what follows it. -/
def namePart? (s : List Char) : Option (List Char × List Char) :=
  match s.takeWhile isNamePart with
  | [] => none
  | name => some (name, s.dropWhile isNamePart)

/-! ## Property definitions -/

def quoteMark? (s : List Char) : Option (List Char) :=
  match s with
  | c :: r => if c == '"' || c == '\'' then some r else none
  | [] => none

/-- The name in a call of `Object.defineProperty` on `exports` at the front of a text. -/
def definedName? (s : List Char) : Option (List Char) := do
  let s ← after? "Object.defineProperty".toList s
  let s ← after? ['('] (trimStart s)
  let s ← exportsObject? (trimStart s)
  let s ← after? [','] (trimStart s)
  let (name, s) ← namePart? (← quoteMark? (trimStart s))
  let _ ← quoteMark? s
  return name

def definedNames : List Char → List (List Char)
  | [] => []
  | c :: r => (definedName? (c :: r)).toList ++ definedNames r

/-! ## Assignments -/

/-- The name in an assignment to a property of `exports` at the front of a text, and the number of
characters up to the one after the equals sign. -/
def assignedName? (s : List Char) : Option (List Char × Nat) := do
  let (name, rest) ← namePart? (← after? ['.'] (← exportsObject? s))
  match ← after? ['='] (trimStart rest) with
  | c :: _ =>
    if c = '=' then none
    else return (name, exportsLength s + 1 + name.length + blankCount rest + 2)
  | [] => none

/-- Names after which a dot or a further character would belong to another name. -/
def isApart (c : Char) : Bool := !isNamePart c && c != '.'

/-- The names of the assignments in a text. An assignment starts after a character that is apart
from it and takes in the character after the equals sign, which no other one may start with. The
first `skip` characters are taken already. -/
def assignedNamesFrom : Nat → List Char → List (List Char)
  | _, [] => []
  | skip + 1, _ :: r => assignedNamesFrom skip r
  | 0, c :: r =>
    match (if isApart c then assignedName? r else none) with
    | some (name, length) => name :: assignedNamesFrom length r
    | none => assignedNamesFrom 0 r

/-- At the start of the text an assignment needs no character before it. -/
def assignedNames (s : List Char) : List (List Char) :=
  match assignedName? s with
  | some (name, length) => name :: assignedNamesFrom length s
  | none => assignedNamesFrom 0 s

/-! ## Objects -/

/-- The text between the braces of an object assigned to `module.exports` at the front of a text,
and the number of characters up to the closing brace. -/
def exportedObject? (s : List Char) : Option (List Char × Nat) := do
  let value ← after? "module.exports".toList s
  let body ← after? ['='] (trimStart value)
  let rest ← after? ['\x7b'] (trimStart body)
  let inside := rest.takeWhile (· != '\x7d')
  let length := "module.exports".length + blankCount value + 1 + blankCount body + 1 + inside.length
  if (rest.dropWhile (· != '\x7d')).isEmpty then none else return (inside, length + 1)

/-- The key that an entry of an object starts with, if a value, a parameter list or nothing
follows. -/
def objectKey? (entry : List Char) : Option (List Char) := do
  let (name, rest) ← takeName? (trimStart entry)
  match trimStart rest with
  | [] => return name
  | c :: _ => if c = ':' || c = '(' then return name else none

/-- The keys of the exported objects, which do not overlap. The first `skip` characters are taken
already. -/
def objectKeysFrom : Nat → List Char → List (List Char)
  | _, [] => []
  | skip + 1, _ :: r => objectKeysFrom skip r
  | 0, c :: r =>
    match exportedObject? (c :: r) with
    | some (inside, length) =>
      (inside.splitOn ',').filterMap objectKey? ++ objectKeysFrom (length - 1) r
    | none => objectKeysFrom 0 r

/-! ## All names -/

def insertName (name : String) : List String → List String
  | [] => [name]
  | other :: rest =>
    if name < other then name :: other :: rest
    else if name = other then other :: rest
    else other :: insertName name rest

def exportedNames (source : String) : List String :=
  let s := source.toList
  (definedNames s ++ assignedNames s ++ objectKeysFrom 0 s).foldl
    (fun names name => insertName (String.ofList name) names) []

end ModuleLoader.CommonJs
