import ModuleLoader.Transpile.Emit

/-! The CommonJS text of an ES module. It has a line for every line of the source: statements change
in place, a list in braces over several lines moves onto its first line, and the header goes after
the directives in front or else to the start of the first line. -/

namespace ModuleLoader.Transpile

open Text

/-! ## Lists over several lines -/

/-- Whether a line without its indentation opens a list of names in braces. -/
def opensList (s : List Char) : Bool :=
  match after? "import".toList s with
  | some rest =>
    match blanks? rest with
    | none => false
    | some clause =>
      startsWith ['\x7b'] clause ||
        match takeName? clause with
        | some (_, rest) =>
          match trimStart rest with
          | ',' :: r => startsWith ['\x7b'] (trimStart r)
          | _ => false
        | none => false
  | none =>
    match after? "export".toList s with
    | some rest => startsWith ['\x7b'] (trimStart rest)
    | none => false

def closesList (line : List Char) : Bool := line.contains '\x7d'

def isOpenList (line : List Char) : Bool :=
  let s := trimStart line
  opensList s && !closesList s

def joinLines (first : List Char) (rest : List (List Char)) : List Char :=
  trimEnd first ++ rest.flatMap fun line => ' ' :: trim line

/-- The lines with every list on its first line and its other lines empty. The first `skip` lines
belong to a list already. -/
def joinListsFrom : Nat → List (List Char) → List (List Char)
  | _, [] => []
  | skip + 1, _ :: rest => [] :: joinListsFrom skip rest
  | 0, line :: rest =>
    match (if isOpenList line then rest.findIdx? closesList else none) with
    | some i => joinLines line (rest.take (i + 1)) :: joinListsFrom (i + 1) rest
    | none => line :: joinListsFrom 0 rest

def joinLists (lines : List (List Char)) : List (List Char) := joinListsFrom 0 lines

/-! ## Statements -/

/-- What the statements so far have left: the temporaries used, the getters in order, and whether
anything was exported. -/
structure Progress where
  temporaries : Nat
  getters : List Getter
  hasExports : Bool

def Progress.start : Progress := ⟨0, [], false⟩

def Progress.add (p : Progress) (e : Emission) : Progress :=
  ⟨p.temporaries + e.temporaries, p.getters ++ e.getters, p.hasExports || e.isExport⟩

def indentation (line : List Char) : List Char := line.takeWhile isBlank

/-- The line with its statement emitted. A line that holds no statement stays as it is. -/
def emitLine (p : Progress) (line : List Char) : List Char × Progress :=
  match Statement.recognize? (trimStart line) with
  | none => (line, p)
  | some statement =>
    let e := statement.emit p.temporaries
    (if e.text = "" then [] else indentation line ++ e.text.toList, p.add e)

def emitLines : Progress → List (List Char) → List (List Char) × Progress
  | p, [] => ([], p)
  | p, line :: rest =>
    let (out, p) := emitLine p line
    let (outs, p) := emitLines p rest
    (out :: outs, p)

/-! ## The header -/

/-- A first line that names an interpreter is no script. -/
def dropInterpreter : List (List Char) → List (List Char)
  | [] => []
  | first :: rest => (if startsWith ['#', '!'] first then [] else first) :: rest

/-- Whether a line is one string literal without escapes. -/
def isDirective (line : List Char) : Bool :=
  match trimStart line with
  | q :: r =>
    let plain (c : Char) : Bool := c != q && c != '\\'
    isQuoteMark q && startsWith [q] (r.dropWhile plain) &&
      match trimStart ((r.dropWhile plain).drop 1) with
      | [] => true
      | ';' :: rest => (trimStart rest).isEmpty
      | _ => false
  | [] => false

/-- Whether a line is blank or a line comment. -/
def isIdleLine (line : List Char) : Bool :=
  (trim line).isEmpty || startsWith ['/', '/'] (trim line)

/-- The number of lines up to the last directive in front, if there is one. -/
def directivesEnd? : List (List Char) → Option Nat
  | [] => none
  | line :: rest =>
    if isIdleLine line then (directivesEnd? rest).map (· + 1)
    else if isDirective line then some ((directivesEnd? rest).elim 1 (· + 1))
    else none

def afterDirective (header line : List Char) : List Char :=
  let line := trimEnd line
  (if line.getLast? = some ';' then line else line ++ [';']) ++ ' ' :: header

def beforeLine (header line : List Char) : List Char :=
  if line.isEmpty then header else header ++ ' ' :: line

def insertHeader (header : List Char) (lines : List (List Char)) : List (List Char) :=
  match directivesEnd? lines, lines with
  | some n, _ => lines.modify (n - 1) (afterDirective header)
  | none, [] => [header]
  | none, first :: rest => beforeLine header first :: rest

/-! ## The whole text -/

def transpileLines (lines : List (List Char)) : List (List Char) :=
  let (out, p) := emitLines .start (joinLists lines)
  let out := dropInterpreter out
  if p.hasExports then insertHeader (headerText p.getters).toList out else out

def transpile (source : String) : String :=
  let s := source.toList
  let body := ['\n'].intercalate (transpileLines (lines s))
  String.ofList (if s.getLast? = some '\n' then body ++ ['\n'] else body)

end ModuleLoader.Transpile
