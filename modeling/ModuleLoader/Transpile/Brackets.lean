/-! Script text outside brackets and string literals: cutting it at separators that stand there. -/

namespace ModuleLoader.Transpile

/-- How deep in brackets a position is, the quote of the literal it is in, and whether a backslash
stands before it there. -/
structure Nesting where
  depth : Nat
  quote : Option Char
  escaped : Bool
deriving DecidableEq

namespace Nesting

def start : Nesting := ⟨0, none, false⟩

def isQuote (c : Char) : Bool := c == '"' || c == '\'' || c.toNat == 0x60

def isOpening (c : Char) : Bool := c == '(' || c == '[' || c == '\x7b'

def isClosing (c : Char) : Bool := c == ')' || c == ']' || c == '\x7d'

/-- The nesting after a character. A closing bracket without an opening one counts for nothing. -/
def next (n : Nesting) (c : Char) : Nesting :=
  match n.quote with
  | some q =>
    if n.escaped then { n with escaped := false }
    else if c == '\\' then { n with escaped := true }
    else if c == q then { n with quote := none }
    else n
  | none =>
    if isQuote c then { n with quote := some c }
    else if isOpening c then { n with depth := n.depth + 1 }
    else if isClosing c then { n with depth := n.depth - 1 }
    else n

/-- Whether a character at this nesting is plain text at depth zero. -/
def isTop (n : Nesting) (c : Char) : Bool :=
  n.quote.isNone && !isQuote c && !isOpening c && !isClosing c && n.depth == 0

end Nesting

/-- The pieces between the occurrences of `sep` at depth zero. -/
def splitTopFrom (sep : Char) : Nesting → List Char → List (List Char)
  | _, [] => [[]]
  | n, c :: r =>
    let pieces := splitTopFrom sep (n.next c) r
    if n.isTop c && c == sep then [] :: pieces
    else match pieces with
      | [] => [[c]]
      | piece :: rest => (c :: piece) :: rest

def splitTop (sep : Char) (s : List Char) : List (List Char) := splitTopFrom sep .start s

/-- Whether an `=` between these characters belongs to an arrow or a comparison. -/
def isOperatorPart (before after : Option Char) : Bool :=
  after == some '=' || after == some '>' ||
    before == some '=' || before == some '!' || before == some '<' || before == some '>'

/-- The text before and after the first `ch` at depth zero, given the character before the text.
An `=` that is part of a longer operator does not count. -/
def cutTopFrom? (ch : Char) : Nesting → Option Char → List Char → Option (List Char × List Char)
  | _, _, [] => none
  | n, before, c :: r =>
    if n.isTop c && c == ch && !(ch == '=' && isOperatorPart before r.head?) then some ([], r)
    else (cutTopFrom? ch (n.next c) (some c) r).map fun (front, rest) => (c :: front, rest)

def cutTop? (ch : Char) (s : List Char) : Option (List Char × List Char) :=
  cutTopFrom? ch .start none s

def beforeTop (ch : Char) (s : List Char) : List Char :=
  match cutTop? ch s with
  | some (front, _) => front
  | none => s

def afterTop (ch : Char) (s : List Char) : List Char :=
  match cutTop? ch s with
  | some (_, rest) => rest
  | none => s

end ModuleLoader.Transpile
