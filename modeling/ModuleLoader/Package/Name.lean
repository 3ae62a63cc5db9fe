import ModuleLoader.Text.Split

/-! Bare specifiers: a package name and what is asked of that package. -/

namespace ModuleLoader

open Text

/-- A package and a subpath of it, which is `.` for the package itself. -/
structure BareSpecifier where
  package : String
  subpath : String
deriving DecidableEq

namespace BareSpecifier

def notSlash (c : Char) : Bool := c != '/'

/-- The name's text, its last segment and what follows it. A scope is part of the name. -/
def splitName? (s : List Char) : Option (List Char × List Char × List Char) :=
  let first := s.takeWhile notSlash
  let rest := s.dropWhile notSlash
  if startsWith ['@'] s then
    match rest with
    | [] => none
    | slash :: below =>
      if first = ['@'] then none
      else
        let second := below.takeWhile notSlash
        some (first ++ slash :: second, second, below.dropWhile notSlash)
  else some (first, first, rest)

/-- Whether a name may stand as a directory of packages. -/
def isValidName (name last : List Char) : Bool :=
  !name.isEmpty && !last.isEmpty && !startsWith ['.'] name && !name.contains '\\' &&
    !name.contains '%'

def subpathOf (rest : List Char) : List Char :=
  if rest.isEmpty || rest == ['/'] then ['.'] else '.' :: rest

def parse? (spec : String) : Option BareSpecifier :=
  match splitName? spec.toList with
  | none => none
  | some (name, last, rest) =>
    if isValidName name last then some ⟨String.ofList name, String.ofList (subpathOf rest)⟩
    else none

end BareSpecifier

end ModuleLoader
