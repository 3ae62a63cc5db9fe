import ModuleLoader.Text.Split

/-! Slash-separated paths. A path is kept as the text it was written with; its components are what
it means. Empty pieces and inner `.` pieces mean nothing, and a `.` in front is a component of its
own. -/

namespace ModuleLoader

open Text

structure Path where
  text : String
deriving DecidableEq, Inhabited

namespace Path

inductive Component where
  | root
  | here
  | up
  | name (text : String)
deriving DecidableEq

def segments (p : Path) : List (List Char) := p.text.toList.splitOn '/'

def ofSegments (segments : List (List Char)) : Path := ⟨String.ofList (['/'].intercalate segments)⟩

def isAbsolute (p : Path) : Bool := startsWith ['/'] p.text.toList

def isDot (segment : List Char) : Bool := segment == ['.']

def isDotDot (segment : List Char) : Bool := segment == ['.', '.']

/-- What a piece after the first one means. -/
def innerComponent? (segment : List Char) : Option Component :=
  if segment.isEmpty || isDot segment then none
  else if isDotDot segment then some .up
  else some (.name (String.ofList segment))

/-- What the first piece means. An empty one before a slash is the root. -/
def firstComponent? (segment : List Char) (isLast : Bool) : Option Component :=
  if segment.isEmpty then (if isLast then none else some .root)
  else if isDot segment then some .here
  else innerComponent? segment

def components (p : Path) : List Component :=
  match p.segments with
  | [] => []
  | first :: rest => (firstComponent? first rest.isEmpty).toList ++ rest.filterMap innerComponent?

/-- Whether two paths mean the same, however they are written. -/
def same (p q : Path) : Bool := p.components == q.components

/-- The path `q` as seen from the directory `p`. An absolute path replaces it. -/
def join (p q : Path) : Path :=
  if q.isAbsolute then q
  else if p.text.toList = [] || p.text.toList.getLast? = some '/' then ⟨p.text ++ q.text⟩
  else ⟨p.text ++ "/" ++ q.text⟩

def joinText (p : Path) (text : String) : Path := p.join ⟨text⟩

/-! ## The last component -/

/-- Reversed pieces without those at the end that mean nothing. The first piece always stays. -/
def dropIdle : List (List Char) → List (List Char)
  | [] => []
  | [first] => [first]
  | segment :: rest =>
    if segment.isEmpty || isDot segment then dropIdle rest else segment :: rest

/-- The path without its last component. The root and the empty path have none to drop. -/
def parent? (p : Path) : Option Path :=
  match dropIdle p.segments.reverse with
  | [] => none
  | [first] => if first.isEmpty then none else some ⟨""⟩
  | _ :: rest =>
    match dropIdle rest with
    | [[]] => some ⟨"/"⟩
    | rest => some (ofSegments rest.reverse)

def fileName? (p : Path) : Option String :=
  match p.components.getLast? with
  | some (.name text) => some text
  | _ => none

/-- What follows the last dot of a file name. A dot in front does not count. -/
def extensionOf? (name : List Char) : Option (List Char) :=
  match (name.splitOn '.').reverse with
  | last :: first :: rest => if first.isEmpty && rest.isEmpty then none else some last
  | _ => none

def extension? (p : Path) : Option String :=
  p.fileName?.bind fun name => (extensionOf? name.toList).map String.ofList

/-- The path and the paths that dropping components one by one leaves, at most `fuel` times. -/
def ancestorsFrom : Nat → Path → List Path
  | 0, p => [p]
  | fuel + 1, p =>
    match p.parent? with
    | some q => p :: ancestorsFrom fuel q
    | none => [p]

/-- The path and every directory above it, nearest first. -/
def ancestors (p : Path) : List Path := ancestorsFrom p.segments.length p

/-! ## Below another path -/

def isIdle (segment : List Char) : Bool := (innerComponent? segment).isNone

/-- The pieces that are left of a path's pieces when components are taken off the front. -/
def piecesAfter? : List Component → List (List Char) → Option (List (List Char))
  | [], segments => some segments
  | _ :: _, [] => none
  | c :: components, segment :: rest =>
    match innerComponent? segment with
    | none => piecesAfter? (c :: components) rest
    | some d => if c = d then piecesAfter? components rest else none

/-- The path without pieces at the end that mean nothing. -/
def trimEnd (p : Path) : Path :=
  match dropIdle p.segments.reverse with
  | [[]] => if p.isAbsolute then ⟨"/"⟩ else ⟨""⟩
  | segments => ofSegments segments.reverse

/-- What is left of `p` behind the components of `root`, if they are the first ones of `p`. -/
def relativeTo? (root p : Path) : Option Path :=
  match root.components, p.segments with
  | [], _ => some p.trimEnd
  | _ :: _, [] => none
  | c :: components, first :: rest =>
    if firstComponent? first rest.isEmpty = some c then
      (piecesAfter? components rest).map fun pieces =>
        ofSegments ((pieces.dropWhile isIdle).reverse.dropWhile isIdle).reverse
    else none

/-! ## Normal form -/

/-- Cancels each `..` against the name before it. The names kept so far are reversed. A `..` at the
root is dropped, and one that would climb above a relative start has no normal form. -/
def settle (rooted : Bool) : List Component → List String → Option (List String)
  | [], names => some names.reverse
  | .root :: rest, names => settle rooted rest names
  | .here :: rest, names => settle rooted rest names
  | .up :: rest, [] => if rooted then settle rooted rest [] else none
  | .up :: rest, _ :: names => settle rooted rest names
  | .name text :: rest, names => settle rooted rest (text :: names)

/-- The path of the given names below the root or below a relative start. -/
def ofNames (rooted : Bool) (names : List String) : Path :=
  ⟨(if rooted then "/" else "") ++ "/".intercalate names⟩

/-- The path without `.` and `..`, by its text alone. -/
def normalize? (p : Path) : Option Path :=
  (settle p.isAbsolute p.components []).map (ofNames p.isAbsolute)

/-- A relative path as seen from `base`. No `..` is cancelled. -/
def absolutize (base p : Path) : Path := if p.isAbsolute then p else base.join p

/-- The text of a path with forward slashes only, for display and for keys. -/
def display (p : Path) : String := forwardSlashes p.text

def append (p : Path) (suffix : String) : Path := ⟨p.text ++ suffix⟩

def isTypeScript (p : Path) : Bool :=
  match p.extension? with
  | some ext => ["ts", "tsx", "mts", "cts"].contains ext
  | none => false

end Path

end ModuleLoader
