import ModuleLoader.Source.Basic

/-! Bundles: flat maps from canonical names to contents. A canonical name has forward slashes only,
none in front, and neither `.` nor `..`, so that all spellings of a path share one entry. -/

namespace ModuleLoader

open Text

/-- Files under canonical names, in increasing order of their names. -/
structure Bundle where
  entries : List (String × ByteArray)

namespace Bundle

def empty : Bundle := ⟨[]⟩

/-- The path below the bundle's root that `p` names. A path that climbs above the root has none. -/
def canonical? (p : Path) : Option Path :=
  (Path.mk (String.ofList (p.display.toList.dropWhile (· == '/')))).normalize?

def key? (p : Path) : Option String := (canonical? p).map Path.display

def insertEntry (key : String) (content : ByteArray) :
    List (String × ByteArray) → List (String × ByteArray)
  | [] => [(key, content)]
  | (k, c) :: rest =>
    if key < k then (key, content) :: (k, c) :: rest
    else if k = key then (key, content) :: rest
    else (k, c) :: insertEntry key content rest

/-- The bundle with a file added or replaced. A path without a canonical name, and the root itself,
are refused. -/
def insert? (b : Bundle) (path : String) (content : ByteArray) : Option Bundle :=
  match key? ⟨path⟩ with
  | some key => if key = "" then none else some ⟨insertEntry key content b.entries⟩
  | none => none

def insert (b : Bundle) (path : String) (content : ByteArray) : Bundle :=
  (b.insert? path content).getD b

def ofEntries (files : List (String × ByteArray)) : Bundle :=
  files.foldl (fun b (path, content) => b.insert path content) empty

def keys (b : Bundle) : List String := b.entries.map Prod.fst

def size (b : Bundle) : Nat := b.entries.length

def find? (b : Bundle) (p : Path) : Option ByteArray :=
  (key? p).bind fun key => b.entries.lookup key

/-- The files that make their directory exist. -/
def markers : List String := ["package.json", "index.js", "index.mjs", "index.cjs"]

def existsFile (b : Bundle) (p : Path) : Bool := (b.find? p).isSome

def existsDir (b : Bundle) (p : Path) : Bool := markers.any fun name => b.existsFile (p.joinText name)

def read (b : Bundle) (p : Path) : Except ReadError ByteArray :=
  match b.find? p with
  | some content => .ok content
  | none => .error (.notInBundle p.text)

def toSource {m : Type → Type} [Pure m] (b : Bundle) : FileSource m where
  kind := .bundle
  existsFile p := pure (b.existsFile p)
  existsDir p := pure (b.existsDir p)
  read p := pure (b.read p)

end Bundle

end ModuleLoader
