import ModuleLoader.Source.Basic
import ModuleLoader.Text.Utf8

/-! A tree of directories, files and links, looked through one component at a time: every directory
on the way has to exist, `..` leads to the directory that was entered last, and a link to what its
target names. -/

namespace ModuleLoader

open Text

inductive Node where
  | file (content : ByteArray)
  | lockedFile
  | directory (entries : List (String × Node))
  | lockedDirectory
  | link (target : Path)
  | socket

namespace Node

instance : Inhabited Node := ⟨directory []⟩

def alterEntry (name : String) (f : Option Node → Node) :
    List (String × Node) → List (String × Node)
  | [] => [(name, f none)]
  | (n, node) :: rest =>
    if n = name then (n, f (some node)) :: rest else (n, node) :: alterEntry name f rest

/-- The tree with `leaf` put at the path of names. Directories on the way are made as needed. -/
def place (leaf : Node) : List String → Option Node → Node
  | [], _ => leaf
  | name :: rest, some (directory entries) => directory (alterEntry name (place leaf rest) entries)
  | name :: rest, _ => directory [(name, place leaf rest none)]

/-- The tree with a directory at the path of names, unless one is there. -/
def placeDirectory : List String → Option Node → Node
  | [], some (directory entries) => directory entries
  | [], _ => directory []
  | name :: rest, some (directory entries) =>
    directory (alterEntry name (placeDirectory rest) entries)
  | name :: rest, _ => directory [(name, placeDirectory rest none)]

/-! ## Finding a place -/

def nameLimit : Nat := 255

/-- The number of bytes from which on a path is too long. -/
def pathLimit : Nat := 4096

/-- The number of links that are followed on the way to a place. -/
def linkLimit : Nat := 40

/-- Where one segment leads from the directories entered so far, innermost first. -/
def enter : List Node → List Char → Except ReadError (List Node)
  | directory entries :: above, segment =>
    if segment.isEmpty || Path.isDot segment then .ok (directory entries :: above)
    else if Path.isDotDot segment then .ok (if above.isEmpty then [directory entries] else above)
    else if nameLimit < byteLength segment then .error .nameTooLong
    else match entries.lookup (String.ofList segment) with
      | none => .error .missing
      | some node => .ok (node :: directory entries :: above)
  | lockedDirectory :: above, segment =>
    if segment.isEmpty then .ok (lockedDirectory :: above) else .error .permissionDenied
  | _, _ => .error .notDirectory

/-- Follows path segments up to a link. It is left to `next`, with its target and the segments behind
it, unless it is the last segment and is asked for itself. -/
def reachLink (followsLast : Bool)
    (next : List Node → Path → List (List Char) → Except ReadError Node) :
    List Node → List (List Char) → Except ReadError Node
  | [], [] => .error .missing
  | here :: _, [] => .ok here
  | stack, segment :: rest =>
    match enter stack segment with
    | .error error => .error error
    | .ok (link target :: above) =>
      if rest.isEmpty && !followsLast then .ok (link target) else next above target rest
    | .ok stack => reachLink followsLast next stack rest

/-- Where a link's target starts: at the root or at the directory of the link. -/
def linkBase (above : List Node) (target : Path) : List Node :=
  if target.isAbsolute then above.drop (above.length - 1) else above

/-- Follows path segments, and links up to a number of them. -/
def reach (followsLast : Bool) : Nat → List Node → List (List Char) → Except ReadError Node
  | 0 => reachLink followsLast fun _ _ _ => .error .tooManyLinks
  | links + 1 => reachLink followsLast fun above target rest =>
      reach followsLast links (linkBase above target) (target.segments ++ rest)

/-- What a path leads to. -/
def lookUp (root : Node) (followsLast : Bool) (base p : Path) : Except ReadError Node :=
  if p.text.toList.contains '\x00' then .error .containsNul
  else if p.text = "" then .error .missing
  else if pathLimit ≤ byteLength p.text.toList then .error .nameTooLong
  else reach followsLast linkLimit [root] (Path.absolutize base p).segments

def isFile : Node → Bool
  | file _ => true
  | lockedFile => true
  | _ => false

def isDirectory : Node → Bool
  | directory _ => true
  | lockedDirectory => true
  | _ => false

def read : Node → Except ReadError ByteArray
  | file content => .ok content
  | lockedFile => .error .permissionDenied
  | directory _ => .error .isDirectory
  | lockedDirectory => .error .permissionDenied
  | link _ => .error .tooManyLinks
  | socket => .error .noDevice

end Node

structure FileTree where
  root : Node
  workingDirectory : Path

namespace FileTree

def find (t : FileTree) (p : Path) : Except ReadError Node :=
  t.root.lookUp true t.workingDirectory p

/-- What a path leads to, a link itself if it leads to one. -/
def locate (t : FileTree) (p : Path) : Except ReadError Node :=
  t.root.lookUp false t.workingDirectory p

def existsFile (t : FileTree) (p : Path) : Bool :=
  match t.find p with
  | .ok node => node.isFile
  | .error _ => false

def existsDir (t : FileTree) (p : Path) : Bool :=
  match t.find p with
  | .ok node => node.isDirectory
  | .error _ => false

def read (t : FileTree) (p : Path) : Except ReadError ByteArray := t.find p >>= Node.read

def toSource {m : Type → Type} [Pure m] (t : FileTree) : FileSource m where
  kind := .filesystem
  existsFile p := pure (t.existsFile p)
  existsDir p := pure (t.existsDir p)
  read p := pure (t.read p)

end FileTree

end ModuleLoader
