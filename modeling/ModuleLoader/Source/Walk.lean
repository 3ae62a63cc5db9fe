import ModuleLoader.Source.Tree

/-! Walks through a directory tree, in depth-first order with siblings by name. A walk does not
follow links, except one that it starts from. -/

namespace ModuleLoader

open Text

inductive EntryKind where
  | file
  | directory
  | link
  | other
deriving DecidableEq

structure Visit where
  path : Path
  kind : EntryKind
deriving DecidableEq

/-- What is visited, in order, and what goes wrong on the way. -/
abbrev Walk := List (Except ReadError Visit)

/-- The files that a walk from `root` visits, each under its name relative to `root` and under its
path. An error spoils the list. -/
def Walk.files (root : Path) : Walk → Except ReadError (List (String × Path))
  | [] => .ok []
  | .error error :: _ => .error error
  | .ok visit :: rest =>
    if visit.kind ≠ .file then Walk.files root rest
    else match root.relativeTo? visit.path with
      | none => Walk.files root rest
      | some name => (Walk.files root rest).map ((name.display, visit.path) :: ·)

/-- Entries in the order of their names. -/
def sortByName {α : Type} (entries : List (String × α)) : List (String × α) :=
  entries.mergeSort fun a b => !(b.1 < a.1)

namespace Node

def kind : Node → EntryKind
  | file _ => .file
  | lockedFile => .file
  | directory _ => .directory
  | lockedDirectory => .directory
  | link _ => .link
  | socket => .other

mutual

/-- What is visited below a node that is at `p`. -/
def visitsBelow (p : Path) : Node → Walk
  | directory entries =>
    if pathLimit ≤ byteLength p.text.toList then [.error (.atEntry p .nameTooLong)]
    else (sortByName (entryVisits p entries)).flatMap Prod.snd
  | lockedDirectory => [.error (.atEntry p .permissionDenied)]
  | _ => []

def entryVisits (p : Path) : List (String × Node) → List (String × Walk)
  | [] => []
  | (name, node) :: rest =>
    (name, .ok ⟨p.joinText name, node.kind⟩ :: visitsBelow (p.joinText name) node) ::
      entryVisits p rest

end

/-- What is visited from a node on that is at `p`. -/
def visits (p : Path) (node : Node) : Walk := .ok ⟨p, node.kind⟩ :: node.visitsBelow p

end Node

namespace FileTree

/-- The walk that starts at `p`. -/
def walk (t : FileTree) (p : Path) : Walk :=
  match t.locate p with
  | .error error => [.error (.atEntry p error)]
  | .ok (.link _) =>
    match t.find p with
    | .error error => [.error (.atEntry p error)]
    | .ok node => .ok ⟨p, .link⟩ :: node.visitsBelow p
  | .ok node => node.visits p

def collectFiles (t : FileTree) (p : Path) : Except ReadError (List (String × Path)) :=
  (t.walk p).files p

end FileTree

end ModuleLoader
