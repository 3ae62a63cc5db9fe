import ModuleLoader.Json.Value
import ModuleLoader.Path

/-! Targets of `exports` and `imports`. A tree of strings, fallback lists and condition maps is
evaluated to one target; a map of subpaths selects the tree to evaluate, by an exact key first and
by keys with one `*` after that. -/

namespace ModuleLoader

open Text

/-- The field that a target stands in. Targets of `imports` may name packages. -/
inductive TargetField where
  | exports
  | imports
deriving DecidableEq

inductive TargetError where
  /-- A target of no permitted form. -/
  | invalid (target : String)
  /-- A target of a pattern with more than one `*`. -/
  | unsupportedPattern (target : String)
deriving DecidableEq

/-- A target, the key that selected it and the innermost condition on the way to it. -/
structure TargetMatch where
  target : String
  key : String
  condition : Option String
deriving DecidableEq

namespace Target

/-- A target with the innermost condition on the way to it. -/
structure Leaf where
  target : String
  condition : Option String
deriving DecidableEq

/-- The outcome of evaluating a tree. No leaf is no error. -/
abbrev Outcome := Except TargetError (Option Leaf)

def hasParentSegment (target : String) : Bool := (target.toList.splitOn '/').any Path.isDotDot

/-- Whether a target may name a package: it is no path and no URL. -/
def isPackageTarget (target : String) : Bool :=
  let s := target.toList
  !s.isEmpty && !startsWith ['/'] s && !startsWith ['.'] s && !contains "://".toList s

def isPathTarget (target : String) : Bool := startsWith ['.', '/'] target.toList

def isPermitted (field : TargetField) (target : String) : Bool :=
  if isPathTarget target then !hasParentSegment target
  else field == .imports && isPackageTarget target

/-- A string is the target itself. Asked for anything but the package itself, it answers only to its
own text. -/
def evaluateLeaf (field : TargetField) (subpath target : String) : Outcome :=
  if subpath ≠ "." && subpath ≠ target then .ok none
  else if isPermitted field target then .ok (some ⟨target, none⟩)
  else .error (.invalid target)

/-- The first leaf found, else the last error, else nothing. -/
def firstLeaf : Option TargetError → List Outcome → Outcome
  | none, [] => .ok none
  | some e, [] => .error e
  | _, .ok (some leaf) :: _ => .ok (some leaf)
  | last, .ok none :: rest => firstLeaf last rest
  | _, .error e :: rest => firstLeaf (some e) rest

/-- Marks a leaf with the condition it was found under, unless an inner one marks it already. -/
def under (condition : String) (outcome : Outcome) : Outcome :=
  outcome.map (·.map fun leaf => { leaf with condition := leaf.condition.or (some condition) })

mutual

/-- The outcome of a tree. Conditions are tried in the order of the list, not of the tree. -/
def evaluate (conditions : List String) (field : TargetField) (subpath : String) : Json → Outcome
  | .string target => evaluateLeaf field subpath target
  | .array items => firstLeaf none (evaluateItems conditions field subpath items)
  | .object ⟨entries⟩ =>
    let outcomes := evaluateMembers conditions field subpath entries
    firstLeaf none (conditions.filterMap fun c => (outcomes.lookup c).map (under c))
  | _ => .ok none

def evaluateItems (conditions : List String) (field : TargetField) (subpath : String) :
    List Json → List Outcome
  | [] => []
  | item :: rest =>
    evaluate conditions field subpath item :: evaluateItems conditions field subpath rest

def evaluateMembers (conditions : List String) (field : TargetField) (subpath : String) :
    List (String × Json) → List (String × Outcome)
  | [] => []
  | (key, value) :: rest =>
    (key, evaluate conditions field subpath value) :: evaluateMembers conditions field subpath rest

end

/-! ## Patterns -/

/-- What the `*` of a pattern stands for in a subpath, if the subpath matches. It is not empty. -/
def matchPattern? (pattern subpath : String) : Option String :=
  match cutAt? ['*'] pattern.toList with
  | none => none
  | some (front, tail) =>
    match after? front subpath.toList with
    | none => none
    | some rest =>
      match after? tail.reverse rest.reverse with
      | none => none
      | some capture => if capture.isEmpty then none else some (String.ofList capture.reverse)

def starCount (s : String) : Nat := s.toList.count '*'

/-- The target with its `*`, if any, replaced by the capture. -/
def substituteStar (target capture : String) : Except TargetError String :=
  match starCount target with
  | 0 => .ok target
  | 1 =>
    match cutAt? ['*'] target.toList with
    | some (front, tail) => .ok (String.ofList (front ++ capture.toList ++ tail))
    | none => .ok target
  | _ => .error (.unsupportedPattern target)

/-! ## Subpath maps -/

def isSubpathKey (key : String) : Bool :=
  match key.toList with
  | c :: _ => c == '.' || c == '/' || c == '#'
  | [] => false

/-- The outcome of the first pattern key that the subpath matches. It decides alone: nothing at it
is nothing at all. -/
def selectPattern (conditions : List String) (field : TargetField) (subpath : String) :
    List (String × Json) → Except TargetError (Option TargetMatch)
  | [] => .ok none
  | (key, value) :: rest =>
    match (if starCount key = 1 then matchPattern? key subpath else none) with
    | none => selectPattern conditions field subpath rest
    | some capture => do
      match ← evaluate conditions field "." value with
      | none => return none
      | some leaf =>
        let target ← substituteStar leaf.target capture
        if hasParentSegment target then throw (.invalid target)
        else return some ⟨target, key, leaf.condition⟩

def selectSubpath (conditions : List String) (field : TargetField) (subpath : String)
    (members : Members Json) : Except TargetError (Option TargetMatch) :=
  match members.get? subpath with
  | some value => do
    let leaf? ← evaluate conditions field "." value
    return leaf?.map fun leaf => ⟨leaf.target, subpath, leaf.condition⟩
  | none => selectPattern conditions field subpath members.entries

/-- The target that a tree of `exports` or `imports` gives for a subpath. A tree that is no map of
subpaths speaks for the package itself. -/
def select (conditions : List String) (field : TargetField) (subpath : String) (tree : Json) :
    Except TargetError (Option TargetMatch) :=
  let shorthand : Except TargetError (Option TargetMatch) := do
    let leaf? ← evaluate conditions field subpath tree
    return leaf?.map fun leaf => ⟨leaf.target, ".", leaf.condition⟩
  match tree with
  | .object members =>
    if members.keys.any isSubpathKey then selectSubpath conditions field subpath members
    else shorthand
  | _ => shorthand

end Target

end ModuleLoader
