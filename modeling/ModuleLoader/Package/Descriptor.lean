import ModuleLoader.Json.Parser
import ModuleLoader.Source.Basic

/-! Package descriptors: the fields of a `package.json` that resolution looks at. -/

namespace ModuleLoader

inductive PackageType where
  | module
  | commonjs
  | unspecified
deriving DecidableEq

def PackageType.toString : PackageType → String
  | module => "module"
  | commonjs => "commonjs"
  | unspecified => "unspecified"

instance : ToString PackageType := ⟨PackageType.toString⟩

structure PackageDescriptor where
  root : Path
  name : Option String
  type : PackageType
  main : Option String
  exports : Option Json
  imports : Option Json

def manifestName : String := "package.json"

namespace PackageDescriptor

def packageType (members : Members Json) : PackageType :=
  match (members.get? "type").bind Json.string? with
  | some "module" => .module
  | some "commonjs" => .commonjs
  | _ => .unspecified

/-- The fields of a parsed `package.json`, if it is an object. An empty `main` and null trees count
as absent. -/
def ofJson? (root : Path) : Json → Option PackageDescriptor
  | .object members =>
    some {
      root := root
      name := (members.get? "name").bind Json.string?
      type := packageType members
      main := ((members.get? "main").bind Json.string?).filter (· ≠ "")
      exports := (members.get? "exports").filter (!·.isNull)
      imports := (members.get? "imports").filter (!·.isNull) }
  | _ => none

def isModule (d : PackageDescriptor) : Bool := d.type == .module

def manifest (d : PackageDescriptor) : Path := d.root.joinText manifestName

end PackageDescriptor

inductive ManifestFault where
  | unreadable (error : ReadError)
  | malformed (error : Json.ParseError)
  | notAnObject
deriving DecidableEq

def ManifestFault.reason : ManifestFault → String
  | unreadable error => error.message
  | malformed error => error.message
  | notAnObject => "package.json is not an object"

inductive PackageLookup where
  | missing
  | invalid (fault : ManifestFault)
  | loaded (descriptor : PackageDescriptor)

namespace PackageLookup

def descriptor? : PackageLookup → Option PackageDescriptor
  | loaded descriptor => some descriptor
  | _ => none

def ofText (root : Path) (text : String) : PackageLookup :=
  match Json.parse text with
  | .error error => .invalid (.malformed error)
  | .ok value =>
    match PackageDescriptor.ofJson? root value with
    | some descriptor => .loaded descriptor
    | none => .invalid .notAnObject

def read {m : Type → Type} [Monad m] (source : FileSource m) (root : Path) : m PackageLookup := do
  let manifest := root.joinText manifestName
  if ← source.existsFile manifest then
    match ← source.read manifest with
    | .error error => return .invalid (.unreadable error)
    | .ok bytes => return ofText root (Text.readLossy bytes)
  else return .missing

end PackageLookup

end ModuleLoader
