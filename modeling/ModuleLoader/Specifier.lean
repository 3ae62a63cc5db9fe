import ModuleLoader.Text.Split
import ModuleLoader.Text.Word

/-! Specifiers: what a module writes to name another one, and the classes they fall into. -/

namespace ModuleLoader

open Text

inductive SpecifierKind where
  /-- `./x`, `../x`, `.` or `..` -/
  | relative
  /-- `/x` -/
  | absolute
  /-- `C:/x` -/
  | windowsAbsolute
  /-- `lodash`, `lodash/fp` -/
  | bare
  /-- `@scope/pkg` -/
  | scopedBare
  /-- `#internal` -/
  | hashImport
  /-- `file:///x` -/
  | fileUrl
deriving DecidableEq

namespace SpecifierKind

def toString : SpecifierKind → String
  | relative => "Relative"
  | absolute => "Absolute"
  | windowsAbsolute => "WindowsAbsolute"
  | bare => "Bare"
  | scopedBare => "Scoped"
  | hashImport => "HashImport"
  | fileUrl => "FileUrl"

instance : ToString SpecifierKind := ⟨SpecifierKind.toString⟩

/-- Whether specifiers of this kind name a file rather than a package. -/
def isPath : SpecifierKind → Bool
  | relative => true
  | absolute => true
  | windowsAbsolute => true
  | fileUrl => true
  | _ => false

end SpecifierKind

namespace Specifier

def urlScheme : List Char := "file://".toList

/-- A drive letter, a colon and a slash of either kind. -/
def isWindowsAbsolute (s : List Char) : Bool :=
  match s with
  | drive :: colon :: slash :: _ =>
    isAsciiLetter drive && colon == ':' && (slash == '/' || slash == '\\')
  | _ => false

/-- The slash in front of a drive letter does not belong to the path of a file URL. -/
def dropDriveSlash (s : List Char) : List Char :=
  match s with
  | slash :: drive :: colon :: rest =>
    if slash == '/' && isAsciiLetter drive && colon == ':' then drive :: colon :: rest else s
  | _ => s

def stripFileUrl (s : String) : String :=
  match after? urlScheme s.toList with
  | some rest => String.ofList (dropDriveSlash rest)
  | none => s

/-- The text that resolution works on: no scheme, and forward slashes only. -/
def normalize (raw : String) : String := forwardSlashes (stripFileUrl raw)

def isRelative (s : List Char) : Bool :=
  s == ['.'] || s == ['.', '.'] || startsWith ['.', '/'] s || startsWith ['.', '.', '/'] s

def kind (raw : String) : SpecifierKind :=
  let s := (forwardSlashes raw).toList
  if startsWith urlScheme raw.toList then .fileUrl
  else if startsWith ['#'] s then .hashImport
  else if isRelative s then .relative
  else if startsWith ['/'] s then .absolute
  else if isWindowsAbsolute s then .windowsAbsolute
  else if startsWith ['@'] s then .scopedBare
  else .bare

end Specifier

end ModuleLoader
