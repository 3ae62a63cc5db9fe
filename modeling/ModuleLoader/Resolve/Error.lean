import ModuleLoader.Package.Descriptor

/-! Why a specifier does not resolve. -/

namespace ModuleLoader

inductive ResolveError where
  | emptySpecifier
  | invalidPackageName (specifier : String)
  | moduleNotFound (specifier : String) (referrer : String)
  | directoryImport (path : Path)
  | extensionRequired (path : Path)
  | packageNotFound (name : String) (referrer : String)
  | exportNotFound (subpath : String) (root : Path)
  | importNotDefined (specifier : String) (manifest : Path)
  | invalidPackageTarget (key target : String) (root : Path)
  | unsupportedPattern (target : String)
  | invalidPackageJson (path : Path) (reason : String)
deriving DecidableEq

namespace ResolveError

def code : ResolveError → String
  | emptySpecifier => "EMPTY_SPECIFIER"
  | invalidPackageName _ => "INVALID_PACKAGE_NAME"
  | moduleNotFound _ _ => "MODULE_NOT_FOUND"
  | directoryImport _ => "DIRECTORY_IMPORT"
  | extensionRequired _ => "EXTENSION_REQUIRED"
  | packageNotFound _ _ => "PACKAGE_NOT_FOUND"
  | exportNotFound _ _ => "EXPORT_NOT_FOUND"
  | importNotDefined _ _ => "IMPORT_NOT_DEFINED"
  | invalidPackageTarget _ _ _ => "INVALID_PACKAGE_TARGET"
  | unsupportedPattern _ => "UNSUPPORTED_PATTERN"
  | invalidPackageJson _ _ => "INVALID_PACKAGE_JSON"

def message : ResolveError → String
  | emptySpecifier => "empty module specifier"
  | invalidPackageName specifier => "invalid package name in specifier '" ++ specifier ++ "'"
  | moduleNotFound specifier referrer =>
    "cannot find module '" ++ specifier ++ "' from '" ++ referrer ++ "'"
  | directoryImport path =>
    "directory import '" ++ path.text ++ "' is not supported when importing; specify the file"
  | extensionRequired path =>
    "cannot find module '" ++ path.text ++ "'; import paths must include a file extension"
  | packageNotFound name referrer =>
    "cannot find package '" ++ name ++ "' from '" ++ referrer ++ "'"
  | exportNotFound subpath root =>
    "package subpath '" ++ subpath ++ "' is not exported by '" ++ root.text ++ "'"
  | importNotDefined specifier manifest =>
    "package import specifier '" ++ specifier ++ "' is not defined in '" ++ manifest.text ++ "'"
  | invalidPackageTarget key target root =>
    "invalid package target '" ++ target ++ "' for '" ++ key ++ "' in '" ++ root.text ++ "'"
  | unsupportedPattern target =>
    "unsupported pattern target '" ++ target ++ "': more than one '*'"
  | invalidPackageJson path reason =>
    "invalid package.json at '" ++ path.text ++ "': " ++ reason

/-- Whether nothing was found, as opposed to something that is wrong. -/
def isNotFound : ResolveError → Bool
  | moduleNotFound _ _ => true
  | extensionRequired _ => true
  | packageNotFound _ _ => true
  | exportNotFound _ _ => true
  | importNotDefined _ _ => true
  | _ => false

end ResolveError

end ModuleLoader
