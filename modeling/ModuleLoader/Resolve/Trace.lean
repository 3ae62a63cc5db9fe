import ModuleLoader.Path

/-! Traces: what resolution looked at, step by step. -/

namespace ModuleLoader

structure TraceStep where
  step : String
  ok : Bool
  detail : String
  path : Option Path := none
  condition : Option String := none
  key : Option String := none
  target : Option String := none
  notes : List String := []
deriving DecidableEq

structure TraceWarning where
  code : String
  message : String
deriving DecidableEq

/-- The steps and warnings in order, and the first candidate paths that were probed. -/
structure Trace where
  steps : List TraceStep
  warnings : List TraceWarning
  tried : List Path

namespace Trace

def triedLimit : Nat := 20

def empty : Trace := ⟨[], [], []⟩

def addStep (t : Trace) (step : TraceStep) : Trace := { t with steps := t.steps ++ [step] }

def addWarning (t : Trace) (code message : String) : Trace :=
  { t with warnings := t.warnings ++ [⟨code, message⟩] }

/-- Records a probed path, unless the record is full. -/
def addTried (t : Trace) (path : Path) : Trace :=
  if t.tried.length < triedLimit then { t with tried := t.tried ++ [path] } else t

def hasWarning (t : Trace) (code : String) : Bool := t.warnings.any (·.code == code)

end Trace

/-! ## Names of steps and warnings -/

namespace TraceStep

def parseSpecifier : String := "parse_specifier"
def classifySpecifier : String := "classify_specifier"
def resolveHashImport : String := "resolve_hash_import"
def findPackageJson : String := "find_package_json"
def matchImportsKey : String := "match_imports_key"
def searchNodeModules : String := "search_node_modules"
def findPackageDir : String := "find_package_dir"
def matchExportsKey : String := "match_exports_key"
def resolveMain : String := "resolve_main"
def resolveIndex : String := "resolve_index"
def fileExists : String := "file_exists"
def resolvePath : String := "resolve_path"
def resolveDirectory : String := "resolve_directory"
def detectFormat : String := "detect_format"
def finalPath : String := "final_path"

end TraceStep

namespace TraceWarning

/-- A subpath of a package without `exports` was taken for a path. -/
def missingExports : String := "MISSING_EXPORTS"

/-- A bare specifier was taken for the path of a bundle file. -/
def bundleBarePath : String := "BUNDLE_BARE_PATH"

/-- A `package.json` that is no object was taken for absent. -/
def invalidPackageJsonIgnored : String := "INVALID_PACKAGE_JSON_IGNORED"

end TraceWarning

end ModuleLoader
