import ModuleLoader.CommandLine.Document
import ModuleLoader.Resolve.Basic
import ModuleLoader.Resolve.Error
import ModuleLoader.Resolve.Trace
import ModuleLoader.Version

/-! Reports on a resolution, as documents and as text for people. -/

namespace ModuleLoader

structure ResolveReport where
  specifier : String
  mode : ResolveMode
  answer : Except ResolveError ResolvedModule
  trace : Option Trace

/-! ## Documents -/

/-- A field that is left out where there is no value. -/
def Document.optional (name : String) (value : Option Document) : List (String × Document) :=
  (value.map fun v => (name, v)).toList

def Document.texts (items : List String) : Document := .list (items.map .text)

def ResolvedModule.document (r : ResolvedModule) : Document :=
  .record
    [("path", .text r.path.text), ("storage", .text r.storage.toString),
      ("format", .text r.format.toString)]

def ResolveError.document (e : ResolveError) : Document :=
  .record [("code", .text e.code), ("message", .text e.message)]

def TraceStep.document (s : TraceStep) : Document :=
  .record ([("step", .text s.step), ("ok", .flag s.ok), ("detail", .text s.detail)] ++
    Document.optional "path" (s.path.map fun p => .text p.text) ++
    Document.optional "condition" (s.condition.map .text) ++
    Document.optional "key" (s.key.map .text) ++
    Document.optional "target" (s.target.map .text) ++
    Document.optional "notes" (if s.notes.isEmpty then none else some (Document.texts s.notes)))

def TraceWarning.document (w : TraceWarning) : Document :=
  .record [("code", .text w.code), ("message", .text w.message)]

def Trace.document (t : Trace) : Document :=
  .record
    [("steps", .list (t.steps.map TraceStep.document)),
      ("warnings", .list (t.warnings.map TraceWarning.document)),
      ("tried", Document.texts (t.tried.map Path.text))]

namespace ResolveReport

def isOk (r : ResolveReport) : Bool :=
  match r.answer with
  | .ok _ => true
  | .error _ => false

def outcomeFields (r : ResolveReport) : List (String × Document) :=
  match r.answer with
  | .ok resolved => [("resolved", resolved.document)]
  | .error error => [("error", error.document)]

def document (r : ResolveReport) : Document :=
  .record ([("schema_version", .count Version.reportSchema), ("ok", .flag r.isOk),
    ("specifier", .text r.specifier), ("mode", .text r.mode.toString)] ++ r.outcomeFields ++
    Document.optional "trace" (r.trace.map Trace.document))

end ResolveReport

/-! ## Text -/

def TraceStep.nameWidth : Nat := 20

def TraceStep.line (s : TraceStep) : String :=
  let labelled (label : String) (value : Option String) : String :=
    match value with
    | some v => label ++ v
    | none => ""
  let place := match s.path with
    | some p => " (" ++ p.display ++ ")"
    | none => ""
  "  " ++ (if s.ok then "ok  " else "FAIL") ++ " " ++
    String.ofList (s.step.toList.rightpad TraceStep.nameWidth ' ') ++ " " ++ s.detail ++
    labelled " key=" s.key ++ labelled " condition=" s.condition ++ labelled " target=" s.target ++
    place ++ String.join (s.notes.map fun note => " [" ++ note ++ "]") ++ "\n"

def TraceWarning.line (w : TraceWarning) : String :=
  "  warning[" ++ w.code ++ "]: " ++ w.message ++ "\n"

def Trace.triedLines (t : Trace) : String :=
  if t.tried.isEmpty then ""
  else "  tried:\n" ++ String.join (t.tried.map fun p => "    " ++ p.display ++ "\n")

def Trace.lines (t : Trace) : String :=
  String.join (t.steps.map TraceStep.line) ++ String.join (t.warnings.map TraceWarning.line) ++
    t.triedLines

namespace ResolveReport

def resolvedLines (r : ResolveReport) : String :=
  match r.answer with
  | .ok resolved =>
    resolved.path.display ++ "\n" ++ "  format: " ++ resolved.format.toString ++ "  storage: " ++
      resolved.storage.toString ++ "\n"
  | .error _ => ""

def traceLines (r : ResolveReport) : String :=
  match r.trace with
  | some t => "\ntrace (" ++ r.mode.toString ++ "):\n" ++ t.lines
  | none => ""

def text (r : ResolveReport) : String := r.resolvedLines ++ r.traceLines

/-- The line that tells people of a failure. -/
def diagnostics (r : ResolveReport) : String :=
  match r.answer with
  | .ok _ => ""
  | .error error => "error[" ++ error.code ++ "]: " ++ error.message ++ "\n"

end ResolveReport

end ModuleLoader
