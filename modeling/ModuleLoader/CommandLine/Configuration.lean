import ModuleLoader.CommandLine.Document
import ModuleLoader.Path

/-! What all commands are told. -/

namespace ModuleLoader

structure Configuration where
  workingDirectory : Path
  jsonLogs : Bool
  verbosity : Nat
deriving DecidableEq

def Configuration.document (c : Configuration) : Document :=
  .record
    [("cwd", .text c.workingDirectory.text), ("json_logs", .flag c.jsonLogs),
      ("verbosity", .count c.verbosity)]

end ModuleLoader
