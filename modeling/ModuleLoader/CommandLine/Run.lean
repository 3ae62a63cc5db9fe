import ModuleLoader.CommandLine.Arguments
import ModuleLoader.CommandLine.Configuration
import ModuleLoader.CommandLine.Report
import ModuleLoader.Resolve.Resolver
import ModuleLoader.Source.Disk
import ModuleLoader.Transpile.Source

/-! What the commands do on a disk. A specifier that does not resolve is reported and ends in
failure; a command that cannot do its work writes no output at all. -/

namespace ModuleLoader.CommandLine

structure Outcome where
  status : UInt32
  output : String
  diagnostics : String

namespace Outcome

def success (output : String) : Outcome := ⟨0, output, ""⟩

def failure (message : String) : Outcome := ⟨1, "", "Error: " ++ message ++ "\n"⟩

end Outcome

def usage : String :=
  "Inspect Node-compatible module resolution\n\n" ++
  "Usage: modhost [OPTIONS] [COMMAND]\n\n" ++
  "Commands:\n" ++
  "  version                Print version information\n" ++
  "  resolve <SPECIFIER>    Resolve a module specifier the way require() or import would\n" ++
  "  transpile <FILE>       Print the CommonJS form of an ES module file\n\n" ++
  "Options:\n" ++
  "  -v, --verbose      Increase logging verbosity\n" ++
  "      --json         Emit JSON formatted output\n" ++
  "      --cwd <PATH>   Override the working directory\n" ++
  "  -h, --help         Print help\n" ++
  "  -V, --version      Print version\n\n" ++
  "Options of resolve:\n" ++
  "      --from <FILE>  File the specifier is written in\n" ++
  "      --mode <MODE>  import or require\n" ++
  "      --bundle <DIR> Resolve inside a bundle built from this directory\n" ++
  "      --trace        Show each resolution step\n"

def stopped : Stop → Outcome
  | .help => .success usage
  | .version => .success (Version.text ++ "\n")
  | .usage error => ⟨2, "", "error: " ++ error.message ++ "\n"⟩

def configuration (invocation : Invocation) (current : Path) : Configuration where
  workingDirectory := invocation.directory.getD current
  jsonLogs := invocation.json
  verbosity := invocation.verbosity

variable {m : Type → Type} [Monad m] (disk : Disk m) (c : Configuration)

/-- The resolver of a command: over a snapshot of a directory, or over the disk. -/
def resolverFor (bundle : Option Path) : m (Except DirectoryError (Resolver m)) := do
  match bundle with
  | none => return .ok (Resolver.ofSource disk.files c.workingDirectory disk.workingDirectory)
  | some dir =>
    let bundle ← Bundle.ofDirectory disk (Path.absolutize c.workingDirectory dir)
    return bundle.map fun b => Resolver.ofSource b.toSource ⟨""⟩ disk.workingDirectory

/-- The file that a request comes from. A bundle's files have relative paths as they are. -/
def referrerOf (command : ResolveCommand) : Option Path :=
  match command.bundle with
  | some _ => command.referrer
  | none => command.referrer.map (Path.absolutize c.workingDirectory)

def reportOutcome (report : ResolveReport) : Outcome where
  status := if report.isOk then 0 else 1
  output := if c.jsonLogs then report.document.render ++ "\n" else report.text
  diagnostics := if c.jsonLogs then "" else report.diagnostics

def runResolve (command : ResolveCommand) : m Outcome := do
  match ← resolverFor disk c command.bundle with
  | .error error => return .failure ("failed to load bundle: " ++ error.message)
  | .ok resolver =>
    let request : Request := ⟨command.specifier, referrerOf c command, command.mode⟩
    let ((answer, trace), _) ← (resolver.resolveTraced request).run PackageCache.empty
    return reportOutcome c
      ⟨command.specifier, command.mode, answer, if command.trace then some trace else none⟩

def endLine (s : String) : String := if s.toList.getLast? = some '\n' then s else s ++ "\n"

def transpiledOutput (path : Path) (code : String) : String :=
  if c.jsonLogs then
    (Document.record [("path", .text path.display), ("code", .text code)]).render ++ "\n"
  else endLine code

def runTranspile (file : Path) : m Outcome := do
  let path := Path.absolutize c.workingDirectory file
  match ← disk.files.read path with
  | .error error => return .failure ("failed to read " ++ path.text ++ ": " ++ error.message)
  | .ok content =>
    return .success (transpiledOutput c path (Transpile.transpile (Text.readLossy content)))

def runCommand : Command → m Outcome
  | .version => return .success (Version.text ++ "\n")
  | .resolve command => runResolve disk c command
  | .transpile file => runTranspile disk c file

/-- The outcome of the program on a disk for given arguments. -/
def run (arguments : List String) : m Outcome :=
  match parse arguments with
  | .error stop => return stopped stop
  | .ok invocation =>
    runCommand disk (configuration invocation disk.workingDirectory) invocation.command

end ModuleLoader.CommandLine
