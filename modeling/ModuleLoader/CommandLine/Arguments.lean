import ModuleLoader.Path
import ModuleLoader.Resolve.Basic

/-! The arguments of the command line. Options may stand before and after the command, each at most
once on either side, and of two places the later one counts. -/

namespace ModuleLoader.CommandLine

open Text

inductive Scope where
  | program
  | version
  | resolve
  | transpile
deriving DecidableEq

def Scope.ofName? : String → Option Scope
  | "version" => some .version
  | "resolve" => some .resolve
  | "transpile" => some .transpile
  | _ => none

inductive Switch where
  | verbose
  | json
  | trace
  | help
  | version
deriving DecidableEq

namespace Switch

def ofName? (scope : Scope) : String → Option Switch
  | "verbose" => some .verbose
  | "json" => some .json
  | "help" => some .help
  | "version" => if scope = .program then some .version else none
  | "trace" => if scope = .resolve then some .trace else none
  | _ => none

def ofLetter? (scope : Scope) : Char → Option Switch
  | 'v' => some .verbose
  | 'h' => some .help
  | 'V' => if scope = .program then some .version else none
  | _ => none

def name : Switch → String
  | verbose => "verbose"
  | json => "json"
  | trace => "trace"
  | help => "help"
  | version => "version"

end Switch

inductive Setting where
  | directory
  | referrer
  | mode
  | bundle
deriving DecidableEq

namespace Setting

def ofName? (scope : Scope) : String → Option Setting
  | "cwd" => some .directory
  | "from" => if scope = .resolve then some .referrer else none
  | "mode" => if scope = .resolve then some .mode else none
  | "bundle" => if scope = .resolve then some .bundle else none
  | _ => none

def name : Setting → String
  | directory => "cwd"
  | referrer => "from"
  | mode => "mode"
  | bundle => "bundle"

end Setting

inductive UsageError where
  | unknownOption (argument : String)
  | unknownCommand (argument : String)
  | unexpectedArgument (argument : String)
  | unexpectedValue (option : String)
  | missingValue (option : String)
  | invalidValue (option value : String)
  | repeated (option : String)
  | missingArgument (name : String)
deriving DecidableEq

def UsageError.message : UsageError → String
  | unknownOption argument => "unexpected argument '" ++ argument ++ "' found"
  | unknownCommand argument => "unrecognized subcommand '" ++ argument ++ "'"
  | unexpectedArgument argument => "unexpected argument '" ++ argument ++ "' found"
  | unexpectedValue option => "unexpected value for '--" ++ option ++ "'"
  | missingValue option => "a value is required for '--" ++ option ++ "' but none was supplied"
  | invalidValue option value => "invalid value '" ++ value ++ "' for '" ++ option ++ "'"
  | repeated option => "the argument '--" ++ option ++ "' cannot be used multiple times"
  | missingArgument name => "the required argument <" ++ name ++ "> was not provided"

inductive Stop where
  | help
  | version
  | usage (error : UsageError)
deriving DecidableEq

/-- The arguments read so far. Settings are newest first, and the names given are those of the
options met since the command. -/
structure Draft where
  scope : Scope
  verbosity : Nat
  json : Bool
  trace : Bool
  settings : List (Setting × String)
  given : List String
  operand : Option String

namespace Draft

def initial : Draft := ⟨.program, 0, false, false, [], [], none⟩

def enter (d : Draft) (scope : Scope) : Draft := { d with scope := scope, given := [] }

/-- Marks an option as given, unless it is already. -/
def give (d : Draft) (name : String) : Except Stop Draft :=
  if d.given.contains name then .error (.usage (.repeated name))
  else .ok { d with given := name :: d.given }

def addSwitch (d : Draft) : Switch → Except Stop Draft
  | .verbose => .ok { d with verbosity := d.verbosity + 1 }
  | .json => do return { ← d.give "json" with json := true }
  | .trace => do return { ← d.give "trace" with trace := true }
  | .help => .error .help
  | .version => .error .version

/-- Whether a text may be the value of a setting. Paths are not empty. -/
def accepts : Setting → String → Bool
  | .mode, value => ["import", "require"].contains value
  | _, value => value ≠ ""

def addSetting (d : Draft) (setting : Setting) (value : String) : Except Stop Draft := do
  let d ← d.give setting.name
  if accepts setting value then return { d with settings := (setting, value) :: d.settings }
  else throw (.usage (.invalidValue setting.name value))

def addLetters (d : Draft) : List Char → Except Stop Draft
  | [] => .ok d
  | c :: rest =>
    match Switch.ofLetter? d.scope c with
    | some switch => do addLetters (← d.addSwitch switch) rest
    | none => .error (.usage (.unknownOption (String.ofList ['-', c])))

/-- A text that is no option. Commands that take one take just one. -/
def addOperand (d : Draft) (text : String) : Except Stop Draft :=
  match d.scope, d.operand with
  | .program, _ => .error (.usage (.unknownCommand text))
  | .version, _ => .error (.usage (.unexpectedArgument text))
  | .resolve, none => .ok { d with operand := some text }
  | .transpile, none =>
    if text = "" then .error (.usage (.invalidValue "FILE" text))
    else .ok { d with operand := some text }
  | _, some _ => .error (.usage (.unexpectedArgument text))

def addOperands (d : Draft) : List String → Except Stop Draft
  | [] => .ok d
  | text :: rest => do addOperands (← d.addOperand text) rest

end Draft

/-- Whether a text looks like an option, so that it is no value of the one before it. -/
def isOption (text : String) : Bool := startsWith ['-'] text.toList && text ≠ "-"

def splitLong? (argument : String) : Option (String × Option String) :=
  (after? ['-', '-'] argument.toList).map fun body =>
    match cutAt? ['='] body with
    | some (name, value) => (String.ofList name, some (String.ofList value))
    | none => (String.ofList body, none)

def helpFor : List String → Stop
  | [] => .help
  | [name] => if name = "help" || (Scope.ofName? name).isSome then .help else .usage (.unknownCommand name)
  | name :: _ => .usage (.unknownCommand name)

/-- What stands before the first plain text of the program is its command. -/
def addText (d : Draft) (text : String) : Except Stop Draft :=
  match d.scope, Scope.ofName? text with
  | .program, some scope => .ok (d.enter scope)
  | _, _ => d.addOperand text

def addLong (d : Draft) (name : String) (attached : Option String) : Except Stop Draft :=
  match Switch.ofName? d.scope name, attached with
  | none, _ => .error (.usage (.unknownOption ("--" ++ name)))
  | some _, some _ => .error (.usage (.unexpectedValue name))
  | some switch, none => d.addSwitch switch

def readArguments (d : Draft) : List String → Except Stop Draft
  | [] => .ok d
  | argument :: rest =>
    if argument = "--" then d.addOperands rest
    else
      match splitLong? argument with
      | some (name, attached) =>
        match Setting.ofName? d.scope name, attached with
        | none, _ => do readArguments (← addLong d name attached) rest
        | some setting, some value => do readArguments (← d.addSetting setting value) rest
        | some setting, none =>
          match rest with
          | [] => .error (.usage (.missingValue name))
          | value :: rest =>
            if isOption value then .error (.usage (.missingValue name))
            else do readArguments (← d.addSetting setting value) rest
      | none =>
        if isOption argument then do
          readArguments (← d.addLetters (argument.toList.drop 1)) rest
        else if d.scope = .program && argument = "help" then .error (helpFor rest)
        else do readArguments (← addText d argument) rest

/-! ## Commands -/

structure ResolveCommand where
  specifier : String
  referrer : Option Path
  mode : ResolveMode
  /-- The directory to resolve in as a bundle. -/
  bundle : Option Path
  trace : Bool

inductive Command where
  | version
  | resolve (command : ResolveCommand)
  | transpile (file : Path)

structure Invocation where
  verbosity : Nat
  json : Bool
  directory : Option Path
  command : Command

namespace Draft

def path? (d : Draft) (setting : Setting) : Option Path := (d.settings.lookup setting).map Path.mk

def mode (d : Draft) : ResolveMode :=
  if d.settings.lookup .mode == some "import" then (.import) else .require

def command (d : Draft) : Except Stop Command :=
  match d.scope, d.operand with
  | .program, _ => .ok .version
  | .version, _ => .ok .version
  | .resolve, some specifier =>
    .ok (.resolve ⟨specifier, d.path? .referrer, d.mode, d.path? .bundle, d.trace⟩)
  | .resolve, none => .error (.usage (.missingArgument "SPECIFIER"))
  | .transpile, some file => .ok (.transpile ⟨file⟩)
  | .transpile, none => .error (.usage (.missingArgument "FILE"))

end Draft

/-- What the arguments ask for. Without a command that is the version. -/
def parse (arguments : List String) : Except Stop Invocation := do
  let d ← readArguments Draft.initial arguments
  return ⟨d.verbosity, d.json, d.path? .directory, ← d.command⟩

end ModuleLoader.CommandLine
