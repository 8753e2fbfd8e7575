import EmberClasses.Batch
import EmberClasses.Discovery

/-!
The command line: its arguments, the configuration file, and a whole run as a function of a session.
-/

namespace EmberClasses.CommandLine

structure Arguments where
  paths : List String := []
  telemetry : Option String := none
  config : Option String := none
  overrides : Options.Overrides := {}
  dryRun : Bool := false
  logFile : Option String := none
  verbose : Bool := false
  deriving DecidableEq, Inhabited

inductive Parsed where
  | run (args : Arguments)
  | version
  | help
  | misuse
  deriving DecidableEq, Inhabited

def programName : String := "ember-native-class"

def version : String := "0.1.0"

def once {α : Type} (old : Option α) (value : Option α) : Option (Option α) :=
  match old, value with
  | none, some v => some (some v)
  | _, _ => none

def readBool? : String → Option Bool
  | "true" => some true
  | "false" => some false
  | _ => none

def readPath? (text : String) : Option String := if text = "" then none else some text

def valueOptions : List String :=
  ["telemetry", "config", "decorators", "class-fields", "classic-decorator", "quote", "type",
   "log-file"]

/-- Takes the value of an option, none if it is not allowed. -/
def setValue (a : Arguments) (name value : String) : Option Arguments := do
  let o := a.overrides
  match name with
  | "telemetry" => return { a with telemetry := ← once a.telemetry (readPath? value) }
  | "config" => return { a with config := ← once a.config (readPath? value) }
  | "decorators" =>
    return { a with overrides := { o with decorators := ← once o.decorators (readBool? value) } }
  | "class-fields" =>
    return { a with overrides := { o with classFields := ← once o.classFields (readBool? value) } }
  | "classic-decorator" =>
    return { a with
      overrides := { o with classicDecorator := ← once o.classicDecorator (readBool? value) } }
  | "quote" =>
    return { a with overrides := { o with quote := ← once o.quote (Quote.ofName? value) } }
  | "type" =>
    return { a with overrides := { o with fileType := ← once o.fileType (FileType.ofName? value) } }
  | "log-file" => return { a with logFile := ← once a.logFile (some value) }
  | _ => none

/-- What a flag does: it sets something once, or ends the reading. -/
def setFlag (a : Arguments) (name : String) : Except Parsed Arguments :=
  match name with
  | "dry-run" => if a.dryRun then .error .misuse else .ok { a with dryRun := true }
  | "verbose" => if a.verbose then .error .misuse else .ok { a with verbose := true }
  | "version" => .error .version
  | "help" => .error .help
  | _ => .error .misuse

def shortFlag : Char → String
  | 'v' => "verbose"
  | 'V' => "version"
  | 'h' => "help"
  | _ => ""

def setShort (a : Arguments) (letters : List Char) : Except Parsed Arguments :=
  letters.foldlM (fun a c => setFlag a (shortFlag c)) a

/-- A long argument without its dashes: its name, and the value after `=`. -/
def splitLong (text : List Char) : String × Option String :=
  let name := text.takeWhile (· ≠ '=')
  match text.drop name.length with
  | _ :: value => (String.ofList name, some (String.ofList value))
  | [] => (String.ofList name, none)

/-- Whether an argument can be the value of the option before it. -/
def isValue (arg : String) : Bool := arg = "-" || arg.toList.head? ≠ some '-'

def readFrom : Arguments → List String → Except Parsed Arguments
  | a, [] => .ok a
  | a, arg :: rest =>
    match arg.toList with
    | ['-', '-'] => .ok { a with paths := a.paths ++ rest }
    | '-' :: '-' :: long =>
      let (name, value) := splitLong long
      if valueOptions.contains name then
        match value with
        | some v =>
          match setValue a name v with
          | some a => readFrom a rest
          | none => .error .misuse
        | none =>
          match rest with
          | v :: rest =>
            if isValue v then
              match setValue a name v with
              | some a => readFrom a rest
              | none => .error .misuse
            else .error .misuse
          | [] => .error .misuse
      else if value.isSome then .error .misuse
      else
        match setFlag a name with
        | .ok a => readFrom a rest
        | .error p => .error p
    | '-' :: c :: letters =>
      match setShort a (c :: letters) with
      | .ok a => readFrom a rest
      | .error p => .error p
    | _ => readFrom { a with paths := a.paths ++ [arg] } rest

/-- Reads all arguments. Paths and telemetry have to be given. -/
def parse (args : List String) : Parsed :=
  match readFrom {} args with
  | .error p => p
  | .ok a => if a.paths.isEmpty || a.telemetry.isNone then .misuse else .run a

inductive Error where
  | configRead (path : String) (fault : Disk.Fault)
  | configParse (path : String) (fault : Json.Fault)
  | telemetryRead (path : String) (fault : Disk.Fault)
  | telemetryParse (path : String) (fault : Json.Fault)
  | discovery (e : Discovery.Error)
  | logFile (e : Logger.OpenError)
  deriving DecidableEq, Inhabited

def Error.summary : Error → String
  | configRead path _ => "failed to read config " ++ path
  | configParse path _ => "failed to parse config " ++ path
  | telemetryRead path _ => "failed to load telemetry " ++ path
  | telemetryParse path _ => "failed to load telemetry " ++ path
  | discovery e => e.message
  | logFile e => e.message

def describe : Json.Fault → String
  | .malformed => "malformed JSON"
  | .truncated => "JSON ends early"
  | .mismatch => "unexpected value in JSON"

def Error.cause : Error → String
  | configRead _ fault => fault.message
  | configParse _ fault => describe fault
  | telemetryRead _ fault => "IO error: " ++ fault.message
  | telemetryParse path fault => "invalid runtime data in " ++ path ++ ": " ++ describe fault
  | discovery _ => "malformed pattern"
  | logFile e => e.fault.message

def Error.message (e : Error) : String := e.summary ++ ": " ++ e.cause

/-- The options of a configuration file, with the overrides on top. -/
def loadOptions (d : Disk) (config : Option String) (overrides : Options.Overrides) :
    Except Error Options := do
  match config with
  | none => return ({} : Options).override overrides
  | some path =>
    let text ← (d.read ⟨path⟩).mapError (.configRead path)
    let options ← (Options.parse text).mapError (.configParse path)
    return options.override overrides

def loadTelemetry (d : Disk) (path : String) : Except Error Telemetry := do
  let text ← (d.read ⟨path⟩).mapError (.telemetryRead path)
  (Telemetry.parse text).mapError (.telemetryParse path)

def convert (a : Arguments) (s : Session) : Except Error (Batch.Summary × Session) := do
  let options ← loadOptions s.disk a.config a.overrides
  let telemetry ← loadTelemetry s.disk (a.telemetry.getD "")
  let paths ← (Discovery.files s.disk a.paths).mapError .discovery
  let (logger, s) ← (Logger.openTarget s (a.logFile.getD Logger.defaultFile)).mapError .logFile
  return Batch.run { options, telemetry, logger, dryRun := a.dryRun } paths s

def usage : String :=
  "Usage: " ++ programName ++ " [OPTIONS] --telemetry <FILE> <PATHS>...\n"

/-- A whole run: the exit code and the changed session. -/
def run (args : List String) (s : Session) : UInt8 × Session :=
  match parse args with
  | .misuse => (2, { s with err := s.err ++ usage })
  | .help => (0, { s with out := s.out ++ usage })
  | .version => (0, { s with out := s.out ++ programName ++ " " ++ version ++ "\n" })
  | .run a =>
    match convert a s with
    | .error e => (1, { s with err := s.err ++ "Error: " ++ e.message ++ "\n" })
    | .ok (summary, s) =>
      (if summary.hasErrors then 1 else 0, { s with out := s.out ++ summary.render ++ "\n" })

end EmberClasses.CommandLine
