import EmberClasses.Conversion
import EmberClasses.Session

/-!
Converting many files in turn. A file that can not be converted is logged, and the run goes on.
-/

namespace EmberClasses.Batch

structure Summary where
  succeeded : Nat := 0
  failed : Nat := 0
  skipped : Nat := 0
  unchanged : Nat := 0
  /-- Files that could not be read, converted or written. -/
  errored : Nat := 0
  deriving DecidableEq, Inhabited

namespace Summary

def total (s : Summary) : Nat := s.succeeded + s.failed + s.skipped + s.unchanged + s.errored

def hasErrors (s : Summary) : Bool := 0 < s.errored

def add (s : Summary) : Outcome → Summary
  | .success => { s with succeeded := s.succeeded + 1 }
  | .failure => { s with failed := s.failed + 1 }
  | .unchanged => { s with unchanged := s.unchanged + 1 }
  | .skipped _ => { s with skipped := s.skipped + 1 }

def render (s : Summary) : String :=
  toString s.total ++ " files: " ++ toString s.succeeded ++ " transformed, " ++
    toString s.failed ++ " failed, " ++ toString s.skipped ++ " skipped, " ++
    toString s.unchanged ++ " unchanged, " ++ toString s.errored ++ " errors"

end Summary

structure Settings where
  options : Options
  telemetry : Telemetry
  logger : Logger
  /-- Nothing is written. -/
  dryRun : Bool
  deriving Inhabited

inductive Error where
  | disk (fault : Disk.Fault)
  | conversion (e : Conversion.Error)
  deriving DecidableEq, Inhabited

def Error.message : Error → String
  | disk fault => fault.message
  | conversion e => e.message

def convertFile (c : Settings) (d : Disk) (path : Path) : Except Error Report := do
  let text ← (d.read path).mapError .disk
  (Conversion.run c.options c.telemetry path text.toList).mapError .conversion

def logReport (l : Logger) (r : Report) (s : Session) : Session :=
  r.records.foldl (fun s record => l.write record s) s

/-- Writes the output of a report, if there is one and writing is asked for. -/
def save (c : Settings) (r : Report) (d : Disk) : Except Error Disk :=
  match r.output with
  | some text => if c.dryRun then .ok d else (d.write r.path (String.ofList text)).mapError .disk
  | none => .ok d

def logError (l : Logger) (path : Path) (e : Error) (s : Session) : Session :=
  l.write ⟨.error, "[" ++ path.text ++ "]: FAILURE \nError: " ++ e.message⟩ s

/-- Converts one file of a session. Records are written before the file is. -/
def runFile (c : Settings) (path : Path) (s : Session) : Except Error Outcome × Session :=
  match convertFile c s.disk path with
  | .error e => (.error e, s)
  | .ok report =>
    let s := logReport c.logger report s
    match save c report s.disk with
    | .error e => (.error e, s)
    | .ok disk => (.ok report.outcome, { s with disk })

def next (c : Settings) (state : Summary × Session) (path : Path) : Summary × Session :=
  let (summary, s) := state
  match runFile c path s with
  | (.ok outcome, s) => (summary.add outcome, s)
  | (.error e, s) => ({ summary with errored := summary.errored + 1 }, logError c.logger path e s)

def run (c : Settings) (paths : List Path) (s : Session) : Summary × Session :=
  paths.foldl (next c) ({}, s)

end EmberClasses.Batch
