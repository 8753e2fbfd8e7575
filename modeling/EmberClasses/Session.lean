import EmberClasses.Disk
import EmberClasses.Log

/-!
A session is what a command changes: the disk, the two output streams, and the records kept in
memory. A logger says what becomes of a record.
-/

namespace EmberClasses

structure Session where
  disk : Disk
  out : String := ""
  err : String := ""
  kept : List LogRecord := []
  deriving Inhabited

inductive LogTarget where
  | nowhere
  | memory
  | console
  /-- A file, given by its place on the disk. -/
  | file (place : List String)
  deriving DecidableEq, Inhabited

structure Logger where
  level : LogLevel
  target : LogTarget
  deriving DecidableEq, Inhabited

namespace Logger

def none : Logger := ⟨.error, .nowhere⟩

def memory : Logger := ⟨.debug, .memory⟩

def console (level : LogLevel) : Logger := ⟨level, .console⟩

def isEnabled (l : Logger) (level : LogLevel) : Bool := l.level.rank ≤ level.rank

/-- Writes a record. On the console, information goes to the output and the rest to the errors. -/
def write (l : Logger) (r : LogRecord) (s : Session) : Session :=
  if !l.isEnabled r.level then s
  else
    match l.target with
    | .nowhere => s
    | .memory => { s with kept := s.kept ++ [r] }
    | .console =>
      if r.level = .info then { s with out := s.out ++ r.line }
      else { s with err := s.err ++ r.line }
    | .file place => { s with disk := s.disk.append place r.line }

/-- The log file that is used when none is named. -/
def defaultFile : String := "codemods.log"

/-- A logger that appends to a file, which is created if need be. -/
def openFile (s : Session) (path : Path) (level : LogLevel) :
    Except Disk.Fault (Logger × Session) := do
  let place ← s.disk.openPlace path
  return (⟨level, .file place⟩, { s with disk := s.disk.append place "" })

structure OpenError where
  target : String
  fault : Disk.Fault
  deriving DecidableEq, Inhabited

def OpenError.message (e : OpenError) : String := "failed to open log file " ++ e.target

/-- The logger for a name: `-` is the console, `none` drops all records, and anything else is a
file. -/
def openTarget (s : Session) (target : String) : Except OpenError (Logger × Session) :=
  if target = "-" then .ok (console .info, s)
  else if target = "none" then .ok (none, s)
  else (openFile s ⟨target⟩ .info).mapError fun fault => ⟨target, fault⟩

end Logger

end EmberClasses
