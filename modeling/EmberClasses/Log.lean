/-!
Log records: what happened to a file, with a level.
-/

namespace EmberClasses

inductive LogLevel where
  | debug
  | info
  | warn
  | error
  deriving DecidableEq, Inhabited

namespace LogLevel

def all : List LogLevel := [debug, info, warn, error]

def rank : LogLevel → Nat
  | debug => 0
  | info => 1
  | warn => 2
  | error => 3

def name : LogLevel → String
  | debug => "debug"
  | info => "info"
  | warn => "warn"
  | error => "error"

def ofName? (name : String) : Option LogLevel := all.find? (·.name = name)

end LogLevel

structure LogRecord where
  level : LogLevel
  message : String
  deriving DecidableEq, Inhabited

def LogRecord.line (r : LogRecord) : String := "[" ++ r.level.name ++ "] " ++ r.message ++ "\n"

end EmberClasses
