import EmberClasses.Json.Reader
import EmberClasses.Path

/-!
Usage data: what was seen of a module's object while the application ran, and telemetry, the usage
data of many modules by path.
-/

namespace EmberClasses

structure Usage where
  /-- Kind of object as recorded, perhaps empty. -/
  type : Option String := none
  computed : List String := []
  /-- Arguments of the `off` listener of a property. -/
  off : List (String × Json) := []
  /-- Arguments of the `unobserves` listener of a property. -/
  unobserved : List (String × Json) := []
  overridden : List String := []
  overriddenActions : List String := []
  deriving Inhabited

namespace Usage

def objectType (u : Usage) : Option String := u.type.filter (· ≠ "")

def isComputed (u : Usage) (name : String) : Bool := u.computed.contains name

def isOverridden (u : Usage) (name : String) : Bool := u.overridden.contains name

def isOverriddenAction (u : Usage) (name : String) : Bool := u.overriddenActions.contains name

def fields : List (Json.Reader.Field Usage) :=
  let names (depth : Nat) := Json.Reader.readList depth fun _ => Json.Reader.readString
  let values (depth : Nat) := Json.Reader.readMap depth Json.Reader.value
  [⟨["type"], fun _ u => return { u with type := ← Json.Reader.readOption Json.Reader.readString }⟩,
   ⟨["computedProperties"], fun d u => return { u with computed := ← names d }⟩,
   ⟨["offProperties"], fun d u => return { u with off := ← values d }⟩,
   ⟨["unobservedProperties"], fun d u => return { u with unobserved := ← values d }⟩,
   ⟨["overriddenProperties"], fun d u => return { u with overridden := ← names d }⟩,
   ⟨["overriddenActions"], fun d u => return { u with overriddenActions := ← names d }⟩]

def read (depth : Nat) : Json.Reader Usage := Json.Reader.readRecord depth fields {}

/-- Reads the usage data of one module from a JSON text. -/
def parse (text : String) : Except Json.Fault Usage :=
  Json.Reader.run (read Json.Reader.depthLimit) text

end Usage

/-- Usage data by module path. No two entries have the same path. -/
structure Telemetry where
  entries : List (Path × Usage) := []
  deriving Inhabited

namespace Telemetry

def size (t : Telemetry) : Nat := t.entries.length

def isEmpty (t : Telemetry) : Bool := t.entries.isEmpty

/-- Records the usage of a module, in place of what was recorded before. -/
def insert (t : Telemetry) (path : Path) (usage : Usage) : Telemetry :=
  if t.entries.any (fun e => e.1.same path) then
    ⟨t.entries.map fun e => if e.1.same path then (e.1, usage) else e⟩
  else ⟨t.entries ++ [(path, usage)]⟩

/-- The entry of a path given by its components. -/
def find? (t : Telemetry) (path : List Path.Component) : Option Usage :=
  (t.entries.find? fun e => e.1.components == path).map (·.2)

/-- Usage data of a file: recorded under its path, or under its path without extension. -/
def lookup (t : Telemetry) (path : Path) : Option Usage :=
  (t.find? path.components).or (t.find? path.bareComponents)

/-- Reads telemetry from a JSON object of usage data by module path. -/
def parse (text : String) : Except Json.Fault Telemetry := do
  let modules ← Json.Reader.run (Json.Reader.readMap Json.Reader.depthLimit Usage.read) text
  return modules.foldl (fun t (path, usage) => t.insert ⟨path⟩ usage) {}

end Telemetry

end EmberClasses
