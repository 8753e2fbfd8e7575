import EmberClasses.Json.Reader

/-!
What the caller allows and asks for: whether decorators and initialised fields may be written, the
quotes of generated literals, and the kind of file to convert.
-/

namespace EmberClasses

/-- Quotes of generated string literals and import sources. -/
inductive Quote where
  | single
  | double
  deriving DecidableEq, Inhabited

namespace Quote

def char : Quote → Char
  | single => '\''
  | double => '"'

def name : Quote → String
  | single => "single"
  | double => "double"

def ofName? : String → Option Quote
  | "single" => some single
  | "double" => some double
  | _ => none

/-- Why a name was not taken for a quote style. -/
def unknown (name : String) : String := "unknown quote style '" ++ name ++ "'"

end Quote

/-- Kind of object a file is expected to define. -/
inductive FileType where
  | service
  | controller
  | component
  | route
  deriving DecidableEq, Inhabited

namespace FileType

def all : List FileType := [service, controller, component, route]

def name : FileType → String
  | service => "service"
  | controller => "controller"
  | component => "component"
  | route => "route"

def ofName? : String → Option FileType
  | "service" | "services" => some service
  | "controller" | "controllers" => some controller
  | "component" | "components" => some component
  | "route" | "routes" => some route
  | _ => none

def unknown (name : String) : String := "unknown type '" ++ name ++ "'"

def pattern (t : FileType) : String := "**/" ++ t.name ++ "s/**/*.js"

end FileType

structure Options where
  /-- Decorators may be written. -/
  decorators : Bool := true
  /-- Class fields with initial values may be written. -/
  classFields : Bool := true
  /-- Every class is marked with the `classic` decorator. -/
  classicDecorator : Bool := true
  quote : Quote := .single
  /-- Only files of this type are converted. -/
  fileType : Option FileType := none
  deriving DecidableEq, Inhabited

namespace Options

def fields : List (Json.Reader.Field Options) :=
  [⟨["decorators"], fun _ o => return { o with decorators := ← Json.Reader.readBool }⟩,
   ⟨["classFields"], fun _ o => return { o with classFields := ← Json.Reader.readBool }⟩,
   ⟨["classicDecorator"], fun _ o => return { o with classicDecorator := ← Json.Reader.readBool }⟩,
   ⟨["quote", "quotes"], fun depth o =>
    return { o with quote := ← Json.Reader.readName depth Quote.ofName? }⟩,
   ⟨["type"], fun depth o => do
    let type ← Json.Reader.readOption (Json.Reader.readName depth FileType.ofName?)
    return { o with fileType := type }⟩]

/-- Reads options from a JSON text. What is not mentioned keeps its default. -/
def parse (text : String) : Except Json.Fault Options :=
  Json.Reader.run (Json.Reader.readRecord Json.Reader.depthLimit fields {}) text

/-- Values that take precedence over those of a configuration file. -/
structure Overrides where
  decorators : Option Bool := none
  classFields : Option Bool := none
  classicDecorator : Option Bool := none
  quote : Option Quote := none
  fileType : Option FileType := none
  deriving DecidableEq, Inhabited

def override (o : Options) (v : Overrides) : Options where
  decorators := v.decorators.getD o.decorators
  classFields := v.classFields.getD o.classFields
  classicDecorator := v.classicDecorator.getD o.classicDecorator
  quote := v.quote.getD o.quote
  fileType := v.fileType.or o.fileType

end Options

end EmberClasses
