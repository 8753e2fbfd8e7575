import EmberClasses.Import.Wrapper
import EmberClasses.Name
import EmberClasses.Property.Action
import EmberClasses.Property.Chain

/-!
Properties of a definition: the shape of the value, the decorators it leads to, and what follows
from these.
-/

namespace EmberClasses

open Script (Node Kind)

inductive Shape where
  | literal (span : Span)
  | identifier (name : String) (span : Span)
  | array (span : Span) (elements : List Span)
  | call (chain : Chain)
  | function (f : Callable)
  | object (span : Span)
  /-- Any other expression that can be copied. -/
  | expression (span : Span)
  | unsupported (reason : Unsupported)
  deriving DecidableEq, Inhabited

namespace Shape

def typeName : Shape → String
  | literal _ => "Literal"
  | identifier _ _ => "Identifier"
  | array _ _ => "ArrayExpression"
  | call _ => "CallExpression"
  | function _ => "FunctionExpression"
  | object _ => "ObjectExpression"
  | expression _ => "Expression"
  | unsupported _ => "Unsupported"

/-- The code of the value, the body in case of a function. -/
def span? : Shape → Option Span
  | literal span | identifier _ span | array span _ | object span | expression span => some span
  | call chain => some chain.span
  | function f => some f.body
  | unsupported _ => none

/-- Whether the value can be written as the initial value of a field. -/
def isPlain : Shape → Bool
  | literal _ | identifier _ _ | array _ _ | object _ | expression _ => true
  | _ => false

def ofValue (value : Node) : Shape :=
  match value.kind with
  | .string _ | .number | .boolean | .nullLiteral | .bigint | .regex => .literal value.span
  | .identifier name => .identifier name value.span
  | .array => .array value.span (value.children.map Node.span)
  | .object => .object value.span
  | .function _ =>
    match Callable.ofFunction? value with
    | some f => .function f
    | none => .unsupported .noBody
  | .call => .call (Chain.ofCall value)
  | .arrow _ | .template | .tagged | .member _ | .index | .unary | .binary | .logical _
  | .conditional | .newCall | .paren => .expression value.span
  | _ => .unsupported .value

end Shape

/-- Where a decorator of a property comes from. -/
inductive DecoratorOrigin where
  /-- Usage data, with the recorded arguments. -/
  | recorded (args : Json)
  | imported (wrapper : Wrapper)
  /-- Named after the function that a computed property is made with. -/
  | synthesized
  deriving Inhabited

structure Decorator where
  name : String
  origin : DecoratorOrigin
  deriving Inhabited

namespace Decorator

def wrapper? (d : Decorator) : Option Wrapper :=
  match d.origin with
  | .imported h => some h
  | _ => none

def isMethod (d : Decorator) : Bool := d.wrapper?.any (·.isMethod)

def isFromMacros (d : Decorator) : Bool := d.wrapper?.any (·.fromMacros)

def isComputed (d : Decorator) : Bool := d.wrapper?.any (·.isComputed)

/-- Whether it is made from the call, not from usage data. -/
def isFromCall (d : Decorator) : Bool :=
  match d.origin with
  | .recorded _ => false
  | _ => true

end Decorator

inductive PropertyKind where
  | field
  | getter
  | method
  deriving DecidableEq, Inhabited

structure Property where
  name : String
  span : Span
  kind : PropertyKind := .field
  shape : Shape
  decorators : List Decorator := []
  comments : List (List Char)
  /-- Kind of object, as recorded in usage data. -/
  objectType : Option String := none
  isComputed : Bool := false
  isOverridden : Bool := false
  /-- Entries of an `actions` object. -/
  actions : List Action := []
  deriving Inhabited

namespace Property

def modifiers (p : Property) : List Modifier :=
  match p.shape with
  | .call chain => chain.modifiers
  | _ => []

def hasModifier (p : Property) (name : String) : Bool := p.modifiers.any (·.name = name)

def isVolatile (p : Property) : Bool := p.hasModifier "volatile"

def isReadOnly (p : Property) : Bool := p.hasModifier "readOnly"

def isActions (p : Property) : Bool := p.name = "actions"

def isClassDecorator (p : Property) : Bool := Name.isClassDecorator p.name

/-- The decorator of the class that a property becomes. A `layout` that holds the imported template
of that name is written under another name. -/
def classDecorator? (p : Property) : Option String :=
  if !p.isClassDecorator then none
  else
    match p.shape with
    | .identifier value _ =>
      if p.name = Name.layout ∧ value = Name.layout then some Name.templateLayout else some p.name
    | _ => some p.name

/-- Decorators that leave a field its initial value. -/
def valueKeeping : List String := ["className", "attribute"]

def keepsValue (p : Property) : Bool := p.decorators.all fun d => valueKeeping.contains d.name

/-- Whether it becomes a field with an initial value. -/
def isInitialized (p : Property) : Bool :=
  !p.isClassDecorator && !p.isActions && p.shape.isPlain && p.keepsValue

/-- Functions that become bodies of members, actions apart. -/
def functions (p : Property) : List Callable :=
  match p.shape with
  | .function f => [f]
  | .call chain => chain.args.flatMap Argument.functions
  | _ => []

def keepsCallDecorator (p : Property) : Bool := !(p.isVolatile && p.kind = .getter)

/-- The decorator imports that the name of a property leads to. -/
def namedBuiltins (p : Property) : List Builtin :=
  let byName (name : String) (b : Builtin) : List Builtin := if p.name = name then [b] else []
  let byDecorator (name : String) (b : Builtin) : List Builtin :=
    if p.classDecorator? = some name then [b] else []
  byName "actions" .action ++ byName "tagName" .tagName ++ byName "classNames" .classNames ++
    byName "classNameBindings" .classNameBindings ++
    byName "attributeBindings" .attributeBindings ++ byDecorator Name.layout .layout ++
    byDecorator Name.templateLayout .templateLayout

/-- The decorator import that a decorator of a property leads to. -/
def decoratorBuiltin? (p : Property) (d : Decorator) : Option Builtin :=
  match d.origin with
  | .recorded _ =>
    if d.name = "off" then some .off
    else if d.name = "unobserves" then some .unobserves
    else none
  | .imported wrapper => if p.keepsCallDecorator then wrapper.requires else none
  | .synthesized => none

/-- Decorators that have to be imported for a property. -/
def builtins (p : Property) : List Builtin :=
  let readOnly := p.isReadOnly && !p.isVolatile && (p.shape matches .call _)
  p.namedBuiltins ++ p.decorators.filterMap p.decoratorBuiltin? ++
    (if readOnly then [.readOnly] else [])

end Property

end EmberClasses
