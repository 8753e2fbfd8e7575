import EmberClasses.Property.Basic

/-!
Reading the properties of an object literal, together with what usage data and imports say about
them.
-/

namespace EmberClasses

namespace Property

open Script (Node Kind)

structure File where
  source : List Char
  usage : Usage
  wrappers : List Wrapper
  deriving Inhabited

def readShape (name : String) (accessor : Script.Accessor) (value : Node) : Shape :=
  if accessor ≠ .plain then .unsupported .accessor
  else if name = "actions" ∧ value.kind ≠ .object then .unsupported .actionsValue
  else Shape.ofValue value

def recordedDecorators (usage : Usage) (name : String) : List Decorator :=
  let recorded (decorator : String) (entries : List (String × Json)) : List Decorator :=
    ((entries.lookup name).map fun args => ⟨decorator, .recorded args⟩).toList
  if usage.objectType.isSome then
    recorded "unobserves" usage.unobserved ++ recorded "off" usage.off
  else []

/-- The decorator that the callee of a call leads to. -/
def callDecorator (wrappers : List Wrapper) (isComputed : Bool) (shape : Shape) : List Decorator :=
  match shape with
  | .call chain =>
    match chain.callee with
    | none => []
    | some callee =>
      match Wrapper.find? wrappers callee with
      | some wrapper => [⟨wrapper.decorator, .imported wrapper⟩]
      | none => if isComputed then [⟨callee, .synthesized⟩] else []
  | _ => []

def kindOf (isMethod : Bool) (shape : Shape) (decorators : List Decorator) : PropertyKind :=
  if isMethod || (shape matches .function _) || decorators.any (·.isMethod) then .method
  else if decorators.any (·.isComputed) then .getter
  else .field

def ofValue (file : File) (name : String) (form : Script.PropertyForm) (span : Span) (value : Node)
    (comments : List (List Char)) : Property :=
  let usage := file.usage
  let shape := readShape name form.accessor value
  let recorded := usage.objectType.isSome
  let isComputed := recorded && usage.isComputed name
  let decorators := recordedDecorators usage name ++ callDecorator file.wrappers isComputed shape
  { name
    span
    kind := kindOf form.method shape decorators
    shape
    decorators
    comments
    objectType := usage.objectType
    isComputed
    isOverridden := recorded && usage.isOverridden name
    actions :=
      if name = "actions" ∧ value.kind = .object then Action.ofObject file.source usage value
      else [] }

/-- A property of an object literal. A key that is no plain name stands for itself in messages. -/
def ofNode (file : File) (property : Node) (comments : List (List Char)) : Property :=
  let failed (at_ : Span) (reason : Unsupported) : Property :=
    { name := String.ofList (Text.slice file.source at_)
      span := property.span
      shape := .unsupported reason
      comments }
  match property.kind, property.children with
  | .property form, key :: rest =>
    match key.kind, form.computed with
    | .identifier name, false =>
      ofValue file name form property.span (rest.head?.getD key) comments
    | _, _ => failed key.span .key
  | _, _ => failed property.span .spread

end Property

/-- The properties of a definition and the comments after the last one. -/
structure PropertyList where
  properties : List Property := []
  trailing : List (List Char) := []
  deriving Inhabited

namespace PropertyList

/-- Where the last property ends, or the first one could start. -/
def lastStop (object : Script.Node) : Nat :=
  match object.children.getLast? with
  | some n => n.span.stop
  | none => object.span.start + 1

def ofObject (file : Property.File) (object : Script.Node) : PropertyList where
  properties :=
    (withComments file.source (object.span.start + 1) object.children).map
      fun (property, comments) => Property.ofNode file property comments
  trailing := Comment.between file.source ⟨lastStop object, object.span.stop - 1⟩

end PropertyList

end EmberClasses
