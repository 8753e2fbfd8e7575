import EmberClasses.Class.Member
import EmberClasses.Property.Analysis

/-!
The class for a definition.
-/

namespace EmberClasses

/-- A definition that is ready to become a class. -/
structure Blueprint where
  name : String
  superclass : String
  /-- Code of the mixins, in order. -/
  mixins : List (List Char)
  properties : List Property
  /-- Comments after the last property. -/
  trailing : List (List Char)
  deriving Inhabited

namespace Blueprint

/-- The superclass, with the mixins applied to it. -/
def heritage (b : Blueprint) : List Char :=
  if b.mixins.isEmpty then b.superclass.toList
  else b.superclass.toList ++ ".extend(".toList ++ [',', ' '].intercalate b.mixins ++ [')']

/-- Decorators that have to be imported for the class. -/
def builtins (b : Blueprint) (o : Options) : List Builtin :=
  b.properties.flatMap Property.builtins ++ (if o.classicDecorator then [.classic] else [])

/-- The decorator of the class for a property. The elements of an array are its arguments. -/
def classDecorator (c : Copy) (p : Property) (name : String) : Except Breach AppliedDecorator := do
  let columns := c.columnsOf p.span
  let spans ← match p.shape with
    | .array _ elements => pure elements
    | .literal span => pure [span]
    | .expression span => pure [span]
    | .identifier _ span => pure [span]
    | shape => throw (.classDecorator p.name shape)
  return ⟨name, ← spans.mapM (c.snippet columns)⟩

def addProperty (c : Copy) (d : ClassDecl) (p : Property) : Except Breach ClassDecl := do
  match p.classDecorator? with
  | some name =>
    let decorator ← classDecorator c p name
    return { d with
      leading := d.leading ++ p.comments
      decorators := d.decorators ++ [decorator] }
  | none => return { d with members := d.members ++ (← Member.ofProperty c p) }

/-- A class without the properties. -/
def frame (b : Blueprint) (o : Options) : ClassDecl where
  name := b.name
  superclass := b.heritage
  decorators := if o.classicDecorator then [⟨"classic", []⟩] else []
  trailing := b.trailing

def build (b : Blueprint) (o : Options) (c : Copy) : Except Breach ClassDecl :=
  b.properties.foldlM (addProperty c) (b.frame o)

end Blueprint

end EmberClasses
