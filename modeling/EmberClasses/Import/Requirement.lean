/-!
The decorators that generated classes use, and where each of them is imported from.
-/

namespace EmberClasses

/-- A decorator that a generated class may need an import for. -/
inductive Builtin where
  | action
  | classNames
  | classNameBindings
  | attributeBindings
  | layout
  | templateLayout
  | off
  | tagName
  | unobserves
  | on
  | observes
  | readOnly
  | classic
  deriving DecidableEq, Inhabited

namespace Builtin

def all : List Builtin :=
  [action, classNames, classNameBindings, attributeBindings, layout, templateLayout, off, tagName,
   unobserves, on, observes, readOnly, classic]

/-- The members of a set of decorators, each once. -/
def normalize (wanted : List Builtin) : List Builtin := all.filter (wanted.contains ·)

end Builtin

namespace Import

structure Requirement where
  decorator : Builtin
  /-- Exported name, none for the default export. -/
  imported : Option String
  localName : String
  module : String
  deriving DecidableEq, Inhabited

def classicModule : String := "ember-classic-decorator"

def componentModule : String := "@ember-decorators/component"

def objectModule : String := "@ember-decorators/object"

/-- All decorators, in the order in which their imports are written. -/
def table : List Requirement :=
  let component (d : Builtin) (name localName : String) : Requirement :=
    ⟨d, some name, localName, componentModule⟩
  let object (d : Builtin) (name : String) : Requirement := ⟨d, some name, name, objectModule⟩
  [⟨.classic, none, "classic", classicModule⟩,
   component .attributeBindings "attributeBindings" "attributeBindings",
   component .classNameBindings "classNameBindings" "classNameBindings",
   component .classNames "classNames" "classNames",
   component .layout "layout" "layout",
   component .tagName "tagName" "tagName",
   component .templateLayout "layout" "templateLayout",
   object .observes "observes",
   object .off "off",
   object .on "on",
   object .unobserves "unobserves",
   ⟨.action, some "action", "action", "@ember/object"⟩,
   ⟨.readOnly, some "readOnly", "readOnly", "@ember/object/computed"⟩]

/-- Adds a requirement to the group of its module, or starts a new group. -/
def addToGroup (r : Requirement) :
    List (String × List Requirement) → List (String × List Requirement)
  | [] => [(r.module, [r])]
  | (module, rs) :: groups =>
    if module = r.module then (module, rs ++ [r]) :: groups
    else (module, rs) :: addToGroup r groups

/-- Requirements by module, in the order in which the modules first occur. -/
def group (rs : List Requirement) : List (String × List Requirement) :=
  rs.foldl (fun groups r => addToGroup r groups) []

/-- What has to be imported for a set of decorators. -/
def required (wanted : List Builtin) : List (String × List Requirement) :=
  group (table.filter fun r => wanted.contains r.decorator)

end Import

end EmberClasses
