import EmberClasses.Import.Declaration

/-!
Functions of the framework that wrap the value of a property and have a decorator form, such as
`computed` and the macros of computed properties.
-/

namespace EmberClasses

structure Wrapper where
  localName : String
  imported : String
  module : String
  /-- Name of its decorator form. -/
  decorator : String
  /-- Comes from a module all of whose exports are macros. -/
  fromMacros : Bool
  /-- Its decorator form is written before a method. -/
  isMethod : Bool
  /-- Import that the decorator form needs, when it is not the wrapper's own. -/
  requires : Option Builtin
  deriving DecidableEq, Inhabited

namespace Wrapper

def objectModule : String := "@ember/object"

def eventModule : String := "@ember/object/evented"

def computedModule : String := "@ember/object/computed"

/-- The decorator for a name that a module exports. -/
def decoratorFor? (module imported : String) : Option String :=
  if module = objectModule then
    if imported = "observer" then some "observes"
    else if imported = "computed" then some "computed"
    else none
  else if module = eventModule then if imported = "on" then some "on" else none
  else if module = "@ember/controller" || module = "@ember/service" then
    if imported = "inject" then some "inject" else none
  else if module = computedModule then some imported
  else none

/-- Whether a decorator comes from another module than its wrapper. -/
def isRehomed (module decorator : String) : Bool := module = eventModule || decorator = "observes"

/-- Wrappers whose decorators are written before methods. -/
def methodWrappers : List String := ["action", "on", "observer"]

/-- The wrapper that a named import brings in. A decorator that stays in its module keeps the local
name; one that comes from elsewhere has its own. -/
def ofNamed? (module : String) (n : Import.Named) : Option Wrapper :=
  (decoratorFor? module n.imported).map fun decorator =>
    let fromMacros : Bool := module = computedModule
    let rehomed := isRehomed module decorator
    let keepsLocal := !rehomed && (n.imported ≠ n.localName || fromMacros)
    { localName := n.localName
      imported := n.imported
      module
      decorator := if keepsLocal then n.localName else decorator
      fromMacros
      isMethod := methodWrappers.contains n.imported
      requires :=
        if decorator = "observes" then some .observes
        else if decorator = "on" && rehomed then some .on
        else none }

def isComputed (w : Wrapper) : Bool := w.module = objectModule && w.imported = "computed"

def all (imports : List Import.Declaration) : List Wrapper :=
  (imports.filter (!·.typeOnly)).flatMap fun d => d.named.filterMap (ofNamed? d.module)

/-- The wrapper with a local name. Of two, the later one counts. -/
def find? (wrappers : List Wrapper) (name : String) : Option Wrapper :=
  wrappers.reverse.find? (·.localName = name)

end Wrapper

end EmberClasses
