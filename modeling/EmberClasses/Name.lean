import EmberClasses.Text.Blank
import EmberClasses.Text.LetterCase
import EmberClasses.Path

/-!
Names: case of words, the fixed sets of property names that mean something to the framework, and
the name of a generated class.
-/

namespace EmberClasses.Name

def mapFirst (f : Char → List Char) (name : String) : String :=
  match name.toList with
  | [] => ""
  | c :: cs => String.ofList (f c ++ cs)

def capitalize (name : String) : String := mapFirst Text.upper name

def uncapitalize (name : String) : String := mapFirst Text.lower name

/-- Whether the first character is an uppercase letter. -/
def startsUpper (name : String) : Bool :=
  match name.toList with
  | [] => false
  | c :: _ => Text.isUpper c

/-- Dashes, underscores, dots and white space separate words. -/
def isSeparator (c : Char) : Bool := c == '-' || c == '_' || c == '.' || Text.isBlank c

def words (name : String) : List String :=
  let parts := name.toList.splitBy fun a b => !isSeparator a && !isSeparator b
  (parts.filter fun part => !part.all isSeparator).map String.ofList

/-- The words run together, each but the first capitalized. -/
def camelCase (name : String) : String :=
  match words name with
  | [] => ""
  | first :: rest => String.join (uncapitalize first :: rest.map capitalize)

/-- Letters, digits, `_` and `$` of ASCII, not starting with a digit. -/
def isPlainIdentifier (name : String) : Bool :=
  let start (c : Char) := c.isAlpha || c == '_' || c == '$'
  match name.toList with
  | [] => false
  | c :: cs => start c && cs.all fun c => start c || c.isDigit

def layout : String := "layout"

def templateLayout : String := "templateLayout"

/-- Properties that become decorators of the class. -/
def classDecorators : List String :=
  [layout, "tagName", "classNames", "classNameBindings", "attributeBindings"]

def isClassDecorator (name : String) : Bool := classDecorators.contains name

/-- Methods and events that the framework calls by name. An action may not reuse these. -/
def lifecycleHooks : List String :=
  ["$", "addObserver", "cacheFor", "decrementProperty", "destroy", "didReceiveAttrs", "didRender",
   "didUpdate", "didUpdateAttrs", "get", "getProperties", "getWithDefault", "has",
   "incrementProperty", "init", "notifyPropertyChange", "off", "on", "one", "readDOMAttr",
   "removeObserver", "rerender", "send", "set", "setProperties", "toString", "toggleProperty",
   "trigger", "willDestroy", "willRender", "willUpdate", "didInsertElement", "willClearRender",
   "willDestroyElement", "willInsertElement", "touchStart", "touchMove", "touchEnd", "touchCancel",
   "keyDown", "keyUp", "keyPress", "mouseDown", "mouseUp", "contextMenu", "click", "doubleClick",
   "mouseMove", "focusIn", "focusOut", "mouseEnter", "mouseLeave", "submit", "change", "input",
   "dragStart", "drag", "dragEnter", "dragLeave", "dragOver", "dragEnd", "drop"]

def isLifecycleHook (name : String) : Bool := lifecycleHooks.contains name

/-- Object types that are not appended to a class name. -/
def unsuffixedTypes : List String := ["Component", "Helper", "EmberObject"]

/-- The name of the class for a definition. A bound definition keeps its variable's name. Otherwise
the name comes from the file, or from its directory when the file is named after the object type,
and the type is appended. -/
def ofDefinition (binding : Option String) (path : Path) (objectType : Option String) : String :=
  match binding with
  | some name => name
  | none =>
    let type := objectType.getD ""
    let suffix := capitalize type
    let stem := capitalize (camelCase (path.stem?.getD ""))
    let base :=
      if suffix ≠ "" ∧ stem = suffix then capitalize (camelCase (path.directoryName?.getD ""))
      else stem
    if !unsuffixedTypes.contains type && base ≠ suffix then base ++ suffix else base

/-- A class may not have the name of its superclass. -/
def avoiding (superclass name : String) : String :=
  if name = superclass then "_" ++ name else name

end EmberClasses.Name
