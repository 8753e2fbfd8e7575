import EmberClasses.Options
import EmberClasses.Property.Basic

/-!
Problems: what keeps a definition from becoming a class. Every rule looks at every property, and all
problems are reported together.
-/

namespace EmberClasses

/-- A problem with a property, or with the definition as a whole. -/
structure Problem where
  property : Option String
  message : String
  deriving DecidableEq, Inhabited

namespace Problem

def render (p : Problem) : String :=
  match p.property with
  | some name => "[" ++ name ++ "]: " ++ p.message
  | none => p.message

def unsupported (what : String) : String := "Transform not supported - " ++ what

/-- The definition is used for more than creating an object. -/
def chained : Problem :=
  ⟨none, "class has chained definition (e.g. EmberObject.extend().reopenClass();"⟩

/-- Actions that are named like a method of the framework. -/
def hookProblems (actions : List Action) : List Problem :=
  (actions.filter fun a => Name.isLifecycleHook a.name).map fun a =>
    ⟨some a.name, unsupported ("action name matches one of the lifecycle hooks. " ++
      "Rename and try again. " ++
      "See https://github.com/scalvert/ember-native-class-codemod/issues/34 for more details")⟩

/-- A first action that calls itself. Later ones are not looked at. -/
def loopProblems (actions : List Action) : List Problem :=
  match actions with
  | [] => []
  | a :: _ =>
    if a.selfReference then
      [⟨some a.name, unsupported ("calling the passed action would cause an infinite loop. " ++
        "See https://github.com/scalvert/eslint-plugin-ember-es6-class/pull/2 for more details")⟩]
    else []

def actionReason? (a : Action) : Option String :=
  match a.value with
  | .unsupported reason => some reason.message
  | .function f => f.misuse.map SuperMisuse.message
  | .identifier _ => none

def entryProblems (actions : List Action) : List Problem :=
  actions.filterMap fun a => (actionReason? a).map fun reason => ⟨some a.name, unsupported reason⟩

def ofActions (actions : List Action) : List Problem :=
  hookProblems actions ++ loopProblems actions ++ entryProblems actions

/-- Objects under these names are no shared state. -/
def allowedObjects : List String := ["actions", "queryParams"]

/-- Whether a property can only be written with a decorator. -/
def needsDecorators (p : Property) : Bool :=
  !p.decorators.isEmpty || p.isClassDecorator || p.isActions || p.name = Name.layout

/-- Whether a call says nothing about what it becomes. -/
def isBareCall (p : Property) : Bool := (p.shape matches .call _) && p.decorators.isEmpty

/-- Whether the value can be the argument of a decorator of the class. -/
def fitsClassDecorator : Shape → Bool
  | .call _ | .function _ | .object _ => false
  | _ => true

/-- The rules that a property breaks, in the order in which they are reported. -/
def messages (o : Options) (p : Property) : List String :=
  let rule (broken : Bool) (message : String) : List String := if broken then [message] else []
  rule (!o.classFields && p.isInitialized) "Need option '--class-fields=true'" ++
  rule ((p.shape matches .object _) && !allowedObjects.contains p.name)
    (unsupported ("value is of type object. For more details: " ++
      "eslint-plugin-ember/avoid-leaking-state-in-ember-objects")) ++
  rule ((!o.decorators && needsDecorators p) || isBareCall p)
    (unsupported ("need option '--decorators=true' or the property type " ++ p.shape.typeName ++
      " can not be transformed")) ++
  rule (p.modifiers.any fun m => !m.args.isEmpty)
    (unsupported "value has modifiers like 'property' or 'meta'") ++
  rule (p.isVolatile && p.decorators.any (·.isFromMacros))
    (unsupported ("value has 'volatile' modifier with computed meta ('@ember/object/computed') " ++
      "is not supported"))

/-- The rules about the value itself that a property breaks. -/
def valueMessages (p : Property) : List String :=
  let rule (broken : Bool) (message : String) : List String := if broken then [message] else []
  rule (p.isClassDecorator && !fitsClassDecorator p.shape)
    (unsupported ("class decorator value of type " ++ p.shape.typeName ++
      " can not be transformed")) ++
  ((p.functions.findSome? (·.misuse)).map fun m => unsupported m.message).toList ++
  (match p.shape with
    | .unsupported reason => [unsupported reason.message]
    | _ => [])

def ofProperty (o : Options) (p : Property) : List Problem :=
  let about (message : String) : Problem := ⟨some p.name, message⟩
  (messages o p).map about ++ (if p.isActions then ofActions p.actions else []) ++
    (valueMessages p).map about

def ofProperties (o : Options) (properties : List Property) : List Problem :=
  properties.flatMap (ofProperty o)

end Problem

end EmberClasses
