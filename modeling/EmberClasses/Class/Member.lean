import EmberClasses.Class.Basic
import EmberClasses.Json.Literal
import EmberClasses.Property.Basic

/-!
The members of a class that a property becomes.
-/

namespace EmberClasses

structure Copy where
  source : List Char
  /-- Texts of template literals in the source, by position. -/
  quasis : List Span
  quote : Quote
  deriving Inhabited

inductive Breach where
  | misplaced (edit : Edit.Misplaced)
  | unsupportedProperty (name : String) (reason : Unsupported)
  | unsupportedAction (name : String) (reason : Unsupported)
  | classDecorator (name : String) (shape : Shape)
  deriving DecidableEq, Inhabited

def Breach.message : Breach → String
  | misplaced edit => edit.message
  | unsupportedProperty name reason =>
    "[" ++ name ++ "]: unsupported property reached the class builder: " ++ reason.message
  | unsupportedAction name reason =>
    "[" ++ name ++ "]: unsupported action reached the class builder: " ++ reason.message
  | classDecorator name shape =>
    "[" ++ name ++ "]: class decorator value of type " ++ shape.typeName ++
      " reached the class builder"

namespace Copy

/-- The code of a span after edits, moved left by up to `columns`. -/
def edited (c : Copy) (span : Span) (edits : List Edit) (columns : Nat) :
    Except Breach Fragment :=
  (Fragment.cut c.source span edits c.quasis columns).mapError .misplaced

/-- The code of a span, moved left by up to `columns`. -/
def snippet (c : Copy) (columns : Nat) (span : Span) : Except Breach Fragment :=
  c.edited span [] columns

/-- How far the line of a property is indented, in bytes. -/
def columnsOf (c : Copy) (span : Span) : Nat :=
  Text.byteLength (Text.lineIndent c.source span.start)

end Copy

namespace Member

def actionNote : List String :=
  ["// NOTE: this super call runs inside an action and resolves to the parent",
   "// class's action of the same name. Moving the shared logic into a regular",
   "// method on the parent class makes the call independent of the actions hash."]

/-- Puts the note on lines of its own before the statement at `offset`. -/
def noteEdit (source : List Char) (offset : Nat) : Edit :=
  let indent := Text.lineIndent source offset
  .insert offset (actionNote.flatMap fun line => line.toList ++ '\n' :: indent)

/-- The edits that make super calls call the method `name` of the parent class. In an action a note
is put before each statement that holds one. -/
def superEdits (source : List Char) (name : String) (inAction : Bool) :
    List Nat → List SuperCall → List Edit
  | _, [] => []
  | noted, c :: cs =>
    let call : Edit := ⟨c.callee, ("super." ++ name).toList⟩
    if inAction && !noted.contains c.statement then
      call :: noteEdit source c.statement ::
        superEdits source name inAction (noted ++ [c.statement]) cs
    else call :: superEdits source name inAction noted cs

/-- What happens to the super calls of a function. -/
inductive SuperRule where
  /-- No parent has such a method. -/
  | undefined
  | parent (inAction : Bool)
  deriving DecidableEq, Inhabited

/-- The body of a function with its super calls in class form. -/
def classBody (c : Copy) (columns : Nat) (name : String) (rule : SuperRule) (f : Callable) :
    Except Breach Fragment :=
  let edits := match rule with
    | .undefined => f.outermost.map fun s => ⟨s.call, "undefined".toList⟩
    | .parent inAction => superEdits c.source name inAction [] f.superCalls
  c.edited f.body edits columns

/-- A method made of a function, without its first `skip` parameters. -/
def ofFunction (c : Copy) (columns : Nat) (name : String) (kind : MethodKind) (rule : SuperRule)
    (skip : Nat) (f : Callable) : Except Breach Member := do
  let body ← classBody c columns name rule f
  let params ← (f.params.drop skip).mapM (c.snippet columns)
  return { key := name, body := .method ⟨kind, f.async, f.generator, params, body⟩ }

def recordedDecorators (quote : Quote) (p : Property) : List AppliedDecorator :=
  p.decorators.filterMap fun d =>
    match d.origin with
    | .recorded args => some ⟨d.name, (args.argumentLiterals quote).map fun text => ⟨text, []⟩⟩
    | _ => none

/-- Super calls of a property that no parent has come to nothing. -/
def superRule (p : Property) : SuperRule :=
  if p.objectType.isSome && !p.isOverridden then .undefined else .parent false

/-- The arguments of a call that stay arguments of its decorator: a last one that becomes the body
of a member does not. -/
def decoratorArgs (p : Property) (chain : Chain) : List Argument :=
  let becomesBody := p.kind ≠ .field && chain.args.getLast?.any Argument.isFunctionLike
  if becomesBody then chain.args.dropLast else chain.args

/-- Decorators made from the call of a property. -/
def callDecorators (c : Copy) (columns : Nat) (p : Property) (chain : Chain) :
    Except Breach (List AppliedDecorator) := do
  if p.keepsCallDecorator then
    let args ← (decoratorArgs p chain).mapM fun a => c.snippet columns a.span
    let named := (p.decorators.filter (·.isFromCall)).map fun d => ⟨d.name, args⟩
    let readOnly := if p.isReadOnly && !p.isVolatile then [⟨"readOnly", []⟩] else []
    return named ++ readOnly
  else return []

/-- Gives decorators to the first of several members. -/
def decorateFirst (decorators : List AppliedDecorator) : List Member → List Member
  | [] => []
  | m :: ms => { m with decorators } :: ms

/-- A field that has the value only if no decorator takes it over. -/
def field (c : Copy) (columns : Nat) (p : Property) (span : Span) : Except Breach Member := do
  let value ← if p.keepsValue then some <$> c.snippet columns span else pure none
  return { key := p.name, body := .field value }

/-- The members for the call of a property, without decorators. -/
def callBodies (c : Copy) (columns : Nat) (p : Property) (chain : Chain) :
    Except Breach (List Member) :=
  let rule := superRule p
  match p.kind, chain.args.getLast? with
  | .method, some (.function f) => do
    return [← ofFunction c columns p.name .method rule 0 f]
  | .getter, some (.function f) => do
    return [← ofFunction c columns p.name .getter rule 0 f]
  | .getter, some (.accessors a) => do
    let getter ← a.getter.toList.mapM (ofFunction c columns p.name .getter rule 0)
    -- The first parameter of a setter of a computed property is the property's own name.
    let setter ← a.setter.toList.mapM (ofFunction c columns p.name .setter rule 1)
    return getter ++ setter
  | _, _ => do return [← field c columns p chain.span]

/-- The members for a property whose value is a call. -/
def ofCall (c : Copy) (columns : Nat) (p : Property) (chain : Chain) :
    Except Breach (List Member) := do
  let called ← callDecorators c columns p chain
  let members ← callBodies c columns p chain
  return decorateFirst (recordedDecorators c.quote p ++ called) members

def ofAction (c : Copy) (a : Action) : Except Breach Member := do
  let columns := c.columnsOf a.span
  let m ← match a.value with
    | .function f =>
      let rule := if a.superIsUndefined then .undefined else .parent true
      ofFunction c columns a.name .method rule 0 f
    | .identifier reference =>
      let text := "\x7b\n  return " ++ reference ++ ".call(this, ...arguments);\n\x7d"
      pure { key := a.name, body := .method { params := [], body := .ofString text } }
    | .unsupported reason => throw (.unsupportedAction a.name reason)
  return { m with comments := a.comments, decorators := [⟨"action", []⟩] }

/-- Gives the comments of a property to its first member. -/
def commentFirst (comments : List (List Char)) : List Member → List Member
  | [] => []
  | m :: ms => { m with comments := comments ++ m.comments } :: ms

/-- The members for a property, without its comments. -/
def bodies (c : Copy) (p : Property) : Except Breach (List Member) :=
  let columns := c.columnsOf p.span
  let recorded := recordedDecorators c.quote p
  let plain (span : Span) : Except Breach (List Member) := do
    return [{ ← field c columns p span with decorators := recorded }]
  if p.isActions then p.actions.mapM (ofAction c)
  else
    match p.shape with
    | .function f => do
      let kind := if p.kind = .getter then MethodKind.getter else .method
      let m ← ofFunction c columns p.name kind (superRule p) 0 f
      return [{ m with decorators := recorded }]
    | .call chain => ofCall c columns p chain
    | .unsupported reason => .error (.unsupportedProperty p.name reason)
    | .literal span => plain span
    | .identifier _ span => plain span
    | .array span _ => plain span
    | .object span => plain span
    | .expression span => plain span

/-- The members that take the place of a property, in order. -/
def ofProperty (c : Copy) (p : Property) : Except Breach (List Member) :=
  (bodies c p).map (commentFirst p.comments)

end Member

end EmberClasses
