import EmberClasses.Script.Grammar.Types

/-!
Patterns that bind names, and functions: parameters, bodies, and the rules for accessors.
-/

namespace EmberClasses.Script.Grammar

open EmberClasses.Script.Parser

/-- An expression inside brackets of its own, where `in` is an operator again. -/
def enclosed {α : Type} (p : Parser α) : Parser α :=
  within (fun ctx => { ctx with allowIn := true, decorator := false }) p

def withDefault (rec : Rec) (target : Parser Node) : Parser Node := do
  let start ← here
  let n ← target
  if ← eat .assign then
    let value ← enclosed (rec .assignment)
    node .defaulted start [n, value]
  else return n

/-- Items separated by commas up to a closing bracket; some may be left out. -/
def sparseList (item : Parser Node) : Parser (List Node) := do
  let items ← many (do
    if ← eat .rbracket then return none
    else if ← eat .comma then return some none
    else
      let x ← item
      if !(← isPunct .rbracket) then expect .comma
      return some (some x))
  return items.filterMap id

/-- The name of a property, and whether it is computed. -/
def propertyKey (rec : Rec) : Parser (Node × Bool) := do
  match ← token with
  | .name _ _ => return (← anyName, false)
  | .string _ => return (← stringLiteral, false)
  | .number => return (← leaf .number, false)
  | .bigint => return (← leaf .bigint, false)
  | .privateName text => return (← leaf (.privateName text), false)
  | .punct .lbracket =>
    advance
    let key ← enclosed (rec .assignment)
    expect .rbracket
    return (key, true)
  | _ => fail

/-- `...target` as the last item before `close`. -/
def restBinding (target : Parser Node) (close : Punct) : Parser Node := do
  let start ← here
  expect .ellipsis
  let target ← target
  if !(← isPunct close) then fail
  node .rest start [target]

def bindingProperty (rec : Rec) : Parser Node := do
  if ← isPunct .ellipsis then restBinding identifier .rbrace
  else
    let start ← here
    if (← atIdentifier) && !(← nextIs fun c => c.token == .punct .colon) then
      let name ← withDefault rec identifier
      node .patternProperty start [name]
    else
      let (key, computed) ← propertyKey rec
      if key.kind matches .privateName _ then fail
      expect .colon
      let value ← withDefault rec (rec .binding)
      node .patternProperty start [if computed then key else key.asLabel, value]

def binding (rec : Rec) : Parser Node := do
  let start ← here
  match ← token with
  | .punct .lbracket =>
    advance
    let elements ← sparseList (do
      if ← isPunct .ellipsis then restBinding (rec .binding) .rbracket
      else withDefault rec (rec .binding))
    node .arrayPattern start elements
  | .punct .lbrace =>
    advance
    let properties ← commaList .rbrace (bindingProperty rec)
    node .objectPattern start properties
  | _ => identifier

/-- A pattern and its type, with a mark that may stand between them. The type becomes part of the
pattern. -/
def typedBinding (rec : Rec) (mark : Option Punct) : Parser Node := do
  let start ← here
  let target ← rec .binding
  if ← typed then
    let _ ← mark.mapM eat
  let note ← typeNote rec
  if note.isEmpty then return target
  else node target.kind start (target.children ++ note)

/-- Decorators in front of a class, a member or a parameter. -/
def decorators (rec : Rec) : Parser (List Node) :=
  many (do
    if ← isPunct .atSign then
      let start ← here
      advance
      let e ← within (fun ctx => { ctx with decorator := true }) (rec .leftHand)
      return some (← node .decorator start [e])
    else return none)

/-- Words that may stand before a parameter that is also a field. -/
def parameterModifiers : List String := ["public", "private", "protected", "readonly", "override"]

def parameter (rec : Rec) : Parser Node := do
  let start ← here
  let decorated ← decorators rec
  if ← typed then
    let _ ← many (do
      let isModifier := match ← token with
        | .name text false => parameterModifiers.contains text
        | _ => false
      let continues ← nextIs fun c => match c.token with
        | .name _ _ | .punct .lbrace | .punct .lbracket => true
        | _ => false
      if isModifier && continues then
        advance
        return some ()
      else return none)
  if (← typed) && (← isWord "this") then
    let receiver ← anyName
    let note ← typeNote rec
    node .receiverParam start (receiver.asLabel :: note)
  else if ← eat .ellipsis then
    let target ← typedBinding rec none
    if !(← isPunct .rparen) then fail
    node .restParam start (decorated ++ [target])
  else
    let target ← withDefault rec (typedBinding rec (some .question))
    node .param start (decorated ++ [target])

def parameters (rec : Rec) : Parser (List Node) := do
  expect .lparen
  enclosed (commaList .rparen (parameter rec))

def inFunction (async generator : Bool) (ctx : Context) : Context :=
  { ctx with
    allowIn := true, await := async, yield := generator, return_ := true, decorator := false,
    moduleItems := false, ambient := false }

def functionBody (rec : Rec) : Parser Node := do
  let start ← here
  expect .lbrace
  let statements ← manyUntil .rbrace (rec (.statement false))
  node .body start statements

/-- A function from its type parameters on. Only where types are written may the body be missing. -/
def functionRest (rec : Rec) (form : FunctionForm) (start : Nat) (name : List Node) :
    Parser Node :=
  within (inFunction form.async form.generator) do
    let declared ← typeParameters rec
    let params ← parameters rec
    let result ← resultNote rec
    let signature := name ++ declared ++ params ++ result
    if ← isPunct .lbrace then
      let body ← functionBody rec
      node (.function form) start (signature ++ [body])
    else if ← typed then
      semicolon
      node (.function form) start signature
    else fail

/-- A function from its `async` or `function` on. A declaration has a name unless `nameless`. -/
def function (rec : Rec) (declared nameless : Bool) : Parser Node := do
  let start ← here
  let async ← eatWord "async"
  expectWord "function"
  let generator ← eat .star
  let own : Parser Node :=
    if declared then identifier
    else within (fun ctx => { ctx with await := async, yield := generator }) identifier
  let hasName := !(← isPunct .lparen) && !(← isPunct .lt)
  let name ← (do
    if hasName then return [← own]
    else if declared && !nameless then fail
    else return [])
  functionRest rec ⟨async, generator, declared⟩ start name

def atAsyncFunction : Parser Bool := do
  if ← isWord "async" then nextIs fun c => !c.fresh && c.token == .name "function" false
  else return false

/-- Parameters of a function, the receiver apart. -/
def parametersOf (f : Node) : List Node :=
  f.children.filter fun n => n.kind = .param || n.kind = .restParam

/-- A getter takes nothing, unless it takes all its arguments as a list; a setter takes one
value. -/
def accessorFits (accessor : Accessor) (f : Node) : Bool :=
  match accessor, (parametersOf f).map Node.kind with
  | .plain, _ => true
  | .getter, [] => true
  | .getter, [.restParam] => true
  | .setter, [.param] => true
  | _, _ => false

/-- The function of a method, which starts at its parameters. -/
def methodFunction (rec : Rec) (async generator : Bool) (accessor : Accessor) : Parser Node := do
  let start ← here
  let f ← functionRest rec ⟨async, generator, false⟩ start []
  if accessorFits accessor f then return f else fail

end EmberClasses.Script.Grammar
