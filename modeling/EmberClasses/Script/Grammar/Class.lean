import EmberClasses.Script.Grammar.Function

/-!
Classes: their head, their members, and the names that members may not have.
-/

namespace EmberClasses.Script.Grammar

open EmberClasses.Script.Parser

/-- Words in front of a member, besides `async`, `get` and `set`. -/
def memberModifiers (typed : Bool) : List String :=
  if typed then
    ["static", "accessor", "declare", "public", "private", "protected", "abstract", "override",
     "readonly"]
  else ["static", "accessor"]

/-- The name that a key spells out, if it is not computed. -/
def fixedName? (key : Node) (computed : Bool) : Option String :=
  match key.kind with
  | .identifier name => if computed then none else some name
  | .string value => if computed then none else some value
  | _ => none

def fieldNameAllowed (isStatic : Bool) (key : Node) (computed : Bool) : Bool :=
  match fixedName? key computed with
  | some name => name ≠ "constructor" && !(isStatic && name = "prototype")
  | none => true

/-- Whether a method may have this key. The constructor is a method like any other, but it is no
accessor, generator or async function. -/
def methodNameAllowed (isStatic special : Bool) (key : Node) (computed : Bool) : Bool :=
  match fixedName? key computed with
  | some name =>
    if isStatic then name ≠ "prototype" else !(name = "constructor" && special)
  | none => true

def staticBlock (rec : Rec) (start : Nat) : Parser Node := do
  let body ← within (fun ctx => { inFunction true false ctx with return_ := false })
    (functionBody rec)
  node .staticBlock start body.children

/-- Whether the next token goes on with a member that the current word modifies. -/
def modifies (word : String) : Parser Bool := do
  if ← isWord word then
    nextIs fun c =>
      (startsKey c.token || c.token == .punct .star) && (word == "static" || !c.fresh)
  else return false

def namedMember (rec : Rec) (start : Nat) (decorated : List Node) (isStatic : Bool) :
    Parser Node := do
  let accessor ← (do
    let reads ← isWord "get"
    let writes ← isWord "set"
    if (reads || writes) && (← nextIs fun c => startsKey c.token) then
      advance
      return if reads then Accessor.getter else Accessor.setter
    else return Accessor.plain)
  let async ← (do
    if accessor == .plain && (← modifies "async") then
      advance
      return true
    else return false)
  let generator ← (do if accessor == .plain then eat .star else return false)
  let (key, computed) ← propertyKey rec
  if key.kind == .privateName "constructor" then fail
  if ← typed then
    let _ ← eat .question
    let _ ← (do if !(← fresh) then eat .bang else return false)
  if (← isPunct .lparen) || ((← typed) && (← isPunct .lt)) then
    let special := async || generator || accessor != .plain
    if !methodNameAllowed isStatic special key computed then fail
    let f ← methodFunction rec async generator accessor
    node .classMethod start (decorated ++ [if computed then key else key.asLabel, f])
  else
    if async || generator || accessor != .plain then fail
    if !fieldNameAllowed isStatic key computed then fail
    let note ← typeNote rec
    let value ← (do
      if ← eat .assign then
        let inField (ctx : Context) : Context :=
          { inFunction false false ctx with return_ := false }
        return [← within inField (rec .assignment)]
      else return [])
    semicolon
    let key := if computed then key else key.asLabel
    node .classField start (decorated ++ key :: note ++ value)

def classMember (rec : Rec) : Parser Node := do
  let start ← here
  let decorated ← decorators rec
  if (← isWord "static") && (← nextIs fun c => c.token == .punct .lbrace) then
    advance
    staticBlock rec start
  else
    let words := memberModifiers (← typed)
    let modifiers ← many (do
      match ← token with
      | .name text false =>
        if words.contains text && (← modifies text) then
          advance
          return some text
        else return none
      | _ => return none)
    let signature ← (do
      if (← typed) && (← isPunct .lbracket) then
        attempt (do
          let parts ← indexSignature rec
          semicolon
          node .classSignature start parts)
      else return none)
    match signature with
    | some n => return n
    | none => namedMember rec start decorated (modifiers.contains "static")

def implemented (rec : Rec) : Parser (List Node) := do
  if (← typed) && (← isWord "implements") then
    advance
    let first ← rec .type
    let others ← many (do if ← eat .comma then return some (← rec .type) else return none)
    return first :: others
  else return []

def heritage (rec : Rec) : Parser (List Node) := do
  if ← eatWord "extends" then
    let start ← here
    let base ← rec .leftHand
    let args ← (do
      if (← typed) && (← isPunct .lt) then return [← typeArguments rec] else return [])
    return [← node .heritage start (base :: args)]
  else return []

def classRest (rec : Rec) (start : Nat) (decorated : List Node) (declared nameless : Bool) :
    Parser Node := do
  expectWord "class"
  let hasName := (← atIdentifier) && !((← typed) && (← isWord "implements"))
  let name ← (do
    if hasName then return [← identifier]
    else if declared && !nameless then fail
    else return [])
  let parameters ← typeParameters rec
  let base ← heritage rec
  let types ← implemented rec
  expect .lbrace
  let members ← within (fun ctx => { ctx with decorator := false, allowIn := true }) (many (do
    let _ ← many (do if ← eat .semicolon then return some () else return none)
    if ← eat .rbrace then return none
    else return some (← classMember rec)))
  node (.classDef declared) start (decorated ++ name ++ parameters ++ base ++ types ++ members)

/-- A class with the decorators in front of it. -/
def classDefinition (rec : Rec) (declared nameless : Bool) : Parser Node := do
  let start ← here
  let decorated ← decorators rec
  if (← typed) && (← isWord "abstract") then advance
  classRest rec start decorated declared nameless

end EmberClasses.Script.Grammar
