import EmberClasses.Script.Parser

/-!
Types. What a type says does not matter to anyone who walks the tree, so all types make nodes of one
kind; their children are the literals and the other types in them.
-/

namespace EmberClasses.Script.Grammar

open EmberClasses.Script.Parser

def qualifiedName : Parser Node := do
  let start ← here
  let first ← anyName
  iterate (fun _ => do
    if ← eat .dot then
      let _ ← anyName
      return some (← node .type start [])
    else return none) first

def typeArguments (rec : Rec) : Parser Node := do
  let start ← here
  expect .lt
  let args ← commaList .gt (rec .type)
  if args.isEmpty then fail
  node .typeArguments start args

/-- Type arguments, if there are any on this line. -/
def typeArgumentsHere (rec : Rec) : Parser (List Node) := do
  if (← isPunct .lt) && !(← fresh) then return [← typeArguments rec] else return []

/-- `<T extends U = V, …>` where types are declared. -/
def typeParameters (rec : Rec) : Parser (List Node) := do
  if !(← typed) || !(← isPunct .lt) then return []
  let start ← here
  expect .lt
  let params ← commaList .gt (do
    let start ← here
    let _ ← many (do
      let isModifier := (← isWord "const") || (← isWord "in") || (← isWord "out")
      if isModifier && (← nextIs fun c => match c.token with | .name _ _ => true | _ => false) then
        advance
        return some ()
      else return none)
    let name ← identifier
    let bound ← (do if ← eatWord "extends" then return [← rec .type] else return [])
    let default ← (do if ← eat .assign then return [← rec .type] else return [])
    node .type start (name :: bound ++ default))
  if params.isEmpty then fail
  return [← node .type start params]

/-- A result type may also say what it asserts of a parameter. -/
def resultType (rec : Rec) : Parser Node := do
  let start ← here
  let asserted ← attempt (do
    let asserts ← (do
      let names ← nextIs fun c => !c.fresh && (match c.token with
        | .name text _ => text != "is"
        | _ => false)
      if (← isWord "asserts") && names then
        advance
        return true
      else return false)
    let _ ← anyName
    if (← isWord "is") && !(← fresh) then
      advance
      let t ← rec .type
      node .type start [t]
    else if asserts then node .type start []
    else fail)
  match asserted with
  | some t => return t
  | none => rec .type

def typeNote (rec : Rec) : Parser (List Node) := do
  if (← typed) && (← isPunct .colon) then
    let start ← here
    advance
    let t ← rec .type
    return [← node .type start [t]]
  else return []

def resultNote (rec : Rec) : Parser (List Node) := do
  if (← typed) && (← isPunct .colon) then
    advance
    return [← resultType rec]
  else return []

def typeParams (rec : Rec) : Parser (List Node) := do
  expect .lparen
  commaList .rparen (do
    let start ← here
    let _ ← eat .ellipsis
    let target ← (do if ← isWord "this" then anyName else rec .binding)
    let _ ← eat .question
    let note ← typeNote rec
    node .type start (target :: note))

def functionType (rec : Rec) (start : Nat) : Parser Node := do
  let declared ← typeParameters rec
  let params ← typeParams rec
  expect .arrow
  let result ← resultType rec
  node .type start (declared ++ params ++ [result])

/-- A template with types in its substitutions. -/
def templateType (rec : Rec) : Parser Node := do
  let start ← here
  let parts ← templateParts (rec .type) false
  node .type start parts

def memberName (rec : Rec) : Parser Node := do
  match ← token with
  | .name _ _ => anyName
  | .string _ => stringLiteral
  | .number | .bigint => leaf .number
  | .punct .lbracket =>
    advance
    let key ← rec .assignment
    expect .rbracket
    return key
  | _ => fail

def indexSignature (rec : Rec) : Parser (List Node) := do
  expect .lbracket
  let _ ← anyName
  expect .colon
  let key ← rec .type
  expect .rbracket
  return key :: (← typeNote rec)

def memberEnd : Parser Unit := do
  if (← isPunct .semicolon) || (← isPunct .comma) then advance
  else if (← isPunct .rbrace) || (← fresh) then return ()
  else fail

def typeMember (rec : Rec) : Parser Node := do
  let start ← here
  let modifier (word : String) : Parser Unit := do
    if (← isWord word) && (← nextIs fun c => startsKey c.token) then advance
  modifier "readonly"
  if (← isPunct .lparen) || (← isPunct .lt) then
    let declared ← typeParameters rec
    let params ← typeParams rec
    let result ← resultNote rec
    memberEnd
    node .type start (declared ++ params ++ result)
  else
    match ← attempt (indexSignature rec) with
    | some parts =>
      memberEnd
      node .type start parts
    | none =>
      let key ← (do
        if (← isWord "new") &&
            (← nextIs fun c => c.token == .punct .lparen || c.token == .punct .lt) then anyName
        else
          modifier "get"
          modifier "set"
          memberName rec)
      let _ ← eat .question
      let parts ← (do
        if (← isPunct .lparen) || (← isPunct .lt) then
          let declared ← typeParameters rec
          let params ← typeParams rec
          return declared ++ params ++ (← resultNote rec)
        else typeNote rec)
      memberEnd
      node .type start (key :: parts)

def objectType (rec : Rec) : Parser Node := do
  let start ← here
  expect .lbrace
  let members ← manyUntil .rbrace (typeMember rec)
  node .type start members

/-- `{ readonly [K in T as U]?: V }`, up to the word `in`. -/
def mappedHead : Parser Unit := do
  expect .lbrace
  if (← isPunct .plus) || (← isPunct .minus) then
    advance
    expectWord "readonly"
  else
    let _ ← eatWord "readonly"
  expect .lbracket
  let _ ← anyName
  expectWord "in"

/-- `{ readonly [K in T as U]?: V }`, after the word `in`. -/
def mappedRest (rec : Rec) (start : Nat) : Parser Node := do
  let keys ← rec .type
  let renamed ← (do if ← eatWord "as" then return [← rec .type] else return [])
  expect .rbracket
  if (← isPunct .plus) || (← isPunct .minus) then
    advance
    expect .question
  else
    let _ ← eat .question
  let note ← typeNote rec
  let _ ← eat .semicolon
  expect .rbrace
  node .type start (keys :: renamed ++ note)

def tupleElement (rec : Rec) : Parser Node := do
  let start ← here
  let _ ← eat .ellipsis
  let _ ← attempt (do
    let _ ← anyName
    let _ ← eat .question
    expect .colon)
  let t ← rec .type
  let _ ← eat .question
  node .type start [t]

def keywordTypes : List String := ["this", "void", "null", "true", "false"]

/-- Names of types that take no arguments. With a dot behind, they are names like any other. -/
def builtinTypes : List String :=
  ["any", "unknown", "string", "number", "bigint", "symbol", "boolean", "undefined", "never",
   "object"]

/-- A type without operators in front or behind. -/
def primaryType (rec : Rec) : Parser Node := do
  let start ← here
  match ← token with
  | .string _ => stringLiteral
  | .number | .bigint => leaf .type
  | .template _ _ => templateType rec
  | .punct .minus =>
    advance
    match ← token with
    | .number | .bigint => leaf .type
    | _ => fail
  | .punct .lbrace =>
    if (← look mappedHead).isSome then
      mappedHead
      mappedRest rec start
    else objectType rec
  | .punct .lbracket =>
    advance
    let elements ← commaList .rbracket (tupleElement rec)
    node .type start elements
  | .punct .lparen =>
    advance
    let t ← rec .type
    expect .rparen
    node .type start [t]
  | .name "typeof" _ =>
    advance
    let target ← (do if ← isWord "import" then rec .plainType else qualifiedName)
    let args ← typeArgumentsHere rec
    node .type start (target :: args)
  | .name "import" _ =>
    advance
    expect .lparen
    let args ← commaList .rparen (rec .type)
    let _ ← many (do
      if ← eat .dot then let _ ← anyName; return some () else return none)
    let given ← typeArgumentsHere rec
    node .type start (args ++ given)
  | .name text _ =>
    let qualified ← nextIs fun c => c.token == .punct .dot
    if keywordTypes.contains text || (builtinTypes.contains text && !qualified) then leaf .type
    else if reserved.contains text then fail
    else
      let n ← qualifiedName
      let args ← typeArgumentsHere rec
      node .type start (n :: args)
  | _ => fail

/-- A type with array brackets, indexes and operators in front. -/
def operatorType (rec : Rec) : Parser Node := do
  let start ← here
  if (← isWord "keyof") || (← isWord "unique") || (← isWord "readonly") then
    advance
    let t ← rec .operatorType
    node .type start [t]
  else if ← eatWord "infer" then
    let name ← identifier
    let bound ← attempt (do
      expectWord "extends"
      let t ← rec .plainType
      if ← isPunct .question then fail
      return t)
    node .type start (name :: bound.toList)
  else
    let base ← primaryType rec
    iterate (fun t => do
      if (← isPunct .lbracket) && !(← fresh) then
        advance
        if ← eat .rbracket then return some (← node .type start [t])
        else
          let i ← rec .type
          expect .rbracket
          return some (← node .type start [t, i])
      else return none) base

def joinedType (operator : Punct) (operand : Parser Node) : Parser Node := do
  let start ← here
  let _ ← eat operator
  let first ← operand
  let others ← many (do
    if ← eat operator then return some (← operand) else return none)
  if others.isEmpty then return first else node .type start (first :: others)

def plainType (rec : Rec) : Parser Node := do
  let start ← here
  let abstractNew ← (do
    if (← isWord "abstract") && (← nextIs fun c => c.token == .name "new" false) then
      advance
      return true
    else return false)
  if abstractNew || (← isWord "new") then
    advance
    functionType rec start
  else if ← isPunct .lt then functionType rec start
  else
    let asFunction ← (do
      if ← isPunct .lparen then attempt (functionType rec start) else return none)
    match asFunction with
    | some t => return t
    | none => joinedType .bitOr (joinedType .bitAnd (operatorType rec))

def type (rec : Rec) : Parser Node := do
  let start ← here
  let t ← plainType rec
  if (← isWord "extends") && !(← fresh) then
    let conditional ← attempt (do
      advance
      let bound ← rec .plainType
      expect .question
      let yes ← rec .type
      expect .colon
      let no ← rec .type
      node .type start [t, bound, yes, no])
    return conditional.getD t
  else return t

end EmberClasses.Script.Grammar
