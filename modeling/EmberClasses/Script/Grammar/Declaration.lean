import EmberClasses.Script.Grammar.Statement

/-!
Declarations that exist only where types are written: interfaces, type aliases, enumerations,
namespaces, and declarations of what exists elsewhere.
-/

namespace EmberClasses.Script.Grammar

open EmberClasses.Script.Parser

/-- Whether a contextual keyword is followed by a name on the same line. -/
def introduces (word : String) : Parser Bool := do
  if ← isWord word then
    nextIs fun c => !c.fresh && (match c.token with
      | .name _ _ => true
      | _ => false)
  else return false

def interfaceDeclaration (rec : Rec) : Parser Node := do
  let start ← here
  advance
  let name ← identifier
  let parameters ← typeParameters rec
  let bases ← (do
    if ← eatWord "extends" then
      let first ← rec .type
      let others ← many (do if ← eat .comma then return some (← rec .type) else return none)
      return first :: others
    else return [])
  let body ← objectType rec
  node .statement start (name.asLabel :: parameters ++ bases ++ [body])

def typeAlias (rec : Rec) : Parser Node := do
  let start ← here
  advance
  let name ← identifier
  let parameters ← typeParameters rec
  expect .assign
  let t ← rec .type
  semicolon
  node .statement start (name.asLabel :: parameters ++ [t])

/-- Whether an enumeration may have a member of this name: one that is known without running
anything, and not a number. -/
def namesMember (key : Node) : Bool :=
  match key.kind with
  | .identifier _ | .string _ => true
  | .template => key.children.length = 1
  | _ => false

def enumDeclaration (rec : Rec) : Parser Node := do
  let start ← here
  let _ ← eatWord "const"
  expectWord "enum"
  let name ← identifier
  expect .lbrace
  let members ← commaList .rbrace (do
    let start ← here
    let (key, computed) ← propertyKey rec
    if !namesMember key || (computed && key.kind matches .identifier _) then fail
    let value ← (do if ← eat .assign then return [← enclosed (rec .assignment)] else return [])
    node .clause start (key.asLabel :: value))
  node .enumDef start (name :: members)

/-- `namespace A.B { … }` or `module 'name' { … }`. -/
def namespaceDeclaration (rec : Rec) : Parser Node := do
  let start ← here
  advance
  let name ← (do
    match ← token with
    | .string _ => stringLiteral
    | _ => qualifiedName)
  if ← isPunct .lbrace then
    advance
    let items ← within (fun ctx => { ctx with moduleItems := true })
      (manyUntil .rbrace (rec (.statement false)))
    node .statement start (name.asLabel :: items)
  else
    semicolon
    node .statement start [name.asLabel]

/-- A declaration of a type or a namespace, if one starts here. -/
def namedDeclaration? (rec : Rec) : Parser (Option Node) := do
  if !(← typed) then return none
  else if ← introduces "interface" then return some (← interfaceDeclaration rec)
  else if ← introduces "type" then return some (← typeAlias rec)
  else if (← isWord "enum") || (← isWord "const") then return some (← enumDeclaration rec)
  else if (← introduces "namespace") || (← introduces "module") then
    return some (← namespaceDeclaration rec)
  else if (← isWord "module") && (← nextIs fun c => c.token matches .string _) then
    return some (← namespaceDeclaration rec)
  else if (← isWord "global") && (← nextIs fun c => c.token == .punct .lbrace) then
    let start ← here
    advance
    let body ← block rec
    return some (← node .statement start [body])
  else return none

def ambientDeclaration (rec : Rec) : Parser Node :=
  within (fun ctx => { ctx with ambient := true }) do
    if ← isWord "var" then variableStatement rec .var
    else
      match ← declaration? rec with
      | some n => return n
      | none =>
        match ← namedDeclaration? rec with
        | some n => return n
        | none => fail

/-- A declaration that only types allow, if one starts here. -/
def typeDeclaration? (rec : Rec) : Parser (Option Node) := do
  if (← typed) && (← introduces "declare") then
    let start ← here
    attempt (do
      advance
      let declared ← ambientDeclaration rec
      node .statement start [declared])
  else namedDeclaration? rec

end EmberClasses.Script.Grammar
