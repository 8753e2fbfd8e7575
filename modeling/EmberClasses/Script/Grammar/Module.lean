import EmberClasses.Script.Grammar.Declaration

/-!
Imports, exports and whole scripts.
-/

namespace EmberClasses.Script.Grammar

open EmberClasses.Script.Parser

/-- `with { type: 'json' }` after the name of a module. -/
def importAttributes : Parser (List Node) := do
  if (← isWord "with") || ((← isWord "assert") && !(← fresh)) then
    advance
    expect .lbrace
    commaList .rbrace (do
      let start ← here
      let key ← (do
        match ← token with
        | .string _ => stringLiteral
        | _ => anyName)
      expect .colon
      let value ← stringLiteral
      node .clause start [key, value])
  else return []

def moduleName : Parser (List Node) := do
  let name ← stringLiteral
  return name :: (← importAttributes)

/-- A name that another module exports: a word or a string. -/
def exportedName : Parser (Node × String) := do
  match ← token with
  | .string value => return (← stringLiteral, value)
  | .name text _ => return (← anyName, text)
  | _ => fail

/-- Whether `type` stands in front of a name in braces, where types are written. It is taken. -/
def typeOnlyName : Parser Bool := do
  if (← typed) && (← isWord "type") then
    let qualifies ← nextIs fun c => match c.token with
      | .name text _ => text != "as"
      | .string _ => true
      | _ => false
    if qualifies then advance
    return qualifies
  else return false

def importSpecifier : Parser Node := do
  let typeOnly ← typeOnlyName
  let start ← here
  let plain ← atIdentifier
  let (_, imported) ← exportedName
  if ← eatWord "as" then
    let own ← identifier
    match own.kind with
    | .identifier name => node (.importNamed imported name typeOnly) start []
    | _ => fail
  else if plain then node (.importNamed imported imported typeOnly) start []
  else fail

def importClause : Parser (List Node) := do
  let first ← (do
    if ← atIdentifier then
      let n ← identifier
      match n.kind with
      | .identifier name => return [n.withKind (.importDefault name)]
      | _ => fail
    else return [])
  if !first.isEmpty then
    if !(← eat .comma) then return first
  let start ← here
  if ← eat .star then
    expectWord "as"
    let n ← identifier
    match n.kind with
    | .identifier name => return first ++ [← node (.importNamespace name) start []]
    | _ => fail
  else
    expect .lbrace
    return first ++ (← commaList .rbrace importSpecifier)

def importAlias (start : Nat) : Parser Node := do
  expect .assign
  let required ← nextIs fun c => c.token == .punct .lparen
  let target ← (do
    if required then
      expectWord "require"
      expect .lparen
      let name ← stringLiteral
      expect .rparen
      return name
    else qualifiedName)
  semicolon
  node .moduleStatement start [target]

/-- The word for the phase in which a module is imported, if there is one. -/
def importPhase : Parser Unit := do
  let deferred := (← isWord "defer") && (← nextIs fun c => c.token == .punct .star)
  let source := (← isWord "source") && (← nextIs fun c => match c.token with
    | .name text _ => text != "from"
    | _ => false)
  if deferred || source then advance

def importDeclaration : Parser Node := do
  let start ← here
  expectWord "import"
  match ← token with
  | .string _ =>
    let source ← moduleName
    semicolon
    node (.importDeclaration false) start source
  | _ =>
    let typeOnly ← (do
      if (← typed) && (← isWord "type") then
        let qualifies ← nextIs fun c => match c.token with
          | .name text _ => text != "from"
          | .punct .lbrace | .punct .star => true
          | _ => false
        if qualifies then advance
        return qualifies
      else return false)
    if (← typed) && (← atIdentifier) && (← nextIs fun c => c.token == .punct .assign) then
      advance
      importAlias start
    else
      importPhase
      let names ← importClause
      expectWord "from"
      let source ← moduleName
      semicolon
      node (.importDeclaration typeOnly) start (names ++ source)

/-- `name` or `name as exported`, and whether it can only come from another module. -/
def exportSpecifier : Parser (Node × Bool) := do
  let _ ← typeOnlyName
  let start ← here
  let own ← atIdentifier
  let _ ← exportedName
  if ← eatWord "as" then
    let _ ← exportedName
  return (← node .clause start [], !own)

def exportNames (start : Nat) : Parser Node := do
  expect .lbrace
  let names ← many (do
    if ← eat .rbrace then return none
    else
      let x ← exportSpecifier
      if !(← isPunct .rbrace) then expect .comma
      return some x)
  let source ← (do if ← eatWord "from" then moduleName else return [])
  if source.isEmpty && names.any Prod.snd then fail
  semicolon
  node .exportNamed start (names.map Prod.fst ++ source)

def exportAll (start : Nat) : Parser Node := do
  expect .star
  if ← eatWord "as" then
    let _ ← exportedName
  expectWord "from"
  let source ← moduleName
  semicolon
  node .moduleStatement start source

def exportDefault (rec : Rec) (start : Nat) (decorated : List Node) : Parser Node := do
  let isAbstract := (← typed) && (← isWord "abstract") &&
    (← nextIs fun c => c.token == .name "class" false)
  if (← isWord "class") || (← isPunct .atSign) || isAbstract then
    let c ← classDefinition rec true true
    node .exportDefault start (decorated ++ [c])
  else if !decorated.isEmpty then fail
  else if (← isWord "function") || (← atAsyncFunction) then
    let f ← function rec true true
    node .exportDefault start [f]
  else if (← typed) && (← introduces "interface") then
    let n ← interfaceDeclaration rec
    node .exportDefault start [n]
  else
    let e ← enclosed (rec .assignment)
    semicolon
    node .exportDefault start [e]

/-- An export from its `export` on, after the decorators of an exported class. -/
def exportDeclaration (rec : Rec) (start : Nat) (decorated : List Node) : Parser Node := do
  expectWord "export"
  let typeOnly := (← typed) && (← isWord "type") &&
    (← nextIs fun c => c.token == .punct .lbrace || c.token == .punct .star)
  if typeOnly then advance
  if ← eatWord "default" then exportDefault rec start decorated
  else if ← isPunct .lbrace then exportNames start
  else if ← isPunct .star then exportAll start
  else if (← typed) && (← isPunct .assign) then
    advance
    let e ← rec .assignment
    semicolon
    node .moduleStatement start [e]
  else if (← typed) && (← isWord "as") then
    advance
    expectWord "namespace"
    let n ← identifier
    semicolon
    node .moduleStatement start [n]
  else if (← typed) && (← isWord "import") then
    let n ← importDeclaration
    node .moduleStatement start [n]
  else
    match ← declaration? rec with
    | some n =>
      if !decorated.isEmpty && !(n.kind matches .classDef _) then fail
      node .exportNamed start (decorated ++ [n])
    | none =>
      match ← typeDeclaration? rec with
      | some n => node .exportNamed start [n]
      | none => fail

def statement (rec : Rec) (single : Bool) : Parser Node := do
  let start ← here
  let isImport := (← isWord "import") &&
    !(← nextIs fun c => c.token == .punct .lparen || c.token == .punct .dot)
  if isImport then
    if single || !(← read).moduleItems then fail else importDeclaration
  else if ← isWord "export" then
    if single || !(← read).moduleItems then fail else exportDeclaration rec start []
  else if ← isWord "var" then variableStatement rec .var
  else if ← isPunct .atSign then
    if single then fail
    let decorated ← decorators rec
    if (← isWord "export") && (← read).moduleItems then exportDeclaration rec start decorated
    else
      if (← typed) && (← isWord "abstract") then advance
      classRest rec start decorated true false
  else
    match ← declaration? rec with
    | some n => if single then fail else return n
    | none =>
      match ← typeDeclaration? rec with
      | some n => if single then fail else return n
      | none => plainStatement rec

def program (rec : Rec) : Parser Node := do
  let items ← many (do
    if (← token) == .done then return none
    else return some (← rec (.statement false)))
  if (← token) == .done then node .program 0 items else fail

end EmberClasses.Script.Grammar
