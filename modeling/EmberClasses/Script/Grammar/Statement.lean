import EmberClasses.Script.Grammar.Expression

/-!
Statements, module items apart. A statement that is the body of another one is single: no
declaration can stand there.
-/

namespace EmberClasses.Script.Grammar

open EmberClasses.Script.Parser

/-- Inside braces, where imports and exports are not written. -/
def nested {α : Type} (p : Parser α) : Parser α :=
  within (fun ctx => { ctx with moduleItems := false, allowIn := true }) p

def block (rec : Rec) : Parser Node := do
  let start ← here
  expect .lbrace
  let statements ← nested (manyUntil .rbrace (rec (.statement false)))
  node .block start statements

def single (rec : Rec) : Parser Node := nested (rec (.statement true))

def inParens (rec : Rec) : Parser Node := do
  expect .lparen
  let e ← enclosed (rec .expression)
  expect .rparen
  return e

inductive VariableKind where
  | var
  | letVar
  | constant
  deriving DecidableEq

/-- The word that starts a declaration of variables here, if there is one. -/
def variableKind? : Parser (Option VariableKind) := do
  let bindsNext : Parser Bool := nextIs fun c => match c.token with
    | .name text _ => !(["in", "instanceof"].contains text)
    | .punct .lbrace | .punct .lbracket => true
    | _ => false
  let bindsNameNext : Parser Bool := nextIs fun c => !c.fresh && (match c.token with
    | .name text _ => !(["in", "of", "instanceof", "as", "satisfies"].contains text)
    | _ => false)
  if ← isWord "var" then return some .var
  else if ← isWord "const" then
    let isEnum ← nextIs fun c => c.token == .name "enum" false
    return if isEnum && (← typed) then none else some .constant
  else if (← isWord "let") && (← bindsNext) then return some .letVar
  else if (← isWord "using") && (← bindsNameNext) then return some .constant
  else if (← isWord "await") && (← read).await then
    let binds ← look (do
      advance
      if (← fresh) || !(← isWord "using") || !(← bindsNameNext) then fail)
    return binds.map fun _ => .constant
  else return none

/-- A target and its initial value. In a statement, constants and patterns need one. -/
def declarator (rec : Rec) (kind : VariableKind) (head : Bool) : Parser Node := do
  let start ← here
  let target ← typedBinding rec (some .bang)
  if ← eat .assign then
    let value ← rec .assignment
    node .declarator start [target, value]
  else
    let isName := target.kind matches .identifier _
    if !head && !(← read).ambient && (kind == .constant || !isName) then fail
    node .declarator start [target]

/-- Variables without the end of the statement. -/
def variableList (rec : Rec) (kind : VariableKind) (head : Bool) : Parser Node := do
  let start ← here
  let _ ← eatWord "await"
  advance
  let first ← declarator rec kind head
  let others ← many (do
    if ← eat .comma then return some (← declarator rec kind head) else return none)
  node (.variableList head (kind == .var)) start (first :: others)

def variableStatement (rec : Rec) (kind : VariableKind) : Parser Node := do
  let declared ← variableList rec kind false
  semicolon
  node declared.kind declared.span.start declared.children

def ifStatement (rec : Rec) : Parser Node := do
  let start ← here
  advance
  let test ← inParens rec
  let yes ← single rec
  let no ← (do if ← eatWord "else" then return [← single rec] else return [])
  node .statement start (test :: yes :: no)

def whileStatement (rec : Rec) : Parser Node := do
  let start ← here
  advance
  let test ← inParens rec
  let body ← single rec
  node .statement start [test, body]

def doStatement (rec : Rec) : Parser Node := do
  let start ← here
  advance
  let body ← single rec
  expectWord "while"
  let test ← inParens rec
  let _ ← eat .semicolon
  node .statement start [body, test]

def loopStart (rec : Rec) : Parser (List Node) := do
  if ← isPunct .semicolon then return []
  else
    let inHead (ctx : Context) : Context := { ctx with allowIn := false }
    match ← variableKind? with
    | some kind => return [← within inHead (variableList rec kind true)]
    | none => return [← within inHead (rec .expression)]

/-- What a loop over elements or keys assigns to. -/
def loopTarget (first : List Node) : Parser Node := do
  match first with
  | [⟨.variableList head hoisted, span, [⟨.declarator, inner, [target]⟩]⟩] =>
    return ⟨.variableList head hoisted, span, [⟨.declarator, inner, [target]⟩]⟩
  | [⟨.variableList _ _, _, _⟩] => fail
  | [e] =>
    match e.toTarget with
    | some target => return target
    | none => fail
  | _ => fail

def forStatement (rec : Rec) : Parser Node := do
  let start ← here
  advance
  let awaited ← (do
    if (← isWord "await") && (← read).await then
      advance
      return true
    else return false)
  expect .lparen
  let asyncOf := (← isWord "async") && (← nextIs fun c => c.token == .name "of" false)
  let first ← loopStart rec
  if asyncOf && !awaited && (← isWord "of") then fail
  if (← isWord "of") || ((← isWord "in") && !awaited) then
    let target ← loopTarget first
    let range : Goal := if ← isWord "of" then .assignment else .expression
    advance
    let right ← enclosed (rec range)
    expect .rparen
    let body ← single rec
    node .statement start [target, right, body]
  else
    if awaited then fail
    let optional (close : Punct) : Parser (List Node) := do
      if ← isPunct close then return [] else return [← enclosed (rec .expression)]
    expect .semicolon
    let test ← optional .semicolon
    expect .semicolon
    let update ← optional .rparen
    expect .rparen
    let body ← single rec
    node .statement start (first ++ test ++ update ++ [body])

def jumpStatement : Parser Node := do
  let start ← here
  advance
  let label ← (do
    if (← atIdentifier) && !(← fresh) then return [(← identifier).asLabel] else return [])
  semicolon
  node .statement start label

def returnStatement (rec : Rec) : Parser Node := do
  let start ← here
  if !(← read).return_ then fail
  advance
  let ends := (← fresh) || (← isPunct .semicolon) || (← isPunct .rbrace) || (← token) == .done
  let value ← (do if ends then return [] else return [← enclosed (rec .expression)])
  semicolon
  node .statement start value

def throwStatement (rec : Rec) : Parser Node := do
  let start ← here
  advance
  if ← fresh then fail
  let value ← enclosed (rec .expression)
  semicolon
  node .statement start [value]

def switchClause (rec : Rec) : Parser Node := do
  let start ← here
  let test ← (do
    if ← eatWord "default" then return []
    else
      expectWord "case"
      return [← enclosed (rec .expression)])
  expect .colon
  let body ← many (do
    if (← isWord "case") || (← isWord "default") || (← isPunct .rbrace) then return none
    else return some (← rec (.statement false)))
  node .clause start (test ++ body)

def switchStatement (rec : Rec) : Parser Node := do
  let start ← here
  advance
  let subject ← inParens rec
  expect .lbrace
  let clauses ← nested (manyUntil .rbrace (switchClause rec))
  node .statement start (subject :: clauses)

def tryStatement (rec : Rec) : Parser Node := do
  let start ← here
  advance
  let tried ← block rec
  let handler ← (do
    if ← isWord "catch" then
      let start ← here
      advance
      let caught ← (do
        if ← eat .lparen then
          let target ← typedBinding rec none
          expect .rparen
          return [target]
        else return [])
      let body ← block rec
      return [← node .handler start (caught ++ [body])]
    else return [])
  let last ← (do if ← eatWord "finally" then return [← block rec] else return [])
  if handler.isEmpty && last.isEmpty then fail
  node .statement start (tried :: handler ++ last)

def labelled (rec : Rec) : Parser Node := do
  let start ← here
  let label ← identifier
  expect .colon
  let body ← single rec
  node .statement start [label.asLabel, body]

def expressionStatement (rec : Rec) : Parser Node := do
  let start ← here
  let e ← enclosed (rec .expression)
  semicolon
  node .expression start [e]

/-- A statement that starts with a keyword and may stand anywhere. -/
def keywordStatement (rec : Rec) (word : String) : Option (Parser Node) :=
  match word with
  | "if" => some (ifStatement rec)
  | "for" => some (forStatement rec)
  | "while" => some (whileStatement rec)
  | "with" => some (whileStatement rec)
  | "do" => some (doStatement rec)
  | "break" => some jumpStatement
  | "continue" => some jumpStatement
  | "return" => some (returnStatement rec)
  | "throw" => some (throwStatement rec)
  | "switch" => some (switchStatement rec)
  | "try" => some (tryStatement rec)
  | "debugger" => some (do
    let start ← here
    advance
    semicolon
    node .statement start [])
  | _ => none

def plainStatement (rec : Rec) : Parser Node := do
  let start ← here
  match ← token with
  | .punct .lbrace => block rec
  | .punct .semicolon =>
    advance
    node .statement start []
  | .name text false =>
    match keywordStatement rec text with
    | some p => p
    | none =>
      if (← atIdentifier) && (← nextIs fun c => c.token == .punct .colon) then labelled rec
      else expressionStatement rec
  | _ => expressionStatement rec

/-- A declaration that is no module item, if one starts here. -/
def declaration? (rec : Rec) : Parser (Option Node) := do
  match ← variableKind? with
  | some kind => return some (← variableStatement rec kind)
  | none =>
    if ← isWord "function" then return some (← function rec true false)
    else if ← atAsyncFunction then return some (← function rec true false)
    else if (← isWord "class") || (← isPunct .atSign) then
      return some (← classDefinition rec true false)
    else if (← typed) && (← isWord "abstract") &&
        (← nextIs fun c => c.token == .name "class" false) then
      return some (← classDefinition rec true false)
    else return none

end EmberClasses.Script.Grammar
