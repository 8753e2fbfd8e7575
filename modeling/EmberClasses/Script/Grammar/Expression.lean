import EmberClasses.Script.Grammar.Class
import EmberClasses.Script.Grammar.Target

/-!
Expressions, from single names up to sequences. Binary operators are read by precedence: an operand
is an expression whose operators bind more tightly than the one before it.
-/

namespace EmberClasses.Script.Grammar

open EmberClasses.Script.Parser

def spreadOr (rec : Rec) : Parser Node := do
  let start ← here
  if ← eat .ellipsis then
    let value ← enclosed (rec .assignment)
    node .spread start [value]
  else enclosed (rec .assignment)

def arguments (rec : Rec) : Parser (List Node) := do
  expect .lparen
  commaList .rparen (spreadOr rec)

def arrayLiteral (rec : Rec) : Parser Node := do
  let start ← here
  expect .lbracket
  let elements ← sparseList (spreadOr rec)
  node .array start elements

/-- A property of an object literal, after its modifiers. -/
def keyedProperty (rec : Rec) (start : Nat) (accessor : Accessor) (async generator : Bool) :
    Parser Node := do
  let shorthand := (← atIdentifier) && accessor == .plain && !async && !generator
  let (key, computed) ← propertyKey rec
  if key.kind matches .privateName _ then fail
  if (← isPunct .lparen) || ((← typed) && (← isPunct .lt)) then
    let f ← methodFunction rec async generator accessor
    let method := accessor == .plain
    node (.property ⟨accessor, method, computed⟩) start [key, f]
  else if accessor != .plain || async || generator then fail
  else if ← eat .colon then
    let value ← enclosed (rec .assignment)
    node (.property ⟨.plain, false, computed⟩) start [key, value]
  else if !shorthand then fail
  else if ← eat .assign then
    let value ← enclosed (rec .assignment)
    node .coverProperty start [key, value]
  else node (.property ⟨.plain, false, false⟩) start [key]

def objectProperty (rec : Rec) : Parser Node := do
  let start ← here
  if ← isPunct .ellipsis then spreadOr rec
  else
    let reads ← isWord "get"
    let writes ← isWord "set"
    if (reads || writes) && (← nextIs fun c => startsKey c.token) then
      advance
      keyedProperty rec start (if reads then .getter else .setter) false false
    else
      let async ← modifies "async"
      if async then advance
      let generator ← eat .star
      keyedProperty rec start .plain async generator

def objectLiteral (rec : Rec) : Parser Node := do
  let start ← here
  expect .lbrace
  let properties ← commaList .rbrace (objectProperty rec)
  node .object start properties

def templateLiteral (rec : Rec) (tagged : Bool) : Parser Node := do
  let start ← here
  let parts ← templateParts (enclosed (rec .expression)) tagged
  node .template start parts

/-- A regular expression. Its slash has been read as an operator, or as the start of one. -/
def regexLiteral : Parser Node := do
  if (← get).here.head? ≠ some '/' then fail
  set (← liftM ((← get).reread Lexer.scanRegex))
  leaf .regex

/-- `import(…)`, perhaps with the phase of the import, or `import.meta`. -/
def importExpression (rec : Rec) : Parser Node := do
  let start ← here
  advance
  let dotted ← eat .dot
  if dotted && (← isWord "meta") then
    advance
    node .metaProperty start []
  else
    if dotted then
      if (← isWord "source") || (← isWord "defer") then advance else fail
    expect .lparen
    let args ← commaList .rparen (enclosed (rec .assignment))
    if args.isEmpty || 2 < args.length then fail
    node .importCall start args

/-- An expression that starts with a name or a keyword. -/
def nameExpression (rec : Rec) : Parser Node := do
  match ← token with
  | .name "this" false => leaf .thisRef
  | .name "null" false => leaf .nullLiteral
  | .name "true" false => leaf .boolean
  | .name "false" false => leaf .boolean
  | .name "function" false => function rec false true
  | .name "class" false => classDefinition rec false true
  | .name "import" false => importExpression rec
  | .name "super" false =>
    let n ← leaf .superRef
    if (← isPunct .lparen) || (← isPunct .dot) || (← isPunct .lbracket) then return n else fail
  | _ => if ← atAsyncFunction then function rec false true else identifier

def primary (rec : Rec) : Parser Node := do
  let start ← here
  match ← token with
  | .name _ _ => nameExpression rec
  | .number => leaf .number
  | .bigint => leaf .bigint
  | .string _ => stringLiteral
  | .template _ _ => templateLiteral rec false
  | .punct .slash | .punct .assignOp => regexLiteral
  | .punct .lparen =>
    advance
    let inner ← enclosed (rec .expression)
    expect .rparen
    node .paren start [inner]
  | .punct .lbracket => arrayLiteral rec
  | .punct .lbrace => objectLiteral rec
  | .punct .atSign => classDefinition rec false true
  | _ => fail

def memberTail (start : Nat) (object : Node) : Parser Node := do
  match ← token with
  | .name text _ =>
    advance
    node (.member text) start [object]
  | .privateName _ =>
    advance
    node .privateMember start [object]
  | _ => fail

def indexTail (rec : Rec) (start : Nat) (object : Node) : Parser Node := do
  expect .lbracket
  let i ← enclosed (rec .expression)
  expect .rbracket
  node .index start [object, i]

/-- Type arguments of a call, or of a function that is not called. -/
def instantiation (rec : Rec) : Parser (Option Node) := do
  if (← typed) && (← isPunct .lt) then
    attempt (do
      let args ← typeArguments rec
      let continues := match ← token with
        | .template _ _ | .done => true
        | .punct p =>
          [Punct.lparen, .rparen, .rbracket, .comma, .semicolon, .colon, .rbrace, .dot,
            .optional].contains p
        | _ => false
      if continues then return args else fail)
  else return none

/-- What follows a member expression, other than a call: one step. -/
def memberStep (rec : Rec) (start : Nat) (n : Node) : Parser (Option Node) := do
  match ← token with
  | .punct .dot =>
    advance
    return some (← memberTail start n)
  | .punct .lbracket =>
    if (← read).decorator then return none else return some (← indexTail rec start n)
  | .template _ _ =>
    let t ← templateLiteral rec true
    return some (← node .tagged start [n, t])
  | .punct .bang =>
    if (← typed) && !(← fresh) then
      advance
      return some (← node .nonNull start [n])
    else return none
  | _ => return none

def optionalTail (rec : Rec) (start : Nat) (n : Node) : Parser Node := do
  match ← token with
  | .punct .lparen =>
    let args ← arguments rec
    node .call start (n :: args)
  | .punct .lbracket => indexTail rec start n
  | .punct .lt =>
    match ← instantiation rec with
    | some types =>
      let args ← arguments rec
      node .call start (n :: types :: args)
    | none => fail
  | _ => memberTail start n

/-- One more member, call or template after an expression. -/
def callStep (rec : Rec) (start : Nat) (n : Node) : Parser (Option Node) := do
  match ← token with
  | .punct .lparen =>
    let args ← arguments rec
    return some (← node .call start (n :: args))
  | .punct .lt =>
    match ← instantiation rec with
    | some types =>
      if ← isPunct .lparen then
        let args ← arguments rec
        return some (← node .call start (n :: types :: args))
      else return some (← node .cast start [n, types])
    | none => return none
  | _ => memberStep rec start n

/-- The same with optional chains. Once a chain has begun, it wraps all that follows. -/
def chainStep (rec : Rec) (start : Nat) (n : Node) : Parser (Option Node) := do
  let (inner, chained) := match n with
    | ⟨.chain, _, [inner]⟩ => (inner, true)
    | _ => (n, false)
  if ← eat .optional then
    let m ← optionalTail rec start inner
    return some ⟨.chain, m.span, [m]⟩
  else
    if chained && ((← token) matches .template _ _) then fail
    match ← callStep rec start inner with
    | some m => return some (if chained then ⟨.chain, m.span, [m]⟩ else m)
    | none => return none

def newExpression (rec : Rec) : Parser Node := do
  let start ← here
  expectWord "new"
  if ← eat .dot then
    expectWord "target"
    node .metaProperty start []
  else
    let callee ← rec .newTarget
    if ← isPunct .optional then fail
    let types ← (do
      match ← instantiation rec with
      | some t => return [t]
      | none => return [])
    let args ← (do if ← isPunct .lparen then arguments rec else return [])
    node .newCall start (callee :: types ++ args)

/-- An expression that can be called with `new`. -/
def newTarget (rec : Rec) : Parser Node := do
  let start ← here
  let base ← (do
    if ← isWord "new" then newExpression rec
    else if (← isWord "import") && (← nextIs fun c => c.token == .punct .lparen) then fail
    else primary rec)
  iterate (memberStep rec start) base

def leftHand (rec : Rec) : Parser Node := do
  let start ← here
  let base ← (do if ← isWord "new" then newExpression rec else primary rec)
  iterate (chainStep rec start) base

def updateTarget (n : Node) : Parser Unit := do
  if !n.isPlace then fail

/-- An expression with an operator in front or behind. -/
def unary (rec : Rec) : Parser Node := do
  let start ← here
  let prefixed (kind : Kind) : Parser Node := do
    advance
    let operand ← rec .unary
    node kind start [operand]
  match ← token with
  | .punct .bang | .punct .tilde | .punct .plus | .punct .minus => prefixed .unary
  | .name "typeof" false | .name "void" false | .name "delete" false => prefixed .unary
  | .punct .increment | .punct .decrement =>
    let n ← prefixed .update
    n.children.forM updateTarget
    return n
  | t =>
    if t == .name "await" false && (← read).await then prefixed .await
    else if t == .punct .lt && (← typed) then
      advance
      let asserted ← rec .type
      expect .gt
      let operand ← rec .unary
      node .cast start [asserted, operand]
    else
      let n ← rec .leftHand
      if ((← isPunct .increment) || (← isPunct .decrement)) && !(← fresh) then
        updateTarget n
        advance
        node .update start [n]
      else return n

/-- The punctuator at the cursor, put together when it starts with `>`. -/
def operator? : Parser (Option Punct) := do
  match ← token with
  | .punct .gt =>
    let c ← get
    return (Punct.find? Punct.angles c.here).map Prod.fst
  | .punct p => return some p
  | _ => return none

/-- Passes over the operator that `operator?` gave. -/
def takeOperator : Parser Unit := do
  if ← isPunct .gt then
    set (← liftM ((← get).reread fun cs =>
      (Punct.find? Punct.angles cs).map fun (p, n) => (.punct p, n, cs.drop n)))
  advance

/-- A node for two operands, unless they must not be mixed without parentheses. -/
def binaryNode (p : Punct) (start : Nat) (left right : Node) : Parser Node := do
  match p with
  | .coalesce =>
    if left.kind == .logical false || right.kind == .logical false then fail
    node (.logical true) start [left, right]
  | .logicalOr | .logicalAnd =>
    if left.kind == .logical true || right.kind == .logical true then fail
    node (.logical false) start [left, right]
  | .power =>
    if left.kind == .unary || left.kind == .await then fail
    node .binary start [left, right]
  | _ => node .binary start [left, right]

def comparison : Nat := 8

/-- One more operator and operand that bind more tightly than `above`. -/
def binaryStep (rec : Rec) (above start : Nat) (left : Node) : Parser (Option Node) := do
  let byWord := (← isWord "instanceof") || ((← isWord "in") && (← read).allowIn)
  let byType := (← typed) && !(← fresh) && ((← isWord "as") || (← isWord "satisfies"))
  if (byWord || byType) && comparison ≤ above then return none
  else if byWord then
    advance
    let right ← rec (.binary comparison)
    return some (← node .binary start [left, right])
  else if byType then
    advance
    let asserted ← (do if ← isWord "const" then leaf .type else rec .type)
    return some (← node .cast start [left, asserted])
  else
    match ← operator? with
    | none => return none
    | some p =>
      match p.precedence? with
      | none => return none
      | some n =>
        if n ≤ above then return none
        else
          takeOperator
          let right ← rec (.binary (if p == .power then n - 1 else n))
          return some (← binaryNode p start left right)

/-- An expression whose binary operators all bind more tightly than `above`. -/
def binary (rec : Rec) (above : Nat) : Parser Node := do
  let start ← here
  let first ← (do
    match ← token with
    | .privateName text =>
      if comparison ≤ above || !(← read).allowIn then fail
      let name ← leaf (.privateName text)
      expectWord "in"
      let object ← rec (.binary comparison)
      node .privateIn start [name, object]
    | _ => rec .unary)
  iterate (binaryStep rec above start) first

/-- What stands before the arrow of a function: whether it is async, its parameters, and the type of
its result. -/
def arrowHead (rec : Rec) : Parser (Bool × List Node × List Node) := do
  let async ← (do
    if (← isWord "async") && (← nextIs fun c =>
        !c.fresh && (match c.token with
          | .name _ _ | .punct .lparen | .punct .lt => true
          | _ => false)) then
      advance
      return true
    else return false)
  let (params, result) ← within (fun ctx => { ctx with await := ctx.await || async }) (do
    if ← atIdentifier then
      let start ← here
      let name ← identifier
      return ([← node .param start [name]], [])
    else
      let declared ← typeParameters rec
      let params ← parameters rec
      return (declared ++ params, ← resultNote rec))
  if !(← isPunct .arrow) || (← fresh) then fail
  return (async, params, result)

def mayStartArrow : Parser Bool := do
  match ← token with
  | .punct .lparen => return true
  | .punct .lt => typed
  | .name "async" false => nextIs fun c => match c.token with
    | .name _ _ | .punct .lparen | .punct .lt | .punct .arrow => true
    | _ => false
  | t => if isVariable (← read) t then nextIs fun c => c.token == .punct .arrow else return false

/-- The body of an arrow function. An expression counts as a statement of its own. -/
def arrowBody (rec : Rec) (goal : Goal) (async : Bool) : Parser Node := do
  if ← isPunct .lbrace then within (inFunction async false) (functionBody rec)
  else
    let inBody (ctx : Context) : Context :=
      { inFunction async false ctx with allowIn := ctx.allowIn }
    let e ← within inBody (rec goal)
    return ⟨.body, e.span, [⟨.expression, e.span, [e]⟩]⟩

/-- An arrow function. In the middle of a conditional, what looks like the type of its result is one
only if another colon follows. -/
def arrowFunction (rec : Rec) (goal : Goal) : Parser (Option Node) := do
  if ← mayStartArrow then
    let start ← here
    let before ← get
    match ← attempt (arrowHead rec) with
    | none => return none
    | some (async, params, result) =>
      let remainder : Parser Node := do
        advance
        let body ← arrowBody rec goal async
        node (.arrow async) start (params ++ result ++ [body])
      if goal == .branch && !result.isEmpty then
        let f ← attempt (do
          let f ← remainder
          if ← isPunct .colon then return f else fail)
        if f.isNone then set before
        return f
      else return some (← remainder)
  else return none

/-- `yield`, with a value on the same line or without one. -/
def yieldExpression (rec : Rec) : Parser Node := do
  let start ← here
  expectWord "yield"
  if ← fresh then node .yield start []
  else if ← eat .star then
    let value ← rec .assignment
    node .yield start [value]
  else
    let ends := match ← token with
      | .done => true
      | .punct p =>
        [Punct.rparen, .rbracket, .rbrace, .comma, .semicolon, .colon].contains p
      | .name "in" false => true
      | _ => false
    if ends then node .yield start []
    else
      let value ← rec .assignment
      node .yield start [value]

/-- `test ? yes : no`, or a simpler expression. -/
def conditional (rec : Rec) (goal : Goal) : Parser Node := do
  let start ← here
  let test ← rec (.binary 0)
  if ← eat .question then
    let yes ← enclosed (rec .branch)
    expect .colon
    let no ← rec goal
    node .conditional start [test, yes, no]
  else return test

/-- An expression without top-level commas, as an `assignment` or a `branch`. -/
def assignment (rec : Rec) (goal : Goal) : Parser Node := do
  let start ← here
  match ← arrowFunction rec goal with
  | some f => return f
  | none =>
    if (← read).yield && (← isWord "yield") then yieldExpression rec
    else
      let left ← conditional rec goal
      match ← operator? with
      | some .assign =>
        match left.toTarget with
        | none => fail
        | some target =>
          advance
          let value ← rec .assignment
          node (.assignment true) start [target, value]
      | some .assignOp =>
        if !left.isPlace then fail
        takeOperator
        let value ← rec .assignment
        node (.assignment false) start [left, value]
      | _ => return left

def expression (rec : Rec) : Parser Node := do
  let start ← here
  let first ← rec .assignment
  if ← isPunct .comma then
    let others ← many (do
      if ← eat .comma then return some (← rec .assignment) else return none)
    node .sequence start (first :: others)
  else return first

end EmberClasses.Script.Grammar
