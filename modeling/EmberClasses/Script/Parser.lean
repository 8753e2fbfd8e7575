import EmberClasses.Script.Lexer
import EmberClasses.Script.Tree

/-!
The machinery that the grammar is written with: a cursor on the current token, the context that
decides how some tokens are read, and a few combinators. Parsers go back by keeping an older cursor.
-/

namespace EmberClasses.Script

structure Cursor where
  token : Token
  /-- Span of the token. -/
  span : Span
  /-- A line break stands before the token. -/
  fresh : Bool
  /-- The text from the start of the token on. -/
  here : List Char
  /-- The text after the token. -/
  rest : List Char
  /-- End of the token before. -/
  last : Nat
  deriving Inhabited

structure Rejection where
  offset : Nat
  deriving DecidableEq, Inhabited

namespace Cursor

/-- The first token at or after byte `offset`, where `text` starts. -/
def read (offset last : Nat) (text : List Char) : Except Rejection Cursor :=
  match Lexer.skipTrivia .blank offset false text with
  | none => .error ⟨offset⟩
  | some (start, fresh, here) =>
    match Lexer.scanToken here with
    | none => .error ⟨start⟩
    | some (token, n, rest) => .ok ⟨token, ⟨start, start + n⟩, fresh, here, rest, last⟩

/-- The first token of a script. A first line that starts with `#!` is passed over. -/
def start (source : List Char) : Except Rejection Cursor :=
  match source with
  | '#' :: '!' :: cs =>
    match Lexer.skipTrivia .line 2 false cs with
    | none => .error ⟨0⟩
    | some (offset, _, rest) => read offset 0 rest
  | _ => read 0 0 source

def advance (c : Cursor) : Except Rejection Cursor := read c.span.stop c.span.stop c.rest

/-- The same place with another reading of the token. -/
def reread (c : Cursor) (scan : List Char → Option (Token × Nat × List Char)) :
    Except Rejection Cursor :=
  match scan c.here with
  | none => .error ⟨c.span.start⟩
  | some (token, n, rest) =>
    .ok { c with token, span := ⟨c.span.start, c.span.start + n⟩, rest }

end Cursor

structure Context where
  /-- Type annotations may be written. -/
  typed : Bool
  /-- `in` is an operator. -/
  allowIn : Bool := true
  await : Bool := true
  yield : Bool := false
  return_ : Bool := false
  /-- Inside a decorator, where a bracket does not continue the expression. -/
  decorator : Bool := false
  /-- Imports and exports may be written. -/
  moduleItems : Bool := true
  /-- Inside a declaration of what exists elsewhere. -/
  ambient : Bool := false
  /-- More turns than any loop over the script takes. -/
  budget : Nat
  deriving Inhabited

abbrev Parser := ReaderT Context (StateT Cursor (Except Rejection))

inductive Goal where
  | expression
  | assignment
  /-- The middle of a conditional: an `assignment` that a colon follows. -/
  | branch
  | binary (above : Nat)
  | unary
  | leftHand
  | newTarget
  | binding
  | statement (single : Bool)
  | type
  | plainType
  | operatorType
  deriving DecidableEq, Inhabited

abbrev Rec := Goal → Parser Node

namespace Parser

def fail {α : Type} : Parser α := do throw ⟨(← get).span.start⟩

def token : Parser Token := do return (← get).token

def here : Parser Nat := do return (← get).span.start

def last : Parser Nat := do return (← get).last

/-- A line break stands before the current token. -/
def fresh : Parser Bool := do return (← get).fresh

def advance : Parser Unit := do set (← liftM (← get).advance)

def typed : Parser Bool := do return (← read).typed

/-- A node that starts at `start` and ends with the token before. -/
def node (kind : Kind) (start : Nat) (children : List Node) : Parser Node := do
  return ⟨kind, ⟨start, ← last⟩, children⟩

def isPunct (p : Punct) : Parser Bool := do return (← token) == .punct p

/-- The current token is a name spelled out without escapes. -/
def isWord (text : String) : Parser Bool := do return (← token) == .name text false

def eat (p : Punct) : Parser Bool := do
  if ← isPunct p then advance; return true else return false

def eatWord (text : String) : Parser Bool := do
  if ← isWord text then advance; return true else return false

def expect (p : Punct) : Parser Unit := do
  if !(← eat p) then fail

def expectWord (text : String) : Parser Unit := do
  if !(← eatWord text) then fail

/-- Runs a parser; when it fails nothing happened. -/
def attempt {α : Type} (p : Parser α) : Parser (Option α) := do
  let before ← get
  try
    return some (← p)
  catch _ =>
    set before
    return none

def look {α : Type} (p : Parser α) : Parser (Option α) := do
  let before ← get
  let result ← attempt p
  set before
  return result

/-- Whether the token after the current one passes a test, which sees the cursor on it. -/
def nextIs (test : Cursor → Bool) : Parser Bool := do
  let seen ← look (do advance; return test (← get))
  return seen.getD false

/-- Repeats a parser as long as it gives a result. -/
def manyLoop {α : Type} (item : Parser (Option α)) : Nat → Parser (List α)
  | 0 => return []
  | fuel + 1 => do
    match ← item with
    | none => return []
    | some x => return x :: (← manyLoop item fuel)

def many {α : Type} (item : Parser (Option α)) : Parser (List α) := do
  manyLoop item (← read).budget

/-- Items up to a closing punctuator, which is taken. -/
def manyUntil (close : Punct) (item : Parser Node) : Parser (List Node) :=
  many (do
    if ← eat close then return none
    else return some (← item))

/-- Items separated by commas up to a closing punctuator, which is taken. A comma may stand before
it. -/
def commaList (close : Punct) (item : Parser Node) : Parser (List Node) :=
  many (do
    if ← eat close then return none
    else
      let x ← item
      if !(← isPunct close) then expect .comma
      return some x)

/-- Feeds a node to `step` until it gives none. -/
def iterateLoop (step : Node → Parser (Option Node)) : Nat → Node → Parser Node
  | 0, n => return n
  | fuel + 1, n => do
    match ← step n with
    | none => return n
    | some m => iterateLoop step fuel m

def iterate (step : Node → Parser (Option Node)) (n : Node) : Parser Node := do
  iterateLoop step (← read).budget n

/-- The end of a statement: a semicolon, or a place where one may be left out. -/
def semicolon : Parser Unit := do
  if ← eat .semicolon then return ()
  else if (← isPunct .rbrace) || (← token) == .done || (← fresh) then return ()
  else fail

def reserved : List String :=
  ["break", "case", "catch", "class", "const", "continue", "debugger", "default", "delete", "do",
   "else", "enum", "export", "extends", "false", "finally", "for", "function", "if", "import", "in",
   "instanceof", "new", "null", "return", "super", "switch", "this", "throw", "true", "try",
   "typeof", "var", "void", "while", "with"]

/-- Whether a name can stand for a variable here. -/
def usable (ctx : Context) (text : String) : Bool :=
  !reserved.contains text && !(ctx.await && text == "await") && !(ctx.yield && text == "yield")

/-- Whether a token can stand for a variable here. -/
def isVariable (ctx : Context) (t : Token) : Bool :=
  match t with
  | .name text _ => usable ctx text
  | _ => false

def atIdentifier : Parser Bool := do return isVariable (← read) (← token)

def identifier : Parser Node := do
  match ← token with
  | .name text _ =>
    if usable (← read) text then
      let start ← here
      advance
      node (.identifier text) start []
    else fail
  | _ => fail

def anyName : Parser Node := do
  match ← token with
  | .name text _ =>
    let start ← here
    advance
    node (.identifier text) start []
  | _ => fail

def leaf (kind : Kind) : Parser Node := do
  let start ← here
  advance
  node kind start []

def stringLiteral : Parser Node := do
  match ← token with
  | .string value => leaf (.string value)
  | _ => fail

def within {α : Type} (change : Context → Context) (p : Parser α) : Parser α :=
  withReader change p

/-- Whether the token can start the name of a property. -/
def startsKey : Token → Bool
  | .name _ _ | .string _ | .number | .bigint | .privateName _ | .punct .lbracket => true
  | _ => false

/-- Texts of a template and what stands in its substitutions, in turn. Only a tagged template may
hold escapes that are not well formed. -/
def templatePartsLoop (item : Parser Node) (tagged : Bool) : Nat → Parser (List Node)
  | 0 => fail
  | fuel + 1 => do
    match ← token with
    | .template last valid =>
      if !valid && !tagged then fail
      let c ← get
      let text : Node := ⟨.quasi, ⟨c.span.start + 1, c.span.stop - (if last then 1 else 2)⟩, []⟩
      advance
      if last then return [text]
      else
        let x ← item
        if !(← isPunct .rbrace) then fail
        set (← liftM ((← get).reread fun cs => Lexer.templateRest true 1 cs.tail))
        return text :: x :: (← templatePartsLoop item tagged fuel)
    | _ => fail

def templateParts (item : Parser Node) (tagged : Bool) : Parser (List Node) := do
  templatePartsLoop item tagged (← read).budget

end Parser

end EmberClasses.Script
