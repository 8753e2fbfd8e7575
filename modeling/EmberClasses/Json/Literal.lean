import EmberClasses.Json.Value
import EmberClasses.Name
import EmberClasses.Options

/-!
JSON values written as script literals.
-/

namespace EmberClasses.Json

/-- The characters of a string literal for one character. -/
def escape (quote : Char) (c : Char) : List Char :=
  if c = '\\' then ['\\', '\\']
  else if c = '\n' then ['\\', 'n']
  else if c = '\r' then ['\\', 'r']
  else if c = quote then ['\\', c]
  else [c]

def quoted (quote : Quote) (s : String) : List Char :=
  quote.char :: s.toList.flatMap (escape quote.char) ++ [quote.char]

/-- A key of an object literal, quoted unless it is a plain name. -/
def literalKey (quote : Quote) (key : String) : List Char :=
  if Name.isPlainIdentifier key then key.toList else quoted quote key

mutual

def literal (quote : Quote) : Json → List Char
  | null => "null".toList
  | bool b => (if b then "true" else "false").toList
  | number n => n.render.toList
  | string s => quoted quote s
  | array items => '[' :: [',', ' '].intercalate (literals quote items) ++ [']']
  | object entries =>
    match entries with
    | [] => ['{', '}']
    | e :: es => ['{', ' '] ++ [',', ' '].intercalate (entryLiterals quote (e :: es)) ++ [' ', '}']

def literals (quote : Quote) : List Json → List (List Char)
  | [] => []
  | v :: vs => literal quote v :: literals quote vs

def entryLiterals (quote : Quote) : List (String × Json) → List (List Char)
  | [] => []
  | (key, v) :: es =>
    (literalKey quote key ++ [':', ' '] ++ literal quote v) :: entryLiterals quote es

end

/-- A value as the arguments of a call: an array gives one argument for each item, and null gives
none. -/
def argumentLiterals (quote : Quote) : Json → List (List Char)
  | null => []
  | array items => literals quote items
  | v => [literal quote v]

end EmberClasses.Json
