import EmberClasses.Script.Token
import EmberClasses.Text.Identifier

/-!
Reading tokens from characters. Each scanner takes the text from where a token starts, or after its
first characters, and gives the token's length in bytes and the text that follows. Positions are
byte offsets. None means that no token can be read.
-/

namespace EmberClasses.Script.Lexer

def isLineBreak (c : Char) : Bool :=
  c == '\n' || c == '\r' || c.toNat == 0x2028 || c.toNat == 0x2029

def isSpace (c : Char) : Bool :=
  let n := c.toNat
  n == 9 || n == 11 || n == 12 || n == 32 || n == 0x85 || n == 0xA0 || n == 0x1680 || n == 0x180E ||
    (0x2000 ≤ n && n ≤ 0x200B) || n == 0x202F || n == 0x205F || n == 0x3000 || n == 0xFEFF

/-- What is being passed over between two tokens. -/
inductive Trivia where
  | blank
  | line
  | block
  deriving DecidableEq

/-- Passes over white space and comments from byte `n` on. Gives the offset of the next token, and
whether a line break was passed. -/
def skipTrivia : Trivia → Nat → Bool → List Char → Option (Nat × Bool × List Char)
  | .block, _, _, [] => none
  | _, n, fresh, [] => some (n, fresh, [])
  | .blank, n, fresh, '/' :: '/' :: cs => skipTrivia .line (n + 2) fresh cs
  | .blank, n, fresh, '/' :: '*' :: cs => skipTrivia .block (n + 2) fresh cs
  | .blank, n, fresh, c :: cs =>
    if isLineBreak c then skipTrivia .blank (n + c.utf8Size) true cs
    else if isSpace c then skipTrivia .blank (n + c.utf8Size) fresh cs
    else some (n, fresh, c :: cs)
  | .line, n, fresh, c :: cs =>
    if isLineBreak c then skipTrivia .blank (n + c.utf8Size) true cs
    else skipTrivia .line (n + c.utf8Size) fresh cs
  | .block, n, fresh, '*' :: '/' :: cs => skipTrivia .blank (n + 2) fresh cs
  | .block, n, fresh, c :: cs => skipTrivia .block (n + c.utf8Size) (fresh || isLineBreak c) cs

def hexValue? (c : Char) : Option Nat :=
  if c.isDigit then some (c.toNat - 48)
  else if 'a' ≤ c && c ≤ 'f' then some (c.toNat - 87)
  else if 'A' ≤ c && c ≤ 'F' then some (c.toNat - 55)
  else none

def isHex (c : Char) : Bool := (hexValue? c).isSome

def hexNumber (cs : List Char) : Nat :=
  cs.foldl (fun n c => n * 16 + (hexValue? c).getD 0) 0

/-- The code point of an escape after its `\u`, the number of characters it takes, and the rest. -/
def codePoint (cs : List Char) : Option (Nat × Nat × List Char) :=
  match cs with
  | '{' :: rest =>
    let ds := rest.takeWhile isHex
    match rest.drop ds.length with
    | '}' :: after =>
      if ds.isEmpty || 0x10FFFF < hexNumber ds then none
      else some (hexNumber ds, ds.length + 2, after)
    | _ => none
  | _ =>
    let ds := cs.take 4
    if ds.length = 4 && ds.all isHex then some (hexNumber ds, 4, cs.drop 4) else none

/-- Adds the rest of a name to the characters read so far, which are kept in reverse. `skip`
characters belong to an escape that has been read. -/
def nameRest : Nat → List Char → Bool → Nat → List Char →
    Option (List Char × Bool × Nat × List Char)
  | _, rev, escaped, n, [] => some (rev, escaped, n, [])
  | skip + 1, rev, escaped, n, _ :: cs => nameRest skip rev escaped (n + 1) cs
  | 0, rev, escaped, n, c :: cs =>
    let fits (c : Char) : Bool := if rev.isEmpty then Text.isIdStart c else Text.isIdPart c
    if c = '\\' then
      match cs with
      | 'u' :: rest =>
        match codePoint rest with
        | none => none
        | some (code, k, _) =>
          if fits (Char.ofNat code) then nameRest (k + 1) (Char.ofNat code :: rev) true (n + 1) cs
          else none
      | _ => none
    else if fits c then nameRest 0 (c :: rev) escaped (n + c.utf8Size) cs
    else some (rev, escaped, n, c :: cs)

def scanName (cs : List Char) : Option (String × Bool × Nat × List Char) :=
  match nameRest 0 [] false 0 cs with
  | some (rev, escaped, n, rest) =>
    if rev.isEmpty then none else some (String.ofList rev.reverse, escaped, n, rest)
  | none => none

/-- Digits with single underscores between them. -/
def wellSeparated : Bool → List Char → Bool
  | afterDigit, [] => afterDigit
  | true, '_' :: cs => wellSeparated false cs
  | false, '_' :: _ => false
  | _, _ :: cs => wellSeparated true cs

def digitRun (ok : Char → Bool) (cs : List Char) : Option (Nat × List Char) :=
  let ds := cs.takeWhile fun c => ok c || c == '_'
  if wellSeparated false ds then some (ds.length, cs.drop ds.length) else none

def scanExponent (n : Nat) (cs : List Char) : Option (Nat × List Char) :=
  match cs with
  | c :: rest =>
    if c == 'e' || c == 'E' then
      let (signed, rest) := match rest with
        | '+' :: r => (1, r)
        | '-' :: r => (1, r)
        | r => (0, r)
      (digitRun Char.isDigit rest).map fun (k, after) => (n + 1 + signed + k, after)
    else some (n, cs)
  | [] => some (n, [])

/-- The part of a number after its integer digits. -/
def scanFraction (n : Nat) (cs : List Char) : Option (Nat × List Char) :=
  match cs with
  | '.' :: rest =>
    match rest with
    | c :: _ =>
      if c.isDigit then
        (digitRun Char.isDigit rest).bind fun (k, after) => scanExponent (n + 1 + k) after
      else if c == '_' then none
      else scanExponent (n + 1) rest
    | [] => some (n + 1, [])
  | _ => scanExponent n cs

/-- A number must not run into a name or another number. -/
def numberEnd (token : Token) (n : Nat) (cs : List Char) : Option (Token × Nat × List Char) :=
  match cs with
  | c :: _ => if Text.isIdPart c || c == '\\' then none else some (token, n, cs)
  | [] => some (token, n, [])

/-- A number in another base, after its two first characters. -/
def scanBased (ok : Char → Bool) (cs : List Char) : Option (Token × Nat × List Char) :=
  match digitRun ok cs with
  | none => none
  | some (k, 'n' :: rest) => numberEnd .bigint (k + 3) rest
  | some (k, rest) => numberEnd .number (k + 2) rest

/-- A number with a zero in front of other digits. It is octal, and has no fraction, unless it has a
digit above seven. -/
def scanPadded (cs : List Char) : Option (Token × Nat × List Char) :=
  let ds := cs.takeWhile Char.isDigit
  let rest := cs.drop ds.length
  if ds.any fun d => '8' ≤ d then
    (scanFraction ds.length rest).bind fun (n, rest) => numberEnd .number n rest
  else numberEnd .number ds.length rest

def scanNumber (cs : List Char) : Option (Token × Nat × List Char) :=
  match cs with
  | '0' :: 'x' :: rest => scanBased isHex rest
  | '0' :: 'X' :: rest => scanBased isHex rest
  | '0' :: 'o' :: rest => scanBased (fun c => '0' ≤ c && c ≤ '7') rest
  | '0' :: 'O' :: rest => scanBased (fun c => '0' ≤ c && c ≤ '7') rest
  | '0' :: 'b' :: rest => scanBased (fun c => c == '0' || c == '1') rest
  | '0' :: 'B' :: rest => scanBased (fun c => c == '0' || c == '1') rest
  | '.' :: _ => (scanFraction 0 cs).bind fun (n, rest) => numberEnd .number n rest
  | '0' :: '_' :: _ => none
  | _ =>
    let padded := cs.head? = some '0' && (cs.tail.head?.map Char.isDigit).getD false
    if padded then scanPadded cs
    else
      match digitRun Char.isDigit cs with
      | none => none
      | some (k, 'n' :: rest) => numberEnd .bigint (k + 1) rest
      | some (k, rest) => (scanFraction k rest).bind fun (n, rest) => numberEnd .number n rest

/-- Octal digits of an escape: at most three, worth at most 255. -/
def octalDigits (cs : List Char) : List Char :=
  let isOctal (c : Char) := decide ('0' ≤ c) && decide (c ≤ '7')
  match cs with
  | a :: _ => (cs.take (if a ≤ '3' then 3 else 2)).takeWhile isOctal
  | [] => []

/-- Joins surrogate pairs. A lone surrogate is written as the replacement character and its four
digits. -/
def joinUnits : List Nat → List Char
  | high :: low :: rest =>
    if 0xD800 ≤ high ∧ high ≤ 0xDBFF ∧ 0xDC00 ≤ low ∧ low ≤ 0xDFFF then
      Char.ofNat ((high - 0xD800) * 0x400 + (low - 0xDC00) + 0x10000) :: joinUnits rest
    else unit high ++ joinUnits (low :: rest)
  | [n] => unit n
  | [] => []
where
  unit (n : Nat) : List Char :=
    if 0xD800 ≤ n ∧ n ≤ 0xDFFF then Char.ofNat 0xFFFD :: Nat.toDigits 16 n else [Char.ofNat n]

def plainEscape : Char → Nat
  | 'b' => 8
  | 't' => 9
  | 'n' => 10
  | 'v' => 11
  | 'f' => 12
  | 'r' => 13
  | c => c.toNat

/-- What the characters after a backslash stand for, and how many of them belong to the escape. -/
def scanEscape (cs : List Char) : Option (List Nat × Nat) :=
  match cs with
  | [] => none
  | '\r' :: '\n' :: _ => some ([], 2)
  | 'x' :: rest =>
    let ds := rest.take 2
    if ds.length = 2 && ds.all isHex then some ([hexNumber ds], 3) else none
  | 'u' :: rest => (codePoint rest).map fun (code, k, _) => ([code], k + 1)
  | c :: _ =>
    if isLineBreak c then some ([], 1)
    else
      let ds := octalDigits cs
      if ds.isEmpty then some ([plainEscape c], 1)
      else some ([ds.foldl (fun v d => v * 8 + (d.toNat - 48)) 0], ds.length)

/-- The rest of a string up to its closing quote; `rev` holds the code units read so far. `skip`
characters belong to an escape that has been read. -/
def stringRest (quote : Char) : Nat → List Nat → Nat → List Char → Option (String × Nat × List Char)
  | _, _, _, [] => none
  | skip + 1, rev, n, c :: cs => stringRest quote skip rev (n + c.utf8Size) cs
  | 0, rev, n, c :: cs =>
    if c = quote then some (String.ofList (joinUnits rev.reverse), n + 1, cs)
    else if c = '\\' then
      match scanEscape cs with
      | none => none
      | some (units, k) => stringRest quote k (units ++ rev) (n + 1) cs
    else if c = '\n' || c = '\r' then none
    else stringRest quote 0 (c.toNat :: rev) (n + c.utf8Size) cs

def scanString (cs : List Char) : Option (Token × Nat × List Char) :=
  match cs with
  | quote :: rest =>
    (stringRest quote 0 [] 1 rest).map fun (value, n, after) => (.string value, n, after)
  | [] => none

def backtick : Char := Char.ofNat 0x60

/-- Whether an escape of a template is well formed: `c` follows the backslash. -/
def validEscape (c : Char) (cs : List Char) : Bool :=
  if c = 'x' then (cs.take 2).length = 2 && (cs.take 2).all isHex
  else if c = 'u' then (codePoint cs).isSome
  else if c = '0' then !((cs.head?.map Char.isDigit).getD false)
  else !c.isDigit

/-- Template text up to its end or its next substitution, from byte `n` of the token on. -/
def templateRest : Bool → Nat → List Char → Option (Token × Nat × List Char)
  | _, _, [] => none
  | valid, n, '$' :: '{' :: cs => some (.template false valid, n + 2, cs)
  | valid, n, '\\' :: c :: cs => templateRest (valid && validEscape c cs) (n + 1 + c.utf8Size) cs
  | valid, n, c :: cs =>
    if c = backtick then some (.template true valid, n + 1, cs)
    else templateRest valid (n + c.utf8Size) cs

/-- A regular expression up to its closing slash. -/
def regexRest : Bool → Nat → List Char → Option (Nat × List Char)
  | _, _, [] => none
  | inSet, n, '\\' :: c :: cs =>
    if isLineBreak c then none else regexRest inSet (n + 1 + c.utf8Size) cs
  | inSet, n, c :: cs =>
    if isLineBreak c then none
    else if c = '/' && !inSet then some (n + 1, cs)
    else regexRest (if c = '[' then true else if c = ']' then false else inSet) (n + c.utf8Size) cs

/-- A regular expression from its opening slash on. Flags are known letters, each at most once. -/
def scanRegex (cs : List Char) : Option (Token × Nat × List Char) :=
  match regexRest false 1 cs.tail with
  | none => none
  | some (n, rest) =>
    let flags := rest.takeWhile Text.isIdPart
    if flags.all ("dgimsuvy".toList.contains ·) && flags.eraseDups.length = flags.length then
      some (.regex, n + flags.length, rest.drop flags.length)
    else none

/-- A `?.` in front of a digit is a question mark and a decimal point. Modules have no comments that
start with `<!--`. -/
def scanPunct (cs : List Char) : Option (Token × Nat × List Char) :=
  match cs with
  | '<' :: '!' :: '-' :: '-' :: _ => none
  | '?' :: '.' :: rest =>
    if (rest.head?.map Char.isDigit).getD false then some (.punct .question, 1, '.' :: rest)
    else some (.punct .optional, 2, rest)
  | _ => (Punct.find? Punct.table cs).map fun (p, n) => (.punct p, n, cs.drop n)

/-- The token at the start of a text, its length in bytes, and the text after it. -/
def scanToken (cs : List Char) : Option (Token × Nat × List Char) :=
  match cs with
  | [] => some (.done, 0, [])
  | c :: rest =>
    if c = '"' || c = '\'' then scanString cs
    else if c.isDigit then scanNumber cs
    else if c = '.' && (rest.head?.map Char.isDigit).getD false then scanNumber cs
    else if c = backtick then templateRest true 1 rest
    else if c = '#' then
      (scanName rest).map fun (text, _, n, after) => (.privateName text, n + 1, after)
    else if Text.isIdStart c || c = '\\' then
      (scanName cs).map fun (text, escaped, n, after) => (.name text escaped, n, after)
    else scanPunct cs

end EmberClasses.Script.Lexer
