import EmberClasses.Json.Value
import EmberClasses.Text.Span

/-!
Reading JSON from left to right. A reader consumes the front of a text and fails with the first
fault it meets: the text is no JSON, it ends early, or a value is not of the form asked for. Typed
values are read directly, without building a `Json` first, so a fault of form in front of a fault
of spelling is reported as such.
-/

namespace EmberClasses.Json

inductive Fault where
  /-- Not JSON, nested too deeply, or a number that is too large. -/
  | malformed
  /-- The text ends early. -/
  | truncated
  /-- A value of the wrong form. -/
  | mismatch
  deriving DecidableEq, Inhabited

abbrev Reader := StateT (List Char) (Except Fault)

namespace Reader

/-- Containers may be nested this deep, less one. -/
def depthLimit : Nat := 128

def fail {α : Type} (fault : Fault) : Reader α := throw fault

def peek : Reader (Option Char) := do return (← get).head?

def skip : Reader Unit := modify List.tail

/-- Takes the next character, or fails at the end. -/
def next : Reader Char := do
  match ← get with
  | [] => fail .truncated
  | c :: cs => set cs; return c

def isSpace (c : Char) : Bool := c == ' ' || c == '\n' || c == '\t' || c == '\r'

def peekToken : Reader (Option Char) := do
  modify (·.dropWhile isSpace)
  peek

/-- Like `peekToken`, but fails at the end of the text. -/
def token : Reader Char := do
  match ← peekToken with
  | none => fail .truncated
  | some c => return c

def word : List Char → Reader Unit
  | [] => return ()
  | c :: cs => do
    if (← next) = c then word cs else fail .malformed

/-- The value of up to four hexadecimal digits. -/
def hexValue? (c : Char) : Option Nat :=
  if c.isDigit then some (c.toNat - 48)
  else if 'a' ≤ c && c ≤ 'f' then some (c.toNat - 87)
  else if 'A' ≤ c && c ≤ 'F' then some (c.toNat - 55)
  else none

def hex4 : Reader Nat := do
  let cs ← get
  if Text.byteLength cs < 4 then fail .truncated
  match cs with
  | a :: b :: c :: d :: rest =>
    match hexValue? a, hexValue? b, hexValue? c, hexValue? d with
    | some a, some b, some c, some d => set rest; return ((a * 16 + b) * 16 + c) * 16 + d
    | _, _, _, _ => fail .malformed
  | _ => fail .malformed

/-- The character of a `\u` escape. Surrogates come in pairs. -/
def unicodeEscape : Reader Char := do
  let n ← hex4
  if 0xDC00 ≤ n ∧ n ≤ 0xDFFF then fail .malformed
  if n < 0xD800 ∨ 0xDBFF < n then return Char.ofNat n
  if (← next) ≠ '\\' then fail .malformed
  if (← next) ≠ 'u' then fail .malformed
  let low ← hex4
  if low < 0xDC00 ∨ 0xDFFF < low then fail .malformed
  return Char.ofNat ((n - 0xD800) * 0x400 + (low - 0xDC00) + 0x10000)

def plainEscape : Char → Option Char
  | '"' => some '"'
  | '\\' => some '\\'
  | '/' => some '/'
  | 'b' => some (Char.ofNat 8)
  | 'f' => some (Char.ofNat 12)
  | 'n' => some '\n'
  | 'r' => some '\r'
  | 't' => some '\t'
  | _ => none

/-- The rest of a string after its opening quote. With `keep` false escapes are only checked for
their spelling, and the result is empty. -/
def stringRest (keep : Bool) : Nat → List Char → Reader (List Char)
  | 0, _ => fail .truncated
  | fuel + 1, rev => do
    let c ← next
    if c = '"' then return rev.reverse
    else if c = '\\' then
      let e ← next
      if e = 'u' then
        if keep then
          let x ← unicodeEscape
          stringRest keep fuel (x :: rev)
        else
          let _ ← hex4
          stringRest keep fuel rev
      else match plainEscape e with
        | some x => stringRest keep fuel (if keep then x :: rev else rev)
        | none => fail .malformed
    else if c.toNat < 0x20 then fail .malformed
    else stringRest keep fuel (if keep then c :: rev else rev)

def string : Reader String := do
  return String.ofList (← stringRest true ((← get).length + 1) [])

def skipString : Reader Unit := do
  let _ ← stringRest false ((← get).length + 1) []

def wordLimit : Nat := Double.twoTo 64

/-- Takes digits, adding them to `value` as long as it stays below the limit. Gives the value and
the number of digits added. -/
def digits : Nat → Nat → Nat → Reader (Nat × Nat)
  | 0, value, count => return (value, count)
  | fuel + 1, value, count => do
    match ← peek with
    | some c =>
      if c.isDigit then
        let larger := value * 10 + (c.toNat - 48)
        if larger < wordLimit then skip; digits fuel larger (count + 1)
        else return (value, count)
      else return (value, count)
    | none => return (value, count)

def skipDigits : Reader Nat := do
  let n := ((← get).takeWhile Char.isDigit).length
  modify (·.dropWhile Char.isDigit)
  return n

def isExponentMark (c : Option Char) : Bool := c == some 'e' || c == some 'E'

def finishDouble (negative : Bool) (significand : Nat) (exponent : Int) : Reader Number :=
  match Double.ofDecimal significand exponent with
  | some x => return .double negative x
  | none => fail .malformed

/-- Largest value of an exponent that is still added up. -/
def exponentLimit : Nat := Double.twoTo 31 - 1

/-- The digits of an exponent, or none when they exceed the limit. -/
def exponentDigits : Nat → Nat → Reader (Option Nat)
  | 0, value => return some value
  | fuel + 1, value => do
    match ← peek with
    | some c =>
      if c.isDigit then
        skip
        let larger := value * 10 + (c.toNat - 48)
        if exponentLimit < larger then return none else exponentDigits fuel larger
      else return some value
    | none => return some value

/-- The exponent of a number, which is added to `start`. -/
def exponent (negative : Bool) (significand : Nat) (start : Int) : Reader Number := do
  skip
  let below ← (do
    match ← peek with
    | some '+' => skip; return false
    | some '-' => skip; return true
    | _ => return false)
  let c ← next
  if !c.isDigit then fail .malformed
  match ← exponentDigits ((← get).length + 1) (c.toNat - 48) with
  | some e => finishDouble negative significand (if below then start - e else start + e)
  | none =>
    if significand ≠ 0 ∧ !below then fail .malformed
    let _ ← skipDigits
    return .double negative ⟨0, -1074⟩

/-- The part of a number after its decimal point. -/
def fraction (negative : Bool) (significand : Nat) (start : Int) : Reader Number := do
  skip
  let (significand, count) ← digits ((← get).length + 1) significand 0
  let extra ← skipDigits
  if count = 0 ∧ extra = 0 then
    match ← peek with
    | some _ => fail .malformed
    | none => fail .truncated
  let at10 := start - count
  if isExponentMark (← peek) then exponent negative significand at10
  else finishDouble negative significand at10

def number (negative : Bool) : Reader Number := do
  let c ← next
  if !c.isDigit then fail .malformed
  let afterZero ← peek
  if c = '0' ∧ (afterZero.map Char.isDigit).getD false then fail .malformed
  let (value, _) ← digits ((← get).length + 1) (c.toNat - 48) 0
  let dropped ← skipDigits
  match ← peek with
  | some '.' => fraction negative value dropped
  | some 'e' | some 'E' => exponent negative value dropped
  | _ =>
    if 0 < dropped then finishDouble negative value dropped
    else if !negative then return .whole value
    else if value = 0 ∨ wordLimit / 2 < value then finishDouble true value 0
    else return .whole (-value)

/-- Elements up to the closing bracket, which is left in place. At most `limit` of them are read
when a limit is given. -/
def elements {α : Type} (item : Reader α) : Nat → Bool → Reader (List α)
  | 0, _ => fail .malformed
  | fuel + 1, first => do
    let c ← token
    if c = ']' then return []
    else
      if !first then
        if c ≠ ',' then fail .malformed
        skip
        if (← token) = ']' then fail .malformed
      let x ← item
      return x :: (← elements item fuel false)

/-- The key of an object's next entry, read by `key` after its opening quote, or none before the
closing brace. -/
def nextKey {κ : Type} (key : Reader κ) (first : Bool) : Reader (Option κ) := do
  let c ← token
  if c = '}' then return none
  else
    if !first then
      if c ≠ ',' then fail .malformed
      skip
    if (← token) ≠ '"' then fail .malformed
    skip
    return some (← key)

def colon : Reader Unit := do
  if (← token) ≠ ':' then fail .malformed
  skip

/-- The entries of an object, handed one by one to `entry` with what was read so far. -/
def entries {κ σ : Type} (key : Reader κ) (entry : σ → κ → Reader σ) : Nat → Bool → σ → Reader σ
  | 0, _, _ => fail .malformed
  | fuel + 1, first, s => do
    match ← nextKey key first with
    | none => return s
    | some k =>
      let s ← entry s k
      entries key entry fuel false s

/-- The closing bracket of an array all of whose elements have been read. -/
def closeArray : Reader Unit := do
  if (← token) ≠ ']' then fail .malformed
  skip

def closeObject : Reader Unit := do
  if (← token) ≠ '}' then fail .malformed
  skip

/-- Enough steps for any loop over the rest of the text. -/
def steps : Reader Nat := do return (← get).length + 1

/-- An array of `item`s after its opening bracket. -/
def arrayOf {α : Type} (item : Reader α) : Reader (List α) := do
  skip
  let xs ← elements item (← steps) true
  closeArray
  return xs

/-- An object, each key read by `key` and each value by `entry`. -/
def objectWith {κ σ : Type} (key : Reader κ) (entry : σ → κ → Reader σ) (s : σ) : Reader σ := do
  skip
  let s ← entries key entry (← steps) true s
  closeObject
  return s

def objectOf {σ : Type} (entry : σ → String → Reader σ) (s : σ) : Reader σ :=
  objectWith string entry s

/-- Any value that may hold containers `depth - 1` deep. -/
def value : Nat → Reader Json
  | 0 => fail .malformed
  | depth + 1 => do
    let c ← token
    match c with
    | 'n' => skip; word "ull".toList; return .null
    | 't' => skip; word "rue".toList; return .bool true
    | 'f' => skip; word "alse".toList; return .bool false
    | '-' => skip; return .number (← number true)
    | '"' => skip; return .string (← string)
    | '[' =>
      if depth = 0 then fail .malformed
      return .array (← arrayOf (value depth))
    | '{' =>
      if depth = 0 then fail .malformed
      return .object (← objectOf (fun acc key => do
        colon
        return setKey key (← value depth) acc) [])
    | c => if c.isDigit then return .number (← number false) else fail .malformed

def skipNumber : Reader Unit := do
  let orZero : Reader Char := do
    match ← get with
    | [] => return Char.ofNat 0
    | c :: cs => set cs; return c
  let c ← orZero
  if !c.isDigit then fail .malformed
  let more ← skipDigits
  if c = '0' ∧ 0 < more then fail .malformed
  if (← peek) == some '.' then
    skip
    if (← skipDigits) = 0 then fail .malformed
  if isExponentMark (← peek) then
    skip
    match ← peek with
    | some '+' | some '-' => skip
    | _ => pure ()
    if (← skipDigits) = 0 then fail .malformed

def skipValue : Nat → Reader Unit
  | 0 => fail .malformed
  | fuel + 1 => do
    let c ← token
    match c with
    | 'n' => skip; word "ull".toList
    | 't' => skip; word "rue".toList
    | 'f' => skip; word "alse".toList
    | '-' => skip; skipNumber
    | '"' => skip; skipString
    | '[' => let _ ← arrayOf (skipValue fuel)
    | '{' => objectWith skipString (fun () _ => do colon; skipValue fuel) ()
    | c => if c.isDigit then skipNumber else fail .malformed

/-- Rejects the next value because of its form, unless its spelling is already wrong. -/
def mismatch {α : Type} : Reader α := do
  match ← peek with
  | some 'n' => skip; word "ull".toList; fail .mismatch
  | some 't' => skip; word "rue".toList; fail .mismatch
  | some 'f' => skip; word "alse".toList; fail .mismatch
  | some '-' => skip; let _ ← number true; fail .mismatch
  | some '"' => skip; let _ ← string; fail .mismatch
  | some '[' | some '{' => fail .mismatch
  | some c =>
    if c.isDigit then
      let _ ← number false
      fail .mismatch
    else fail .malformed
  | none => fail .malformed

def readBool : Reader Bool := do
  match ← token with
  | 't' => skip; word "rue".toList; return true
  | 'f' => skip; word "alse".toList; return false
  | _ => mismatch

def readString : Reader String := do
  if (← token) = '"' then skip; string else mismatch

def readOption {α : Type} (item : Reader α) : Reader (Option α) := do
  if (← token) = 'n' then
    skip
    word "ull".toList
    return none
  else return some (← item)

/-- A list; `depth` containers may be open around its elements. -/
def readList {α : Type} (depth : Nat) (item : Nat → Reader α) : Reader (List α) := do
  if (← token) = '[' then
    if depth ≤ 1 then fail .malformed
    arrayOf (item (depth - 1))
  else mismatch

/-- An object with any keys. A key written twice keeps its first place and its last value. -/
def readMap {α : Type} (depth : Nat) (item : Nat → Reader α) : Reader (List (String × α)) := do
  if (← token) = '{' then
    if depth ≤ 1 then fail .malformed
    objectOf (fun acc key => do
      colon
      return setKey key (← item (depth - 1)) acc) []
  else mismatch

/-- One of a fixed set of names: a string, or an object whose one entry has the name as its key and
`null` as its value. -/
def readName {α : Type} (depth : Nat) (names : String → Option α) : Reader α := do
  let named : Reader α := do
    match names (← readString) with
    | some x => return x
    | none => fail .mismatch
  match ← token with
  | '"' => named
  | '{' =>
    if depth ≤ 1 then fail .malformed
    skip
    let x ← named
    colon
    if (← token) = 'n' then
      skip
      word "ull".toList
    else mismatch
    closeObject
    return x
  | _ => fail .malformed

/-- A field of a record: its keys, and how its value changes the record. -/
structure Field (σ : Type) where
  keys : List String
  read : Nat → σ → Reader σ

/-- The fields of a record written as an array, in order; the last ones may be missing. -/
def positional {σ : Type} (depth : Nat) : List (Field σ) → Bool → σ → Reader σ
  | [], _, s => return s
  | field :: fields, first, s => do
    let c ← token
    if c = ']' then return s
    else
      if !first then
        if c ≠ ',' then fail .malformed
        skip
        if (← token) = ']' then fail .malformed
      let s ← field.read depth s
      positional depth fields false s

/-- A record, written as an object or as an array of its fields. Unknown keys are passed over, and
a field may be set once. -/
def readRecord {σ : Type} (depth : Nat) (fields : List (Field σ)) (default : σ) : Reader σ := do
  match ← token with
  | '[' =>
    if depth ≤ 1 then fail .malformed
    skip
    let s ← positional (depth - 1) fields true default
    closeArray
    return s
  | '{' =>
    if depth ≤ 1 then fail .malformed
    let done ← objectOf (fun (s, seen) key => do
      match fields.findIdx? (fun f => f.keys.contains key) with
      | none =>
        colon
        skipValue (← steps)
        return (s, seen)
      | some i =>
        if seen.contains i then fail .mismatch
        colon
        match fields[i]? with
        | some field => return (← field.read (depth - 1) s, i :: seen)
        | none => return (s, seen)) (default, ([] : List Nat))
    return done.1
  | _ => mismatch

def run {α : Type} (reader : Reader α) (text : String) : Except Fault α := do
  let (x, rest) ← StateT.run reader text.toList
  if (rest.dropWhile isSpace).isEmpty then return x else throw .malformed

end Reader

def parse (text : String) : Except Fault Json := Reader.run (Reader.value Reader.depthLimit) text

end EmberClasses.Json
