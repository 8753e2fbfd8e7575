import EmberClasses.Path

/-!
Glob patterns: `?` is any character, `*` any run of characters, `**` any run of whole path
components, `[…]` one of a set of characters and `[!…]` any other.
-/

namespace EmberClasses.Glob

/-- A character set entry: a range, which may be a single character. -/
structure CharRange where
  low : Char
  high : Char
  deriving DecidableEq, Inhabited

inductive Token where
  | char (c : Char)
  | anyChar
  | anySequence
  | anyComponents
  | within (set : List CharRange)
  | except (set : List CharRange)
  deriving DecidableEq, Inhabited

structure Pattern where
  tokens : List Token
  /-- The pattern holds a `**`. -/
  recursive : Bool
  deriving DecidableEq, Inhabited

/-- The entries of a character set. A dash between two characters makes a range. -/
def ranges : List Char → List CharRange
  | a :: '-' :: b :: rest => ⟨a, b⟩ :: ranges rest
  | a :: rest => ⟨a, a⟩ :: ranges rest
  | [] => []

/-- Cuts a text before its first closing bracket. -/
def untilBracket : List Char → Option (List Char × List Char)
  | [] => none
  | ']' :: rest => some ([], rest)
  | c :: rest => (untilBracket rest).map fun (inner, after) => (c :: inner, after)

/-- The set after an opening bracket. A bracket in first place belongs to the set. -/
def charSet : List Char → Option (Token × List Char)
  | '!' :: first :: rest =>
    (untilBracket rest).map fun (inner, after) => (.except (ranges (first :: inner)), after)
  | '!' :: [] => none
  | first :: rest =>
    (untilBracket rest).map fun (inner, after) => (.within (ranges (first :: inner)), after)
  | [] => none

/-- Reads the tokens of a pattern. `last` is the character before `cs`. -/
def readTokens : Nat → Option Char → List Char → Option (List Token)
  | 0, _, _ => none
  | _ + 1, _, [] => some []
  | fuel + 1, _, '?' :: cs => (readTokens fuel (some '?') cs).map (.anyChar :: ·)
  | fuel + 1, last, '*' :: cs =>
    match cs with
    | '*' :: '*' :: _ => none
    | '*' :: rest =>
      if last = none ∨ last = some '/' then
        match rest with
        | [] => some [.anyComponents]
        | '/' :: rest => (readTokens fuel (some '/') rest).map (.anyComponents :: ·)
        | _ => none
      else none
    | rest => (readTokens fuel (some '*') rest).map (.anySequence :: ·)
  | fuel + 1, _, '[' :: cs =>
    match charSet cs with
    | none => none
    | some (token, rest) => (readTokens fuel (some ']') rest).map (token :: ·)
  | fuel + 1, _, c :: cs => (readTokens fuel (some c) cs).map (.char c :: ·)

/-- Neighbouring `**` count once, except at the very start. -/
def collapse : List Token → List Token → List Token
  | done, [] => done.reverse
  | done, .anyComponents :: rest =>
    if 1 < done.length ∧ done.head? = some .anyComponents then collapse done rest
    else collapse (.anyComponents :: done) rest
  | done, token :: rest => collapse (token :: done) rest

/-- Reads a pattern. None when a wildcard or a character set is not well formed. -/
def Pattern.parse (text : String) : Option Pattern := do
  let tokens ← readTokens (text.length + 1) none text.toList
  return ⟨collapse [] tokens, tokens.contains .anyComponents⟩

def inSet (set : List CharRange) (c : Char) : Bool :=
  set.any fun r => r.low ≤ c && c ≤ r.high

def Token.takes (t : Token) (c : Char) : Bool :=
  match t with
  | char d => c == d
  | anyChar => true
  | within set => inSet set c
  | except set => !inSet set c
  | _ => false

/-- `tail` matches what follows some character that `stop` accepts. -/
def afterSome (tail : List Char → Bool) (stop : Char → Bool) : List Char → Bool
  | [] => false
  | c :: cs => (stop c && tail cs) || afterSome tail stop cs

/-- Whether the tokens match a whole text. A `*` also takes slashes. -/
def matchTokens : List Token → List Char → Bool
  | [], cs => cs.isEmpty
  | .anySequence :: ts, cs => matchTokens ts cs || afterSome (matchTokens ts) (fun _ => true) cs
  | .anyComponents :: ts, cs => matchTokens ts cs || afterSome (matchTokens ts) (· == '/') cs
  | t :: ts, c :: cs => t.takes c && matchTokens ts cs
  | _ :: _, [] => false

def Pattern.matches (p : Pattern) (text : String) : Bool := matchTokens p.tokens text.toList

end EmberClasses.Glob
