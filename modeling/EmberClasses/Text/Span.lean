/-!
Byte spans of a source text. A source is a list of characters; offsets count the bytes of its
UTF-8 form, so a span can be handed to any other tool that reads the same file.
-/

namespace EmberClasses

/-- The bytes from `start` up to, but not including, `stop`. -/
structure Span where
  start : Nat
  stop : Nat
  deriving DecidableEq, Inhabited

namespace Span

def point (offset : Nat) : Span := ⟨offset, offset⟩

def Inside (inner outer : Span) : Prop := outer.start ≤ inner.start ∧ inner.stop ≤ outer.stop

instance (inner outer : Span) : Decidable (inner.Inside outer) :=
  inferInstanceAs (Decidable (_ ∧ _))

/-- `a` ends before `b` starts. Touching spans are apart. -/
def Before (a b : Span) : Prop := a.stop ≤ b.start

instance (a b : Span) : Decidable (a.Before b) := inferInstanceAs (Decidable (_ ≤ _))

end Span

namespace Text

def byteLength : List Char → Nat
  | [] => 0
  | c :: cs => c.utf8Size + byteLength cs

/-- The characters that start before byte offset `n`. -/
def takeBytes : Nat → List Char → List Char
  | 0, _ => []
  | _ + 1, [] => []
  | n + 1, c :: cs => c :: takeBytes (n + 1 - c.utf8Size) cs

/-- The characters that start at byte offset `n` or later. -/
def dropBytes : Nat → List Char → List Char
  | 0, cs => cs
  | _ + 1, [] => []
  | n + 1, c :: cs => dropBytes (n + 1 - c.utf8Size) cs

def slice (source : List Char) (span : Span) : List Char :=
  takeBytes (span.stop - span.start) (dropBytes span.start source)

def whole (source : List Char) : Span := ⟨0, byteLength source⟩

theorem takeBytes_append_dropBytes (n : Nat) (cs : List Char) :
    takeBytes n cs ++ dropBytes n cs = cs := by
  induction cs generalizing n with
  | nil => cases n <;> rfl
  | cons c cs ih =>
    cases n with
    | zero => rfl
    | succ n => simp [takeBytes, dropBytes, ih]

theorem byteLength_append (a b : List Char) :
    byteLength (a ++ b) = byteLength a + byteLength b := by
  induction a with
  | nil => simp [byteLength]
  | cons c cs ih => simp [byteLength, ih, Nat.add_assoc]

/-- Blanks and tabs, the characters a line is indented with. -/
def isIndent (c : Char) : Bool := c == ' ' || c == '\t'

/-- The text from the start of the line that holds byte offset `n`; `line` is the last line start
seen so far. -/
def lineFrom (line : List Char) : Nat → List Char → List Char
  | 0, _ => line
  | _ + 1, [] => line
  | n + 1, c :: cs => lineFrom (if c = '\n' then cs else line) (n + 1 - c.utf8Size) cs

/-- Leading blanks and tabs of the line that holds `offset`. -/
def lineIndent (source : List Char) (offset : Nat) : List Char :=
  (lineFrom source offset source).takeWhile isIndent

/-- Bytes between the last line feed before byte offset `n` and that offset; `seen` bytes of the
line have been passed. -/
def columnFrom (seen : Nat) : Nat → List Char → Nat
  | 0, _ => seen
  | _ + 1, [] => seen
  | n + 1, c :: cs =>
    columnFrom (if c = '\n' then 0 else seen + c.utf8Size) (n + 1 - c.utf8Size) cs

/-- Column, in bytes, of `offset` within its line. -/
def column (source : List Char) (offset : Nat) : Nat := columnFrom 0 offset source

end Text

end EmberClasses
