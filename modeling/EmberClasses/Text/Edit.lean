import EmberClasses.Text.Span

/-!
Edits of a source text. An edit puts a text in place of a span; a list of edits is applied in one
pass from left to right, after sorting. The pass yields pieces, each either copied from the source
or inserted, so that what happened to every line of the source can still be told afterwards.
-/

namespace EmberClasses

structure Edit where
  span : Span
  text : List Char
  deriving DecidableEq, Inhabited

namespace Edit

/-- Puts `text` before the character at `offset`. -/
def insert (offset : Nat) (text : List Char) : Edit := ⟨.point offset, text⟩

def le (a b : Edit) : Bool :=
  a.span.start < b.span.start || (a.span.start == b.span.start && a.span.stop ≤ b.span.stop)

/-- Edits in the order they are applied. Edits of one span keep their order. -/
def sorted (edits : List Edit) : List Edit := edits.mergeSort le

end Edit

inductive Piece where
  /-- Characters of the source, the first of them at byte offset `at`. -/
  | copied (offset : Nat) (chars : List Char)
  | inserted (chars : List Char)
  deriving DecidableEq

namespace Piece

def chars : Piece → List Char
  | copied _ cs => cs
  | inserted cs => cs

def text (pieces : List Piece) : List Char := pieces.flatMap chars

end Piece

namespace Edit

/-- An edit that starts before the end of the one before it, or lies outside of the edited span. -/
structure Misplaced where
  span : Span
  deriving DecidableEq

def Misplaced.message (e : Misplaced) : String :=
  "overlapping or out of range edit at " ++ toString e.span.start ++ ".." ++ toString e.span.stop

/-- Applies sorted edits to the bytes from `cursor` to `stop`. -/
def weave (source : List Char) (stop : Nat) : Nat → List Edit → Except Misplaced (List Piece)
  | cursor, [] => .ok [.copied cursor (Text.slice source ⟨cursor, stop⟩)]
  | cursor, e :: es =>
    if e.span.start < cursor ∨ stop < e.span.stop then .error ⟨e.span⟩
    else match weave source stop e.span.stop es with
      | .error bad => .error bad
      | .ok pieces =>
        let before := Text.slice source ⟨cursor, e.span.start⟩
        .ok (.copied cursor before :: .inserted e.text :: pieces)

def pieces (source : List Char) (span : Span) (edits : List Edit) :
    Except Misplaced (List Piece) :=
  weave source span.stop span.start (sorted edits)

def applyIn (source : List Char) (span : Span) (edits : List Edit) :
    Except Misplaced (List Char) :=
  (pieces source span edits).map Piece.text

def apply (source : List Char) (edits : List Edit) : Except Misplaced (List Char) :=
  applyIn source (Text.whole source) edits

end Edit

end EmberClasses
