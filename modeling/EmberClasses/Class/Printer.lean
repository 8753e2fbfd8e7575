import EmberClasses.Text.Fragment

/-!
Printing by lines. Every line has the indentation that was in force when its first piece was
printed; verbatim lines have none.
-/

namespace EmberClasses

structure PrintedLine where
  text : List Char := []
  level : Nat
  /-- Continues a template literal, so nothing is put in front of it. -/
  verbatim : Bool := false
  deriving DecidableEq, Inhabited

/-- Finished lines, the line in the making, and the level of new lines. -/
structure Printer where
  done : List PrintedLine := []
  current : PrintedLine := { level := 0 }
  level : Nat := 0
  deriving DecidableEq, Inhabited

namespace Printer

def newLine (p : Printer) : Printer :=
  { p with done := p.done ++ [p.current], current := { level := p.level } }

def lineIsEmpty (p : Printer) : Bool := p.current.text.isEmpty

/-- Adds to the current line and ends it if asked to. -/
def print (p : Printer) (text : List Char) (ends : Bool) : Printer :=
  let p := { p with current.text := p.current.text ++ text }
  if ends then p.newLine else p

def mark (p : Printer) (verbatim : Bool) : Printer :=
  if verbatim then { p with current.verbatim := true } else p

/-- Prints the lines of a text, the first of which is line number `i`. -/
def printFrom (verbatim : Nat → Bool) (ends : Bool) : Nat → List (List Char) → Printer → Printer
  | _, [], p => p
  | i, [line], p => (p.mark (0 < i && verbatim i)).print line ends
  | i, line :: rest, p =>
    printFrom verbatim ends (i + 1) rest ((p.mark (0 < i && verbatim i)).print line true)

def printText (p : Printer) (text : List Char) (ends : Bool) : Printer :=
  printFrom (fun _ => false) ends 0 (Text.splitLines text) p

/-- Prints a fragment. Its verbatim lines get no indentation. -/
def printFragment (p : Printer) (f : Fragment) (ends : Bool) : Printer :=
  printFrom f.isVerbatim ends 0 (Text.splitLines f.text) p

/-- Changes the level of new lines, and of the current one while it is empty. -/
def setLevel (p : Printer) (level : Nat) : Printer :=
  if p.lineIsEmpty then { p with level, current.level := level } else { p with level }

def indent (p : Printer) : Printer := p.setLevel (p.level + 1)

def dedent (p : Printer) : Printer := p.setLevel (p.level - 1)

def renderLine (base : List Char) (i : Nat) (line : PrintedLine) : List Char :=
  if line.verbatim || line.text.isEmpty then line.text
  else (if i = 0 then [] else base) ++ List.replicate (2 * line.level) ' ' ++ line.text

/-- All lines, without a last one that is empty. -/
def lines (p : Printer) : List PrintedLine :=
  if p.current.text.isEmpty && !p.current.verbatim then p.done else p.done ++ [p.current]

/-- The printed text. Every line but the first is moved right by `base`. -/
def render (p : Printer) (base : List Char) : List Char :=
  Text.joinLines (p.lines.mapIdx (renderLine base))

end Printer

end EmberClasses
