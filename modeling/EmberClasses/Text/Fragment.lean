import EmberClasses.Text.Lines
import EmberClasses.Text.Edit

/-!
Fragments: pieces of code that will be printed at a new indentation. Some lines of a fragment are
verbatim: they start inside a template literal, so their leading blanks belong to a string and no
indentation may be taken away or added.
-/

namespace EmberClasses

/-- Code together with the numbers of its verbatim lines, ascending. Line 0 is never verbatim. -/
structure Fragment where
  text : List Char
  verbatim : List Nat := []
  deriving DecidableEq, Inhabited

namespace Fragment

def ofString (s : String) : Fragment := ⟨s.toList, []⟩

/-- Halves the window `[base, base + size)` of a sorted array until one entry is left. -/
def narrow (lines : Array Nat) (line : Nat) : Nat → Nat → Nat → Nat
  | 0, base, _ => base
  | fuel + 1, base, size =>
    if size ≤ 1 then base
    else
      let half := size / 2
      let mid := base + half
      let base := match lines[mid]? with
        | some x => if line < x then base else mid
        | none => base
      narrow lines line fuel base (size - half)

/-- Binary search for a line number in an ascending list. -/
def listed (lines : List Nat) (line : Nat) : Bool :=
  let a := lines.toArray
  a[narrow a line a.size 0 a.size]? == some line

/-- Whether a line starts inside a template literal. -/
def isVerbatim (f : Fragment) (line : Nat) : Bool := listed f.verbatim line

/-- Adds generated code, whose lines are never verbatim. -/
def push (f : Fragment) (text : List Char) : Fragment := { f with text := f.text ++ text }

/-- Adds another fragment, which keeps its verbatim lines. -/
def append (f g : Fragment) : Fragment where
  text := f.text ++ g.text
  verbatim := f.verbatim ++ g.verbatim.map (· + Text.lineFeeds f.text)

instance : Append Fragment := ⟨append⟩

/-- The parts in order, with `separator` between neighbours. -/
def join (parts : List Fragment) (separator : List Char) : Fragment :=
  match parts with
  | [] => ⟨[], []⟩
  | first :: rest =>
    let start : Fragment := (⟨[], []⟩ : Fragment).append first
    rest.foldl (fun acc part => (acc.push separator).append part) start

/-- Takes up to `columns` leading blanks and tabs from a line. -/
def stripIndent : Nat → List Char → List Char
  | n + 1, c :: cs => if Text.isIndent c then stripIndent n cs else c :: cs
  | _, cs => cs

/-- Takes up to `columns` leading blanks and tabs from every line after the first that `keep` does
not protect. -/
def dedentLines (columns : Nat) (keep : Nat → Bool) (text : List Char) : List Char :=
  Text.joinLines ((Text.splitLines text).mapIdx fun i line =>
    if i = 0 || keep i then line else stripIndent columns line)

/-- Takes up to `columns` leading blanks and tabs from every line after the first. -/
def dedentTail (columns : Nat) (text : List Char) : List Char :=
  dedentLines columns (fun _ => false) text

/-- Whether byte `offset` of the source lies in a template literal's text. -/
def inTemplate (quasis : List Span) (offset : Nat) : Bool :=
  match quasis.find? (fun q => offset < q.stop) with
  | some q => q.start ≤ offset
  | none => false

/-- The lines that start at a line feed copied out of a template literal. `line` is the number of
the line that the copied characters, the first of them at byte `offset`, start in. -/
def copiedLines (quasis : List Span) : Nat → Nat → List Char → List Nat
  | _, _, [] => []
  | line, offset, c :: cs =>
    if c = '\n' then
      if inTemplate quasis offset then
        (line + 1) :: copiedLines quasis (line + 1) (offset + c.utf8Size) cs
      else copiedLines quasis (line + 1) (offset + c.utf8Size) cs
    else copiedLines quasis line (offset + c.utf8Size) cs

/-- The verbatim lines of a list of pieces whose first character stands in line `line`. Inserted
lines are never verbatim. -/
def verbatimLines (quasis : List Span) : Nat → List Piece → List Nat
  | _, [] => []
  | line, .copied offset cs :: rest =>
    copiedLines quasis line offset cs ++ verbatimLines quasis (line + Text.lineFeeds cs) rest
  | line, .inserted cs :: rest => verbatimLines quasis (line + Text.lineFeeds cs) rest

/-- The text of `span` after `edits`, moved left by up to `columns`. Lines that start inside one of
the `quasis` stay as they are. -/
def cut (source : List Char) (span : Span) (edits : List Edit) (quasis : List Span)
    (columns : Nat) : Except Edit.Misplaced Fragment :=
  match Edit.pieces source span edits with
  | .error bad => .error bad
  | .ok pieces =>
    let verbatim := verbatimLines quasis 0 pieces
    .ok ⟨dedentLines columns (listed verbatim) (Piece.text pieces), verbatim⟩

end Fragment

end EmberClasses
