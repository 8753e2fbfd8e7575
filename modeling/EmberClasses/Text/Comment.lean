import EmberClasses.Text.Blank
import EmberClasses.Text.Fragment

/-!
Comments between two pieces of code. A gap holds white space, commas and comments; the reader
stops at anything else and gives up a block comment that is not closed.
-/

namespace EmberClasses.Comment

/-- Where the reader stands. The characters of a comment are kept in reverse. -/
inductive Place where
  | between
  | line (rev : List Char)
  | block (column : Nat) (rev : List Char)

/-- The comments of the gap text `cs`, whose first character is at byte `offset` of `source`. A
block comment ends at the first `*/` that ends after its opening slash. -/
def scan (source : List Char) : Place → Nat → List Char → List (List Char)
  | .between, _, [] => []
  | .between, n, '/' :: '/' :: cs => scan source (.line ['/', '/']) (n + 2) cs
  | .between, n, '/' :: '*' :: cs =>
    scan source (.block (Text.column source n) ['*', '/']) (n + 2) cs
  | .between, n, c :: cs =>
    if Text.isBlank c || c == ',' then scan source .between (n + c.utf8Size) cs else []
  | .line rev, _, [] => [Text.trimEnd rev.reverse]
  | .line rev, n, c :: cs =>
    if c = '\n' then Text.trimEnd rev.reverse :: scan source .between (n + 1) cs
    else scan source (.line (c :: rev)) (n + c.utf8Size) cs
  | .block _ _, _, [] => []
  | .block column rev, n, c :: cs =>
    if c = '/' && rev.head? == some '*' then
      Fragment.dedentTail column (c :: rev).reverse :: scan source .between (n + 1) cs
    else scan source (.block column (c :: rev)) (n + c.utf8Size) cs

/-- The comments in a gap of the source, as they will be printed: line comments without trailing
white space, block comments moved left by their column. -/
def between (source : List Char) (gap : Span) : List (List Char) :=
  scan source .between gap.start (Text.slice source gap)

end EmberClasses.Comment
