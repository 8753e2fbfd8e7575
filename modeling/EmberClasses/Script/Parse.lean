import EmberClasses.Script.Grammar.Module

/-!
Reading a script. The grammar's rules refer to each other through one function; it gets a depth that
no script can exceed, since every rule that refers to itself has passed over a character by then.
-/

namespace EmberClasses.Script

structure Dialect where
  /-- Types may be written. -/
  typed : Bool
  deriving DecidableEq, Inhabited

/-- The rules of the grammar, at most `depth` deep. -/
def rules : Nat → Rec
  | 0 => fun _ => Parser.fail
  | depth + 1 => fun goal =>
    let again := rules depth
    match goal with
    | .expression => Grammar.expression again
    | .assignment => Grammar.assignment again .assignment
    | .branch => Grammar.assignment again .branch
    | .binary above => Grammar.binary again above
    | .unary => Grammar.unary again
    | .leftHand => Grammar.leftHand again
    | .newTarget => Grammar.newTarget again
    | .binding => Grammar.binding again
    | .statement single => Grammar.statement again single
    | .type => Grammar.type again
    | .plainType => Grammar.plainType again
    | .operatorType => Grammar.operatorType again

/-- An object literal whose properties have initial values must have become a pattern. -/
def complete (n : Node) : Bool := !n.any fun m => m.kind = .coverProperty

def parse (dialect : Dialect) (source : List Char) : Except Rejection Node := do
  let size := source.length
  let ctx : Context := { typed := dialect.typed, budget := size + 2 }
  let cursor ← Cursor.start source
  let (tree, _) ← ((Grammar.program (rules (8 * (size + 4)))).run ctx).run cursor
  if complete tree then return tree else throw ⟨0⟩

end EmberClasses.Script
