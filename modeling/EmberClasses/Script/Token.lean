/-!
Tokens of a script. Punctuators that start with `>` are read one character at a time, because two
of them may close two lists of type arguments; an operator made of several is put together where an
operator is expected.
-/

namespace EmberClasses.Script

inductive Punct where
  | lbrace | rbrace | lparen | rparen | lbracket | rbracket
  | dot | ellipsis | semicolon | comma | colon | arrow | atSign
  | question | optional | coalesce
  | lt | le | gt | ge | eq | eqStrict | ne | neStrict
  | plus | minus | star | slash | percent | power | increment | decrement
  | shiftLeft | shiftRight | shiftRightZero
  | bitAnd | bitOr | bitXor | tilde | bang | logicalAnd | logicalOr
  | assign | assignOp
  deriving DecidableEq, Inhabited

namespace Punct

/-- Spellings, longer ones before their beginnings. -/
def table : List (List Char × Punct) :=
  [(['.', '.', '.'], ellipsis), (['=', '=', '='], eqStrict), (['!', '=', '='], neStrict),
   (['*', '*', '='], assignOp), (['<', '<', '='], assignOp), (['&', '&', '='], assignOp),
   (['|', '|', '='], assignOp), (['?', '?', '='], assignOp),
   (['=', '>'], arrow), (['=', '='], eq), (['!', '='], ne), (['<', '='], le),
   (['<', '<'], shiftLeft), (['+', '+'], increment), (['-', '-'], decrement), (['*', '*'], power),
   (['&', '&'], logicalAnd), (['|', '|'], logicalOr), (['?', '?'], coalesce),
   (['+', '='], assignOp), (['-', '='], assignOp), (['*', '='], assignOp), (['/', '='], assignOp),
   (['%', '='], assignOp), (['&', '='], assignOp), (['|', '='], assignOp), (['^', '='], assignOp),
   (['{'], lbrace), (['}'], rbrace), (['('], lparen), ([')'], rparen), (['['], lbracket),
   ([']'], rbracket), (['.'], dot), ([';'], semicolon), ([','], comma), ([':'], colon),
   (['@'], atSign), (['?'], question), (['<'], lt), (['>'], gt), (['+'], plus), (['-'], minus),
   (['*'], star), (['/'], slash), (['%'], percent), (['&'], bitAnd), (['|'], bitOr),
   (['^'], bitXor), (['~'], tilde), (['!'], bang), (['='], assign)]

/-- Operators that start with `>`, longer ones first. -/
def angles : List (List Char × Punct) :=
  [(['>', '>', '>', '='], assignOp), (['>', '>', '='], assignOp), (['>', '>', '>'], shiftRightZero),
   (['>', '>'], shiftRight), (['>', '='], ge), (['>'], gt)]

/-- The first entry of a table that a text starts with. -/
def find? (entries : List (List Char × Punct)) (cs : List Char) : Option (Punct × Nat) :=
  (entries.find? fun e => e.1.isPrefixOf cs).map fun e => (e.2, e.1.length)

def precedence? : Punct → Option Nat
  | coalesce => some 1
  | logicalOr => some 2
  | logicalAnd => some 3
  | bitOr => some 4
  | bitXor => some 5
  | bitAnd => some 6
  | eq | ne | eqStrict | neStrict => some 7
  | lt | le | gt | ge => some 8
  | shiftLeft | shiftRight | shiftRightZero => some 9
  | plus | minus => some 10
  | star | slash | percent => some 11
  | power => some 12
  | _ => none

end Punct

inductive Token where
  /-- An identifier or a keyword. -/
  | name (text : String) (escaped : Bool)
  | privateName (text : String)
  | punct (p : Punct)
  | number
  | bigint
  | string (value : String)
  /-- Template text up to the closing backtick (`last`) or to the next substitution. `valid` tells
  that its escapes are well formed. -/
  | template (last valid : Bool)
  | regex
  | done
  deriving DecidableEq, Inhabited

end EmberClasses.Script
