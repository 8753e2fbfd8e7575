import EmberClasses.Class.Basic
import EmberClasses.Class.Printer

/-!
How a class is laid out: comments, decorators and members on lines of their own, with an empty line
between two members.
-/

namespace EmberClasses

/-- What stands before the parameters of a method. -/
def Method.head (m : Method) (key : String) : List Char :=
  (if m.async then "async " else "").toList ++
  (match m.kind with
    | .getter => "get "
    | .setter => "set "
    | .method => "").toList ++
  (if m.generator then ['*'] else []) ++ key.toList ++ ['(']

def Fragment.ofField (key : String) (value : Fragment) : Fragment :=
  ((⟨key.toList ++ " = ".toList, []⟩ : Fragment).append value).push [';']

def Fragment.ofMethod (key : String) (m : Method) : Fragment :=
  let head : Fragment := ⟨m.head key, []⟩
  ((head.append (Fragment.join m.params [',', ' '])).push ") ".toList).append m.body

namespace Printer

def printComments (p : Printer) (comments : List (List Char)) : Printer :=
  comments.foldl (fun p c => p.printText c true) p

def printDecorators (p : Printer) (decorators : List AppliedDecorator) : Printer :=
  decorators.foldl (fun p d => p.printFragment d.toFragment true) p

/-- A field without a value is one piece, whatever its key looks like. -/
def printBody (p : Printer) (key : String) (body : MemberBody) : Printer :=
  match body with
  | .field none => p.print (key.toList ++ [';']) true
  | .field (some value) => p.printFragment (Fragment.ofField key value) true
  | .method m => p.printFragment (Fragment.ofMethod key m) true

def printMember (p : Printer) (m : Member) : Printer :=
  ((p.printComments m.comments).printDecorators m.decorators).printBody m.key m.body

/-- Members with an empty line between neighbours. -/
def printMembers (p : Printer) (members : List Member) : Printer :=
  match members with
  | [] => p
  | first :: rest => rest.foldl (fun p m => (p.print [] true).printMember m) (p.printMember first)

end Printer

namespace ClassDecl

def opening (c : ClassDecl) (lead : List Char) : List Char :=
  lead ++ "class ".toList ++ c.name.toList ++ " extends ".toList ++ c.superclass ++ [' ', '{']

/-- Everything between the braces, and the closing brace. -/
def printBody (c : ClassDecl) (p : Printer) : Printer :=
  if c.members.isEmpty && c.trailing.isEmpty then p.print ['}'] false
  else
    let p := ((p.print [] true).indent).printMembers c.members
    let p :=
      if c.trailing.isEmpty then p
      else
        let p := if c.members.isEmpty then p else p.print [] true
        p.printComments c.trailing
    p.dedent.print ['}'] false

/-- The text of a class. `lead` holds export keywords; `base` is put before every line but the
first. -/
def render (c : ClassDecl) (lead base : List Char) : List Char :=
  let p := (({} : Printer).printComments c.leading).printDecorators c.decorators
  (c.printBody (p.print (c.opening lead) false)).render base

end ClassDecl

end EmberClasses
