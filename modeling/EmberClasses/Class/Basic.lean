import EmberClasses.Text.Fragment

/-!
Classes as they are written: decorators, members and comments. Code that comes from a source file is
kept as fragments.
-/

namespace EmberClasses

structure AppliedDecorator where
  name : String
  args : List Fragment := []
  deriving DecidableEq, Inhabited

def AppliedDecorator.toFragment (d : AppliedDecorator) : Fragment :=
  let head : Fragment := ⟨'@' :: d.name.toList, []⟩
  if d.args.isEmpty then head
  else ((head.push ['(']).append (Fragment.join d.args [',', ' '])).push [')']

inductive MethodKind where
  | method
  | getter
  | setter
  deriving DecidableEq, Inhabited

structure Method where
  kind : MethodKind := .method
  async : Bool := false
  generator : Bool := false
  params : List Fragment
  /-- The body with its braces. -/
  body : Fragment
  deriving DecidableEq, Inhabited

inductive MemberBody where
  | field (value : Option Fragment)
  | method (m : Method)
  deriving DecidableEq, Inhabited

structure Member where
  key : String
  comments : List (List Char) := []
  decorators : List AppliedDecorator := []
  body : MemberBody
  deriving DecidableEq, Inhabited

structure ClassDecl where
  name : String
  superclass : List Char
  leading : List (List Char) := []
  decorators : List AppliedDecorator := []
  members : List Member := []
  trailing : List (List Char) := []
  deriving DecidableEq, Inhabited

end EmberClasses
