import EmberClasses.Property.Callable
import EmberClasses.Property.Reason
import EmberClasses.Text.Comment
import EmberClasses.Usage

/-!
Entries of an `actions` object. Each of them becomes a method of the class.
-/

namespace EmberClasses

open Script (Node Kind)

inductive ActionValue where
  | function (f : Callable)
  /-- Forwards to the function of this name. -/
  | identifier (name : String)
  | unsupported (reason : Unsupported)
  deriving DecidableEq, Inhabited

structure Action where
  name : String
  span : Span
  value : ActionValue
  comments : List (List Char)
  /-- No parent has such an action, so a super call does nothing. -/
  superIsUndefined : Bool
  /-- It calls itself by its name, or names itself in a string. -/
  selfReference : Bool
  deriving DecidableEq, Inhabited

namespace Action

/-- The value of an entry, and whether it refers to itself. -/
def readValue (name : String) (accessor : Script.Accessor) (value : Node) : ActionValue × Bool :=
  match value.kind with
  | .function _ =>
    if accessor ≠ .plain then (.unsupported .actionValue, false)
    else
      match Callable.ofFunction? value with
      | some f => (.function f, Callable.refersTo value name)
      | none => (.unsupported .actionNoBody, false)
  | .identifier reference => (.identifier reference, false)
  | _ => (.unsupported .actionValue, false)

/-- One entry. A key that is no plain name stands for itself in messages. -/
def ofProperty (source : List Char) (usage : Usage) (property : Node)
    (comments : List (List Char)) : Action :=
  let text (span : Span) := String.ofList (Text.slice source span)
  let failed (name : String) (reason : Unsupported) : Action :=
    ⟨name, property.span, .unsupported reason, comments, true, false⟩
  match property.kind, property.children with
  | .property form, key :: rest =>
    match key.kind, form.computed with
    | .identifier name, false =>
      let (value, selfReference) := readValue name form.accessor (rest.head?.getD key)
      ⟨name, property.span, value, comments, !usage.isOverriddenAction name, selfReference⟩
    | _, _ => failed (text key.span) .actionKey
  | _, _ => failed (text property.span) .actionSpread

end Action

/-- Pairs each node with the comments in front of it. `offset` is where the first gap starts. -/
def withComments (source : List Char) : Nat → List Node → List (Node × List (List Char))
  | _, [] => []
  | offset, n :: ns =>
    (n, Comment.between source ⟨offset, n.span.start⟩) :: withComments source n.span.stop ns

def Action.ofObject (source : List Char) (usage : Usage) (object : Node) : List Action :=
  (withComments source (object.span.start + 1) object.children).map fun (property, comments) =>
    Action.ofProperty source usage property comments

end EmberClasses
