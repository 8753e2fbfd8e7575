import EmberClasses.Property.Callable

/-!
Chains of calls: a base call and the modifiers called on its result, as in
`computed('a', f).volatile().readOnly()`.
-/

namespace EmberClasses

open Script (Node Kind)

structure Modifier where
  name : String
  args : List Span
  deriving DecidableEq, Inhabited

structure Accessors where
  span : Span
  getter : Option Callable
  setter : Option Callable
  deriving DecidableEq, Inhabited

inductive Argument where
  | function (f : Callable)
  | accessors (a : Accessors)
  | other (span : Span)
  deriving DecidableEq, Inhabited

namespace Argument

def span : Argument → Span
  | function f => f.span
  | accessors a => a.span
  | other span => span

def isFunctionLike : Argument → Bool
  | other _ => false
  | _ => true

def functions : Argument → List Callable
  | function f => [f]
  | accessors a => a.getter.toList ++ a.setter.toList
  | other _ => []

/-- One more property of an object of accessors. Later ones replace earlier ones. -/
def addAccessor (a : Accessors) (property : Node) : Option Accessors :=
  match property with
  | ⟨.property form, _, [⟨.identifier name, _, _⟩, value]⟩ =>
    if form.computed then none
    else
      match name, Callable.ofFunction? value with
      | "get", some f => some { a with getter := some f }
      | "set", some f => some { a with setter := some f }
      | _, _ => none
  | _ => none

/-- An object literal that has nothing but functions named `get` and `set`. -/
def accessors? (object : Node) : Option Accessors :=
  if object.children.isEmpty then none
  else object.children.foldlM addAccessor ⟨object.span, none, none⟩

def ofNode (n : Node) : Argument :=
  match n.kind with
  | .function _ =>
    match Callable.ofFunction? n with
    | some f => .function f
    | none => .other n.span
  | .object =>
    match accessors? n with
    | some a => .accessors a
    | none => .other n.span
  | _ => .other n.span

end Argument

structure Chain where
  /-- Span of the outermost call. -/
  span : Span
  /-- Callee of the base call, when it is a plain name. -/
  callee : Option String
  args : List Argument
  /-- Innermost first. -/
  modifiers : List Modifier
  deriving DecidableEq, Inhabited

namespace Chain

/-- The base call of a chain and the modifiers around it. -/
def peel : Node → Node × List Modifier
  | ⟨.call, span, ⟨.member name, inner, [⟨.call, s, cs⟩]⟩ :: args⟩ =>
    let (base, modifiers) := peel ⟨.call, s, cs⟩
    let call : Node := ⟨.call, span, ⟨.member name, inner, [⟨.call, s, cs⟩]⟩ :: args⟩
    (base, modifiers ++ [⟨name, call.arguments.map Node.span⟩])
  | n => (n, [])

def ofCall (call : Node) : Chain :=
  let (base, modifiers) := peel call
  { span := call.span
    callee := match base.children with
      | ⟨.identifier name, _, _⟩ :: _ => some name
      | _ => none
    args := base.arguments.map Argument.ofNode
    modifiers }

end Chain

end EmberClasses
