import EmberClasses.Script.Tree

/-!
Functions as values of properties, and their use of `this._super`. A call of `this._super` outside
of nested functions can become a call of a method of the parent class; any other use can not.
-/

namespace EmberClasses

open Script (Node Kind)

/-- A call of `this._super`, directly or through `call` or `apply`. -/
structure SuperCall where
  call : Span
  /-- The `this._super` in it. -/
  callee : Span
  /-- Start of the innermost statement around the call. -/
  statement : Nat
  deriving DecidableEq, Inhabited

inductive SuperMisuse where
  | nested
  | uncalled
  deriving DecidableEq, Inhabited

def SuperMisuse.message : SuperMisuse → String
  | nested => "this._super is used inside a nested function, where super is not available"
  | uncalled => "this._super is used without being called"

inductive SuperUse where
  | call (c : SuperCall)
  | misuse (m : SuperMisuse)
  deriving DecidableEq, Inhabited

namespace SuperUse

def member? : Node → Option Span
  | ⟨.member "_super", span, [⟨.thisRef, _, []⟩]⟩ => some span
  | _ => none

/-- The `this._super` that a callee stands for. -/
def callee? (n : Node) : Option Span :=
  match member? n with
  | some span => some span
  | none =>
    match n with
    | ⟨.member name, _, [object]⟩ =>
      if name = "apply" ∨ name = "call" then member? object else none
    | _ => none

def superCall? (statement : Option Nat) : Node → Option SuperCall
  | ⟨.call, span, callee :: _⟩ =>
    (callee? callee).map fun s => ⟨span, s, statement.getD span.start⟩
  | _ => none

/-- The uses that a node itself makes. `claimed` is the `this._super` of a call around it. -/
def own (nested : Bool) (statement : Option Nat) (claimed : Option Span) (n : Node) :
    List SuperUse :=
  let calls := if nested then [] else (superCall? statement n).toList.map call
  let misuses := match member? n with
    | none => []
    | some span =>
      if nested then [misuse .nested]
      else if claimed = some span then []
      else [misuse .uncalled]
  calls ++ misuses

mutual

/-- The uses at and below a node, in source order. -/
def below (nested : Bool) (statement : Option Nat) (claimed : Option Span) :
    Node → List SuperUse
  | ⟨kind, span, children⟩ =>
    let n : Node := ⟨kind, span, children⟩
    let statement := if kind.isStatement then some span.start else statement
    let nested := nested || (kind matches .function _)
    let claimed := match superCall? statement n with
      | some c => some c.callee
      | none => claimed
    own nested statement claimed n ++ belowAll nested statement claimed children

def belowAll (nested : Bool) (statement : Option Nat) (claimed : Option Span) :
    List Node → List SuperUse
  | [] => []
  | n :: ns => below nested statement claimed n ++ belowAll nested statement claimed ns

end

def call? : SuperUse → Option SuperCall
  | call c => some c
  | misuse _ => none

def misuse? : SuperUse → Option SuperMisuse
  | call _ => none
  | misuse m => some m

end SuperUse

structure Callable where
  span : Span
  params : List Span
  /-- The body with its braces. -/
  body : Span
  async : Bool
  generator : Bool
  superCalls : List SuperCall
  /-- Why a `this._super` in the body has no class form. -/
  misuse : Option SuperMisuse
  deriving DecidableEq, Inhabited

namespace Callable

def isParam (n : Node) : Bool := n.kind = .param || n.kind = .restParam

def body? (f : Node) : Option Node := f.children.find? fun n => n.kind = .body

/-- The value of a function expression, none if it has no body. -/
def ofFunction? (f : Node) : Option Callable :=
  match f.kind, body? f with
  | .function form, some body =>
    let uses := SuperUse.belowAll false none none body.children
    some
      { span := f.span
        params := (f.children.filter isParam).map Node.span
        body := body.span
        async := form.async
        generator := form.generator
        superCalls := uses.filterMap SuperUse.call?
        misuse := uses.findSome? SuperUse.misuse? }
  | _, _ => none

/-- Super calls that do not stand in an argument of another one. -/
def outermost (f : Callable) : List SuperCall :=
  f.superCalls.filter fun c =>
    !f.superCalls.any fun other => other.call ≠ c.call && decide (c.call.Inside other.call)

/-- A call `this.name(…)`, or the name as a string. -/
def mentions (name : String) (n : Node) : Bool :=
  match n with
  | ⟨.string value, _, _⟩ => value = name
  | ⟨.call, _, ⟨.member m, _, [⟨.thisRef, _, _⟩]⟩ :: _⟩ => m = name
  | _ => false

/-- Whether the parameters or the body of a function mention a name. -/
def refersTo (f : Node) (name : String) : Bool :=
  Node.anyOf (mentions name) (f.children.filter fun n => isParam n || n.kind = .body)

end Callable

end EmberClasses
