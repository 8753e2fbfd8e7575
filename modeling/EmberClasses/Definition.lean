import EmberClasses.Name
import EmberClasses.Script.Tree

/-!
Definitions: calls of the form `Base.extend(…)`, and the part of the file that a class takes the
place of.
-/

namespace EmberClasses

open Script (Node Kind)

inductive Target where
  /-- A whole statement; `lead` holds its export keywords, which are written before the class. -/
  | statement (span : Span) (lead : String)
  /-- The call itself. -/
  | expression (span : Span) (parenthesize : Bool)
  deriving DecidableEq, Inhabited

def Target.span : Target → Span
  | statement span _ => span
  | expression span _ => span

structure Definition where
  /-- Span of the call. -/
  span : Span
  superclass : String
  /-- The object literal that holds the properties. -/
  properties : Option Node
  mixins : List Span
  /-- The variable that the definition is bound to. -/
  binding : Option String
  target : Target
  /-- The member that is accessed on the result, other than `create`. -/
  chained : Option String
  deriving Inhabited

namespace Definition

/-- The superclass of a call `Base.extend(…)`, given its callee and arguments. Its name starts with
an uppercase letter. -/
def superclass? : List Node → Option String
  | ⟨.member "extend", _, [⟨.identifier name, _, _⟩]⟩ :: _ =>
    if Name.startsUpper name then some name else none
  | _ => none

/-- What the surroundings of a node say about it. -/
inductive Site where
  | plain
  /-- The class that another class extends. -/
  | heritage
  /-- The object of a member access. `owner` is the variable that holds the result of a call of
  that member. -/
  | accessed (member : String) (owner : Option String)
  /-- Exported by the statement at `span`. -/
  | exported (span : Span)
  | defaultExport (span : Span)
  /-- A declarator of a statement, which it fills alone when `statement` is given. -/
  | declared (statement : Option (Span × String))
  /-- The initial value of a variable. -/
  | initial (name : String) (statement : Option (Span × String))
  /-- The callee of the initial value of a variable. -/
  | initialCallee (name : String)
  deriving DecidableEq, Inhabited

/-- The surroundings of the child number `i` of a node. -/
def childSite (site : Site) (n : Node) (i : Nat) : Site :=
  match n.kind, site with
  | .heritage, _ => if i = 0 then .heritage else .plain
  | .member name, .initialCallee owner => .accessed name (some owner)
  | .member name, _ => .accessed name none
  | .exportNamed, _ => if n.children.length = 1 then .exported n.span else .plain
  | .exportDefault, _ => if n.children.length = 1 then .defaultExport n.span else .plain
  | .variableList _ _, _ =>
    let statement := match site with
      | .exported span => (span, "export ")
      | _ => (n.span, "")
    .declared (if n.children.length = 1 then some statement else none)
  | .declarator, .declared statement =>
    match i, n.children with
    | 1, [⟨.identifier name, _, _⟩, _] => .initial name statement
    | _, _ => .plain
  | .call, .initial name _ => if i = 0 then .initialCallee name else .plain
  | _, _ => .plain

/-- The variable that a definition at this site is bound to. -/
def Site.binding? : Site → Option String
  | .initial name _ => some name
  | .accessed "create" owner => owner
  | _ => none

/-- The member accessed on a definition at this site, other than `create`. -/
def Site.chained? : Site → Option String
  | .accessed member _ => if member = "create" then none else some member
  | _ => none

/-- What a class takes the place of when the definition at this site covers `span`. -/
def Site.target (site : Site) (span : Span) : Target :=
  match site with
  | .defaultExport statement => .statement statement "export default "
  | .initial _ (some (statement, lead)) => .statement statement lead
  | .accessed _ _ => .expression span true
  | _ => .expression span false

/-- The definition that a node is. The last object literal among its arguments holds the
properties; arguments that are no object literals are mixins. -/
def at? (site : Site) (n : Node) : Option Definition :=
  if n.kind ≠ .call ∨ site = .heritage then none
  else
    (superclass? n.children).map fun superclass =>
      let args := n.arguments
      { span := n.span
        superclass
        properties := (args.filter fun a => a.kind = .object).getLast?
        mixins := (args.filter fun a => a.kind ≠ .object).map Node.span
        binding := site.binding?
        target := site.target n.span
        chained := site.chained? }

mutual

/-- Hands every definition at or below a node to `decide`, in source order. When `decide` says that
a definition was replaced, those inside it are passed over; when it fails the walk ends. -/
def visit {σ ε : Type} (decide : Definition → σ → Except ε (Bool × σ)) (site : Site) :
    Node → σ → Except ε σ
  | ⟨kind, span, children⟩, s =>
    let below (s : σ) := visitAll decide (childSite site ⟨kind, span, children⟩) 0 children s
    match at? site ⟨kind, span, children⟩ with
    | none => below s
    | some d =>
      match decide d s with
      | .error e => .error e
      | .ok (true, s) => .ok s
      | .ok (false, s) => below s

def visitAll {σ ε : Type} (decide : Definition → σ → Except ε (Bool × σ)) (siteOf : Nat → Site) :
    Nat → List Node → σ → Except ε σ
  | _, [], s => .ok s
  | i, n :: ns, s =>
    match visit decide (siteOf i) n s with
    | .error e => .error e
    | .ok s => visitAll decide siteOf (i + 1) ns s

end

def forEach {σ ε : Type} (script : Node) (start : σ)
    (decide : Definition → σ → Except ε (Bool × σ)) : Except ε σ :=
  visit decide .plain script start

end Definition

end EmberClasses
