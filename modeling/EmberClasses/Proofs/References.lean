import EmberClasses.Proofs.Nesting

/-! References to variables. Every identifier that is no fixed key is a reference, and it refers to
the innermost binding of its name around it. Types are left out, since nothing in them is ever
evaluated. -/

namespace EmberClasses.Script

structure Binding where
  name : String
  span : Span
  deriving DecidableEq

namespace Node

mutual

def targets : Node → List Binding
  | ⟨kind, span, children⟩ =>
    match kind with
    | .identifier name => [⟨name, span⟩]
    | .param | .restParam | .arrayPattern | .objectPattern | .rest => (targetsEach children).flatten
    -- The initial value follows the target, and the target follows the key.
    | .defaulted => (targetsEach children).head?.getD []
    | .patternProperty => (targetsEach children).getLast?.getD []
    | _ => []

def targetsEach : List Node → List (List Binding)
  | [] => []
  | n :: ns => targets n :: targetsEach ns

end

/-- The name among the children of a function, a class or an enumeration. -/
def ownName (children : List Node) : List Binding :=
  children.flatMap fun c => match c.kind with
    | .identifier name => [⟨name, c.span⟩]
    | _ => []

def declaredNames (declarators : List Node) : List Binding :=
  declarators.flatMap fun d => (d.children.head?.map targets).getD []

def declared (n : Node) : List Binding :=
  match n.kind with
  | .variableList false false => declaredNames n.children
  | .function form => if form.declared then ownName n.children else []
  | .classDef true => ownName n.children
  | .enumDef => ownName n.children
  | _ => []

mutual

/-- What is bound by `var` at or below a node, up to the functions in it. -/
def hoisted : Node → List Binding
  | ⟨kind, _, children⟩ =>
    match kind with
    | .function _ | .arrow _ | .staticBlock => []
    | .variableList _ true => declaredNames children ++ hoistedAll children
    | _ => hoistedAll children

def hoistedAll : List Node → List Binding
  | [] => []
  | n :: ns => hoisted n ++ hoistedAll ns

end

def declaredInHead (n : Node) : List Binding :=
  match n.kind with
  | .variableList true false => declaredNames n.children
  | _ => []

def parameters (children : List Node) : List Binding :=
  (children.filter fun c => c.kind = .param || c.kind = .restParam).flatMap targets

/-- The names of the members of an enumeration, which are bound in it. -/
def memberNames (children : List Node) : List Binding :=
  (children.filter fun c => c.kind = .clause).flatMap fun c => match c.children with
    | ⟨.label name, span, _⟩ :: _ => [⟨name, span⟩]
    | _ => []

def boundFor (kind : Kind) (children : List Node) (child : Node) : List Binding :=
  match kind with
  | .function form => parameters children ++ (if form.declared then [] else ownName children)
  | .arrow _ => parameters children
  | .body | .staticBlock => children.flatMap declared ++ hoistedAll children
  | .block => children.flatMap declared
  | .statement =>
    -- The cases of a switch share one block, which its subject is no part of.
    let cases := children.filter fun c => c.kind = .clause
    children.flatMap declaredInHead ++
      if child.kind = .clause then cases.flatMap fun c => c.children.flatMap declared else []
  | .handler => if children.length = 2 then (children.head?.map targets).getD [] else []
  | .classDef _ => if child.kind = .decorator then [] else ownName children
  | .enumDef => memberNames children ++ ownName children
  | _ => []

/-- Whether the first of the children is a key that is not evaluated. -/
def hasFixedKey (kind : Kind) (children : List Node) : Bool :=
  match kind with
  | .property form => !form.computed && children.length ≠ 1
  | _ => false

end Node

/-- An identifier, with the place where its name is bound if that is known. -/
structure Reference where
  name : String
  span : Span
  binder : Option Span
  deriving DecidableEq

namespace Reference

mutual

/-- The references at and below a node. `env` is what is bound around it, innermost first. -/
def below (env : List Binding) : Node → List Reference
  | ⟨kind, span, children⟩ =>
    match kind with
    | .type | .typeArguments => []
    | .identifier name => [⟨name, span, (env.find? fun b => b.name = name).map Binding.span⟩]
    | _ => belowAll kind children (Node.hasFixedKey kind children) env children

/-- `key` tells that the first node is a key that is not evaluated. -/
def belowAll (parent : Kind) (siblings : List Node) (key : Bool) (env : List Binding) :
    List Node → List Reference
  | [] => []
  | n :: ns =>
    (if key then [] else below (Node.boundFor parent siblings n ++ env) n) ++
      belowAll parent siblings false env ns

end

mutual

theorem exists_of_mem_below {r : Reference} : (n : Node) → ∀ {env : List Binding},
    r ∈ below env n → ∃ m ∈ n.preorder, m.kind = .identifier r.name ∧ m.span = r.span
  | ⟨kind, span, children⟩, env, hr => by
    unfold below at hr
    split at hr
    · cases hr
    · cases hr
    · rw [List.mem_singleton.mp hr]
      exact ⟨_, Node.mem_preorder_self _, rfl, rfl⟩
    · obtain ⟨m, hm, hkind⟩ := exists_of_mem_belowAll children hr
      rw [Node.preorder]
      exact ⟨m, List.mem_cons_of_mem _ hm, hkind⟩

theorem exists_of_mem_belowAll {r : Reference} : (ns : List Node) → ∀ {parent : Kind}
    {siblings : List Node} {key : Bool} {env : List Binding},
    r ∈ belowAll parent siblings key env ns →
    ∃ m ∈ Node.preorderAll ns, m.kind = .identifier r.name ∧ m.span = r.span
  | [], _, _, _, _, hr => by simp [belowAll] at hr
  | n :: ns, _, _, key, _, hr => by
    rw [belowAll, List.mem_append] at hr
    rw [Node.preorderAll]
    rcases hr with hr | hr
    · cases key with
      | true => cases hr
      | false =>
        obtain ⟨m, hm, hkind⟩ := exists_of_mem_below n hr
        exact ⟨m, List.mem_append_left _ hm, hkind⟩
    · obtain ⟨m, hm, hkind⟩ := exists_of_mem_belowAll ns hr
      exact ⟨m, List.mem_append_right _ hm, hkind⟩

end

end Reference

end EmberClasses.Script
