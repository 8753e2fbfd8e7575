import EmberClasses.Text.Span

/-!
Script trees. A node has a kind, the span of its text and its children in source order; what a kind
needs besides its children (a name, a string's value) it carries itself. One shape for all nodes
keeps every walk over a tree the same.
-/

namespace EmberClasses.Script

/-- What stands before the key of an object's property. -/
inductive Accessor where
  | plain
  | getter
  | setter
  deriving DecidableEq, Inhabited

structure PropertyForm where
  accessor : Accessor := .plain
  method : Bool := false
  computed : Bool := false
  deriving DecidableEq, Inhabited

structure FunctionForm where
  async : Bool := false
  generator : Bool := false
  /-- A statement of its own, not an expression or a method. -/
  declared : Bool := false
  deriving DecidableEq, Inhabited

inductive Kind where
  | program
  -- Names and literals
  | identifier (name : String)
  /-- A name that is no variable: a fixed key, the label of a statement or the name of a type. -/
  | label (name : String)
  | privateName (name : String)
  | string (value : String)
  | number
  | bigint
  | boolean
  | nullLiteral
  | regex
  /-- Children: the template's texts and expressions in turn. -/
  | template
  /-- Text of a template, without its delimiters. -/
  | quasi
  -- Expressions
  | thisRef
  | superRef
  | metaProperty
  /-- Children: the elements that are not left out. -/
  | array
  | object
  /-- Children: key and value. A shorthand property has its name as its only child. -/
  | property (form : PropertyForm)
  /-- Children: name and initial value, allowed only where the object is assigned to. -/
  | coverProperty
  | spread
  /-- Children: name, type parameters, parameters, result type and body, as far as present. -/
  | function (form : FunctionForm)
  | arrow (async : Bool)
  | receiverParam
  | param
  | restParam
  | body
  /-- Children: callee, type arguments and arguments. -/
  | call
  | newCall
  | importCall
  /-- `object.name`; the child is the object. -/
  | member (name : String)
  | privateMember
  | index
  /-- Wraps the outermost part of an optional chain. -/
  | chain
  | tagged
  | unary
  | update
  | binary
  /-- `#name in object`. -/
  | privateIn
  | logical (coalesce : Bool)
  | conditional
  /-- `plain` tells an `=` from the other operators. -/
  | assignment (plain : Bool)
  | sequence
  | await
  | yield
  | paren
  | cast
  | nonNull
  -- Patterns
  | arrayPattern
  | objectPattern
  | patternProperty
  | defaulted
  | rest
  -- Types
  | type
  | typeArguments
  -- Classes
  /-- Children: decorators, name, type parameters, heritage, implemented types and members. -/
  | classDef (declared : Bool)
  /-- The class that a class extends. -/
  | heritage
  | decorator
  | classMethod
  | classField
  | staticBlock
  | classSignature
  -- Statements
  /-- `head` tells that it stands in the head of a loop, `hoisted` a `var` from the other words. -/
  | variableList (head hoisted : Bool)
  /-- Children: target and initial value. -/
  | declarator
  | block
  | expression
  | statement
  /-- Children: name and members. -/
  | enumDef
  /-- A part of a statement that is none itself, such as a `case`. -/
  | clause
  /-- The `catch` of a statement. Children: what is caught, if it is named, and the body. -/
  | handler
  -- Module items
  | importDeclaration (typeOnly : Bool)
  | importDefault (local_ : String)
  | importNamespace (local_ : String)
  | importNamed (imported local_ : String) (typeOnly : Bool)
  | exportNamed
  | exportDefault
  | moduleStatement
  deriving DecidableEq, Inhabited

/-- Whether a node of this kind is a statement, wherever it stands. -/
def Kind.isStatement : Kind → Bool
  | function form => form.declared
  | classDef declared => declared
  | variableList head _ => !head
  | block | expression | statement | enumDef => true
  | importDeclaration _ | exportNamed | exportDefault | moduleStatement => true
  | _ => false

inductive Node where
  | mk (kind : Kind) (span : Span) (children : List Node)
  deriving Inhabited

namespace Node

def kind : Node → Kind
  | mk kind _ _ => kind

def span : Node → Span
  | mk _ span _ => span

def children : Node → List Node
  | mk _ _ children => children

/-- Arguments of a call: all but the callee and type arguments. -/
def arguments (call : Node) : List Node :=
  call.children.tail.filter fun a => a.kind ≠ .typeArguments

def withKind (n : Node) (kind : Kind) : Node := ⟨kind, n.span, n.children⟩

/-- The node of a name where it stands for no variable. -/
def asLabel (n : Node) : Node :=
  match n.kind with
  | .identifier name => n.withKind (.label name)
  | _ => n

mutual

/-- The node and everything below it, a node before its children. -/
def preorder : Node → List Node
  | mk kind span children => mk kind span children :: preorderAll children

def preorderAll : List Node → List Node
  | [] => []
  | n :: ns => preorder n ++ preorderAll ns

end

mutual

def any (p : Node → Bool) : Node → Bool
  | mk kind span children => p (mk kind span children) || anyOf p children

def anyOf (p : Node → Bool) : List Node → Bool
  | [] => false
  | n :: ns => any p n || anyOf p ns

end

mutual

/-- Children lie inside their parent, in order and apart from each other. -/
def WellNested : Node → Prop
  | mk _ span children => span.start ≤ span.stop ∧ WellNestedFrom span.start span.stop children

def WellNestedFrom : Nat → Nat → List Node → Prop
  | _, _, [] => True
  | start, stop, n :: ns =>
    start ≤ n.span.start ∧ n.span.stop ≤ stop ∧ WellNested n ∧ WellNestedFrom n.span.stop stop ns

end

def quasis (n : Node) : List Span :=
  ((n.preorder.filter fun m => m.kind = .quasi).map span).mergeSort fun a b => a.start ≤ b.start

end Node

end EmberClasses.Script
