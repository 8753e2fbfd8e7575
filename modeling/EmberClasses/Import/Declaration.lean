import EmberClasses.Import.Requirement
import EmberClasses.Options
import EmberClasses.Script.Tree

/-!
Import declarations: those a file has, and how a changed or new one is written.
-/

namespace EmberClasses

namespace Import

structure Named where
  imported : String
  localName : String
  deriving DecidableEq, Inhabited

structure Declaration where
  span : Span
  module : String
  defaultName : Option String := none
  namespaceName : Option String := none
  named : List Named := []
  /-- Imports types only. -/
  typeOnly : Bool := false
  deriving DecidableEq, Inhabited

namespace Declaration

def localNames (d : Declaration) : List String :=
  d.defaultName.toList ++ d.namespaceName.toList ++ d.named.map (·.localName)

def binds (d : Declaration) (name : String) : Bool := d.localNames.contains name

def isEmpty (d : Declaration) : Bool := d.localNames.isEmpty

/-- Drops a default or named import. A namespace stays. -/
def remove (d : Declaration) (name : String) : Declaration :=
  { d with
    defaultName := d.defaultName.filter (· ≠ name)
    named := d.named.filter (·.localName ≠ name) }

def add (d : Declaration) (r : Requirement) : Declaration :=
  match r.imported with
  | none => { d with defaultName := some r.localName }
  | some imported => { d with named := d.named ++ [⟨imported, r.localName⟩] }

/-- What is imported, as written after `import`. -/
def clauses (d : Declaration) : List String :=
  let specifier (n : Named) : String :=
    if n.imported = n.localName then n.localName else n.imported ++ " as " ++ n.localName
  let braces :=
    if d.named.isEmpty then []
    else ["\x7b " ++ String.intercalate ", " (d.named.map specifier) ++ " \x7d"]
  d.defaultName.toList ++ (d.namespaceName.map ("* as " ++ ·)).toList ++ braces

def render (d : Declaration) (quote : Quote) : String :=
  let q := quote.char.toString
  let from_ := q ++ d.module ++ q ++ ";"
  if d.clauses.isEmpty then "import " ++ from_
  else "import " ++ String.intercalate ", " d.clauses ++ " from " ++ from_

/-- Takes a part of an import declaration into account. -/
def read (d : Declaration) (part : Script.Node) : Declaration :=
  match part.kind with
  | .importDefault name => { d with defaultName := some name }
  | .importNamespace name => { d with namespaceName := some name }
  | .importNamed imported name _ => { d with named := d.named ++ [⟨imported, name⟩] }
  | .string module => { d with module := module }
  | _ => d

/-- The declaration that a statement is, if it is an import. -/
def ofStatement? (n : Script.Node) : Option Declaration :=
  match n.kind with
  | .importDeclaration typeOnly =>
    some (n.children.foldl read { span := n.span, module := "", typeOnly })
  | _ => none

def ofScript (script : Script.Node) : List Declaration := script.children.filterMap ofStatement?

end Declaration

end Import

end EmberClasses
