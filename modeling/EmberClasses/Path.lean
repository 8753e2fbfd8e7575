/-!
Slash-separated paths. A path is read as a list of components, in which doubled slashes, `.` and a
trailing slash leave no trace, so two spellings of one path are equal as lists of components.
-/

namespace EmberClasses

namespace Path

inductive Component where
  | root
  | current
  | parent
  | normal (name : String)
  deriving DecidableEq, Inhabited

def splitSlashes : List Char → List (List Char)
  | [] => [[]]
  | c :: cs =>
    if c = '/' then [] :: splitSlashes cs
    else match splitSlashes cs with
      | [] => [[c]]
      | part :: parts => (c :: part) :: parts

def component : List Char → Component
  | ['.', '.'] => .parent
  | name => .normal (String.ofList name)

def Component.lt : Component → Component → Bool
  | .root, .root => false
  | .root, _ => true
  | .current, .root | .current, .current => false
  | .current, _ => true
  | .parent, .normal _ => true
  | .parent, _ => false
  | .normal a, .normal b => a < b
  | .normal _, _ => false

end Path

structure Path where
  text : String
  deriving DecidableEq, Inhabited

namespace Path

/-- A `.` counts only at the start of a relative path. -/
def components (p : Path) : List Component :=
  let parts := splitSlashes p.text.toList
  let inner := parts.filter (fun part => part ≠ [] ∧ part ≠ ['.'])
  match p.text.toList with
  | '/' :: _ => .root :: inner.map component
  | _ =>
    if parts.head? = some ['.'] then .current :: inner.map component
    else inner.map component

/-- The same path, perhaps in another spelling. -/
def same (p q : Path) : Bool := p.components == q.components

def fileName? (p : Path) : Option String :=
  match p.components.getLast? with
  | some (.normal name) => some name
  | _ => none

/-- The last component but one, when it is a name. -/
def directoryName? (p : Path) : Option String :=
  match p.components.reverse with
  | .root :: _ => none
  | _ :: .normal name :: _ => some name
  | _ => none

/-- Cuts a file name at its last dot, unless that is its first character. -/
def splitName (name : String) : String × Option String :=
  let rev := name.toList.reverse
  let ext := rev.takeWhile (· ≠ '.')
  match rev.drop ext.length with
  | '.' :: stem => if stem.isEmpty then (name, none)
    else (String.ofList stem.reverse, some (String.ofList ext.reverse))
  | _ => (name, none)

def stem? (p : Path) : Option String := p.fileName?.map fun name => (splitName name).1

def extension? (p : Path) : Option String := p.fileName?.bind fun name => (splitName name).2

/-- The components of the path without its extension. -/
def bareComponents (p : Path) : List Component :=
  match p.stem? with
  | some stem => p.components.dropLast ++ [.normal stem]
  | none => p.components

def componentsLt : List Component → List Component → Bool
  | [], [] => false
  | [], _ :: _ => true
  | _ :: _, [] => false
  | a :: as, b :: bs => if a = b then componentsLt as bs else a.lt b

/-- A relative path is taken from `p`; an absolute one stands for itself. -/
def join (p : Path) (rest : String) : Path :=
  if rest.toList.head? = some '/' then ⟨rest⟩
  else if p.text = "" then ⟨rest⟩
  else if p.text.toList.getLast? = some '/' then ⟨p.text ++ rest⟩
  else ⟨p.text ++ "/" ++ rest⟩

end Path

end EmberClasses
