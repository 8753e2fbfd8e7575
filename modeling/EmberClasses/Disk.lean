import EmberClasses.Path

/-!
Files and directories as a tree, with the operations that a command needs: looking up a path,
reading, writing and appending. Every operation that can fail says why. There are no symbolic links
in the tree, so a place has one path, and resolving a path only takes its `.` and `..` out.
-/

namespace EmberClasses

structure Access where
  read : Bool := true
  write : Bool := true
  deriving DecidableEq, Inhabited

/-- A file with its bytes, or a directory with its entries by name. -/
inductive Tree where
  | file (content : ByteArray) (access : Access := {})
  | dir (entries : List (String × Tree))
  deriving Inhabited

namespace Tree

def isDir : Tree → Bool
  | dir _ => true
  | file _ _ => false

def isFile (t : Tree) : Bool := !t.isDir

def entries : Tree → List (String × Tree)
  | dir es => es
  | file _ _ => []

def child? (t : Tree) (name : String) : Option Tree := t.entries.lookup name

/-- Replaces the value of a key, or adds it at the end. -/
def setEntry (name : String) (t : Tree) : List (String × Tree) → List (String × Tree)
  | [] => [(name, t)]
  | (n, old) :: es => if n = name then (n, t) :: es else (n, old) :: setEntry name t es

/-- Puts a tree at a place. Directories on the way are made; a file on the way gives way. -/
def put (leaf : Tree) : List String → Tree → Tree
  | [], _ => leaf
  | name :: rest, t =>
    dir (setEntry name (put leaf rest ((t.child? name).getD (dir []))) t.entries)

mutual

/-- Everything below a tree, by its path from there. -/
def contents : Tree → List (List String × Tree)
  | file _ _ => []
  | dir es => contentsAll es

def contentsAll : List (String × Tree) → List (List String × Tree)
  | [] => []
  | (name, t) :: es =>
    ([name], t) :: (contents t).map (fun (path, u) => (name :: path, u)) ++ contentsAll es

end

/-- The files below a tree, by their path from there. -/
def files (t : Tree) : List (List String × ByteArray) :=
  t.contents.filterMap fun (path, u) =>
    match u with
    | file content _ => some (path, content)
    | dir _ => none

end Tree

/-- All files, and the directory that relative paths start from. -/
structure Disk where
  root : Tree
  current : List String
  deriving Inhabited

namespace Disk

inductive Fault where
  | notFound
  | notDirectory
  | isDirectory
  | denied
  | notText
  deriving DecidableEq, Inhabited

def Fault.message : Fault → String
  | notFound => "No such file or directory (os error 2)"
  | notDirectory => "Not a directory (os error 20)"
  | isDirectory => "Is a directory (os error 21)"
  | denied => "Permission denied (os error 13)"
  | notText => "stream did not contain valid UTF-8"

/-- The tree at a place given by names from the root. -/
def node? (d : Disk) (place : List String) : Option Tree :=
  place.foldlM (fun t name => t.child? name) d.root

/-- Follows one part of a path from a directory. -/
def step (d : Disk) (place : List String) (part : List Char) : Except Fault (List String) :=
  match d.node? place with
  | none => .error .notFound
  | some (.file _ _) => .error .notDirectory
  | some (.dir es) =>
    if part = [] ∨ part = ['.'] then .ok place
    else if part = ['.', '.'] then .ok place.dropLast
    else if (es.lookup (String.ofList part)).isSome then .ok (place ++ [String.ofList part])
    else .error .notFound

def startOf (d : Disk) (path : Path) : List String :=
  if path.text.toList.head? = some '/' then [] else d.current

def resolve (d : Disk) (path : Path) : Except Fault (List String) :=
  if path.text = "" then .error .notFound
  else (Path.splitSlashes path.text.toList).foldlM (step d) (d.startOf path)

def find? (d : Disk) (path : Path) : Option Tree :=
  match d.resolve path with
  | .ok place => d.node? place
  | .error _ => none

def isFile (d : Disk) (path : Path) : Bool := (d.find? path).any Tree.isFile

def isDir (d : Disk) (path : Path) : Bool := (d.find? path).any Tree.isDir

def pathOf (place : List String) : Path := ⟨"/" ++ String.intercalate "/" place⟩

/-- The absolute path of something that exists. -/
def canonical? (d : Disk) (path : Path) : Option Path :=
  match d.resolve path with
  | .ok place => some (pathOf place)
  | .error _ => none

def readBytes (d : Disk) (path : Path) : Except Fault ByteArray := do
  let place ← d.resolve path
  match d.node? place with
  | some (.file content access) => if access.read then return content else throw .denied
  | some (.dir _) => throw .isDirectory
  | none => throw .notFound

def read (d : Disk) (path : Path) : Except Fault String := do
  let content ← d.readBytes path
  match String.fromUTF8? content with
  | some text => return text
  | none => throw .notText

/-- The directory and the name of a path that may not exist yet. -/
def splitLast (path : Path) : Path × List Char :=
  let rev := path.text.toList.reverse
  let name := rev.takeWhile (· ≠ '/')
  (⟨String.ofList (rev.drop name.length).reverse⟩, name.reverse)

/-- The place of a file to be opened for writing, which need not exist yet. -/
def openPlace (d : Disk) (path : Path) : Except Fault (List String) := do
  match d.resolve path with
  | .ok place =>
    match d.node? place with
    | some (.dir _) => throw .isDirectory
    | some (.file _ access) => if access.write then return place else throw .denied
    | none => return place
  | .error .notFound =>
    let (parent, name) := splitLast path
    if path.text = "" then throw .notFound
    else if name.isEmpty then throw .isDirectory
    else
      let place ← if parent.text = "" then pure d.current else d.resolve parent
      if (d.node? place).any Tree.isDir then return place ++ [String.ofList name]
      else throw .notDirectory
  | .error fault => throw fault

/-- What may be done with the file at a place. New files may be read and written. -/
def accessAt (d : Disk) (place : List String) : Access :=
  match d.node? place with
  | some (.file _ access) => access
  | _ => {}

def writeAt (d : Disk) (place : List String) (content : ByteArray) : Disk :=
  { d with root := Tree.put (.file content (d.accessAt place)) place d.root }

def write (d : Disk) (path : Path) (text : String) : Except Fault Disk := do
  let place ← d.openPlace path
  return d.writeAt place text.toUTF8

/-- The bytes of the file at a place, none if there is no file. -/
def contentAt (d : Disk) (place : List String) : ByteArray :=
  match d.node? place with
  | some (.file content _) => content
  | _ => .empty

def append (d : Disk) (place : List String) (text : String) : Disk :=
  d.writeAt place (d.contentAt place ++ text.toUTF8)

end Disk

end EmberClasses
