import EmberClasses.Glob.Walk

/-!
The files that a command is about. Each input is a file, a directory or a pattern.
-/

namespace EmberClasses.Discovery

inductive Error where
  | pattern (text : String)
  | unresolved (path : Path)
  deriving DecidableEq, Inhabited

def Error.message : Error → String
  | pattern text => "invalid glob pattern '" ++ text ++ "'"
  | unresolved path => "failed to resolve " ++ path.text

/-- Files that are searched for in a directory. -/
def sourcePatterns : List String := ["**/*.js", "**/*.ts"]

def isExcluded (path : Path) : Bool := path.components.contains (.normal "node_modules")

def canonical (d : Disk) (path : Path) : Except Error Path :=
  match d.canonical? path with
  | some p => .ok p
  | none => .error (.unresolved path)

def matching (d : Disk) (pattern : String) : Except Error (List Path) :=
  match Glob.glob d pattern with
  | none => .error (.pattern pattern)
  | some paths => (paths.filter fun p => d.isFile p && !isExcluded p).mapM (canonical d)

/-- Files that one input names. A file named as such is never excluded. -/
def ofInput (d : Disk) (input : String) : Except Error (List Path) :=
  let path : Path := ⟨input⟩
  if d.isFile path then (canonical d path).map ([·])
  else if d.isDir path then
    (sourcePatterns.mapM fun p => matching d (path.join p).text).map List.flatten
  else matching d input

/-- Puts a path into a sorted list, unless it is there already. -/
def insertSorted (p : Path) : List Path → List Path
  | [] => [p]
  | q :: qs =>
    if p.same q then q :: qs
    else if Path.componentsLt p.components q.components then p :: q :: qs
    else q :: insertSorted p qs

/-- The files that the inputs name: absolute, sorted and each once. -/
def files (d : Disk) (inputs : List String) : Except Error (List Path) :=
  (inputs.mapM (ofInput d)).map fun found => found.flatten.foldl (fun ps p => insertSorted p ps) []

end EmberClasses.Discovery
