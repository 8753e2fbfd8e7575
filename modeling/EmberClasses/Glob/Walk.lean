import EmberClasses.Disk
import EmberClasses.Glob.Pattern

/-!
Finding the paths on a disk that match a pattern. The pattern is cut at its slashes, and each part
is matched against one component of a path; `**` stands for any number of them.
-/

namespace EmberClasses.Glob

def Pattern.literal? (p : Pattern) : Option String :=
  let plain? : Token → Option Char
    | .char c => some c
    | _ => none
  (p.tokens.mapM plain?).map String.ofList

/-- A found path, as it is written, relative to where the search began. -/
def joinFrom (path : Path) (name : String) : Path :=
  if path.text = "." then ⟨name⟩ else path.join name

def mergeRecursive : List Pattern → List Pattern
  | p :: q :: rest =>
    if p.recursive && q.recursive then mergeRecursive (q :: rest)
    else p :: mergeRecursive (q :: rest)
  | ps => ps

/-- Whether a path exists. A trailing part that is empty asks for a directory. -/
def pathExists (d : Disk) (path : Path) : Bool := (d.find? path).isSome

/-- Paths of the entries of a directory that pass a test, and the special entries that a pattern
with a leading dot matches. -/
def matchingEntries (d : Disk) (path : Path) (p : Pattern) : List Path :=
  match d.find? path with
  | some (.dir es) =>
    let named := (es.filter fun (name, _) => p.matches name).map fun (name, _) => joinFrom path name
    let special :=
      if p.tokens.head? = some (.char '.') then
        ([".", ".."].filter (p.matches ·)).map fun name => path.join name
      else []
    named ++ special
  | _ => []

/-- Everything below a directory: its path, its name and whether it is a directory. -/
def descendants (d : Disk) (path : Path) : List (Path × String × Bool) :=
  match d.find? path with
  | some t => t.contents.map fun (names, u) =>
    (names.foldl joinFrom path, names.getLast?.getD "", u.isDir)
  | none => []

/-- The paths below `path` that the parts of a pattern lead to. -/
def expand (d : Disk) : List Pattern → Path → List Path
  | [], path => [path]
  | p :: ps, path =>
    match p.literal? with
    | some name =>
      let next := joinFrom path name
      let special := name = "." || name = ".."
      if (special && d.isDir path) || (!special && pathExists d next) then expand d ps next else []
    | none =>
      if p.recursive then
        match ps with
        | [] => ((descendants d path).filter fun (_, _, isDir) => isDir).map Prod.fst
        | q :: qs =>
          ((descendants d path).filter fun (_, name, _) => q.matches name).flatMap
            fun (next, _, _) => expand d qs next
      else (matchingEntries d path p).flatMap (expand d ps)

/-- The parts of a pattern after its leading slash. A trailing slash adds none. -/
def partsOf (pattern : List Char) : List (List Char) :=
  let parts := Path.splitSlashes pattern
  if parts.getLast? = some [] then parts.dropLast else parts

/-- The paths on a disk that match a pattern, none if the pattern is not well formed. -/
def glob (d : Disk) (pattern : String) : Option (List Path) := do
  let _ ← Pattern.parse pattern
  let cs := pattern.toList
  let absolute := cs.head? = some '/'
  let rest := if absolute then cs.tail else cs
  let parts ← (partsOf rest).mapM fun part => Pattern.parse (String.ofList part)
  let parts := if rest.isEmpty then [⟨[], false⟩] else parts
  let found := expand d (mergeRecursive parts) ⟨if absolute then "/" else "."⟩
  let wantsDir := cs.getLast? = some '/'
  return if wantsDir then found.filter d.isDir else found

end EmberClasses.Glob
