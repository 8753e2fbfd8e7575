import EmberClasses.CommandLine

/-!
The program. The files of the project are named on standard input, one path a line; what the command
changes is written back to them.
-/

namespace EmberClasses.Main

/-- The names that lead to a path from the root. -/
def placeOf (current : List String) (path : String) : List String :=
  let names := (Path.splitSlashes path.toList).filterMap fun part =>
    if part = [] ∨ part = ['.'] then none else some (String.ofList part)
  if path.toList.head? = some '/' then names else current ++ names

def load (current : List String) (files : List (String × ByteArray)) : Disk :=
  let start : Tree := Tree.put (.dir []) current (.dir [])
  ⟨files.foldl (fun t (path, content) => Tree.put (.file content) (placeOf current path) t) start,
    current⟩

def changes (before after : Disk) : List (Path × ByteArray) :=
  after.root.files.filterMap fun (place, content) =>
    match before.node? place with
    | some (.file old _) =>
      if old.data = content.data then none else some (Disk.pathOf place, content)
    | _ => some (Disk.pathOf place, content)

/-- The paths on standard input. -/
partial def readPaths (input : IO.FS.Stream) (paths : Array String) : IO (Array String) := do
  let line ← input.getLine
  if line.isEmpty then return paths
  let path := line.trimAscii.toString
  readPaths input (if path.isEmpty then paths else paths.push path)

end EmberClasses.Main

open EmberClasses in
def main (args : List String) : IO UInt32 := do
  let current := Main.placeOf [] ((← IO.getEnv "PWD").getD "/")
  let paths ← Main.readPaths (← IO.getStdin) #[]
  let files ← paths.toList.mapM fun (path : String) => do
    return (path, ← IO.FS.readBinFile path)
  let before := Main.load current files
  let (code, after) := CommandLine.run args { disk := before }
  for (path, content) in Main.changes before after.disk do
    IO.FS.writeBinFile path.text content
  (← IO.getStdout).putStr after.out
  (← IO.getStderr).putStr after.err
  return code.toUInt32
