import EmberClasses.Log
import EmberClasses.Path
import EmberClasses.Problem

/-!
What became of a file.
-/

namespace EmberClasses

inductive SkipReason where
  | extension
  | noUsage
  | testFile
  | typeMismatch (expected : FileType)
  deriving DecidableEq, Inhabited

def SkipReason.message : SkipReason → String
  | extension => "Unsupported file extension"
  | noUsage => "Could not find runtime data NO_RUNTIME_DATA"
  | testFile => "Skipping test file"
  | typeMismatch expected =>
    "Type mismatch, expected type '" ++ expected.name ++ "' did not match type of file"

inductive Outcome where
  /-- At least one definition was replaced. -/
  | success
  /-- There are definitions, but none could be replaced. -/
  | failure
  /-- There are no definitions. -/
  | unchanged
  | skipped (reason : SkipReason)
  deriving DecidableEq, Inhabited

structure Failure where
  span : Span
  problems : List Problem
  deriving DecidableEq, Inhabited

structure Report where
  path : Path
  outcome : Outcome
  /-- Number of replaced definitions. -/
  transformed : Nat := 0
  failures : List Failure := []
  /-- The new text of the file, when something was replaced. -/
  output : Option (List Char) := none
  deriving DecidableEq, Inhabited

namespace Report

def failureRecord (path : Path) (f : Failure) : LogRecord :=
  let problems := String.intercalate "\n\t" (f.problems.map Problem.render)
  ⟨.warn, "[" ++ path.text ++ "]: FAILURE \nValidation errors: \n\t" ++ problems⟩

def records (r : Report) : List LogRecord :=
  match r.outcome with
  | .skipped reason => [⟨.warn, "[" ++ r.path.text ++ "]: SKIPPED " ++ reason.message⟩]
  | .success =>
    r.failures.map (failureRecord r.path) ++ [⟨.info, "[" ++ r.path.text ++ "]: SUCCESS"⟩]
  | _ => r.failures.map (failureRecord r.path)

end Report

end EmberClasses
