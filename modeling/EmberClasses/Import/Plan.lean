import EmberClasses.Import.Declaration
import EmberClasses.Text.Edit

/-!
Changes to the imports of a file that make decorators available: a missing name goes into an import
of its module that can take it, or into a new declaration after the last import. A name that another
module's import binds is taken away from there.
-/

namespace EmberClasses.Import

/-- Changed declarations by their place in the file, in the order in which they were first changed,
and new ones. -/
structure Plan where
  changed : List (Nat × Declaration) := []
  added : List Declaration := []
  deriving Inhabited

namespace Plan

/-- Changes the declaration `d` at place `i`, on top of earlier changes to it. -/
def change (i : Nat) (d : Declaration) (f : Declaration → Declaration) :
    List (Nat × Declaration) → List (Nat × Declaration)
  | [] => [(i, f d)]
  | (j, e) :: rest => if j = i then (j, f e) :: rest else (j, e) :: change i d f rest

def isBound (imports : List Declaration) (r : Requirement) : Bool :=
  imports.any fun d => !d.typeOnly && d.module = r.module && d.binds r.localName

/-- Takes the name of a requirement away from the imports of other modules. -/
def release (imports : List Declaration) (changed : List (Nat × Declaration)) (r : Requirement) :
    List (Nat × Declaration) :=
  imports.zipIdx.foldl (fun changed (d, i) =>
    if d.module ≠ r.module && !d.typeOnly && d.binds r.localName then
      change i d (·.remove r.localName) changed
    else changed) changed

/-- Whether a declaration can take the missing names of a module. -/
def accepts (module : String) (missing : List Requirement) (d : Declaration) : Bool :=
  d.module = module && !d.typeOnly && d.namespaceName.isNone &&
    (d.defaultName.isNone || missing.all (·.imported.isSome))

def provide (imports : List Declaration) (plan : Plan) (module : String)
    (wanted : List Requirement) : Plan :=
  let missing := wanted.filter fun r => !isBound imports r
  if missing.isEmpty then plan
  else
    let changed := missing.foldl (release imports) plan.changed
    let addAll (d : Declaration) : Declaration := missing.foldl Declaration.add d
    match imports.zipIdx.find? fun (d, _) => accepts module missing d with
    | some (d, i) => { plan with changed := change i d addAll changed }
    | none =>
      { changed, added := plan.added ++ [addAll { span := .point 0, module }] }

/-- What to change so that all wanted decorators are available. -/
def make (imports : List Declaration) (wanted : List Builtin) : Plan :=
  (required wanted).foldl (fun plan (module, rs) => plan.provide imports module rs) {}

def lastEnd? (imports : List Declaration) : Option Nat := imports.getLast?.map (·.span.stop)

/-- The edit for a changed declaration. One that binds nothing any more is deleted with its line
feed, unless it is the last import. -/
def changeEdit (source : List Char) (imports : List Declaration) (quote : Quote)
    (before after : Declaration) : Edit :=
  if after.isEmpty && !before.isEmpty then
    let stop := before.span.stop
    let followed := (Text.dropBytes stop source).head? = some '\n'
    if some stop ≠ lastEnd? imports ∧ followed then ⟨⟨before.span.start, stop + 1⟩, []⟩
    else ⟨before.span, []⟩
  else ⟨before.span, (after.render quote).toList⟩

def addEdit (imports : List Declaration) (quote : Quote) (added : List Declaration) : Edit :=
  let text := String.intercalate "\n" (added.map (·.render quote))
  match lastEnd? imports with
  | some stop => .insert stop ("\n" ++ text).toList
  | none => .insert 0 (text ++ "\n\n").toList

def edits (plan : Plan) (source : List Char) (imports : List Declaration) (quote : Quote) :
    List Edit :=
  let changes := plan.changed.filterMap fun (i, after) =>
    imports[i]?.map fun before => changeEdit source imports quote before after
  if plan.added.isEmpty then changes else changes ++ [addEdit imports quote plan.added]

end Plan

/-- Edits that make all wanted decorators available in a file. -/
def edits (source : List Char) (imports : List Declaration) (wanted : List Builtin)
    (quote : Quote) : List Edit :=
  (Plan.make imports wanted).edits source imports quote

end EmberClasses.Import
