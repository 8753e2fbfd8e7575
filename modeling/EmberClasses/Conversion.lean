import EmberClasses.Class.Build
import EmberClasses.Class.Layout
import EmberClasses.Definition
import EmberClasses.Glob.Pattern
import EmberClasses.Import.Plan
import EmberClasses.Report
import EmberClasses.Script.Parse
import EmberClasses.Usage

/-!
Converting a file: every definition without problems becomes a class, and the decorators of the
classes are imported.
-/

namespace EmberClasses

namespace Conversion

inductive Error where
  | parse (path : Path) (rejection : Script.Rejection)
  | breach (b : Breach)
  /-- The new text is no script. -/
  | outputParse (path : Path) (rejection : Script.Rejection)
  deriving DecidableEq, Inhabited

def Error.message : Error → String
  | parse path r =>
    "failed to parse " ++ path.text ++ ": unexpected text at offset " ++ toString r.offset
  | breach b => "invariant violated: " ++ b.message
  | outputParse path r =>
    "generated output for " ++ path.text ++ " does not parse: unexpected text at offset " ++
      toString r.offset

/-- Extensions of the files that are converted. -/
def extensions : List String := ["js", "ts"]

def matchesPattern (pattern : String) (path : Path) : Bool :=
  (Glob.Pattern.parse pattern).any (·.matches path.text)

def isTestFile (path : Path) : Bool := matchesPattern "**/*-test.js" path

def isOfType (t : FileType) (path : Path) : Bool := matchesPattern t.pattern path

/-- Types may be written in files with these extensions. -/
def dialectOf (path : Path) : Script.Dialect :=
  ⟨path.extension?.any (["ts", "mts", "cts", "tsx"].contains ·)⟩

/-- Why a file is skipped. The first reason that holds counts. -/
def skipReason? (o : Options) (path : Path) (usage : Option Usage) : Option SkipReason :=
  if !extensions.contains (path.extension?.getD "") then some .extension
  else if usage.isNone then some .noUsage
  else if isTestFile path then some .testFile
  else
    match o.fileType with
    | some t => if isOfType t path then none else some (.typeMismatch t)
    | none => none

structure Job where
  path : Path
  source : List Char
  options : Options
  usage : Usage
  wrappers : List Wrapper
  quasis : List Span
  deriving Inhabited

structure Progress where
  edits : List Edit := []
  failures : List Failure := []
  transformed : Nat := 0
  builtins : List Builtin := []
  deriving Inhabited

namespace Job

def ofScript (path : Path) (source : List Char) (o : Options) (usage : Usage)
    (script : Script.Node) : Job where
  path
  source
  options := o
  usage
  wrappers := Wrapper.all (Import.Declaration.ofScript script)
  quasis := script.quasis

def copy (j : Job) : Copy := ⟨j.source, j.quasis, j.options.quote⟩

def propertiesOf (j : Job) (d : Definition) : PropertyList :=
  match d.properties with
  | some object => .ofObject ⟨j.source, j.usage, j.wrappers⟩ object
  | none => {}

/-- What keeps a definition from becoming a class. -/
def problemsOf (j : Job) (d : Definition) : List Problem :=
  Problem.ofProperties j.options (j.propertiesOf d).properties ++
    (if d.chained.isSome then [Problem.chained] else [])

/-- The blueprint of the class for a definition. -/
def blueprintOf (j : Job) (d : Definition) : Blueprint :=
  let list := j.propertiesOf d
  let name := Name.ofDefinition d.binding j.path j.usage.objectType
  { name := Name.avoiding d.superclass name
    superclass := d.superclass
    mixins := d.mixins.map (Text.slice j.source)
    properties := list.properties
    trailing := list.trailing }

/-- The text that takes the place of a definition. -/
def textFor (j : Job) (d : Definition) (c : ClassDecl) : List Char :=
  let base := Text.lineIndent j.source d.target.span.start
  match d.target with
  | .statement _ lead => c.render lead.toList base
  | .expression _ parenthesize =>
    let text := c.render [] base
    if parenthesize then '(' :: text ++ [')'] else text

/-- Converts one definition. Tells whether it was replaced. -/
def convert (j : Job) (d : Definition) (p : Progress) : Except Breach (Bool × Progress) :=
  let problems := j.problemsOf d
  if problems.isEmpty then
    let b := j.blueprintOf d
    match b.build j.options j.copy with
    | .error e => .error e
    | .ok c =>
      .ok (true,
        { p with
          edits := p.edits ++ [⟨d.target.span, j.textFor d c⟩]
          transformed := p.transformed + 1
          builtins := p.builtins ++ b.builtins j.options })
  else .ok (false, { p with failures := p.failures ++ [⟨d.span, problems⟩] })

end Job

def outcomeOf (p : Progress) : Outcome :=
  if 0 < p.transformed then .success
  else if p.failures.isEmpty then .unchanged
  else .failure

def outputOf (j : Job) (imports : List Import.Declaration) (p : Progress) :
    Except Error (List Char) := do
  let edits := p.edits ++ Import.edits j.source imports p.builtins j.options.quote
  let text ← (Edit.apply j.source edits).mapError fun bad => .breach (.misplaced bad)
  match Script.parse (dialectOf j.path) text with
  | .error r => throw (.outputParse j.path r)
  | .ok _ => return text

def run (o : Options) (telemetry : Telemetry) (path : Path) (source : List Char) :
    Except Error Report := do
  let usage := telemetry.lookup path
  match skipReason? o path usage with
  | some reason => return { path, outcome := .skipped reason }
  | none =>
    let script ← (Script.parse (dialectOf path) source).mapError (.parse path)
    let job := Job.ofScript path source o (usage.getD {}) script
    let progress ← (Definition.forEach script {} job.convert).mapError .breach
    let imports := Import.Declaration.ofScript script
    let output ←
      if 0 < progress.transformed then some <$> outputOf job imports progress else pure none
    return { path, outcome := outcomeOf progress, transformed := progress.transformed,
             failures := progress.failures, output }

end Conversion

end EmberClasses
