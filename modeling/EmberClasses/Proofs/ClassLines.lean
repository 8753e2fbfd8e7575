import EmberClasses.Class.Layout
import Mathlib.Data.List.Basic

/-! The lines of a class. A class is printed piece by piece, but every piece ends its line, so that
the lines can be listed without a printer: comments, decorators, the opening line, the members with
an empty line between neighbours, and the closing brace. -/

namespace EmberClasses

open Text

def Fragment.linesAt (level : Nat) (f : Fragment) : List PrintedLine :=
  (splitLines f.text).mapIdx fun i line => ⟨line, level, 0 < i && f.isVerbatim i⟩

def commentLines (level : Nat) (comments : List (List Char)) : List PrintedLine :=
  comments.flatMap fun c => Fragment.linesAt level ⟨c, []⟩

def decoratorLines (level : Nat) (ds : List AppliedDecorator) : List PrintedLine :=
  ds.flatMap fun d => d.toFragment.linesAt level

def MemberBody.linesAt (level : Nat) (key : String) : MemberBody → List PrintedLine
  | .field none => [⟨key.toList ++ [';'], level, false⟩]
  | .field (some value) => (Fragment.ofField key value).linesAt level
  | .method m => (Fragment.ofMethod key m).linesAt level

def Member.linesAt (level : Nat) (m : Member) : List PrintedLine :=
  commentLines level m.comments ++ decoratorLines level m.decorators ++ m.body.linesAt level m.key

namespace ClassDecl

/-- What stands between the braces, in blocks with an empty line between neighbours. -/
def blocks (c : ClassDecl) : List (List PrintedLine) :=
  c.members.map (·.linesAt 1) ++ (if c.trailing.isEmpty then [] else [commentLines 1 c.trailing])

def headLines (c : ClassDecl) : List PrintedLine :=
  commentLines 0 c.leading ++ decoratorLines 0 c.decorators

def bodyLines (c : ClassDecl) (lead : List Char) : List PrintedLine :=
  if c.blocks.isEmpty then [⟨c.opening lead ++ ['}'], 0, false⟩]
  else ⟨c.opening lead, 0, false⟩ ::
    ([⟨[], 1, false⟩].intercalate c.blocks ++ [⟨['}'], 0, false⟩])

def lines (c : ClassDecl) (lead : List Char) : List PrintedLine := c.headLines ++ c.bodyLines lead

end ClassDecl

namespace Printer

def atStart (done : List PrintedLine) (level : Nat) : Printer := ⟨done, { level }, level⟩

variable (done : List PrintedLine) (level : Nat)

theorem print_atStart (text : List Char) :
    (atStart done level).print text true = atStart (done ++ [⟨text, level, false⟩]) level := by
  simp [atStart, print, newLine]

theorem indent_atStart : (atStart done level).indent = atStart done (level + 1) := by
  simp [atStart, indent, setLevel, lineIsEmpty]

theorem dedent_atStart : (atStart done level).dedent = atStart done (level - 1) := by
  simp [atStart, dedent, setLevel, lineIsEmpty]

private theorem printFrom_atStart (verbatim : Nat → Bool) (i : Nat) {lines : List (List Char)}
    (h : lines ≠ []) : printFrom verbatim true i lines (atStart done level) =
      atStart (done ++ lines.mapIdx fun k line => ⟨line, level, 0 < i + k && verbatim (i + k)⟩)
        level := by
  induction lines generalizing i done with
  | nil => exact absurd rfl h
  | cons line rest ih =>
    have hline : ((atStart done level).mark (0 < i && verbatim i)).print line true =
        atStart (done ++ [⟨line, level, 0 < i && verbatim i⟩]) level := by
      cases hv : (decide (0 < i) && verbatim i) <;> simp [atStart, mark, print, newLine]
    cases rest with
    | nil => simpa [printFrom] using hline
    | cons next rest =>
      have hshift : ∀ k, i + 1 + k = i + (k + 1) := by omega
      rw [printFrom.eq_3 _ _ _ _ _ _ (by simp), hline, ih _ _ (by simp)]
      simp [List.mapIdx_cons, hshift]

theorem printFragment_atStart (f : Fragment) :
    (atStart done level).printFragment f true = atStart (done ++ f.linesAt level) level := by
  unfold printFragment Fragment.linesAt
  rw [printFrom_atStart _ _ _ _ (splitLines_ne_nil f.text)]
  simp only [Nat.zero_add]

theorem printText_atStart (text : List Char) :
    (atStart done level).printText text true =
      atStart (done ++ Fragment.linesAt level ⟨text, []⟩) level := by
  rw [← printFragment_atStart]
  unfold printText printFragment
  congr 1

theorem printComments_atStart (comments : List (List Char)) :
    (atStart done level).printComments comments =
      atStart (done ++ commentLines level comments) level := by
  unfold printComments commentLines
  induction comments generalizing done with
  | nil => simp
  | cons c cs ih =>
    rw [List.foldl_cons, printText_atStart, ih, List.flatMap_cons, List.append_assoc]

theorem printDecorators_atStart (ds : List AppliedDecorator) :
    (atStart done level).printDecorators ds = atStart (done ++ decoratorLines level ds) level := by
  unfold printDecorators decoratorLines
  induction ds generalizing done with
  | nil => simp
  | cons d ds ih =>
    rw [List.foldl_cons, printFragment_atStart, ih, List.flatMap_cons, List.append_assoc]

theorem printBody_atStart (key : String) (body : MemberBody) :
    (atStart done level).printBody key body = atStart (done ++ body.linesAt level key) level := by
  cases body with
  | field value =>
    cases value with
    | none => exact print_atStart done level _
    | some value => exact printFragment_atStart done level _
  | method m => exact printFragment_atStart done level _

theorem printMember_atStart (m : Member) :
    (atStart done level).printMember m = atStart (done ++ m.linesAt level) level := by
  unfold printMember Member.linesAt
  rw [printComments_atStart, printDecorators_atStart, printBody_atStart]
  simp only [List.append_assoc]

theorem printMembers_atStart (ms : List Member) :
    (atStart done level).printMembers ms =
      atStart (done ++ [⟨[], level, false⟩].intercalate (ms.map (·.linesAt level))) level := by
  cases ms with
  | nil => simp [printMembers]
  | cons first rest =>
    rw [printMembers, printMember_atStart, List.map_cons]
    induction rest generalizing done first with
    | nil => simp
    | cons next rest ih =>
      rw [List.foldl_cons, print_atStart, printMember_atStart, List.map_cons,
        List.intercalate_cons_cons]
      have := ih (done ++ first.linesAt level ++ [⟨[], level, false⟩]) next
      simpa using this

end Printer

private theorem intercalate_concat {α : Type} (sep last : List α) {parts : List (List α)}
    (h : parts ≠ []) :
    sep.intercalate (parts ++ [last]) = sep.intercalate parts ++ (sep ++ last) := by
  induction parts with
  | nil => exact absurd rfl h
  | cons first rest ih =>
    cases rest with
    | nil => simp
    | cons next rest =>
      rw [List.cons_append, List.cons_append, List.intercalate_cons_cons, ← List.cons_append,
        ih (by simp), List.intercalate_cons_cons, List.append_assoc (first ++ sep)]

namespace ClassDecl

open Printer

variable (c : ClassDecl) (lead : List Char)

theorem blocks_isEmpty : c.blocks.isEmpty = (c.members.isEmpty && c.trailing.isEmpty) := by
  unfold blocks
  cases c.members <;> cases c.trailing <;> rfl

/-- The members and the comments behind them, as the blocks of the class. -/
theorem printBlocks_atStart (done : List PrintedLine) :
    (if c.trailing.isEmpty then (atStart done 1).printMembers c.members
      else (if c.members.isEmpty then (atStart done 1).printMembers c.members
        else ((atStart done 1).printMembers c.members).print [] true).printComments c.trailing) =
      atStart (done ++ [⟨[], 1, false⟩].intercalate c.blocks) 1 := by
  rw [printMembers_atStart]
  unfold blocks
  by_cases htrailing : c.trailing.isEmpty
  · simp [htrailing]
  · rw [if_neg htrailing]
    by_cases hmembers : c.members.isEmpty
    · rw [if_pos hmembers, printComments_atStart]
      simp [List.isEmpty_iff.mp hmembers, htrailing]
    · rw [if_neg hmembers, print_atStart, printComments_atStart]
      have hne : c.members.map (·.linesAt 1) ≠ [] := by simpa using hmembers
      rw [if_neg htrailing, intercalate_concat _ _ hne]
      simp only [List.append_assoc]

theorem render_eq (base : List Char) :
    c.render lead base = joinLines ((c.lines lead).mapIdx (renderLine base)) := by
  have hhead : (({} : Printer).printComments c.leading).printDecorators c.decorators =
      atStart c.headLines 0 := by
    change ((atStart [] 0).printComments c.leading).printDecorators c.decorators = _
    rw [printComments_atStart, printDecorators_atStart, List.nil_append, headLines]
  have hlines : (c.printBody ((atStart c.headLines 0).print (c.opening lead) false)).lines =
      c.lines lead := by
    unfold lines bodyLines printBody
    cases hempty : c.blocks.isEmpty with
    | true =>
      rw [← blocks_isEmpty, hempty]
      simp [atStart, print, Printer.lines]
    | false =>
      have hopen : (((atStart c.headLines 0).print (c.opening lead) false).print [] true).indent =
          atStart (c.headLines ++ [⟨c.opening lead, 0, false⟩]) 1 := by
        rw [← indent_atStart]
        simp [atStart, print, newLine]
      rw [← blocks_isEmpty, hempty, hopen]
      dsimp only
      rw [if_neg Bool.false_ne_true, if_neg Bool.false_ne_true, c.printBlocks_atStart,
        dedent_atStart]
      simp [atStart, print, Printer.lines]
  unfold render Printer.render
  dsimp only
  rw [hhead, hlines]

end ClassDecl

end EmberClasses
