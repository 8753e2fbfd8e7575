import EmberClasses.Proofs.TemplateLines
import Mathlib.Data.List.TakeWhile

/-! What a printer makes of any sequence of calls. The calls are taken apart into what they print,
where they break the line and how they change the level; the printed text is read off this record,
line by line. The printer itself opens a line before its indentation is known, so the line in the
making is followed from call to call. -/

namespace EmberClasses

open Text

namespace Printer

inductive Call where
  | print (text : List Char) (ends : Bool)
  | printText (text : List Char) (ends : Bool)
  | printFragment (f : Fragment) (ends : Bool)
  | indent
  | dedent
  deriving DecidableEq

inductive Event where
  | piece (text : List Char)
  /-- A new line starts, which may be verbatim. -/
  | lineBreak (verbatim : Bool)
  | deeper
  | shallower
  deriving DecidableEq

namespace Event

def text : Event → List Char
  | piece text => text
  | _ => []

def shift (level : Nat) : Event → Nat
  | deeper => level + 1
  | shallower => level - 1
  | _ => level

def apply (p : Printer) : Event → Printer
  | piece text => p.print text false
  | lineBreak verbatim => p.newLine.mark verbatim
  | deeper => p.indent
  | shallower => p.dedent

end Event

def levelAfter (es : List Event) : Nat := es.foldl Event.shift 0

namespace Call

def ending (ends : Bool) : List Event := if ends then [.lineBreak false] else []

def textEvents (verbatim : Nat → Bool) (lines : List (List Char)) : List Event :=
  match lines with
  | [] => []
  | first :: rest =>
    .piece first ::
      (rest.mapIdx fun i line => [Event.lineBreak (verbatim (i + 1)), .piece line]).flatten

/-- The steps of a call. The lines of a text are printed one by one, while a text that is printed as
one piece is never broken. -/
def events : Call → List Event
  | print text ends => .piece text :: ending ends
  | printText text ends => textEvents (fun _ => false) (splitLines text) ++ ending ends
  | printFragment f ends => textEvents f.isVerbatim (splitLines f.text) ++ ending ends
  | indent => [.deeper]
  | dedent => [.shallower]

/-- What is asked to be printed: the text, and a line feed if the line is to end. -/
def text : Call → List Char
  | print text ends | printText text ends => text ++ if ends then ['\n'] else []
  | printFragment f ends => f.text ++ if ends then ['\n'] else []
  | indent | dedent => []

def apply (p : Printer) : Call → Printer
  | print text ends => p.print text ends
  | printText text ends => p.printText text ends
  | printFragment f ends => p.printFragment f ends
  | indent => p.indent
  | dedent => p.dedent

end Call

def after (calls : List Call) : Printer := calls.foldl Call.apply {}

/-- A line of the record: the steps before it, whether it is verbatim, and its own steps. -/
structure Row where
  before : List Event := []
  verbatim : Bool := false
  events : List Event := []
  deriving DecidableEq

namespace Row

def text (r : Row) : List Char := r.events.flatMap Event.text

/-- The level in force when the first piece was printed that is not empty. -/
def level (r : Row) : Nat :=
  levelAfter (r.before ++ r.events.takeWhile fun e => e.text.isEmpty)

def written (base : List Char) (i : Nat) (r : Row) : List Char :=
  if r.verbatim = true ∨ r.text = [] then r.text
  else (if i = 0 then [] else base) ++ List.replicate (2 * r.level) ' ' ++ r.text

def add (r : Row) (e : Event) : Row := { r with events := r.events ++ [e] }

def line (r : Row) : PrintedLine := ⟨r.text, r.level, r.verbatim⟩

end Row

/-- The lines of some steps, cut at the line breaks. The first of them goes on with the line `r`. -/
def rowsFrom (r : Row) : List Event → List Row
  | [] => [r]
  | .lineBreak verbatim :: es =>
    r :: rowsFrom ⟨r.before ++ r.events ++ [.lineBreak verbatim], verbatim, []⟩ es
  | e :: es => rowsFrom (r.add e) es

def rows (calls : List Call) : List Row := rowsFrom {} (calls.flatMap Call.events)

/-- A last line that is empty is left out, unless it is verbatim. -/
def withoutEmptyLast (rs : List Row) : List Row :=
  if rs.getLast?.any fun r => r.text.isEmpty && !r.verbatim then rs.dropLast else rs

/-! ## Calls as steps -/

theorem printFrom_eq_foldl (verbatim : Nat → Bool) (ends : Bool) (i : Nat) (line : List Char)
    (rest : List (List Char)) (p : Printer) :
    printFrom verbatim ends i (line :: rest) p =
      ((rest.mapIdx fun k l => [Event.lineBreak (verbatim (i + 1 + k)), .piece l]).flatten ++
        Call.ending ends).foldl Event.apply ((p.mark (0 < i && verbatim i)).print line false) := by
  induction rest generalizing i line p with
  | nil => cases ends <;> simp [printFrom, Call.ending, Event.apply, print, mark]
  | cons next rest ih =>
    have hshift : ∀ k, i + 1 + 1 + k = i + 1 + (k + 1) := by omega
    rw [printFrom.eq_3 _ _ _ _ _ _ (by simp), ih]
    simp [List.mapIdx_cons, hshift, Event.apply, print]

theorem printFrom_zero (verbatim : Nat → Bool) (ends : Bool) (text : List Char) (p : Printer) :
    printFrom verbatim ends 0 (splitLines text) p =
      (Call.textEvents verbatim (splitLines text) ++ Call.ending ends).foldl Event.apply p := by
  cases hlines : splitLines text with
  | nil => exact absurd hlines (splitLines_ne_nil text)
  | cons line rest =>
    rw [printFrom_eq_foldl]
    simp [Call.textEvents, Event.apply, mark, Nat.add_comm]

theorem Call.apply_eq_foldl (p : Printer) (c : Call) :
    c.apply p = c.events.foldl Event.apply p := by
  cases c with
  | print text ends => cases ends <;> simp [apply, events, ending, Event.apply, Printer.print, mark]
  | printText text ends => exact printFrom_zero _ ends text p
  | printFragment f ends => exact printFrom_zero _ ends f.text p
  | indent => rfl
  | dedent => rfl

theorem after_eq_foldl (calls : List Call) :
    after calls = (calls.flatMap Call.events).foldl Event.apply {} := by
  rw [after, List.foldl_flatMap]
  congr 1
  funext p c
  exact c.apply_eq_foldl p

/-! ## The line in the making -/

theorem levelAfter_concat (es : List Event) (e : Event) :
    levelAfter (es ++ [e]) = e.shift (levelAfter es) := by
  simp [levelAfter]

namespace Row

variable (r : Row) (e : Event)

theorem text_add : (r.add e).text = r.text ++ e.text := by
  simp [add, text]

/-- While the line is empty, its level is the one in force. -/
theorem level_of_empty (h : r.text = []) : r.level = levelAfter (r.before ++ r.events) := by
  have hall : ∀ e ∈ r.events, e.text.isEmpty = true := by
    intro e he
    exact List.isEmpty_iff.mpr (List.flatMap_eq_nil_iff.mp h e he)
  rw [level, List.takeWhile_eq_self_iff.mpr hall]

/-- The first piece that is not empty settles the level. -/
theorem level_add (h : r.text ≠ []) : (r.add e).level = r.level := by
  have hsome : ¬ ∀ e ∈ r.events, e.text.isEmpty = true := fun hall =>
    h (List.flatMap_eq_nil_iff.mpr fun e he => List.isEmpty_iff.mp (hall e he))
  have htake : (r.events ++ [e]).takeWhile (fun e => e.text.isEmpty) =
      r.events.takeWhile fun e => e.text.isEmpty := by
    rw [List.takeWhile_append, if_neg]
    intro hlength
    exact hsome (List.takeWhile_eq_self_iff.mp
      ((List.takeWhile_prefix _).eq_of_length hlength))
  rw [level, add, htake, level]

end Row

structure InLine (p : Printer) (r : Row) : Prop where
  current : p.current = r.line
  level : p.level = levelAfter (r.before ++ r.events)

theorem InLine.text_eq {p : Printer} {r : Row} (h : p.InLine r) : p.current.text = r.text := by
  rw [h.current]
  rfl

theorem InLine.piece {p : Printer} {r : Row} (h : p.InLine r) (text : List Char) :
    (p.print text false).InLine (r.add (.piece text)) := by
  have hlevel : levelAfter (r.before ++ (r.events ++ [Event.piece text])) =
      levelAfter (r.before ++ r.events) := by
    rw [← List.append_assoc, levelAfter_concat]
    rfl
  have hsame : (r.add (.piece text)).level = r.level := by
    by_cases hempty : r.text = []
    · by_cases htext : text = []
      · have hadd : (r.add (.piece text)).text = [] := by rw [r.text_add, hempty, htext]; rfl
        rw [Row.level_of_empty _ hadd, r.level_of_empty hempty]
        exact hlevel
      · have hall : ∀ e ∈ r.events, e.text.isEmpty = true := fun e he =>
          List.isEmpty_iff.mpr (List.flatMap_eq_nil_iff.mp hempty e he)
        have htake : (r.events ++ [Event.piece text]).takeWhile (fun e => e.text.isEmpty) =
            r.events := by
          rw [List.takeWhile_append_of_pos hall]
          simp [Event.text, htext]
        rw [Row.level, Row.add, htake, r.level_of_empty hempty]
    · exact r.level_add _ hempty
  refine ⟨?_, ?_⟩
  · have hline : (r.add (.piece text)).line = ⟨r.text ++ text, r.level, r.verbatim⟩ := by
      rw [Row.line, hsame, r.text_add]
      rfl
    rw [hline, print, h.current]
    rfl
  · exact h.level.trans hlevel.symm

/-- A change of the level moves the line while it is empty, and only then. -/
theorem InLine.shift {p : Printer} {r : Row} (h : p.InLine r) {e : Event} (he : e.text = []) :
    (p.setLevel (e.shift p.level)).InLine (r.add e) := by
  have hlevel : levelAfter (r.before ++ (r.events ++ [e])) = e.shift p.level := by
    rw [← List.append_assoc, levelAfter_concat, h.level]
  have htext : (r.add e).text = r.text := by rw [r.text_add, he, List.append_nil]
  by_cases hempty : r.text = []
  · have hnew : (r.add e).level = e.shift p.level := by
      rw [Row.level_of_empty _ (htext.trans hempty)]
      exact hlevel
    refine ⟨?_, ?_⟩
    · simp only [setLevel, lineIsEmpty, hempty, List.isEmpty_nil, if_true, Row.line, hnew, htext,
        h.current]
      rfl
    · simp only [setLevel, lineIsEmpty, h.text_eq, hempty, List.isEmpty_nil, if_true]
      exact hlevel.symm
  · have hold : p.lineIsEmpty = false := by simpa [lineIsEmpty, h.text_eq] using hempty
    refine ⟨?_, ?_⟩
    · simp only [setLevel, hold, Bool.false_eq_true, if_false, Row.line, r.level_add _ hempty,
        htext, h.current]
      rfl
    · simp only [setLevel, hold, Bool.false_eq_true, if_false]
      exact hlevel.symm

theorem InLine.lineBreak {p : Printer} {r : Row} (h : p.InLine r) (verbatim : Bool) :
    (p.newLine.mark verbatim).InLine
      ⟨r.before ++ r.events ++ [.lineBreak verbatim], verbatim, []⟩ := by
  have hlevel : levelAfter (r.before ++ r.events ++ [.lineBreak verbatim] ++ []) = p.level := by
    rw [List.append_nil, levelAfter_concat, h.level]
    rfl
  have hline : Row.line ⟨r.before ++ r.events ++ [.lineBreak verbatim], verbatim, []⟩ =
      ⟨[], p.level, verbatim⟩ := by
    rw [← hlevel]
    rfl
  cases verbatim <;> exact ⟨hline.symm, hlevel.symm⟩

/-- A run of steps prints the lines of its record after those that are finished. -/
theorem all_foldl {p : Printer} {r : Row} (h : p.InLine r) (es : List Event) :
    (es.foldl Event.apply p).all = p.done ++ (rowsFrom r es).map Row.line := by
  induction es generalizing p r with
  | nil => rw [List.foldl_nil, all, h.current]; rfl
  | cons e es ih =>
    cases e with
    | piece text => exact ih (h.piece text)
    | lineBreak verbatim =>
      have hdone : (p.newLine.mark verbatim).done = p.done ++ [r.line] := by
        cases verbatim <;> simp [newLine, mark, h.current]
      rw [List.foldl_cons, Event.apply, ih (h.lineBreak verbatim), hdone, rowsFrom, List.map_cons,
        List.append_assoc]
      rfl
    | deeper =>
      have hdone : p.indent.done = p.done := by unfold indent setLevel; split <;> rfl
      rw [List.foldl_cons, Event.apply, ← hdone]
      exact ih (h.shift (e := .deeper) rfl)
    | shallower =>
      have hdone : p.dedent.done = p.done := by unfold dedent setLevel; split <;> rfl
      rw [List.foldl_cons, Event.apply, ← hdone]
      exact ih (h.shift (e := .shallower) rfl)

theorem all_after (calls : List Call) : (after calls).all = (rows calls).map Row.line := by
  have hstart : ({} : Printer).InLine {} := ⟨rfl, rfl⟩
  rw [after_eq_foldl, all_foldl hstart]
  rfl

/-! ## The printed text -/

theorem rowsFrom_ne_nil (r : Row) (es : List Event) : rowsFrom r es ≠ [] := by
  induction es generalizing r with
  | nil => simp [rowsFrom]
  | cons e es ih => cases e <;> simp [rowsFrom, ih]

theorem lines_after (calls : List Call) :
    (after calls).lines = (withoutEmptyLast (rows calls)).map Row.line := by
  obtain ⟨front, last, hrows⟩ := (List.eq_nil_or_concat (rows calls)).resolve_left
    (rowsFrom_ne_nil _ _)
  have hall := all_after calls
  rw [hrows, List.concat_eq_append, List.map_append, all] at hall
  obtain ⟨hdone, hcurrent⟩ := List.append_inj' hall rfl
  have hlast : (after calls).current = last.line := by simpa using hcurrent
  rw [hrows, List.concat_eq_append, withoutEmptyLast, lines, hlast, hdone]
  by_cases hempty : (last.text.isEmpty && !last.verbatim) = true
  · simp [hempty, Row.line]
  · simp [hempty, Row.line]

theorem renderLine_line (base : List Char) (i : Nat) (r : Row) :
    renderLine base i r.line = r.written base i := by
  unfold renderLine Row.written Row.line
  by_cases h : r.verbatim = true ∨ r.text = []
  · rw [if_pos h, if_pos (by simpa using h)]
  · rw [if_neg h, if_neg (by simpa using h)]

/-! ## Nothing is lost -/

def Event.fullText : Event → List Char
  | piece text => text
  | lineBreak _ => ['\n']
  | _ => []

theorem joinLines_rowsFrom (r : Row) (es : List Event) :
    joinLines ((rowsFrom r es).map Row.text) = r.text ++ es.flatMap Event.fullText := by
  induction es generalizing r with
  | nil => simp [rowsFrom, joinLines]
  | cons e es ih =>
    have hadd : r.text ++ (e :: es).flatMap Event.fullText =
        (r.add e).text ++ es.flatMap Event.fullText ∨ ∃ verbatim, e = .lineBreak verbatim := by
      cases e <;> simp [Row.text_add, Event.fullText, Event.text]
    cases e with
    | lineBreak verbatim =>
      have hnext := ih ⟨r.before ++ r.events ++ [.lineBreak verbatim], verbatim, []⟩
      obtain ⟨next, rest, hrows⟩ := List.exists_cons_of_ne_nil (rowsFrom_ne_nil
        ⟨r.before ++ r.events ++ [.lineBreak verbatim], verbatim, []⟩ es)
      rw [hrows, List.map_cons] at hnext
      rw [rowsFrom, hrows, List.map_cons, List.map_cons, joinLines.eq_3 _ _ (by simp), hnext]
      simp [Row.text, Event.fullText]
    | piece text | deeper | shallower => exact (ih _).trans (hadd.resolve_right (by simp)).symm

theorem flatMap_fullText_breaks (verbatim : Nat → Bool) (lines : List (List Char)) :
    (lines.mapIdx fun i line => [Event.lineBreak (verbatim i), .piece line]).flatten.flatMap
      Event.fullText = lines.flatMap ('\n' :: ·) := by
  induction lines generalizing verbatim with
  | nil => rfl
  | cons line lines ih =>
    rw [List.mapIdx_cons, List.flatten_cons, List.flatMap_append, List.flatMap_cons,
      ih fun i => verbatim (i + 1)]
    simp [Event.fullText]

theorem flatMap_fullText_textEvents (verbatim : Nat → Bool) (text : List Char) :
    (Call.textEvents verbatim (splitLines text)).flatMap Event.fullText = text := by
  cases hsplit : splitLines text with
  | nil => exact absurd hsplit (splitLines_ne_nil text)
  | cons first rest =>
    rw [Call.textEvents, List.flatMap_cons, flatMap_fullText_breaks fun i => verbatim (i + 1)]
    rw [← joinLines_splitLines text, hsplit, joinLines_cons]
    rfl

theorem Call.flatMap_fullText (c : Call) : c.events.flatMap Event.fullText = c.text := by
  have hending (ends : Bool) :
      (ending ends).flatMap Event.fullText = if ends then ['\n'] else [] := by
    cases ends <;> rfl
  cases c with
  | print text ends => simp [events, Call.text, Event.fullText, hending]
  | printText text ends =>
    rw [events, List.flatMap_append, flatMap_fullText_textEvents, hending, Call.text]
  | printFragment f ends =>
    rw [events, List.flatMap_append, flatMap_fullText_textEvents, hending, Call.text]
  | indent => rfl
  | dedent => rfl

/-- After any sequence of calls, the printed text consists of the lines of the record, in order and
joined by line feeds, and an empty last line that is not verbatim is left out. Each line is what was
printed in it; in front of it stand the indentation of the whole, but for the first line, and two
blanks for each level in force when its first piece was printed, unless the line is empty or
verbatim. The lines without their indentation are the printed texts, one after the other. -/
theorem render_after (calls : List Call) (base : List Char) :
    (after calls).render base =
        joinLines ((withoutEmptyLast (rows calls)).mapIdx (Row.written base)) ∧
      joinLines ((rows calls).map Row.text) = calls.flatMap Call.text := by
  constructor
  · rw [render, lines_after]
    congr 1
    exact List.ext_getElem (by simp) fun i _ _ => by simp [renderLine_line]
  · rw [rows, joinLines_rowsFrom, List.flatMap_assoc]
    simp only [Call.flatMap_fullText]
    rfl

-- The empty piece does not settle the level of its line.
example : (after [.indent, .print ['a'] true, .print [] false, .dedent, .print ['b'] true]).render
    [' '] = "  a\n b".toList := by decide

end Printer

end EmberClasses
