import EmberClasses.Proofs.SplicedText
import EmberClasses.Proofs.TemplateLines
import Mathlib.Data.List.Sort

/-! The numbers of the verbatim lines. They are looked up by halving, which misses numbers in a list
that is out of order. Cuts list them in order, and all ways to put fragments together keep them in
order and inside the text. -/

namespace EmberClasses

open Text

namespace Fragment

/-- The verbatim lines are listed in order, each of them once. They are lines of the text, and the
first line is none of them. -/
structure WellNumbered (f : Fragment) : Prop where
  ascending : f.verbatim.Pairwise (· < ·)
  positive : ∀ i ∈ f.verbatim, 1 ≤ i
  within : ∀ i ∈ f.verbatim, i ≤ lineFeeds f.text

instance (f : Fragment) : Decidable f.WellNumbered :=
  decidable_of_iff (f.verbatim.Pairwise (· < ·) ∧ (∀ i ∈ f.verbatim, 1 ≤ i) ∧
      ∀ i ∈ f.verbatim, i ≤ lineFeeds f.text)
    ⟨fun ⟨ha, hp, hw⟩ => ⟨ha, hp, hw⟩, fun h => ⟨h.ascending, h.positive, h.within⟩⟩

/-- For each line feed of the text, whether the line behind it is listed. -/
def lineMarks (f : Fragment) : List Bool :=
  (List.range (lineFeeds f.text)).map fun i => decide (i + 1 ∈ f.verbatim)

theorem getElem?_lineMarks {f : Fragment} {i : Nat} :
    f.lineMarks[i]? = some true ↔ i < lineFeeds f.text ∧ i + 1 ∈ f.verbatim := by
  simp [lineMarks, List.getElem?_eq_some_iff]

variable {f g : Fragment}

/-! ## Lists that come from marks -/

theorem Marked.wellNumbered {ms : List Bool} (h : f.Marked ms) : f.WellNumbered := by
  have hline : ∀ i ∈ f.verbatim, ∃ k < lineFeeds f.text, i = k + 1 := by
    intro i hi
    rw [h.lines, mem_markedFrom] at hi
    obtain ⟨k, hk, hm⟩ := hi
    have hlt := (List.getElem?_eq_some_iff.mp hm).1
    rw [h.feeds] at hlt
    exact ⟨k, hlt, by omega⟩
  constructor
  · rw [h.lines]
    exact markedFrom_ascending 0 ms
  · intro i hi
    obtain ⟨k, -, rfl⟩ := hline i hi
    omega
  · intro i hi
    obtain ⟨k, hk, rfl⟩ := hline i hi
    exact hk

theorem WellNumbered.marked (h : f.WellNumbered) : f.Marked f.lineMarks := by
  constructor
  · -- both lists ascend, so they are equal once they have the same members
    apply h.ascending.eq_of_mem_iff (markedFrom_ascending 0 f.lineMarks)
    intro i
    rw [mem_markedFrom]
    constructor
    · intro hi
      have hpos := h.positive i hi
      have hle := h.within i hi
      refine ⟨i - 1, by omega, getElem?_lineMarks.mpr ⟨by omega, ?_⟩⟩
      rwa [Nat.sub_add_cancel hpos]
    · rintro ⟨k, rfl, hk⟩
      rw [Nat.zero_add]
      exact (getElem?_lineMarks.mp hk).2
  · simp [lineMarks]

theorem wellNumbered_generated (text : List Char) : (⟨text, []⟩ : Fragment).WellNumbered :=
  (marked_generated text).wellNumbered

theorem WellNumbered.push (h : f.WellNumbered) (text : List Char) : (f.push text).WellNumbered :=
  (h.marked.push text).wellNumbered

theorem WellNumbered.append (hf : f.WellNumbered) (hg : g.WellNumbered) :
    (f.append g).WellNumbered :=
  (hf.marked.append hg.marked).wellNumbered

private theorem marked_of_mem_lineMarks {parts : List Fragment}
    (h : ∀ f ∈ parts, f.WellNumbered) :
    ∀ p ∈ parts.map fun f => (f, f.lineMarks), p.1.Marked p.2 := by
  intro p hp
  obtain ⟨f, hf, rfl⟩ := List.mem_map.mp hp
  exact (h f hf).marked

theorem wellNumbered_join {parts : List Fragment} (h : ∀ f ∈ parts, f.WellNumbered)
    (separator : List Char) : (join parts separator).WellNumbered := by
  have hjoin := (marked_join (marked_of_mem_lineMarks h) separator).wellNumbered
  simpa [Function.comp_def] using hjoin

theorem wellNumbered_decorator {d : AppliedDecorator} (h : ∀ f ∈ d.args, f.WellNumbered) :
    d.toFragment.WellNumbered := by
  have hall := (marked_decorator (marked_of_mem_lineMarks h) d.name).wellNumbered
  simpa [Function.comp_def] using hall

/-! ## Cuts -/

private theorem exists_marks_of_copied (quasis : List Span) (line offset : Nat) (cs : List Char) :
    ∃ ms : List Bool, ms.length = lineFeeds cs ∧
      copiedLines quasis line offset cs = markedFrom line ms := by
  induction cs generalizing line offset with
  | nil => exact ⟨[], rfl, rfl⟩
  | cons c cs ih =>
    by_cases hc : c = '\n'
    · obtain ⟨ms, hlength, hms⟩ := ih (line + 1) (offset + c.utf8Size)
      refine ⟨inTemplate quasis offset :: ms, ?_, ?_⟩
      · rw [List.length_cons, hlength, hc]
        simp [lineFeeds]
      · rw [copiedLines, if_pos hc, hms]
        cases inTemplate quasis offset <;> rfl
    · obtain ⟨ms, hlength, hms⟩ := ih line (offset + c.utf8Size)
      refine ⟨ms, ?_, ?_⟩
      · rw [hlength]
        simp [lineFeeds, hc]
      · rw [copiedLines, if_neg hc, hms]

private theorem exists_marks_of_pieces (quasis : List Span) (line : Nat) (ps : List Piece) :
    ∃ ms : List Bool, ms.length = lineFeeds (Piece.text ps) ∧
      verbatimLines quasis line ps = markedFrom line ms := by
  induction ps generalizing line with
  | nil => exact ⟨[], rfl, rfl⟩
  | cons p ps ih =>
    obtain ⟨ns, hn, hrest⟩ := ih (line + lineFeeds p.chars)
    have htext : Piece.text (p :: ps) = p.chars ++ Piece.text ps := rfl
    cases p with
    | copied offset cs =>
      obtain ⟨ms, hm, hfirst⟩ := exists_marks_of_copied quasis line offset cs
      refine ⟨ms ++ ns, ?_, ?_⟩
      · rw [List.length_append, htext, lineFeeds_append, hm, hn]
        rfl
      · rw [markedFrom_append, ← hfirst, hm]
        exact congrArg (copiedLines quasis line offset cs ++ ·) hrest
    | inserted cs =>
      refine ⟨unmarked cs ++ ns, ?_, ?_⟩
      · rw [List.length_append, htext, lineFeeds_append, length_unmarked, hn]
        rfl
      · rw [markedFrom_append, markedFrom_unmarked, length_unmarked]
        exact hrest

/-- A cut numbers its lines well, whatever the edits and wherever the templates are. -/
theorem wellNumbered_cut {source : List Char} {span : Span} {edits : List Edit}
    {quasis : List Span} {columns : Nat} (h : cut source span edits quasis columns = .ok f) :
    f.WellNumbered := by
  obtain ⟨ps, -, rfl⟩ := cut_eq_ok.mp h
  obtain ⟨ms, hlength, hlines⟩ := exists_marks_of_pieces quasis 0 ps
  have hfeeds := lineFeeds_dedentLines columns (listed (verbatimLines quasis 0 ps)) (Piece.text ps)
  exact Marked.wellNumbered ⟨hlines, hlength.trans hfeeds.symm⟩

/-! ## Everything that is built -/

/-- Code that is cut out of a source, that is generated, or that is put together from such code. -/
inductive Built : Fragment → Prop where
  | cut {source : List Char} {span : Span} {edits : List Edit} {quasis : List Span} {columns : Nat}
      {f : Fragment} : Fragment.cut source span edits quasis columns = .ok f → Built f
  | generated (text : List Char) : Built ⟨text, []⟩
  | push {f : Fragment} : Built f → (text : List Char) → Built (f.push text)
  | append {f g : Fragment} : Built f → Built g → Built (f.append g)
  | join {parts : List Fragment} : (∀ f ∈ parts, Built f) → (separator : List Char) →
      Built (Fragment.join parts separator)
  | decorator {d : AppliedDecorator} : (∀ f ∈ d.args, Built f) → Built d.toFragment

theorem Built.wellNumbered (h : Built f) : f.WellNumbered := by
  induction h with
  | cut h => exact wellNumbered_cut h
  | generated text => exact wellNumbered_generated text
  | push _ text ih => exact ih.push text
  | append _ _ ihf ihg => exact ihf.append ihg
  | join _ separator ih => exact wellNumbered_join ih separator
  | decorator _ ih => exact wellNumbered_decorator ih

/-- However a fragment was built, its verbatim lines are listed in strictly ascending order, each is
a line of the text after the first, and halving the list finds exactly the lines that are listed. -/
theorem verbatim_lines_in_order (h : Built f) :
    f.verbatim.Pairwise (· < ·) ∧
      (∀ i ∈ f.verbatim, 1 ≤ i ∧ i ≤ lineFeeds f.text) ∧
      ∀ i, f.isVerbatim i = true ↔ i ∈ f.verbatim := by
  have hf := h.wellNumbered
  refine ⟨hf.ascending, ?_, ?_⟩
  · intro i hi
    exact ⟨hf.positive i hi, hf.within i hi⟩
  · intro i
    exact hf.marked.isVerbatim_iff i

def notedList : Fragment := ⟨"[\n  // note\n  call(`x\ny`),\n]".toList, [3]⟩

private theorem cut_notedList : cut "[\n  call(`x\ny`),\n]".toList ⟨0, 18⟩
    [.insert 4 "// note\n  ".toList] [⟨10, 13⟩] 0 = .ok notedList := by
  decide +kernel

/-- The list as both arguments of a decorator. The second one starts in the last line of the
first. -/
theorem verbatim_lines_in_order_of_decorator :
    let f := AppliedDecorator.toFragment ⟨"on", [notedList, notedList]⟩
    Built f ∧ f.verbatim = [3, 7] ∧ lineFeeds f.text = 8 ∧ f.verbatim.Pairwise (· < ·) ∧
      (∀ i ∈ f.verbatim, 1 ≤ i ∧ i ≤ 8) ∧ ∀ i, f.isVerbatim i = true ↔ i = 3 ∨ i = 7 := by
  intro f
  have hbuilt : Built f := by
    apply Built.decorator
    intro g hg
    obtain rfl : g = notedList := by simpa using hg
    exact .cut cut_notedList
  have hlines : f.verbatim = [3, 7] := by decide +kernel
  have hfeeds : lineFeeds f.text = 8 := by decide +kernel
  obtain ⟨hascending, hrange, hfound⟩ := verbatim_lines_in_order hbuilt
  rw [hfeeds] at hrange
  refine ⟨hbuilt, hlines, hfeeds, hascending, hrange, ?_⟩
  intro i
  rw [hfound, hlines]
  simp

-- A line that is listed out of order is not found.
example : let f : Fragment := ⟨"a\nb\nc".toList, [2, 1]⟩
    ¬ f.WellNumbered ∧ 2 ∈ f.verbatim ∧ f.isVerbatim 2 = false := by decide

end Fragment

end EmberClasses
