import EmberClasses.Class.Basic
import EmberClasses.Class.Printer
import EmberClasses.Proofs.TracedText

/-! Lines of template literals on their way through the printer. A fragment is known by the marks of
its line feeds; all ways to put fragments together keep the marks, and printing reads the lines that
start at a mark as they stand. -/

namespace EmberClasses

open Text

namespace Fragment

/-- What may be cut: a part of the source, with edits in it that do not overlap and with the texts
of templates in the order of the source. -/
structure Cuttable (source : List Char) (span : Span) (edits : List Edit) (quasis : List Span) :
    Prop where
  ordered : span.start ≤ span.stop
  bounds : span.OnBoundaries source
  inside : ∀ e ∈ edits, e.span.start ≤ e.span.stop ∧ e.span.Inside span
  boundaries : ∀ e ∈ edits, e.span.OnBoundaries source
  apart : edits.Pairwise fun a b => a.span.Apart b.span
  ascending : quasis.Pairwise Span.Before

structure Marked (f : Fragment) (ms : List Bool) : Prop where
  lines : f.verbatim = markedFrom 0 ms
  feeds : ms.length = lineFeeds f.text

theorem Marked.mem_verbatim {f : Fragment} {ms : List Bool} (h : f.Marked ms) (i : Nat) :
    i + 1 ∈ f.verbatim ↔ ms[i]? = some true := by
  rw [h.lines, mem_markedFrom]
  constructor
  · rintro ⟨k, hk, hm⟩
    have : i = k := by omega
    rwa [this]
  · intro hm
    exact ⟨i, by omega, hm⟩

theorem Marked.zero_not_mem {f : Fragment} {ms : List Bool} (h : f.Marked ms) :
    0 ∉ f.verbatim := by
  rw [h.lines, mem_markedFrom]
  rintro ⟨k, hk, -⟩
  omega

theorem Marked.isVerbatim {f : Fragment} {ms : List Bool} (h : f.Marked ms) (i : Nat) :
    f.isVerbatim (i + 1) = (ms[i]? == some true) := by
  rw [Fragment.isVerbatim, h.lines, listed_markedFrom]

theorem Marked.isVerbatim_iff {f : Fragment} {ms : List Bool} (h : f.Marked ms) (i : Nat) :
    f.isVerbatim i = true ↔ i ∈ f.verbatim := by
  apply listed_iff_mem
  rw [h.lines]
  exact markedFrom_ascending 0 ms

@[simp] theorem length_unmarked (text : List Char) : (unmarked text).length = lineFeeds text := by
  simp [unmarked]

theorem marked_generated (text : List Char) : (⟨text, []⟩ : Fragment).Marked (unmarked text) :=
  ⟨by simp, by simp⟩

theorem Marked.push {f : Fragment} {ms : List Bool} (h : f.Marked ms) (text : List Char) :
    (f.push text).Marked (ms ++ unmarked text) := by
  constructor
  · rw [markedFrom_append, markedFrom_unmarked, List.append_nil]
    exact h.lines
  · simp [Fragment.push, h.feeds]

theorem Marked.append {f g : Fragment} {ms ns : List Bool} (hf : f.Marked ms) (hg : g.Marked ns) :
    (f.append g).Marked (ms ++ ns) := by
  constructor
  · rw [markedFrom_append, hf.feeds, markedFrom_shift, ← hf.lines, ← hg.lines]
    rfl
  · simp [Fragment.append, hf.feeds, hg.feeds]

private theorem intercalate_cons {α : Type} (sep x : List α) (xs : List (List α)) :
    sep.intercalate (x :: xs) = x ++ xs.flatMap (sep ++ ·) := by
  induction xs generalizing x with
  | nil => simp [List.intercalate]
  | cons y ys ih => simpa [List.intercalate] using ih y

private theorem marked_foldl {acc : Fragment} {ms : List Bool} (h : acc.Marked ms)
    (separator : List Char) {parts : List (Fragment × List Bool)}
    (hparts : ∀ p ∈ parts, p.1.Marked p.2) :
    ((parts.map Prod.fst).foldl (fun acc part => (acc.push separator).append part) acc).Marked
      (ms ++ (parts.map Prod.snd).flatMap (unmarked separator ++ ·)) := by
  induction parts generalizing acc ms with
  | nil => simpa using h
  | cons p parts ih =>
    have hp := (h.push separator).append (hparts p List.mem_cons_self)
    have hrest := ih hp fun q hq => hparts q (List.mem_cons_of_mem p hq)
    simpa using hrest

theorem marked_join {parts : List (Fragment × List Bool)} (h : ∀ p ∈ parts, p.1.Marked p.2)
    (separator : List Char) : (Fragment.join (parts.map Prod.fst) separator).Marked
      ((unmarked separator).intercalate (parts.map Prod.snd)) := by
  cases parts with
  | nil => exact marked_generated []
  | cons p parts =>
    have hfirst := (marked_generated []).append (h p List.mem_cons_self)
    have hfold := marked_foldl hfirst separator fun q hq => h q (List.mem_cons_of_mem p hq)
    rw [List.map_cons, List.map_cons, intercalate_cons]
    exact hfold

theorem marked_decorator {args : List (Fragment × List Bool)} (h : ∀ a ∈ args, a.1.Marked a.2)
    (name : String) : (AppliedDecorator.toFragment ⟨name, args.map Prod.fst⟩).Marked
      (unmarked name.toList ++ (args.map Prod.snd).flatten) := by
  have hhead := marked_generated ('@' :: name.toList)
  have hname : unmarked ('@' :: name.toList) = unmarked name.toList := by simp [unmarked, lineFeeds]
  rw [hname] at hhead
  unfold AppliedDecorator.toFragment
  by_cases hargs : args = []
  · simpa [hargs] using hhead
  · have hjoin := marked_join h [',', ' ']
    have hflat : (unmarked [',', ' ']).intercalate (args.map Prod.snd) =
        (args.map Prod.snd).flatten := by
      cases args with
      | nil => rfl
      | cons a args => simp [intercalate_cons, unmarked, lineFeeds, List.flatMap_id']
    rw [hflat] at hjoin
    have hall := ((hhead.push ['(']).append hjoin).push [')']
    simpa [hargs, unmarked, lineFeeds] using hall

end Fragment

theorem Edit.Traces.unique {n : Nat} {text : List Char} {es : List Edit} {out out' : List Traced}
    (h : Traces n text es out) (h' : Traces n text es out') : out = out' := by
  induction h generalizing out' with
  | done n text => cases h'; rfl
  | @edit n gap old rest out e es hgap hold _ ih =>
    generalize htext : gap ++ (old ++ rest) = text at h'
    cases h' with
    | @edit _ gap' old' rest' out' _ _ hgap' hold' hrest' =>
      have hg : gap = gap' := by
        have h₁ := Text.prefix_of_byteLength_le htext (by omega)
        have h₂ := Text.prefix_of_byteLength_le htext.symm (by omega)
        exact h₁.eq_of_length_le h₂.length_le
      subst hg
      have htail := List.append_cancel_left htext
      have ho : old = old' := by
        have h₁ := Text.prefix_of_byteLength_le htail (by omega)
        have h₂ := Text.prefix_of_byteLength_le htail.symm (by omega)
        exact h₁.eq_of_length_le h₂.length_le
      subst ho
      have hr := List.append_cancel_left htail
      subst hr
      rw [ih hrest']

namespace Fragment

/-- What is cut out is the traced text, with the lines that start at no mark moved to the left. -/
theorem cut_traced {source : List Char} {span : Span} {edits : List Edit} {quasis : List Span}
    (h : Cuttable source span edits quasis) (columns : Nat) :
    ∃ f out, cut source span edits quasis columns = .ok f ∧
      Edit.Traces span.start (slice source span) (Edit.sorted edits) out ∧
      f.Marked (marks quasis out) ∧
      f.text = dedentLines columns f.isVerbatim (out.map Traced.char) := by
  obtain ⟨ps, hps⟩ := Edit.pieces_ok_of_apart source span h.apart h.inside
  have hsorted := Edit.sorted_perm edits
  have htraces := Edit.traces_of_weave h.bounds.1 h.ordered
    (fun e he => ⟨(h.inside e (hsorted.mem_iff.mp he)).1,
      h.boundaries e (hsorted.mem_iff.mp he)⟩) hps
  have htext := Piece.map_char_traced ps
  refine ⟨_, ps.flatMap Piece.traced, by rw [cut, hps], htraces, ⟨?_, ?_⟩, ?_⟩
  · exact verbatimLines_eq h.ascending 0 ps
  · rw [length_marks, lineFeeds_dedentLines, htext]
  · rw [htext]
    rfl

/-- Code put together from cuts and generated text. Each line feed is marked that was copied from
the text of a template. -/
inductive Made : Fragment → List Bool → Prop where
  | cut {source : List Char} {span : Span} {edits : List Edit} {quasis : List Span} {columns : Nat}
      {f : Fragment} {out : List Traced} : Cuttable source span edits quasis →
      Fragment.cut source span edits quasis columns = .ok f →
      Edit.Traces span.start (slice source span) (Edit.sorted edits) out →
      Made f (marks quasis out)
  | generated (text : List Char) : Made ⟨text, []⟩ (unmarked text)
  | push {f : Fragment} {ms : List Bool} : Made f ms → (text : List Char) →
      Made (f.push text) (ms ++ unmarked text)
  | append {f g : Fragment} {ms ns : List Bool} : Made f ms → Made g ns →
      Made (f.append g) (ms ++ ns)
  | join {parts : List (Fragment × List Bool)} : (∀ p ∈ parts, Made p.1 p.2) →
      (separator : List Char) → Made (Fragment.join (parts.map Prod.fst) separator)
        ((unmarked separator).intercalate (parts.map Prod.snd))
  | decorator {args : List (Fragment × List Bool)} : (∀ a ∈ args, Made a.1 a.2) →
      (name : String) → Made (AppliedDecorator.toFragment ⟨name, args.map Prod.fst⟩)
        (unmarked name.toList ++ (args.map Prod.snd).flatten)

theorem Made.marked {f : Fragment} {ms : List Bool} (h : Made f ms) : f.Marked ms := by
  induction h with
  | @cut source span edits quasis columns f out hcuttable hcut htraces =>
    obtain ⟨g, out', hg, htraces', hmarked, -⟩ := cut_traced hcuttable columns
    rw [hcut, Except.ok.injEq] at hg
    rw [hg, htraces.unique htraces']
    exact hmarked
  | generated text => exact marked_generated text
  | push _ text ih => exact ih.push text
  | append _ _ ihf ihg => exact ihf.append ihg
  | join _ separator ih => exact marked_join ih separator
  | decorator _ name ih => exact marked_decorator ih name

end Fragment

namespace Printer

/-- A line after the first as it should be printed: a verbatim line as it stands, any other behind
the indentation, unless it is empty. -/
def placed (base : List Char) (level : Nat) (verbatim : Bool) (line : List Char) : List Char :=
  if verbatim then line
  else if line = [] then []
  else base ++ List.replicate (2 * level) ' ' ++ line

theorem renderLine_eq_placed (base : List Char) {i : Nat} (hi : i ≠ 0) (l : PrintedLine) :
    renderLine base i l = placed base l.level l.verbatim l.text := by
  unfold renderLine placed
  by_cases hv : l.verbatim
  · simp [hv]
  · by_cases ht : l.text = []
    · simp [hv, ht]
    · simp [hv, ht, hi]

theorem joinLines_render (base : List Char) {a : List PrintedLine} (ha : a ≠ [])
    (b : List PrintedLine) :
    joinLines ((a ++ b).mapIdx (renderLine base)) = joinLines (a.mapIdx (renderLine base)) ++
      (b.map fun l => placed base l.level l.verbatim l.text).flatMap ('\n' :: ·) := by
  have hpos : 0 < a.length := List.length_pos_iff.mpr ha
  have hb : b.mapIdx (fun i l => renderLine base (i + a.length) l) =
      b.map fun l => placed base l.level l.verbatim l.text := by
    rw [List.mapIdx_eq_iff]
    intro i
    rw [List.getElem?_map]
    cases b[i]? with
    | none => rfl
    | some l => simp [renderLine_eq_placed base (i := i + a.length) (by omega)]
  rw [List.mapIdx_append, joinLines_append (by simpa using ha), hb]

def all (p : Printer) : List PrintedLine := p.done ++ [p.current]

private theorem printFrom_true (verbatim : Nat → Bool) {i : Nat} {lines : List (List Char)}
    (h : lines ≠ []) (p : Printer) :
    printFrom verbatim true i lines p = (printFrom verbatim false i lines p).newLine := by
  induction lines generalizing i p with
  | nil => exact absurd rfl h
  | cons line rest ih =>
    cases rest with
    | nil => rfl
    | cons next rest => exact ih (by simp) _

private theorem all_printFrom (verbatim : Nat → Bool) (i : Nat) (first : List Char)
    (rest : List (List Char)) (p : Printer) :
    (printFrom verbatim false i (first :: rest) p).all = p.done ++
      { p.current with
        text := p.current.text ++ first
        verbatim := p.current.verbatim || (0 < i && verbatim i) } ::
      rest.mapIdx fun k line => ⟨line, p.level, verbatim (i + 1 + k)⟩ := by
  induction rest generalizing i first p with
  | nil =>
    cases hv : (decide (0 < i) && verbatim i) <;> simp [printFrom, hv, mark, print, all]
  | cons next rest ih =>
    have hmark : (p.mark (0 < i && verbatim i)).print first true =
        { done := p.done ++ [{ p.current with
            text := p.current.text ++ first
            verbatim := p.current.verbatim || (0 < i && verbatim i) }]
          current := { level := p.level }
          level := p.level } := by
      cases hv : (decide (0 < i) && verbatim i) <;> simp [mark, print, newLine]
    have hshift : ∀ k, i + 1 + 1 + k = i + 1 + (k + 1) := by omega
    rw [printFrom.eq_3 _ _ _ _ _ _ (by simp), hmark, ih]
    simp [List.mapIdx_cons, hshift]

/-- The lines after the first that are seen in the end. Unless the printer is asked to end the last
one, it is left out if it is empty and starts at no mark. -/
def shown (ends : Bool) (lines : List (Bool × List Char)) : List (Bool × List Char) :=
  if ends = false ∧ lines.getLast? = some (false, []) then lines.dropLast else lines

def held (level : Nat) (lines : List (Bool × List Char)) : List PrintedLine :=
  lines.map fun line => ⟨line.2, level, line.1⟩

private theorem lines_newLine (p : Printer) : p.newLine.lines = p.all := by
  simp [newLine, lines, all]

private theorem lines_of_all {p : Printer} {front : List PrintedLine} {level : Nat}
    {tail : List (Bool × List Char)} (htail : tail ≠ []) (h : p.all = front ++ held level tail) :
    p.lines = front ++ held level (shown false tail) := by
  obtain ⟨before, ⟨mark, text⟩, rfl⟩ := (List.eq_nil_or_concat tail).resolve_left htail
  simp only [all, held, List.concat_eq_append, List.map_append, ← List.append_assoc,
    List.map_cons, List.map_nil] at h
  obtain ⟨hdone, hcurrent⟩ := List.append_inj' h rfl
  have hlast : p.current = ⟨text, level, mark⟩ := by simpa using hcurrent
  by_cases hempty : mark = false ∧ text = []
  · simp [lines, hlast, hdone, hempty, shown, held]
  · have hshow : ¬ (text.isEmpty && !mark) = true := by
      simp only [Bool.and_eq_true, List.isEmpty_iff, Bool.not_eq_true']
      tauto
    simp [lines, hlast, hdone, hempty, hshow, shown, held]

end Printer

namespace Fragment

theorem Marked.length_rest {f : Fragment} {ms : List Bool} (h : f.Marked ms) {first : List Char}
    {rest : List (List Char)} (hf : splitLines f.text = first :: rest) :
    ms.length = rest.length := by
  have hlen := length_splitLines f.text
  rw [hf, List.length_cons] at hlen
  rw [h.feeds]
  omega

/-- The lines of a marked fragment after the first, as the printer holds them. -/
theorem Marked.held_rest {f : Fragment} {ms : List Bool} (h : f.Marked ms)
    {first : List Char} {rest : List (List Char)} (hf : splitLines f.text = first :: rest)
    (level : Nat) :
    (rest.mapIdx fun k line => (⟨line, level, f.isVerbatim (0 + 1 + k)⟩ : PrintedLine)) =
      Printer.held level (ms.zip rest) := by
  have hlen := h.length_rest hf
  apply List.ext_getElem
  · simp [Printer.held, hlen]
  · intro i hi _
    have hms : i < ms.length := by simpa [hlen] using hi
    have hmark : f.isVerbatim (0 + 1 + i) = ms[i] := by
      rw [Nat.zero_add, Nat.add_comm, h.isVerbatim, List.getElem?_eq_getElem hms]
      cases ms[i] <;> rfl
    simp [Printer.held, hmark]

/-- How a fragment is printed, whatever was printed before: the first line goes on the current one,
and every other line is seen in its place. -/
theorem Marked.render_printFragment {f : Fragment} {ms : List Bool} (h : f.Marked ms)
    {first : List Char} {rest : List (List Char)} (hf : splitLines f.text = first :: rest)
    (p : Printer) (base : List Char) (ends : Bool) :
    (p.printFragment f ends).render base =
      (p.print first (ends || !rest.isEmpty)).render base ++
        (Printer.shown ends (ms.zip rest)).flatMap fun line =>
          '\n' :: Printer.placed base p.level line.1 line.2 := by
  have hall := Printer.all_printFrom f.isVerbatim 0 first rest p
  rw [h.held_rest hf, List.append_cons] at hall
  have hfirst : (p.print first true).lines = p.done ++
      [{ p.current with
        text := p.current.text ++ first
        verbatim := p.current.verbatim || (decide (0 < 0) && f.isVerbatim 0) }] := by
    simp [Printer.print, Printer.newLine, Printer.lines]
  rw [← hfirst] at hall
  -- once the lines are known, what they look like does not depend on how they came about
  have hrender : ∀ tail, (p.printFragment f ends).lines = (p.print first true).lines ++
      Printer.held p.level tail →
      (p.printFragment f ends).render base = (p.print first true).render base ++
        tail.flatMap fun line => '\n' :: Printer.placed base p.level line.1 line.2 := by
    intro tail htail
    rw [Printer.render, htail, Printer.joinLines_render base (by simp [hfirst]), Printer.held,
      List.map_map, List.flatMap_map]
    rfl
  rw [Printer.printFragment, hf] at hrender ⊢
  cases ends with
  | true =>
    have hshown : Printer.shown true (ms.zip rest) = ms.zip rest := by simp [Printer.shown]
    rw [hshown, Bool.true_or]
    apply hrender
    rw [Printer.printFrom_true _ (by simp), Printer.lines_newLine, hall]
  | false =>
    cases rest with
    | nil => simp [Printer.shown, Printer.printFrom, Printer.mark]
    | cons next rest =>
      apply hrender
      apply Printer.lines_of_all _ hall
      cases ms with
      | nil => exact absurd (h.length_rest hf) (by simp)
      | cons m ms => simp

theorem mem_marks {quasis : List Span} {out : List Traced} {i : Nat} :
    (marks quasis out)[i]? = some true ↔
      ∃ offset, (feeds out)[i]? = some (some offset) ∧ InQuasi quasis offset := by
  rw [marks, List.getElem?_map, Option.map_eq_some_iff]
  constructor
  · rintro ⟨origin, horigin, hin⟩
    obtain ⟨offset, rfl, hq⟩ := (Option.any_eq_true _ _).mp hin
    exact ⟨offset, horigin, of_decide_eq_true hq⟩
  · rintro ⟨offset, hoffset, hq⟩
    exact ⟨some offset, hoffset, by simpa using hq⟩

/-- Templates survive. In what is cut out, a line is verbatim exactly if the line feed before it was
copied from the text of a template, and only other lines are moved to the left. However such cuts
and generated text are put together, the verbatim lines stay those behind the marked line feeds, and
they are printed as they stand, while other lines are printed behind the indentation. -/
theorem template_lines_survive :
    (∀ source span edits quasis, Cuttable source span edits quasis → ∀ columns, ∃ f out,
      cut source span edits quasis columns = .ok f ∧
      Edit.Traces span.start (slice source span) (Edit.sorted edits) out ∧
      Made f (marks quasis out) ∧ 0 ∉ f.verbatim ∧
      (∀ i, i + 1 ∈ f.verbatim ↔
        ∃ offset, (feeds out)[i]? = some (some offset) ∧ InQuasi quasis offset) ∧
      splitLines f.text = (splitLines (out.map Traced.char)).mapIdx fun i line =>
        if i = 0 ∨ i ∈ f.verbatim then line
        else line.drop (min columns (line.takeWhile isIndent).length)) ∧
    (∀ f ms, Made f ms → 0 ∉ f.verbatim ∧ (∀ i, i + 1 ∈ f.verbatim ↔ ms[i]? = some true) ∧
      ∃ first rest, splitLines f.text = first :: rest ∧ ms.length = rest.length ∧
        ∀ (p : Printer) (base : List Char) (ends : Bool),
          (p.printFragment f ends).render base =
            (p.print first (ends || !rest.isEmpty)).render base ++
              (Printer.shown ends (ms.zip rest)).flatMap fun line =>
                '\n' :: Printer.placed base p.level line.1 line.2) := by
  constructor
  · intro source span edits quasis hcuttable columns
    obtain ⟨f, out, hcut, htraces, hmarked, htext⟩ := cut_traced hcuttable columns
    refine ⟨f, out, hcut, htraces, .cut hcuttable hcut htraces, hmarked.zero_not_mem, ?_, ?_⟩
    · intro i
      rw [hmarked.mem_verbatim, mem_marks]
    · rw [htext, splitLines_dedentLines]
      congr
      funext i line
      have hkeep : (decide (i = 0) || f.isVerbatim i) = true ↔ i = 0 ∨ i ∈ f.verbatim := by
        rw [Bool.or_eq_true, decide_eq_true_eq, hmarked.isVerbatim_iff]
      simp only [hkeep]
  · intro f ms hmade
    have hmarked := hmade.marked
    refine ⟨hmarked.zero_not_mem, hmarked.mem_verbatim, ?_⟩
    cases hf : splitLines f.text with
    | nil => exact absurd hf (splitLines_ne_nil f.text)
    | cons first rest =>
      exact ⟨first, rest, rfl, hmarked.length_rest hf, hmarked.render_printFragment hf⟩

/-- A call whose argument has two lines in a template, and a third line outside. -/
def templateCall : List Char := "f(`a\n  b`,\n  c)".toList

private theorem templateCall_cuttable : Cuttable templateCall ⟨0, 15⟩ [] [⟨3, 8⟩] where
  ordered := by decide
  bounds := by decide
  inside := by simp
  boundaries := by simp
  apart := .nil
  ascending := List.pairwise_singleton _ _

/-- The second line of the call is kept with its blanks, and the third one is not. -/
theorem template_lines_survive_in_call :
    Cuttable templateCall ⟨0, 15⟩ [] [⟨3, 8⟩] ∧
    ∃ f, cut templateCall ⟨0, 15⟩ [] [⟨3, 8⟩] 2 = .ok f ∧ Made f [true, false] ∧
      splitLines f.text = ["f(`a".toList, "  b`,".toList, "c)".toList] ∧
      (({ level := 1 } : Printer).printFragment f true).render [' '] =
        "f(`a\n  b`,\n   c)".toList := by
  obtain ⟨hcuts, hmade⟩ := template_lines_survive
  obtain ⟨f, out, hcut, htraces, hf, -, -, hsplit⟩ := hcuts _ _ _ _ templateCall_cuttable 2
  have hverbatim : f.verbatim = [1] := by
    have hvalue : (cut templateCall ⟨0, 15⟩ [] [⟨3, 8⟩] 2).toOption.map Fragment.verbatim =
        some [1] := by decide +kernel
    rw [hcut] at hvalue
    exact Option.some.inj hvalue
  have hout : out = copiedFrom 0 templateCall := htraces.unique (by
    rw [Edit.sorted, List.mergeSort_nil]
    exact .done 0 templateCall)
  have hmarks : marks [⟨3, 8⟩] out = [true, false] := by
    rw [hout]
    decide
  rw [hmarks] at hf
  have hlines : splitLines f.text = ["f(`a".toList, "  b`,".toList, "c)".toList] := by
    rw [hsplit, hverbatim, hout]
    decide
  obtain ⟨-, -, first, rest, hcons, -, hprint⟩ := hmade f _ hf
  rw [hlines] at hcons
  obtain ⟨rfl, rfl⟩ := List.cons.inj hcons
  refine ⟨templateCall_cuttable, f, hcut, hf, hlines, ?_⟩
  rw [hprint]
  decide

/-- An empty line at the end is not seen when the printer is not asked to end it. -/
theorem empty_last_line_is_left_out :
    ∃ f ms, Made f ms ∧ splitLines f.text = [['a'], []] ∧
      (({} : Printer).printFragment f false).render [] ≠
        joinLines [['a'], Printer.placed [] 0 false []] := by
  have hcuttable : Cuttable ['a', '\n'] ⟨0, 2⟩ [] [] :=
    ⟨by decide, by decide, by simp, by simp, .nil, .nil⟩
  have hcut : cut ['a', '\n'] ⟨0, 2⟩ [] [] 0 = .ok ⟨['a', '\n'], []⟩ := by decide +kernel
  have htraces : Edit.Traces 0 (slice ['a', '\n'] ⟨0, 2⟩) (Edit.sorted [])
      (copiedFrom 0 ['a', '\n']) := by
    rw [Edit.sorted, List.mergeSort_nil]
    exact .done 0 ['a', '\n']
  exact ⟨_, _, .cut hcuttable hcut htraces, by decide, by decide⟩

end Fragment

end EmberClasses
