import EmberClasses.Proofs.ClassCuts
import EmberClasses.Proofs.ClassLines
import EmberClasses.Proofs.Reindentation
import EmberClasses.Proofs.VerbatimLines

/-! Parts of the source on their way into a class. A part of what is cut out, in no template, is
found in every fragment that the cut comes to stand in, and so in the text of the class, with its
lines moved to the left by the cut and to the right by the printer. -/

namespace EmberClasses

open Text

theorem Text.suffix_joinLines (lines : List (List Char)) (line : List Char) :
    line <:+ joinLines (lines ++ [line]) := by
  cases lines with
  | nil => exact List.suffix_refl _
  | cons first rest =>
    rw [joinLines_append (by simp)]
    exact ⟨joinLines (first :: rest) ++ ['\n'], by simp⟩

theorem infix_append_append {α : Type} {a b : List α} (h : a <:+: b) (x y : List α) :
    a <:+: x ++ b ++ y :=
  h.trans ⟨x, y, rfl⟩

namespace Fragment

/-- The part stands in the fragment, and none of its line feeds is marked. -/
def Holds (f : Fragment) (part : List Char) : Prop :=
  ∃ a b ms ls, f.text = a ++ (part ++ b) ∧ f.Marked (ms ++ (unmarked part ++ ls)) ∧
    ms.length = lineFeeds a

variable {f g : Fragment} {part : List Char}

theorem Holds.push (h : f.Holds part) (text : List Char) : (f.push text).Holds part := by
  obtain ⟨a, b, ms, ls, htext, hmarked, hms⟩ := h
  refine ⟨a, b ++ text, ms, ls ++ unmarked text, by simp [Fragment.push, htext], ?_, hms⟩
  simpa using hmarked.push text

theorem Holds.append_left (h : f.Holds part) (hg : g.WellNumbered) :
    (f.append g).Holds part := by
  obtain ⟨a, b, ms, ls, htext, hmarked, hms⟩ := h
  refine ⟨a, b ++ g.text, ms, ls ++ g.lineMarks, by simp [Fragment.append, htext], ?_, hms⟩
  simpa using hmarked.append hg.marked

theorem Holds.append_right (hf : f.WellNumbered) (h : g.Holds part) :
    (f.append g).Holds part := by
  obtain ⟨a, b, ms, ls, htext, hmarked, hms⟩ := h
  refine ⟨f.text ++ a, b, f.lineMarks ++ ms, ls, by simp [Fragment.append, htext], ?_, ?_⟩
  · simpa using hf.marked.append hmarked
  · simp [hf.marked.feeds, hms]

theorem Holds.foldl {acc : Fragment} {rest : List Fragment} (separator : List Char)
    (hacc : acc.WellNumbered) (hrest : ∀ g ∈ rest, g.WellNumbered)
    (h : acc.Holds part ∨ ∃ f ∈ rest, f.Holds part) :
    (rest.foldl (fun acc part => (acc.push separator).append part) acc).Holds part := by
  induction rest generalizing acc with
  | nil =>
    rcases h with h | ⟨f, hf, -⟩
    · exact h
    · cases hf
  | cons g rest ih =>
    have hg := hrest g List.mem_cons_self
    have hpushed := hacc.push separator
    refine ih (hpushed.append hg) (fun k hk => hrest k (List.mem_cons_of_mem g hk)) ?_
    rcases h with h | ⟨f, hf, h⟩
    · exact .inl ((h.push separator).append_left hg)
    · rcases List.mem_cons.mp hf with rfl | hf
      · exact .inl (.append_right hpushed h)
      · exact .inr ⟨f, hf, h⟩

theorem Holds.join {parts : List Fragment} (separator : List Char)
    (hparts : ∀ g ∈ parts, g.WellNumbered) (hf : f ∈ parts) (h : f.Holds part) :
    (Fragment.join parts separator).Holds part := by
  cases parts with
  | nil => cases hf
  | cons first rest =>
    have hempty := wellNumbered_generated []
    refine Holds.foldl separator (hempty.append (hparts first List.mem_cons_self))
      (fun g hg => hparts g (List.mem_cons_of_mem first hg)) ?_
    rcases List.mem_cons.mp hf with rfl | hf
    · exact .inl (.append_right hempty h)
    · exact .inr ⟨f, hf, h⟩

theorem Holds.decorator {d : AppliedDecorator} (hargs : ∀ g ∈ d.args, g.WellNumbered)
    (hf : f ∈ d.args) (h : f.Holds part) : d.toFragment.Holds part := by
  have hne : d.args ≠ [] := List.ne_nil_of_mem hf
  have hhead := (wellNumbered_generated ('@' :: d.name.toList)).push ['(']
  have hall := (Holds.append_right hhead (h.join [',', ' '] hargs hf)).push [')']
  simpa [AppliedDecorator.toFragment, hne] using hall

theorem Holds.field (h : f.Holds part) (key : String) : (ofField key f).Holds part :=
  (Holds.append_right (wellNumbered_generated _) h).push [';']

theorem Holds.method {m : Method} (hparts : ∀ g ∈ m.body :: m.params, g.WellNumbered)
    (hf : f ∈ m.body :: m.params) (h : f.Holds part) (key : String) :
    (ofMethod key m).Holds part := by
  have hparams : ∀ g ∈ m.params, g.WellNumbered := fun g hg =>
    hparts g (List.mem_cons_of_mem _ hg)
  have hhead := wellNumbered_generated (m.head key)
  unfold ofMethod
  rcases List.mem_cons.mp hf with rfl | hf
  · exact .append_right ((hhead.append (wellNumbered_join hparams [',', ' '])).push _) h
  · have hjoin := Holds.append_right hhead (h.join [',', ' '] hparams hf)
    exact (hjoin.push ") ".toList).append_left (hparts m.body List.mem_cons_self)

/-- A part of the source that a cut copies, outside of templates, stands in the fragment. -/
theorem Holds.of_cut {source : List Char} {span s : Span} {edits : List Edit} {quasis : List Span}
    {columns : Nat} (h : Cuttable source span edits quasis)
    (hcut : cut source span edits quasis columns = .ok f) (hs : s.OnBoundaries source)
    (hle : s.start ≤ s.stop) (hinside : s.Inside span) (hedits : ∀ e ∈ edits, s.Apart e.span)
    (hquasis : ∀ q ∈ quasis, s.Apart q) {c : Char} {rest : List Char}
    (hslice : slice source s = c :: rest) (hc : c ≠ '\n') (hindent : isIndent c = false) :
    f.Holds (dedentTail columns (slice source s)) := by
  obtain ⟨g, out, hg, htraces, hmarked, htext⟩ := cut_traced h columns
  rw [hcut, Except.ok.injEq] at hg
  subst hg
  have hpre := byteLength_slice h.bounds.1 hs.1 hinside.1
  have hmid := byteLength_slice hs.1 hs.2 hle
  have hsplit : slice source span = slice source ⟨span.start, s.start⟩ ++
      (slice source s ++ slice source ⟨s.stop, span.stop⟩) := by
    rw [slice_append_slice hs.1 hs.2 hle hinside.2,
      slice_append_slice h.bounds.1 hs.1 hinside.1 (hle.trans hinside.2)]
  obtain ⟨x, y, rfl⟩ := htraces.copied_part hsplit fun e he => by
    rw [hpre, hmid]
    exact hedits e ((Edit.sorted_perm edits).mem_iff.mp he)
  have hfeeds : marks quasis (copiedFrom s.start (slice source s)) =
      unmarked (slice source s) := by
    apply marks_copiedFrom_of_apart
    rw [hmid]
    exact hquasis
  rw [hpre] at hmarked htext
  rw [marks_append, marks_append, hfeeds] at hmarked
  have hlength : (marks quasis x ++ (unmarked (slice source s) ++ marks quasis y)).length =
      lineFeeds (x.map Traced.char ++ (slice source s ++ y.map Traced.char)) := by
    simp [length_marks]
  rw [List.map_append, List.map_append, map_char_copiedFrom,
    dedentLines_eq_write columns hlength hmarked.isVerbatim] at htext
  rw [hslice] at htext
  obtain ⟨a, b, hwrite, hbefore⟩ := LineRule.write_part (dedenting_settles hindent) hc 0
    (marks quasis y) (y.map Traced.char) (length_marks quasis x) (length_unmarked (c :: rest))
  have hsame : unmarked (dedentTail columns (slice source s)) = unmarked (slice source s) := by
    rw [unmarked, unmarked, dedentTail, lineFeeds_dedentLines]
  refine ⟨a, b, marks quasis x, marks quasis y, ?_, by rw [hsame]; exact hmarked, ?_⟩
  · rw [htext, hwrite, hslice, dedentTail_cons columns hc]
  · rw [length_marks, hbefore dedenting_single]

/-- How a fragment is seen among printed lines, up to what stands before its first line. -/
theorem Marked.infix_render {ms : List Bool} (h : f.Marked ms) (base : List Char) (level : Nat)
    {lines : List PrintedLine} (hlines : f.linesAt level <:+: lines) :
    (padding (base ++ List.replicate (2 * level) ' ')).write false ms f.text <:+:
      joinLines (lines.mapIdx (Printer.renderLine base)) := by
  obtain ⟨pre, post, rfl⟩ := hlines
  cases hsplit : splitLines f.text with
  | nil => exact absurd hsplit (splitLines_ne_nil f.text)
  | cons first rest =>
    have hfeed : ∀ line ∈ first :: rest, '\n' ∉ line := hsplit ▸ not_mem_splitLines f.text
    have hall : f.linesAt level = ⟨first, level, false⟩ :: Printer.held level (ms.zip rest) := by
      rw [← h.held_rest hsplit level, linesAt, hsplit, List.mapIdx_cons]
      simp [Nat.add_comm]
    have hrest : ((ms.zip rest).flatMap fun line => '\n' ::
        (padding (base ++ List.replicate (2 * level) ' ')).write (!line.1) [] line.2) =
        ((Printer.held level (ms.zip rest)).map fun l =>
          Printer.placed base l.level l.verbatim l.text).flatMap ('\n' :: ·) := by
      rw [Printer.held, List.map_map, List.flatMap_map]
      refine List.flatMap_congr fun line hline => ?_
      have hline := hfeed line.2 (List.mem_cons_of_mem _ (List.of_mem_zip hline).2)
      rw [write_padding_line _ hline]
      cases hmark : line.1 with
      | true => simp [Printer.placed, hmark]
      | false => by_cases hempty : line.2 = [] <;> simp [Printer.placed, hmark, hempty]
    have hfirst : first <:+ joinLines
        ((pre ++ [(⟨first, level, false⟩ : PrintedLine)]).mapIdx (Printer.renderLine base)) := by
      rw [List.mapIdx_append, List.mapIdx_singleton]
      refine List.IsSuffix.trans ?_ (suffix_joinLines _ _)
      unfold Printer.renderLine
      split
      · exact List.suffix_refl _
      · exact List.suffix_append _ _
    obtain ⟨x, hx⟩ := hfirst
    have hshape : pre ++ (⟨first, level, false⟩ : PrintedLine) ::
        Printer.held level (ms.zip rest) ++ post =
        (pre ++ [⟨first, level, false⟩]) ++ (Printer.held level (ms.zip rest) ++ post) := by simp
    rw [hall, hshape, Printer.joinLines_render base (by simp), List.map_append, List.flatMap_append,
      ← hrest, ← hx, LineRule.write_eq_lines false hsplit (h.length_rest hsplit),
      write_padding_line false (hfeed first List.mem_cons_self)]
    refine ⟨x, (post.map fun l => Printer.placed base l.level l.verbatim l.text).flatMap
      ('\n' :: ·), ?_⟩
    simp [padding]

/-- A part that starts with a visible character is printed with its lines moved to the right. -/
theorem Holds.infix_render {c : Char} {rest : List Char} (h : f.Holds (c :: rest)) (hc : c ≠ '\n')
    (base : List Char) (level : Nat) {lines : List PrintedLine}
    (hlines : f.linesAt level <:+: lines) :
    (padding (base ++ List.replicate (2 * level) ' ')).write false (unmarked (c :: rest))
      (c :: rest) <:+: joinLines (lines.mapIdx (Printer.renderLine base)) := by
  obtain ⟨a, b, ms, ls, htext, hmarked, hms⟩ := h
  refine List.IsInfix.trans ?_ (hmarked.infix_render base level hlines)
  obtain ⟨x, y, hwrite, -⟩ := LineRule.write_part (padding_settles c) hc false ls b hms
    (length_unmarked (c :: rest))
  rw [htext, hwrite, LineRule.write, if_neg hc]
  exact ⟨x, y, by simp [padding]⟩

end Fragment

theorem infix_decoratorLines {d : AppliedDecorator} {ds : List AppliedDecorator} (hd : d ∈ ds)
    (level : Nat) : d.toFragment.linesAt level <:+: decoratorLines level ds := by
  rw [decoratorLines, List.flatMap_def]
  exact List.infix_of_mem_flatten (List.mem_map_of_mem hd)

theorem Member.infix_linesAt {m : Member} {g : Fragment} {part : List Char}
    (hmarked : ∀ f ∈ m.fragments, f.WellNumbered) (hg : g ∈ m.fragments) (h : g.Holds part)
    (level : Nat) : ∃ f : Fragment, f.Holds part ∧ f.linesAt level <:+: m.linesAt level := by
  unfold fragments at hmarked hg
  unfold linesAt
  rcases List.mem_append.mp hg with hg | hg
  · obtain ⟨d, hd, hg⟩ := List.mem_flatMap.mp hg
    have hargs : ∀ f ∈ d.args, f.WellNumbered := fun f hf =>
      hmarked f (List.mem_append_left _ (List.mem_flatMap_of_mem hd hf))
    refine ⟨d.toFragment, h.decorator hargs hg, ?_⟩
    exact infix_append_append (infix_decoratorLines hd level) _ _
  · have hlast : m.body.linesAt level m.key <:+: commentLines level m.comments ++
        decoratorLines level m.decorators ++ m.body.linesAt level m.key :=
      (List.suffix_append _ _).isInfix
    have hbody := fun f hf => hmarked f (List.mem_append_right _ hf)
    cases hm : m.body with
    | field value =>
      rw [hm] at hg hlast
      obtain rfl := Option.mem_toList.mp hg
      exact ⟨Fragment.ofField m.key g, h.field m.key, hlast⟩
    | method f =>
      rw [hm] at hg hlast hbody
      exact ⟨Fragment.ofMethod m.key f, h.method hbody hg m.key, hlast⟩

namespace ClassDecl

variable {c : ClassDecl}

theorem infix_lines_of_decorator {d : AppliedDecorator} (hd : d ∈ c.decorators) (lead : List Char) :
    d.toFragment.linesAt 0 <:+: c.lines lead :=
  infix_append_append (infix_decoratorLines hd 0) _ _

theorem infix_lines_of_member {m : Member} (hm : m ∈ c.members) (lead : List Char) :
    m.linesAt 1 <:+: c.lines lead := by
  have hblock : m.linesAt 1 ∈ c.blocks :=
    List.mem_append_left _ (List.mem_map_of_mem hm)
  have hbody : m.linesAt 1 <:+: c.bodyLines lead := by
    unfold bodyLines
    rw [if_neg (by simp [List.ne_nil_of_mem hblock])]
    have hblocks := infix_intercalate [(⟨[], 1, false⟩ : PrintedLine)] hblock
    exact (hblocks.trans (List.prefix_append _ _).isInfix).trans (List.suffix_cons _ _).isInfix
  exact hbody.trans (List.suffix_append _ _).isInfix

/-- The level at which a fragment is printed: decorators of the class stand left of its members. -/
def Prints (c : ClassDecl) (level : Nat) (g : Fragment) : Prop :=
  level = 0 ∧ g ∈ c.decorators.flatMap AppliedDecorator.args ∨
    level = 1 ∧ g ∈ c.members.flatMap Member.fragments

theorem Prints.infix_lines {level : Nat} {g : Fragment} {part : List Char}
    (hg : c.Prints level g) (hmarked : ∀ f ∈ c.fragments, f.WellNumbered) (h : g.Holds part)
    (lead : List Char) : ∃ f : Fragment, f.Holds part ∧ f.linesAt level <:+: c.lines lead := by
  rcases hg with ⟨rfl, hg⟩ | ⟨rfl, hg⟩
  · obtain ⟨d, hd, hg⟩ := List.mem_flatMap.mp hg
    have hargs : ∀ f ∈ d.args, f.WellNumbered := fun f hf =>
      hmarked f (List.mem_append_left _ (List.mem_flatMap_of_mem hd hf))
    exact ⟨d.toFragment, h.decorator hargs hg, infix_lines_of_decorator hd lead⟩
  · obtain ⟨m, hm, hg⟩ := List.mem_flatMap.mp hg
    have hall : ∀ f ∈ m.fragments, f.WellNumbered := fun f hf =>
      hmarked f (List.mem_append_right _ (List.mem_flatMap_of_mem hm hf))
    obtain ⟨f, hf, hlines⟩ := Member.infix_linesAt hall hg h 1
    exact ⟨f, hf, hlines.trans (infix_lines_of_member hm lead)⟩

end ClassDecl

end EmberClasses
