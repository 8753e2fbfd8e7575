import EmberClasses.Proofs.Arguments
import EmberClasses.Proofs.CopiedParts
import EmberClasses.Proofs.CutSpans
import EmberClasses.Proofs.FileConversion
import EmberClasses.Proofs.StringTokens

/-! What becomes of string literals in code that is copied into a class. The lines of a literal that
goes on in the next line are moved like all others, so that the literal is kept only if every such
line gets back the blanks it has lost. -/

namespace EmberClasses

open Script (Node)
open Text

theorem Fragment.mem_stripIndent {c : Char} (hc : isIndent c = false) (n : Nat) {line : List Char}
    (h : c ∈ line) : c ∈ stripIndent n line := by
  induction line generalizing n with
  | nil => cases h
  | cons d line ih =>
    cases n with
    | zero => exact h
    | succ n =>
      rw [stripIndent]
      split
      · rename_i hd
        rcases List.mem_cons.mp h with rfl | h
        · rw [hc] at hd
          cases hd
        · exact ih n h
      · exact h

namespace Text

/-- The text with each line after the first moved: it loses up to `columns` blanks and tabs and then
gets `pad` in front. -/
def moved (columns : Nat) (pad text : List Char) : List Char :=
  match splitLines text with
  | [] => []
  | first :: rest =>
    joinLines (first :: rest.map fun line => pad ++ Fragment.stripIndent columns line)

/-- Moving a text changes nothing exactly if each line gets what it loses. -/
theorem moved_eq_self_iff {columns : Nat} {pad : List Char} (hpad : '\n' ∉ pad)
    (text : List Char) : moved columns pad text = text ↔ ∀ line ∈ (splitLines text).tail,
      line.take (min columns (line.takeWhile isIndent).length) = pad := by
  unfold moved
  cases hsplit : splitLines text with
  | nil => exact absurd hsplit (splitLines_ne_nil text)
  | cons first rest =>
    have hfeed : ∀ line ∈ first :: rest, '\n' ∉ line := hsplit ▸ not_mem_splitLines text
    have hline (line : List Char) : pad ++ Fragment.stripIndent columns line = line ↔
        line.take (min columns (line.takeWhile isIndent).length) = pad := by
      rw [Fragment.stripIndent_eq]
      generalize min columns (line.takeWhile isIndent).length = n
      constructor
      · intro h
        have hparts := h.trans (List.take_append_drop n line).symm
        exact (List.append_cancel_right hparts).symm
      · intro h
        rw [← h, List.take_append_drop]
    have hself : rest.map (fun line => pad ++ Fragment.stripIndent columns line) = rest ↔
        ∀ line ∈ rest, pad ++ Fragment.stripIndent columns line = line := by
      conv_lhs => rhs; rw [← List.map_id rest]
      exact List.map_inj_left
    have hmoved : ∀ line ∈ first :: rest.map fun line => pad ++ Fragment.stripIndent columns line,
        '\n' ∉ line := by
      intro line hmem
      rcases List.mem_cons.mp hmem with rfl | hmem
      · exact hfeed line List.mem_cons_self
      · obtain ⟨old, hold, rfl⟩ := List.mem_map.mp hmem
        rw [List.mem_append, not_or, Fragment.stripIndent_eq]
        exact ⟨hpad, fun h => hfeed old (List.mem_cons_of_mem _ hold) (List.mem_of_mem_drop h)⟩
    constructor
    · intro h line hmem
      have hlines := congrArg splitLines h
      rw [hsplit, splitLines_joinLines (by simp) hmoved, List.cons.injEq] at hlines
      exact (hline line).mp (hself.mp hlines.2 line hmem)
    · intro h
      dsimp only
      rw [hself.mpr fun line hmem => (hline line).mpr (h line hmem), ← hsplit,
        joinLines_splitLines]

/-- The two ways to move lines, one after the other. Lines that are empty in the end would not be
moved to the right. -/
theorem write_padding_dedentTail {columns : Nat} {pad text : List Char}
    (h : ∀ line ∈ (splitLines text).tail, ∃ c ∈ line, Visible c) :
    (padding pad).write false (Fragment.unmarked (Fragment.dedentTail columns text))
      (Fragment.dedentTail columns text) = moved columns pad text := by
  unfold moved
  cases hsplit : splitLines text with
  | nil => exact absurd hsplit (splitLines_ne_nil text)
  | cons first rest =>
    rw [hsplit, List.tail_cons] at h
    have hlines : splitLines (Fragment.dedentTail columns text) =
        first :: rest.map (Fragment.stripIndent columns) := by
      rw [Fragment.dedentTail, Fragment.splitLines_dedentLines, hsplit, List.mapIdx_cons]
      congr 1
      exact List.ext_getElem (by simp) fun i _ _ => by simp [Fragment.stripIndent_eq]
    have hfeed : ∀ line ∈ first :: rest, '\n' ∉ line := hsplit ▸ not_mem_splitLines text
    have hfirst : (padding pad).write false [] first = first := by
      rw [write_padding_line _ (hfeed first List.mem_cons_self), if_neg (by simp)]
    have hrest : ∀ line ∈ rest, (padding pad).write true [] (Fragment.stripIndent columns line) =
        pad ++ Fragment.stripIndent columns line := by
      intro line hmem
      obtain ⟨c, hc, hvisible⟩ := h line hmem
      have hkept := Fragment.mem_stripIndent hvisible.1 columns hc
      have hnone : '\n' ∉ Fragment.stripIndent columns line := by
        rw [Fragment.stripIndent_eq]
        exact fun hn => hfeed line (List.mem_cons_of_mem _ hmem) (List.mem_of_mem_drop hn)
      rw [write_padding_line _ hnone, if_pos ⟨rfl, List.ne_nil_of_mem hkept⟩]
    dsimp only
    rw [LineRule.write_unmarked false hlines, hfirst, joinLines_cons, List.flatMap_map,
      List.flatMap_map]
    congr 1
    refine List.flatMap_congr fun line hmem => ?_
    exact congrArg ('\n' :: ·) (hrest line hmem)

end Text

namespace Script

structure StringAt (source : List Char) (s : Span) : Prop where
  boundary : IsBoundary source s.start
  scanned : ∃ value n rest,
    Lexer.scanToken (dropBytes s.start source) = some (.string value, n, rest) ∧
      s.stop = s.start + n

theorem StringAt.slice {source : List Char} {s : Span} (h : StringAt source s) :
    s.OnBoundaries source ∧ s.start ≤ s.stop ∧
      (∃ quote tail, slice source s = quote :: tail ∧ Visible quote) ∧
      ∀ line ∈ (splitLines (Text.slice source s)).tail, ∃ c ∈ line, Visible c := by
  obtain ⟨value, n, rest, hscan, hstop⟩ := h.scanned
  obtain ⟨quote, tail, hvisible, htext, hlength, hlines⟩ := Lexer.scanToken_string hscan
  have hslice : Text.slice source s = quote :: tail := by
    have hparts := takeBytes_append_dropBytes n (dropBytes s.start source)
    rw [Text.slice, hstop, Nat.add_sub_cancel_left]
    rw [htext, ← hlength, dropBytes_byteLength_append] at hparts
    rw [htext, ← hlength]
    exact List.append_cancel_right hparts
  have hend : IsBoundary source s.stop := by
    rw [hstop, h.boundary.add_iff, htext, ← hlength]
    exact isBoundary_byteLength_append _ _
  refine ⟨⟨h.boundary, hend⟩, by omega, ⟨quote, tail, hslice, hvisible⟩, ?_⟩
  rw [hslice]
  exact hlines

end Script

/-- What a property becomes is printed at this level: a decorator of the class, or members. -/
def Property.level (p : Property) : Nat := if p.classDecorator?.isSome then 0 else 1

namespace Blueprint

/-- The cuts of what a property becomes, each with the number of columns that its lines move to the
left. -/
def cutsAt (c : Copy) (p : Property) : List (Cut × Nat) :=
  if p.classDecorator?.isSome then (decoratorCuts p).map (·, c.columnsOf p.span)
  else Member.cutsAt c p

theorem mem_cutsOf {c : Copy} {p : Property} {k : Cut × Nat} (h : k ∈ cutsAt c p) :
    k.1 ∈ cutsOf c.source p := by
  unfold cutsAt at h
  unfold cutsOf
  split at h
  · rename_i hclass
    rw [if_pos hclass]
    obtain ⟨cut, hcut, rfl⟩ := List.mem_map.mp h
    exact hcut
  · rename_i hclass
    rw [if_neg hclass, ← Member.map_fst_cutsAt]
    exact List.mem_map_of_mem h

variable {b : Blueprint} {o : Options} {c : Copy} {d : ClassDecl}

/-- Every cut of a property is made, and printed at the level of the property. -/
theorem prints_of_mem_cutsAt (hbuild : b.build o c = .ok d) {p : Property} (hp : p ∈ b.properties)
    (hcomplete : p.Complete) {k : Cut × Nat} (hk : k ∈ cutsAt c p) :
    ∃ f, k.1.MakesAt c k.2 f ∧ d.Prints p.level f := by
  unfold cutsAt at hk
  unfold Property.level
  rcases build_holds hbuild p hp with ⟨name, decorator, hname, hdecorator, hmem⟩ |
    ⟨ms, hname, hms, hin⟩
  · rw [hname] at hk ⊢
    obtain ⟨cut, hcut, rfl⟩ := List.mem_map.mp hk
    obtain ⟨f, hf, hmakes⟩ := (classDecorator_composed hdecorator).all cut hcut
    exact ⟨f, hmakes, .inl ⟨rfl, List.mem_flatMap_of_mem hmem hf⟩⟩
  · rw [hname] at hk ⊢
    obtain ⟨f, hf, hmakes⟩ := (Member.ofProperty_composedAt hcomplete hms).all k hk
    obtain ⟨m, hm, hf⟩ := List.mem_flatMap.mp hf
    exact ⟨f, hmakes, .inr ⟨rfl, List.mem_flatMap_of_mem (hin.subset hm) hf⟩⟩

theorem verbatim_of_mem_codeOf {quote : Quote} {p : Property} {f : Fragment}
    (h : f ∈ codeOf quote p) : f.verbatim = [] := by
  unfold codeOf Member.code at h
  split at h
  · cases h
  · split at h
    · obtain ⟨a, -, hf⟩ := List.mem_flatMap.mp h
      unfold Member.actionCode at hf
      split at hf
      · rw [List.mem_singleton.mp hf]
        rfl
      · cases hf
    · obtain ⟨applied, happlied, hf⟩ := List.mem_flatMap.mp h
      obtain ⟨decorator, -, hsome⟩ := List.mem_filterMap.mp happlied
      split at hsome
      · cases hsome
        obtain ⟨text, -, rfl⟩ := List.mem_map.mp hf
        rfl
      · cases hsome

theorem fragments_wellNumbered (hbuild : b.build o c = .ok d)
    (hcomplete : ∀ p ∈ b.properties, p.Complete) : ∀ f ∈ d.fragments, f.WellNumbered := by
  intro f hf
  rcases (build_composed hcomplete hbuild).only f hf with hgenerated | ⟨k, -, columns, hmakes⟩
  · obtain ⟨p, -, hcode⟩ := List.mem_flatMap.mp hgenerated
    obtain ⟨text, verbatim⟩ := f
    obtain rfl : verbatim = [] := verbatim_of_mem_codeOf hcode
    exact Fragment.wellNumbered_generated text
  · exact Fragment.wellNumbered_cut (Copy.edited_eq_ok hmakes)

end Blueprint

namespace Conversion

/-- What stands in the class stands in the text for the definition. -/
theorem Job.infix_textFor {j : Job} {d : Definition} {c : ClassDecl} {part : List Char}
    (h : ∀ lead, part <:+: c.render lead (lineIndent j.source d.target.span.start)) :
    part <:+: j.textFor d c := by
  unfold textFor
  dsimp only
  split
  · exact h _
  · split
    · exact (h []).trans ⟨['('], [')'], by simp⟩
    · exact h []

section Cuts

variable {j : Job} {script : Node} (hs : script.Faithful j.source) (hq : script.PlainQuasis)
  (hquasis : j.quasis = script.quasis) {d : Definition}
  (hobject : ∀ object, d.properties = some object → object ∈ script.preorder)

/-- A property of a definition is one of its object. -/
theorem Job.mem_ofObject {p : Property} (hp : p ∈ (j.propertiesOf d).properties) :
    ∃ object, d.properties = some object ∧
      p ∈ (PropertyList.ofObject ⟨j.source, j.usage, j.wrappers⟩ object).properties := by
  unfold propertiesOf at hp
  cases hd : d.properties with
  | none => rw [hd] at hp; cases hp
  | some object => rw [hd] at hp; exact ⟨object, rfl, hp⟩

theorem Job.complete_of_mem {p : Property} (hp : p ∈ (j.propertiesOf d).properties) :
    p.Complete := by
  obtain ⟨object, -, hp⟩ := mem_ofObject hp
  exact PropertyList.ofObject_complete _ object p hp

/-- All code in the class of a definition numbers its lines well. -/
theorem Job.fragments_wellNumbered {c : ClassDecl}
    (hbuild : (j.blueprintOf d).build j.options j.copy = .ok c) :
    ∀ f ∈ c.fragments, f.WellNumbered :=
  Blueprint.fragments_wellNumbered hbuild fun _ hp => complete_of_mem hp

include hs hq hquasis hobject

theorem Job.cuttable_of_mem {p : Property} (hp : p ∈ (j.propertiesOf d).properties) {k : Cut}
    (hk : k ∈ Blueprint.cutsOf j.copy.source p) :
    Fragment.Cuttable j.copy.source k.span k.edits j.copy.quasis := by
  obtain ⟨object, hproperties, hp⟩ := mem_ofObject hp
  rw [copy, hquasis]
  exact Blueprint.cuttable_of_mem_cutsOf hs hq (hobject object hproperties) hp hk

/-- A string literal that is copied is found in the text for its definition, its lines moved. -/
theorem Job.moved_infix_textFor {c : ClassDecl}
    (hbuild : (j.blueprintOf d).build j.options j.copy = .ok c) {p : Property}
    (hp : p ∈ (j.propertiesOf d).properties) {k : Cut × Nat} (hk : k ∈ Blueprint.cutsAt j.copy p)
    {s : Span} (hstring : Script.StringAt j.source s) (hcopies : k.1.Copies s)
    (houtside : ∀ q ∈ j.quasis, s.Apart q) :
    moved k.2 (lineIndent j.source d.target.span.start ++ List.replicate (2 * p.level) ' ')
      (slice j.source s) <:+: j.textFor d c := by
  obtain ⟨hbounds, hle, ⟨quote, tail, hslice, hvisible⟩, hlines⟩ := hstring.slice
  obtain ⟨f, hmakes, hprints⟩ :=
    Blueprint.prints_of_mem_cutsAt hbuild hp (complete_of_mem hp) hk
  have hcuttable := cuttable_of_mem hs hq hquasis hobject hp (Blueprint.mem_cutsOf hk)
  have hholds : f.Holds (Fragment.dedentTail k.2 (slice j.source s)) :=
    .of_cut hcuttable (Copy.edited_eq_ok hmakes) hbounds hle hcopies.1 hcopies.2 houtside hslice
      hvisible.2 hvisible.1
  refine infix_textFor fun lead => ?_
  obtain ⟨g, hg, hin⟩ := hprints.infix_lines (fragments_wellNumbered hbuild) hholds lead
  rw [c.render_eq, ← write_padding_dedentTail hlines]
  rw [hslice, Fragment.dedentTail_cons k.2 hvisible.2] at hg ⊢
  exact hg.infix_render hvisible.2 _ _ hin

end Cuts

theorem edits_subset_of_answers {j : Job} {answers : List (Definition × Bool)} {p q : Progress}
    (h : Definition.Answers j.convert answers p q) : p.edits ⊆ q.edits := by
  induction answers generalizing p with
  | nil => cases h; exact List.Subset.refl _
  | cons a answers ih =>
    obtain ⟨d, replaced⟩ := a
    obtain ⟨u, hu, hrest⟩ := h
    have hstep := Job.convert_eq_ok hu
    cases replaced with
    | true =>
      obtain ⟨⟨text, hedits⟩, -⟩ := hstep
      refine List.Subset.trans ?_ (ih hrest)
      rw [hedits]
      exact List.subset_append_left _ _
    | false =>
      rw [← hstep.1]
      exact ih hrest

/-- Each definition that was replaced has left the text of its class. -/
theorem edit_of_answers {j : Job} {answers : List (Definition × Bool)} {p q : Progress}
    (h : Definition.Answers j.convert answers p q) {d : Definition}
    (hd : d ∈ Definition.replaced answers) :
    ∃ c, (j.blueprintOf d).build j.options j.copy = .ok c ∧
      ⟨d.target.span, j.textFor d c⟩ ∈ q.edits := by
  rw [Definition.mem_replaced] at hd
  induction answers generalizing p with
  | nil => cases hd
  | cons a answers ih =>
    obtain ⟨u, hu, hrest⟩ := h
    rcases List.mem_cons.mp hd with rfl | hd
    · obtain ⟨c, hbuild, hedits⟩ := Job.convert_replaced hu
      refine ⟨c, hbuild, edits_subset_of_answers hrest ?_⟩
      rw [hedits]
      exact List.mem_append_right _ (List.mem_singleton_self _)
    · exact ih hrest hd

/-- In a file that was converted, every string literal that is copied into a class is found in the
text of the class with its lines moved: each line after the first loses blanks as the property does
and gets the indentation of the class. The literal is kept exactly if each of these lines gets what
it has lost; one that ends in the line it starts in always is. -/
theorem string_literals_kept_iff (o : Options) (telemetry : Telemetry) (path : Path)
    (source : List Char) (script : Node) (report : Report) (out : List Char)
    (hparse : Script.parse (dialectOf path) source = .ok script)
    (hrun : run o telemetry path source = .ok report) (hout : report.output = some out) :
    let job := Job.ofScript path source o ((telemetry.lookup path).getD {}) script
    ∃ answers p,
      Definition.Visits [(.plain, script)] answers ∧
      Definition.forEach script {} job.convert = .ok p ∧
      Definition.Answers job.convert answers {} p ∧
      ∀ d ∈ Definition.replaced answers, ∃ text,
        ⟨d.target.span, text⟩ ∈ p.edits ∧ text <:+: out ∧
        ∀ q ∈ (job.propertiesOf d).properties, ∀ k ∈ Blueprint.cutsAt job.copy q, ∀ s,
          Script.StringAt source s → k.1.Copies s → (∀ t ∈ script.quasis, s.Apart t) →
          let pad := lineIndent source d.target.span.start ++ List.replicate (2 * q.level) ' '
          moved k.2 pad (slice source s) <:+: text ∧
            (moved k.2 pad (slice source s) = slice source s ↔
              ∀ line ∈ (splitLines (slice source s)).tail,
                line.take (min k.2 (line.takeWhile isIndent).length) = pad) := by
  intro job
  have hscript := Script.faithful_of_parse hparse
  have hquasis := Script.plainQuasis_of_parse hparse
  have hlooked : ∀ reason, report ≠ { path, outcome := .skipped reason } := by
    rintro reason rfl
    cases hout
  obtain ⟨hskip, script', p, hparse', hwalk⟩ := walk_of_run hrun hlooked
  rw [hparse, Except.ok.injEq] at hparse'
  subst hparse'
  obtain ⟨answers, hv, ha⟩ := Definition.forEach_visits hwalk
  obtain ⟨hedits, -⟩ := progress_of_answers ha
  simp only [List.map_nil, List.nil_append] at hedits
  have happly := (report_of_run hskip hparse hwalk hrun).2.2 out hout
  have hsplices := Edit.splices_of_apply
    (editsOf_on_boundaries (j := job) hscript hv hedits) happly
  refine ⟨answers, p, hv, hwalk, ha, fun d hd => ?_⟩
  obtain ⟨c, hbuild, hmem⟩ := edit_of_answers ha hd
  refine ⟨_, hmem, ?_, fun q hq k hk s hstring hcopies houtside => ⟨?_, ?_⟩⟩
  · exact hsplices.text_infix ((Edit.sorted_perm _).mem_iff.mpr (List.mem_append_left _ hmem))
  · refine job.moved_infix_textFor hscript hquasis rfl (fun object ho => ?_) hbuild hq hk hstring
      hcopies houtside
    obtain ⟨site, n, hn, hat⟩ := hv.at_of_replaced hd
    exact Node.mem_preorder_trans script hn (Definition.properties_mem hat ho)
  · apply moved_eq_self_iff
    rw [List.mem_append, not_or]
    refine ⟨fun hn => ?_, fun hn => ?_⟩
    · have hindent := List.all_eq_true.mp List.all_takeWhile _ hn
      revert hindent
      decide
    · exact absurd (List.eq_of_mem_replicate hn) (by decide)

/-- A literal whose second line is indented like the property. -/
def alignedLiteralText : List Char := "A.extend(\x7b\n  b: 'c\\\n  d'\n\x7d);".toList

def outdentedLiteralText : List Char := "A.extend(\x7b\n  b: 'c\\\nd'\n\x7d);".toList

theorem string_literals_kept_when_aligned :
    ∃ script report out,
      Script.parse (dialectOf ⟨"a.js"⟩) alignedLiteralText = .ok script ∧
      run plainClasses oneFile ⟨"a.js"⟩ alignedLiteralText = .ok report ∧
      report.output = some out ∧ Script.StringAt alignedLiteralText ⟨16, 24⟩ ∧
      slice alignedLiteralText ⟨16, 24⟩ = "'c\\\n  d'".toList ∧
      "'c\\\n  d'".toList <:+: out := by
  have hstring : Script.StringAt alignedLiteralText ⟨16, 24⟩ :=
    ⟨by decide, "c  d", 8, "\n\x7d);".toList, by decide +kernel, rfl⟩
  have h : ((Script.parse (dialectOf ⟨"a.js"⟩) alignedLiteralText).toOption.any fun script =>
      let job := Job.ofScript ⟨"a.js"⟩ alignedLiteralText plainClasses
        ((oneFile.lookup ⟨"a.js"⟩).getD {}) script
      script.quasis == [] &&
      (script.preorder.all fun n => n.kind != .call ||
        (Definition.literals n.arguments).getLast?.any fun object =>
          (PropertyList.ofObject ⟨job.source, job.usage, job.wrappers⟩ object).properties.any
            fun q => q.level == 1 && (Blueprint.cutsAt job.copy q).any fun k =>
              decide (k.1.Copies ⟨16, 24⟩) && k.2 == 2) &&
      ((Definition.forEach script {} job.convert).toOption.any fun p =>
        p.edits.map Edit.span == [⟨0, 27⟩]) &&
      (run plainClasses oneFile ⟨"a.js"⟩ alignedLiteralText).toOption.any fun report =>
        report.output.isSome) = true := by
    decide +kernel
  simp only [Option.any_eq_true, Except.toOption_eq_some_iff, Bool.and_eq_true, Bool.or_eq_true,
    List.any_eq_true, List.all_eq_true, bne_iff_ne, beq_iff_eq, decide_eq_true_eq,
    Option.isSome_iff_exists] at h
  obtain ⟨script, hparse, ⟨⟨hquasis, hcalls⟩, p, hwalk, hspans⟩, report, hrun, out, hout⟩ := h
  obtain ⟨answers, p', hv, hwalk', ha, hall⟩ := string_literals_kept_iff plainClasses oneFile
    ⟨"a.js"⟩ alignedLiteralText script report out hparse hrun hout
  obtain rfl : p = p' := by
    rw [hwalk, Except.ok.injEq] at hwalk'
    exact hwalk'
  obtain ⟨d, hreplaced, hspan⟩ : ∃ d ∈ Definition.replaced answers, d.target.span = ⟨0, 27⟩ := by
    have hedits := (progress_of_answers ha).1
    rw [hspans, List.map_nil, List.nil_append] at hedits
    exact List.mem_map.mp (hedits ▸ List.mem_singleton_self _)
  obtain ⟨text, -, hin, hkept⟩ := hall d hreplaced
  obtain ⟨site, n, hn, hat⟩ := hv.at_of_replaced hreplaced
  obtain ⟨object, hobject, q, hq, hlevel, k, hk, hcopies, hcolumns⟩ :=
    (hcalls n hn).resolve_left (not_not.mpr (Definition.at?_eq_some hat).1)
  have hproperties : d.properties = some object := (Definition.at?_arguments hat).1.trans hobject
  obtain ⟨hmoved, hiff⟩ := hkept q (by rw [Job.propertiesOf, hproperties]; exact hq) k hk ⟨16, 24⟩
    hstring hcopies (by simp [hquasis])
  have hslice : slice alignedLiteralText ⟨16, 24⟩ = "'c\\\n  d'".toList := by decide
  rw [hspan, hlevel, hcolumns] at hmoved hiff
  rw [hiff.mpr (by decide), hslice] at hmoved
  exact ⟨script, report, out, hparse, hrun, hout, hstring, hslice, hmoved.trans hin⟩

/-- The second line of the literal gets blanks that belong to the string then. -/
theorem outdented_literal_is_changed :
    ∃ script n d q k report out,
      let job := Job.ofScript ⟨"a.js"⟩ outdentedLiteralText plainClasses
        ((oneFile.lookup ⟨"a.js"⟩).getD {}) script
      Script.parse (dialectOf ⟨"a.js"⟩) outdentedLiteralText = .ok script ∧
      n ∈ script.preorder ∧ Definition.at? .plain n = some d ∧
      q ∈ (job.propertiesOf d).properties ∧ k ∈ Blueprint.cutsOf outdentedLiteralText q ∧
      k.Copies ⟨16, 22⟩ ∧ Script.StringAt outdentedLiteralText ⟨16, 22⟩ ∧ script.quasis = [] ∧
      run plainClasses oneFile ⟨"a.js"⟩ outdentedLiteralText = .ok report ∧
      report.transformed = 1 ∧ report.failures = [] ∧ report.output = some out ∧
      ¬ slice outdentedLiteralText ⟨16, 22⟩ <:+: out := by
  have hstring : Script.StringAt outdentedLiteralText ⟨16, 22⟩ :=
    ⟨by decide, "cd", 6, "\n\x7d);".toList, by decide +kernel, rfl⟩
  have h : ((Script.parse (dialectOf ⟨"a.js"⟩) outdentedLiteralText).toOption.any fun script =>
      let job := Job.ofScript ⟨"a.js"⟩ outdentedLiteralText plainClasses
        ((oneFile.lookup ⟨"a.js"⟩).getD {}) script
      (script.preorder.any fun n => (Definition.at? .plain n).any fun d =>
        (job.propertiesOf d).properties.any fun q =>
          (Blueprint.cutsOf outdentedLiteralText q).any fun k => decide (k.Copies ⟨16, 22⟩)) &&
      script.quasis == [] &&
      (run plainClasses oneFile ⟨"a.js"⟩ outdentedLiteralText).toOption.any fun report =>
        report.transformed == 1 && report.failures.isEmpty && report.output.any fun out =>
          !decide (slice outdentedLiteralText ⟨16, 22⟩ <:+: out)) = true := by
    decide +kernel
  simp only [Option.any_eq_true, Except.toOption_eq_some_iff, Bool.and_eq_true, List.any_eq_true,
    List.isEmpty_iff, beq_iff_eq, decide_eq_true_eq, Bool.not_eq_true',
    decide_eq_false_iff_not] at h
  obtain ⟨script, hparse, ⟨⟨n, hn, d, hd, q, hq, k, hk, hcopies⟩, hquasis⟩, report, hrun,
    ⟨hone, hclean⟩, out, hout, hlost⟩ := h
  exact ⟨script, n, d, q, k, report, out, hparse, hn, hd, hq, hk, hcopies, hstring, hquasis, hrun,
    hone, hclean, hout, hlost⟩

end Conversion

end EmberClasses
