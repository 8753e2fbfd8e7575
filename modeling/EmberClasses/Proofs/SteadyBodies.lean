import EmberClasses.Proofs.AccessorForms
import EmberClasses.Proofs.StringLiterals

/-! Bodies that keep their layout. The body of a method is moved to the left by the indentation of
its property and to the right by that of its class. Where the property stands one level inside the
class, both are the same, and a body whose lines all have room for the move comes out as it was
written, behind the head of its method. -/

namespace EmberClasses

open Script (Node)
open Text

namespace LineRule

variable {σ : Type} {r : LineRule σ}

/-- Behind a character that settles the state, a text is written on its own. -/
theorem write_append_settled {c : Char} {t : σ} (hc : r.Settles c t) (hne : c ≠ '\n') (s : σ)
    {ms : List Bool} (ns : List Bool) {a : List Char} (b : List Char)
    (h : ms.length = lineFeeds a) :
    r.write s (ms ++ ns) (a ++ c :: b) = r.write s ms (a ++ [c]) ++ r.write t ns b := by
  induction a generalizing s ms with
  | nil =>
    obtain ⟨x, hx⟩ := hc s
    simp [List.eq_nil_of_length_eq_zero h, write, hne, hx]
  | cons d a ih =>
    by_cases hd : d = '\n'
    · subst hd
      cases ms with
      | nil => simp [lineFeeds] at h
      | cons m ms =>
        have hrest := ih (r.start m) (show ms.length = lineFeeds a by simpa [lineFeeds] using h)
        simp [write, hrest]
    · have hlength : ms.length = lineFeeds a := by simpa [lineFeeds, hd] using h
      have hrest := ih (r.step s d).2 hlength
      simp [write, hd, hrest]

end LineRule

namespace Fragment

/-- Each line of a part of the source but the first starts in the text of a template, or is empty,
or is indented by `columns` blanks and goes on behind them. What stands in a substitution of a
template is code and not its text. -/
def Steady (source : List Char) (quasis : List Span) (columns : Nat) (span : Span) : Prop :=
  ∀ l ∈ (marks quasis (copiedFrom span.start (slice source span))).zip
      (splitLines (slice source span)).tail,
    l.1 = true ∨ l.2 = [] ∨ List.replicate columns ' ' <+: l.2 ∧ columns < l.2.length

instance (source : List Char) (quasis : List Span) (columns : Nat) (span : Span) :
    Decidable (Steady source quasis columns span) :=
  inferInstanceAs (Decidable (∀ l ∈ _, _ ∨ _ ∨ _ ∧ _))

def printedAt (base : List Char) (level : Nat) (f : Fragment) : List Char :=
  joinLines ((splitLines f.text).mapIdx fun i line =>
    if i = 0 then line else Printer.placed base level (f.isVerbatim i) line)

variable {f g : Fragment} {ms ns : List Bool}

theorem Marked.isVerbatim_getElem (h : f.Marked ms) {i : Nat} (hi : i < ms.length) :
    f.isVerbatim (i + 1) = ms[i] := by
  rw [h.isVerbatim, List.getElem?_eq_getElem hi]
  cases ms[i] <;> rfl

theorem placed_eq_write {line : List Char} (h : '\n' ∉ line) (base : List Char) (level : Nat)
    (verbatim : Bool) : Printer.placed base level verbatim line =
      (padding (base ++ List.replicate (2 * level) ' ')).write (!verbatim) [] line := by
  rw [write_padding_line _ h]
  cases verbatim with
  | true => simp [Printer.placed]
  | false => by_cases hempty : line = [] <;> simp [Printer.placed, hempty]

theorem Marked.printedAt_eq_write (h : f.Marked ms) (base : List Char) (level : Nat) :
    f.printedAt base level =
      (padding (base ++ List.replicate (2 * level) ' ')).write false ms f.text := by
  cases hsplit : splitLines f.text with
  | nil => exact absurd hsplit (splitLines_ne_nil f.text)
  | cons first rest =>
    have hfeed : ∀ line ∈ first :: rest, '\n' ∉ line := hsplit ▸ not_mem_splitLines f.text
    have hlength := h.length_rest hsplit
    have hrest : (rest.mapIdx fun i line => Printer.placed base level (f.isVerbatim (i + 1)) line) =
        (ms.zip rest).map fun l => (padding (base ++ List.replicate (2 * level) ' ')).write
          (!l.1) [] l.2 := by
      apply List.ext_getElem
      · simp [hlength]
      · intro i hi _
        have hms : i < ms.length := by simpa [hlength] using hi
        rw [List.getElem_mapIdx, List.getElem_map, List.getElem_zip, h.isVerbatim_getElem hms,
          placed_eq_write (hfeed _ (List.mem_cons_of_mem _ (List.getElem_mem _)))]
    rw [printedAt, hsplit, List.mapIdx_cons, joinLines_cons,
      LineRule.write_eq_lines false hsplit hlength,
      write_padding_line _ (hfeed _ List.mem_cons_self)]
    simp only [Nat.add_one_ne_zero, if_false, if_true, hrest, List.flatMap_map]
    simp [padding]

/-- Two fragments are printed one after the other, as the first does not end at the start of a
line. -/
theorem printedAt_append (hf : f.Marked ms) (hg : g.Marked ns) {text : List Char} {c : Char}
    (htext : f.text = text ++ [c]) (hc : c ≠ '\n') (base : List Char) (level : Nat) :
    (f.append g).printedAt base level = f.printedAt base level ++ g.printedAt base level := by
  have hcount : ms.length = lineFeeds text := by
    rw [hf.feeds, htext, lineFeeds_append]
    simp [lineFeeds, hc]
  have hwhole : (f.append g).text = text ++ c :: g.text := by simp [append, htext]
  rw [(hf.append hg).printedAt_eq_write, hf.printedAt_eq_write, hg.printedAt_eq_write, hwhole,
    htext]
  exact LineRule.write_append_settled (padding_settles c) hc false ns g.text hcount

theorem stripIndent_replicate {columns : Nat} {line : List Char}
    (h : List.replicate columns ' ' <+: line) (hlong : columns < line.length) :
    stripIndent columns line ≠ [] ∧
      List.replicate columns ' ' ++ stripIndent columns line = line := by
  obtain ⟨rest, rfl⟩ := h
  have hstrip : stripIndent columns (List.replicate columns ' ' ++ rest) = rest := by
    induction columns with
    | zero => rw [List.replicate_zero, List.nil_append]; unfold stripIndent; rfl
    | succ n ih => exact ih (by simpa using hlong)
  rw [hstrip]
  exact ⟨by rintro rfl; simp at hlong, rfl⟩

/-- A line that has room for the move comes back to where it stood. -/
theorem placed_stripIndent {columns level : Nat} {base : List Char} {verbatim : Bool}
    {line : List Char}
    (h : verbatim = true ∨ line = [] ∨
      List.replicate columns ' ' <+: line ∧ columns < line.length)
    (hpad : base ++ List.replicate (2 * level) ' ' = List.replicate columns ' ') :
    Printer.placed base level verbatim (if verbatim then line else stripIndent columns line) =
      line := by
  cases verbatim with
  | true => simp [Printer.placed]
  | false =>
    rcases h with h | rfl | ⟨hindent, hlong⟩
    · cases h
    · cases columns <;> simp [Printer.placed, stripIndent]
    · obtain ⟨hne, hback⟩ := stripIndent_replicate hindent hlong
      simp only [Bool.false_eq_true, if_false, Printer.placed, hne, hpad]
      exact hback

/-- A steady part of the source is printed as it was written, if it moves to the right by what it
has moved to the left. -/
theorem printedAt_of_steady {source : List Char} {span : Span} {quasis : List Span} {columns : Nat}
    (h : Cuttable source span [] quasis) (hcut : cut source span [] quasis columns = .ok f)
    (hsteady : Steady source quasis columns span) {base : List Char} {level : Nat}
    (hpad : base ++ List.replicate (2 * level) ' ' = List.replicate columns ' ') :
    f.printedAt base level = slice source span := by
  obtain ⟨g, out, hg, htraces, hmarked, htext⟩ := cut_traced h columns
  rw [hcut, Except.ok.injEq] at hg
  subst hg
  have hout : out = copiedFrom span.start (slice source span) := by
    rw [Edit.sorted, List.mergeSort_nil] at htraces
    exact htraces.unique (.done _ _)
  rw [hout] at hmarked htext
  rw [map_char_copiedFrom] at htext
  unfold Steady at hsteady
  generalize marks quasis (copiedFrom span.start (slice source span)) = ms at hmarked hsteady
  cases hsplit : splitLines (slice source span) with
  | nil => exact absurd hsplit (splitLines_ne_nil _)
  | cons first rest =>
    rw [hsplit, List.tail_cons] at hsteady
    have hlines : splitLines f.text = first :: rest.mapIdx fun i line =>
        if f.isVerbatim (i + 1) then line else stripIndent columns line := by
      rw [htext, splitLines_dedentLines, hsplit, List.mapIdx_cons]
      simp [stripIndent_eq]
    have hlength : ms.length = rest.length := by simpa using hmarked.length_rest hlines
    have hback : (rest.mapIdx fun i line => Printer.placed base level (f.isVerbatim (i + 1))
        (if f.isVerbatim (i + 1) then line else stripIndent columns line)) = rest := by
      apply List.ext_getElem
      · simp
      · intro i hi hrest
        have hms : i < ms.length := by omega
        have hmem : (ms[i], rest[i]) ∈ ms.zip rest :=
          List.mem_of_getElem (List.getElem_zip (h := by rw [List.length_zip]; omega))
        rw [List.getElem_mapIdx, hmarked.isVerbatim_getElem hms]
        exact placed_stripIndent (hsteady _ hmem) hpad
    rw [printedAt, hlines, List.mapIdx_cons, if_pos rfl, List.mapIdx_mapIdx]
    simp only [Function.comp_def, Nat.succ_ne_zero, if_false]
    rw [hback, ← hsplit, joinLines_splitLines]

theorem flatMap_placed_linesAt (f : Fragment) (base : List Char) (level : Nat) : ∃ pad,
    ((f.linesAt level).map fun l => Printer.placed base l.level l.verbatim l.text).flatMap
      ('\n' :: ·) = '\n' :: (pad ++ f.printedAt base level) := by
  cases hsplit : splitLines f.text with
  | nil => exact absurd hsplit (splitLines_ne_nil f.text)
  | cons first rest =>
    have hfirst : first <:+ Printer.placed base level false first := by
      by_cases hempty : first = []
      · rw [hempty]
        exact List.nil_suffix
      · simp only [Printer.placed, Bool.false_eq_true, if_false, hempty]
        exact List.suffix_append _ _
    obtain ⟨pad, hpad⟩ := hfirst
    have hrest : (rest.mapIdx fun i line =>
          (⟨line, level, decide (0 < i + 1) && f.isVerbatim (i + 1)⟩ : PrintedLine)).map
        (fun l => Printer.placed base l.level l.verbatim l.text) =
        rest.mapIdx fun i line => Printer.placed base level (f.isVerbatim (i + 1)) line :=
      List.ext_getElem (by simp) fun i _ _ => by simp
    refine ⟨pad, ?_⟩
    rw [linesAt, printedAt, hsplit, List.mapIdx_cons, List.mapIdx_cons, List.map_cons, hrest,
      List.flatMap_cons, joinLines_cons]
    simp only [Nat.lt_irrefl, decide_false, Bool.false_and, ← hpad, if_true, Nat.add_one_ne_zero,
      if_false, List.append_assoc, List.cons_append]

def ofHead (key : String) (m : Method) : Fragment :=
  ((⟨m.head key, []⟩ : Fragment).append (Fragment.join m.params [',', ' '])).push ") ".toList

theorem ofMethod_eq_append (key : String) (m : Method) :
    ofMethod key m = (ofHead key m).append m.body := rfl

theorem exists_ofHead_text (key : String) (m : Method) :
    ∃ text, (ofHead key m).text = text ++ [' '] :=
  ⟨((⟨m.head key, []⟩ : Fragment).append (Fragment.join m.params [',', ' '])).text ++ [')'], by
    rw [ofHead, push, List.append_assoc]
    rfl⟩

theorem wellNumbered_ofHead (key : String) {m : Method} (h : ∀ f ∈ m.params, f.WellNumbered) :
    (ofHead key m).WellNumbered :=
  ((wellNumbered_generated (m.head key)).append (wellNumbered_join h [',', ' '])).push _

end Fragment

namespace ClassDecl

variable {c : ClassDecl}

/-- The method of a member stands on lines of its own between the braces of the class. -/
theorem lines_of_method {m : Member} (hm : m ∈ c.members) {method : Method}
    (hbody : m.body = .method method) (lead : List Char) : ∃ pre post, pre ≠ [] ∧ post ≠ [] ∧
      c.lines lead = pre ++ ((Fragment.ofMethod m.key method).linesAt 1 ++ post) := by
  have hblock : m.linesAt 1 ∈ c.blocks := List.mem_append_left _ (List.mem_map_of_mem hm)
  obtain ⟨x, y, hblocks⟩ := infix_intercalate [(⟨[], 1, false⟩ : PrintedLine)] hblock
  have hmember : m.linesAt 1 = commentLines 1 m.comments ++ decoratorLines 1 m.decorators ++
      (Fragment.ofMethod m.key method).linesAt 1 := by
    rw [Member.linesAt, hbody]
    rfl
  refine ⟨c.headLines ++ ⟨c.opening lead, 0, false⟩ ::
    (x ++ (commentLines 1 m.comments ++ decoratorLines 1 m.decorators)),
    y ++ [⟨['}'], 0, false⟩], by simp, by simp, ?_⟩
  rw [lines, bodyLines, if_neg (by simp [List.ne_nil_of_mem hblock]), ← hblocks, hmember]
  simp only [List.append_assoc, List.cons_append]

/-- In the text of a class a method is printed as a fragment is, up to the end of a line. -/
theorem printedAt_infix_render {m : Member} (hm : m ∈ c.members) {method : Method}
    (hbody : m.body = .method method) (lead base : List Char) :
    (Fragment.ofMethod m.key method).printedAt base 1 ++ ['\n'] <:+: c.render lead base := by
  obtain ⟨pre, post, hpre, hpost, hlines⟩ := lines_of_method hm hbody lead
  obtain ⟨last, lines, rfl⟩ := List.exists_cons_of_ne_nil hpost
  obtain ⟨pad, hmethod⟩ :=
    (Fragment.ofMethod m.key method).flatMap_placed_linesAt base 1
  rw [c.render_eq, hlines, Printer.joinLines_render base hpre, List.map_append,
    List.flatMap_append, hmethod, List.map_cons, List.flatMap_cons]
  generalize (lines.map fun l => Printer.placed base l.level l.verbatim l.text).flatMap
    ('\n' :: ·) = tail
  refine ⟨joinLines (pre.mapIdx (Printer.renderLine base)) ++ '\n' :: pad,
    Printer.placed base last.level last.verbatim last.text ++ tail, ?_⟩
  simp

end ClassDecl

namespace Member

variable {c : Copy} {columns : Nat} {p : Property}

/-- Each function of a property that becomes a method has a member. -/
theorem Forms.exists_isMethod {ms : List Member} (h : Forms c p ms) {s : MethodSource}
    (hs : s ∈ p.methodSources) : ∃ m ∈ ms, IsMethod c (c.columnsOf p.span) p.name s m := by
  unfold Property.methodSources at hs
  split at hs
  · cases hs
  rename_i hactions
  cases haccessors : p.accessors? with
  | some a =>
    rw [haccessors] at hs
    exact exists_of_mem_forall₂ (h.accessors hactions a haccessors).flip hs
  | none =>
    rw [haccessors] at hs
    obtain ⟨m, rfl, hmethod, -⟩ := h.single hactions haccessors
    exact ⟨m, List.mem_singleton_self m, hmethod s (Option.mem_toList.mp hs)⟩

/-- Without super calls there is nothing to edit in a body. -/
theorem bodyEdits_eq_nil {f : Callable} (h : f.superCalls = []) (source : List Char) (name : String)
    (rule : SuperRule) : bodyEdits source name rule f = [] := by
  cases rule with
  | undefined => simp [bodyEdits, Callable.outermost, h]
  | parent inAction => simp [bodyEdits, superEdits, h]

end Member

namespace Property

/-- The functions that become methods are among those of the property. -/
theorem mem_functions_of_methodSources {p : Property} {s : MethodSource}
    (hs : s ∈ p.methodSources) : s.function ∈ p.functions := by
  have hlast {chain : Chain} {a : Argument} {f : Callable} (hshape : p.shape = .call chain)
      (ha : chain.args.getLast? = some a) (hf : f ∈ a.functions) : f ∈ p.functions := by
    rw [functions, hshape]
    exact List.mem_flatMap_of_mem (List.mem_of_getLast? ha) hf
  unfold methodSources at hs
  split at hs
  · cases hs
  cases haccessors : p.accessors? with
  | some a =>
    rw [haccessors] at hs
    unfold accessors? at haccessors
    split at haccessors
    · split at haccessors
      · cases haccessors
        rcases List.mem_append.mp hs with hs | hs
        · obtain ⟨f, hf, rfl⟩ := List.mem_map.mp hs
          exact hlast ‹_› ‹_› (List.mem_append_left _ hf)
        · obtain ⟨f, hf, rfl⟩ := List.mem_map.mp hs
          exact hlast ‹_› ‹_› (List.mem_append_right _ hf)
      · cases haccessors
    · cases haccessors
  | none =>
    rw [haccessors] at hs
    have hs := Option.mem_toList.mp hs
    unfold method? at hs
    split at hs
    · cases hs
      simp [functions, ‹p.shape = _›]
    · split at hs
      · cases hs
        exact hlast ‹_› ‹_› List.mem_cons_self
      · cases hs
        exact hlast ‹_› ‹_› List.mem_cons_self
      · cases hs
    · cases hs

end Property

/-- What becomes a decorator of the class has no method. -/
theorem Blueprint.methodSources_of_classDecorator {c : Copy} {p : Property} {name : String}
    {d : AppliedDecorator} (h : classDecorator c p name = .ok d) : p.methodSources = [] := by
  unfold classDecorator at h
  dsimp only at h
  cases hshape : p.shape with
  | call chain => rw [hshape] at h; cases h
  | function f => rw [hshape] at h; cases h
  | _ => simp [Property.methodSources, Property.accessors?, Property.method?, hshape]

namespace Conversion

/-- The head of a method, its body as it was written, and the end of the line. -/
def Job.KeepsBody (j : Job) (d : Definition) (cls : ClassDecl) (q : Property) (s : MethodSource)
    (text : List Char) : Prop :=
  ∃ m ∈ cls.members, Member.IsMethod j.copy (j.copy.columnsOf q.span) q.name s m ∧
    ∃ method, m.body = .method method ∧
      (Fragment.ofHead m.key method).printedAt (lineIndent j.source d.target.span.start) 1 ++
        slice j.source s.function.body ++ ['\n'] <:+: text

theorem byteLength_replicate_blank (n : Nat) : byteLength (List.replicate n ' ') = n := by
  induction n with
  | zero => rfl
  | succ n ih =>
    rw [List.replicate_succ, byteLength, ih]
    have : ' '.utf8Size = 1 := rfl
    omega

section Bodies

variable {j : Job} {script : Node} (hs : script.Faithful j.source) (hq : script.PlainQuasis)
  (hquasis : j.quasis = script.quasis) {d : Definition}
  (hobject : ∀ object, d.properties = some object → object ∈ script.preorder)

include hs hq hquasis hobject

theorem Job.cuttable_body {p : Property} (hp : p ∈ (j.propertiesOf d).properties)
    {s : MethodSource} (hsource : s ∈ p.methodSources) :
    Fragment.Cuttable j.source s.function.body [] j.quasis := by
  obtain ⟨object, hproperties, hp⟩ := mem_ofObject hp
  have hread := PropertyList.ofObject_readFrom _ object hp
    (.inl ⟨Property.mem_functions_of_methodSources hsource, rfl⟩)
  obtain ⟨n, hn, hspan⟩ := hread.hasSpan_body
  have hmem := Node.mem_preorder_trans script (hobject object hproperties) hn
  rw [← hspan, hquasis]
  exact ⟨(hs.formed.of_mem hmem).nested.start_le_stop, hs.boundaries n hmem, by simp, by simp, .nil,
    Node.quasis_ascending hs.formed hq⟩

/-- A steady body without super calls stands in the text for its definition as it was written, if
its property is indented one level deeper than the definition. -/
theorem Job.keepsBody_textFor {c : ClassDecl}
    (hbuild : (j.blueprintOf d).build j.options j.copy = .ok c) {k : Nat}
    (hindent : lineIndent j.source d.target.span.start = List.replicate k ' ') {p : Property}
    (hp : p ∈ (j.propertiesOf d).properties)
    (hdeeper : lineIndent j.source p.span.start = List.replicate (k + 2) ' ') {s : MethodSource}
    (hsource : s ∈ p.methodSources) (hsuper : s.function.superCalls = [])
    (hsteady : Fragment.Steady j.source j.quasis (k + 2) s.function.body) :
    j.KeepsBody d c p s (j.textFor d c) := by
  have hcolumns : j.copy.columnsOf p.span = k + 2 := by
    rw [Copy.columnsOf, copy, hdeeper, byteLength_replicate_blank]
  obtain ⟨ms, hms, hin⟩ : ∃ ms, Member.ofProperty j.copy p = .ok ms ∧ ms ⊆ c.members := by
    rcases Blueprint.build_holds hbuild p hp with ⟨name, decorator, -, hdecorator, -⟩ |
      ⟨ms, -, hms, hin⟩
    · rw [Blueprint.methodSources_of_classDecorator hdecorator] at hsource
      cases hsource
    · exact ⟨ms, hms, hin.subset⟩
  obtain ⟨m, hm, hmethod⟩ := (Member.ofProperty_forms hms).exists_isMethod hsource
  obtain ⟨params, code, rule, hbody, -, hcode⟩ := hmethod.body
  refine ⟨m, hin hm, hmethod, _, hbody, ?_⟩
  rw [Member.bodyEdits_eq_nil hsuper] at hcode
  have hcuttable := cuttable_body hs hq hquasis hobject hp hsource
  have hprinted : code.printedAt (lineIndent j.source d.target.span.start) 1 =
      slice j.source s.function.body :=
    Fragment.printedAt_of_steady hcuttable (hcolumns ▸ Copy.edited_eq_ok hcode) hsteady
      (by rw [hindent, List.replicate_append_replicate])
  have hnumbered : ∀ f ∈ code :: params, f.WellNumbered := by
    intro f hf
    refine fragments_wellNumbered hbuild f (List.mem_append_right _ ?_)
    refine List.mem_flatMap_of_mem (hin hm) (List.mem_append_right _ ?_)
    rw [hbody]
    exact hf
  have hcodeMarks := (hnumbered code List.mem_cons_self).marked
  have hhead := Fragment.wellNumbered_ofHead m.key
    (m := ⟨s.kind, s.function.async, s.function.generator, params, code⟩)
    fun f hf => hnumbered f (List.mem_cons_of_mem code hf)
  obtain ⟨text, htext⟩ := Fragment.exists_ofHead_text m.key
    ⟨s.kind, s.function.async, s.function.generator, params, code⟩
  rw [← hprinted, ← Fragment.printedAt_append hhead.marked hcodeMarks htext (by decide),
    ← Fragment.ofMethod_eq_append m.key
      ⟨s.kind, s.function.async, s.function.generator, params, code⟩]
  exact infix_textFor fun lead => ClassDecl.printedAt_infix_render (hin hm) hbody lead _

end Bodies

/-- In a file that was converted, the body of a method is kept byte for byte behind the head of the
method, if the property stands two blanks deeper than the code that is replaced, the function calls
no method of the super class, and each line of the body after the first starts in the text of a
template, is empty, or has something behind the blanks of the property. The classes that were built
have such a method for each function that is to become one. -/
theorem steady_bodies_kept (o : Options) (telemetry : Telemetry) (path : Path)
    (source : List Char) (script : Node) (report : Report) (out : List Char)
    (hparse : Script.parse (dialectOf path) source = .ok script)
    (hrun : run o telemetry path source = .ok report) (hout : report.output = some out) :
    let job := Job.ofScript path source o ((telemetry.lookup path).getD {}) script
    ∃ answers p,
      Definition.Visits [(.plain, script)] answers ∧
      Definition.forEach script {} job.convert = .ok p ∧
      Definition.Answers job.convert answers {} p ∧
      ∀ d ∈ Definition.replaced answers, ∃ c,
        (job.blueprintOf d).build o job.copy = .ok c ∧
        ⟨d.target.span, job.textFor d c⟩ ∈ p.edits ∧ job.textFor d c <:+: out ∧
        ∀ k, lineIndent source d.target.span.start = List.replicate k ' ' →
          ∀ q ∈ (job.propertiesOf d).properties,
            lineIndent source q.span.start = List.replicate (k + 2) ' ' →
            ∀ s ∈ q.methodSources, s.function.superCalls = [] →
              Fragment.Steady source script.quasis (k + 2) s.function.body →
              job.KeepsBody d c q s (job.textFor d c) := by
  intro job
  have hscript := Script.faithful_of_parse hparse
  have hquasis := Script.plainQuasis_of_parse hparse
  have hlooked : ∀ reason, report ≠ { path, outcome := .skipped reason } := by
    rintro reason rfl
    cases hout
  obtain ⟨-, script', p, hparse', hwalk⟩ := walk_of_run hrun hlooked
  rw [hparse, Except.ok.injEq] at hparse'
  subst hparse'
  obtain ⟨answers, hv, ha⟩ := Definition.forEach_visits hwalk
  obtain ⟨hedits, -⟩ := progress_of_answers ha
  simp only [List.map_nil, List.nil_append] at hedits
  have hskip := (walk_of_run hrun hlooked).1
  have hsplices := Edit.splices_of_apply (editsOf_on_boundaries (j := job) hscript hv hedits)
    ((report_of_run hskip hparse hwalk hrun).2.2 out hout)
  refine ⟨answers, p, hv, hwalk, ha, fun d hd => ?_⟩
  obtain ⟨c, hbuild, hmem⟩ := edit_of_answers ha hd
  refine ⟨c, hbuild, hmem,
    hsplices.text_infix ((Edit.sorted_perm _).mem_iff.mpr (List.mem_append_left _ hmem)), ?_⟩
  intro k hindent q hq hdeeper s hs hsuper hsteady
  obtain ⟨site, n, hn, hat⟩ := hv.at_of_replaced hd
  exact job.keepsBody_textFor hscript hquasis rfl
    (fun object ho => Node.mem_preorder_trans script hn (Definition.properties_mem hat ho))
    hbuild hindent hq hdeeper hs hsuper hsteady

/-- The body has an empty line, a line that is indented deeper, and one in a template. -/
def nestedMethodText : List Char :=
  "  A.extend(\x7b\n    b() \x7b\n\n      return `\nc`;\n    \x7d\n  \x7d);".toList

theorem steady_bodies_kept_in_nested_class :
    ∃ script report out,
      Script.parse (dialectOf ⟨"a.js"⟩) nestedMethodText = .ok script ∧
      run plainClasses oneFile ⟨"a.js"⟩ nestedMethodText = .ok report ∧
      report.output = some out ∧
      Fragment.Steady nestedMethodText script.quasis 4 ⟨21, 48⟩ ∧
      "\x7b\n\n      return `\nc`;\n    \x7d\n".toList <:+: out := by
  have h : ((Script.parse (dialectOf ⟨"a.js"⟩) nestedMethodText).toOption.any fun script =>
      let job := Job.ofScript ⟨"a.js"⟩ nestedMethodText plainClasses
        ((oneFile.lookup ⟨"a.js"⟩).getD {}) script
      decide (Fragment.Steady nestedMethodText script.quasis 4 ⟨21, 48⟩) &&
      (script.preorder.all fun n => n.kind != .call ||
        (Definition.literals n.arguments).getLast?.any fun object =>
          (PropertyList.ofObject ⟨job.source, job.usage, job.wrappers⟩ object).properties.any
            fun q => lineIndent nestedMethodText q.span.start == List.replicate 4 ' ' &&
              q.methodSources.any fun s =>
                s.function.superCalls.isEmpty && s.function.body == ⟨21, 48⟩) &&
      ((Definition.forEach script {} job.convert).toOption.any fun p =>
        p.edits.map Edit.span == [⟨2, 53⟩]) &&
      (run plainClasses oneFile ⟨"a.js"⟩ nestedMethodText).toOption.any fun report =>
        report.output.isSome) = true := by
    decide +kernel
  simp only [Option.any_eq_true, Except.toOption_eq_some_iff, Bool.and_eq_true, Bool.or_eq_true,
    List.any_eq_true, List.all_eq_true, List.isEmpty_iff, bne_iff_ne, beq_iff_eq,
    decide_eq_true_eq, Option.isSome_iff_exists] at h
  obtain ⟨script, hparse, ⟨⟨hsteady, hcalls⟩, p, hwalk, hspans⟩, report, hrun, out, hout⟩ := h
  obtain ⟨answers, p', hv, hwalk', ha, hall⟩ := steady_bodies_kept plainClasses oneFile ⟨"a.js"⟩
    nestedMethodText script report out hparse hrun hout
  obtain rfl : p = p' := by
    rw [hwalk, Except.ok.injEq] at hwalk'
    exact hwalk'
  obtain ⟨d, hreplaced, hspan⟩ : ∃ d ∈ Definition.replaced answers, d.target.span = ⟨2, 53⟩ := by
    have hedits := (progress_of_answers ha).1
    rw [hspans, List.map_nil, List.nil_append] at hedits
    exact List.mem_map.mp (hedits ▸ List.mem_singleton_self _)
  obtain ⟨c, -, -, hin, hkept⟩ := hall d hreplaced
  obtain ⟨site, n, hn, hat⟩ := hv.at_of_replaced hreplaced
  obtain ⟨object, hobject, q, hq, hdeeper, s, hs, hsuper, hbody⟩ :=
    (hcalls n hn).resolve_left (not_not.mpr (Definition.at?_eq_some hat).1)
  have hproperties : d.properties = some object := (Definition.at?_arguments hat).1.trans hobject
  obtain ⟨m, -, -, method, -, hinfix⟩ := hkept 2 (by rw [hspan]; decide) q
    (by rw [Job.propertiesOf, hproperties]; exact hq) hdeeper s hs hsuper (hbody ▸ hsteady)
  have hslice : slice nestedMethodText s.function.body ++ ['\n'] =
      "\x7b\n\n      return `\nc`;\n    \x7d\n".toList := by
    rw [hbody]
    decide
  refine ⟨script, report, out, hparse, hrun, hout, hsteady, List.IsInfix.trans ?_ hin⟩
  rw [← hslice]
  exact (List.suffix_append _ _).isInfix.trans (List.append_assoc _ _ _ ▸ hinfix)

end Conversion

end EmberClasses
