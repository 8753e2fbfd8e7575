import EmberClasses.Proofs.Acceptance
import EmberClasses.Proofs.ClassCuts
import EmberClasses.Proofs.DefinitionWalk
import EmberClasses.Proofs.ImportEdits
import EmberClasses.Proofs.ParsedTrees

/-! Converting the definitions of a file. No definition makes the conversion fail, and the edits
that were collected can be made together unless a definition stands in the type of a variable whose
statement is replaced. -/

namespace EmberClasses.Conversion

open Script (Node Kind)

namespace Job

/-- What converting one definition adds to the progress. -/
theorem convert_eq_ok {j : Job} {d : Definition} {p q : Progress} {replaced : Bool}
    (h : j.convert d p = .ok (replaced, q)) :
    if replaced then
      (∃ text, q.edits = p.edits ++ [⟨d.target.span, text⟩]) ∧ q.failures = p.failures ∧
        q.transformed = p.transformed + 1
    else
      q.edits = p.edits ∧ q.transformed = p.transformed ∧
        ∃ problems, q.failures = p.failures ++ [⟨d.span, problems⟩] := by
  unfold convert at h
  dsimp only at h
  split at h
  · split at h
    · cases h
    · cases h
      exact ⟨⟨_, rfl⟩, rfl, rfl⟩
  · cases h
    exact ⟨rfl, rfl, _, rfl⟩

/-- A definition that is replaced is so by the text of its class. -/
theorem convert_replaced {j : Job} {d : Definition} {p q : Progress}
    (h : j.convert d p = .ok (true, q)) :
    ∃ c, (j.blueprintOf d).build j.options j.copy = .ok c ∧
      q.edits = p.edits ++ [⟨d.target.span, j.textFor d c⟩] := by
  unfold convert at h
  dsimp only at h
  split at h
  · cases hbuild : (j.blueprintOf d).build j.options j.copy with
    | error e => rw [hbuild] at h; cases h
    | ok c =>
      rw [hbuild] at h
      cases h
      exact ⟨c, rfl, rfl⟩
  · cases h

end Job

def kept (answers : List (Definition × Bool)) : List Definition :=
  (answers.filter (!·.2)).map Prod.fst

/-- Each definition of a walk has left its edit or its failure, in order. -/
theorem progress_of_answers {j : Job} {answers : List (Definition × Bool)} {p q : Progress}
    (h : Definition.Answers j.convert answers p q) :
    q.edits.map Edit.span =
        p.edits.map Edit.span ++ (Definition.replaced answers).map (·.target.span) ∧
      q.failures.map Failure.span = p.failures.map Failure.span ++ (kept answers).map (·.span) ∧
      q.transformed = p.transformed + (Definition.replaced answers).length := by
  induction answers generalizing p with
  | nil => cases h; simp [Definition.replaced, kept]
  | cons a answers ih =>
    obtain ⟨d, b⟩ := a
    obtain ⟨u, hu, hrest⟩ := h
    obtain ⟨hedits, hfailures, htransformed⟩ := ih hrest
    have hstep := Job.convert_eq_ok hu
    cases b with
    | true =>
      obtain ⟨⟨text, he⟩, hf, ht⟩ := hstep
      refine ⟨?_, ?_, ?_⟩
      · simp [hedits, he, Definition.replaced]
      · simp [hfailures, hf, kept]
      · simp [htransformed, ht, Definition.replaced]
        omega
    | false =>
      obtain ⟨he, ht, problems, hf⟩ := hstep
      refine ⟨?_, ?_, ?_⟩
      · simp [hedits, he, Definition.replaced]
      · simp [hfailures, hf, kept]
      · simp [htransformed, ht, Definition.replaced]

def editsOf (j : Job) (imports : List Import.Declaration) (p : Progress) : List Edit :=
  p.edits ++ Import.edits j.source imports p.builtins j.options.quote

section Run

variable {o : Options} {telemetry : Telemetry} {path : Path} {source : List Char} {script : Node}
  {p : Progress}

/-- A file that is looked at, and whose definitions have been gone through, gets its output last. -/
theorem run_eq (hskip : skipReason? o path (telemetry.lookup path) = none)
    (hparse : Script.parse (dialectOf path) source = .ok script)
    (hwalk : Definition.forEach script {} (Job.ofScript path source o
      ((telemetry.lookup path).getD {}) script).convert = .ok p) :
    run o telemetry path source = (if 0 < p.transformed then
        some <$> outputOf (Job.ofScript path source o ((telemetry.lookup path).getD {}) script)
          (Import.Declaration.ofScript script) p
      else pure none) >>= fun output =>
        pure { path, outcome := outcomeOf p, transformed := p.transformed, failures := p.failures,
               output } := by
  unfold run
  dsimp only
  rw [hskip]
  dsimp only
  rw [hparse]
  dsimp only [Except.mapError, bind, Except.bind]
  rw [hwalk]
  dsimp only
  by_cases hp : 0 < p.transformed
  · rw [if_pos hp, if_pos hp]
  · rw [if_neg hp, if_neg hp]

theorem apply_of_outputOf {j : Job} {imports : List Import.Declaration} {text : List Char}
    (h : outputOf j imports p = .ok text) :
    Edit.apply j.source (editsOf j imports p) = .ok text := by
  unfold outputOf at h
  dsimp only at h
  change (Edit.apply j.source (editsOf j imports p)).mapError _ >>= _ = _ at h
  cases happly : Edit.apply j.source (editsOf j imports p) with
  | error bad => rw [happly] at h; cases h
  | ok out =>
    rw [happly] at h
    dsimp only [Except.mapError, bind, Except.bind] at h
    split at h
    · cases h
    · cases h; rfl

/-- Edits that overlap end the conversion of a file. -/
theorem run_misplaced (hskip : skipReason? o path (telemetry.lookup path) = none)
    (hparse : Script.parse (dialectOf path) source = .ok script)
    (hwalk : Definition.forEach script {} (Job.ofScript path source o
      ((telemetry.lookup path).getD {}) script).convert = .ok p)
    (hpos : 0 < p.transformed)
    (hle : ∀ e ∈ editsOf (Job.ofScript path source o ((telemetry.lookup path).getD {}) script)
      (Import.Declaration.ofScript script) p, e.span.start ≤ e.span.stop)
    (hap : ¬ (editsOf (Job.ofScript path source o ((telemetry.lookup path).getD {}) script)
      (Import.Declaration.ofScript script) p).Pairwise fun a b => a.span.Apart b.span) :
    ∃ bad, run o telemetry path source = .error (.breach (.misplaced bad)) := by
  rw [run_eq hskip hparse hwalk, if_pos hpos]
  unfold outputOf
  dsimp only
  change ∃ bad, (some <$> ((Edit.apply source (editsOf _ _ p)).mapError _ >>= _)) >>= _ = _
  cases happly : Edit.apply source (editsOf (Job.ofScript path source o
      ((telemetry.lookup path).getD {}) script) (Import.Declaration.ofScript script) p) with
  | error bad => exact ⟨bad, rfl⟩
  | ok out => exact absurd (Edit.apart_of_apply hle happly) hap

theorem path_of_run {report : Report} (hrun : run o telemetry path source = .ok report) :
    report.path = path := by
  unfold run at hrun
  dsimp only at hrun
  cases hskip : skipReason? o path (telemetry.lookup path) with
  | some reason => rw [hskip] at hrun; cases hrun; rfl
  | none =>
    rw [hskip] at hrun
    dsimp only at hrun
    obtain ⟨script, -, hrun⟩ := Except.bind_eq_ok hrun
    obtain ⟨p, -, hrun⟩ := Except.bind_eq_ok hrun
    split at hrun
    · obtain ⟨output, -, hrun⟩ := Except.bind_eq_ok hrun
      cases hrun
      rfl
    · cases hrun
      rfl

/-- A report tells how the definitions fared, and holds what the edits give. -/
theorem report_of_run (hskip : skipReason? o path (telemetry.lookup path) = none)
    (hparse : Script.parse (dialectOf path) source = .ok script)
    (hwalk : Definition.forEach script {} (Job.ofScript path source o
      ((telemetry.lookup path).getD {}) script).convert = .ok p)
    {report : Report} (hrun : run o telemetry path source = .ok report) :
    report.transformed = p.transformed ∧ report.failures = p.failures ∧
      ∀ text, report.output = some text →
        Edit.apply source (editsOf (Job.ofScript path source o ((telemetry.lookup path).getD {})
          script) (Import.Declaration.ofScript script) p) = .ok text := by
  rw [run_eq hskip hparse hwalk] at hrun
  by_cases hpos : 0 < p.transformed
  · rw [if_pos hpos] at hrun
    cases hout : outputOf (Job.ofScript path source o ((telemetry.lookup path).getD {}) script)
        (Import.Declaration.ofScript script) p with
    | error e => rw [hout] at hrun; cases hrun
    | ok out =>
      rw [hout] at hrun
      cases hrun
      refine ⟨rfl, rfl, fun text htext => ?_⟩
      cases htext
      exact apply_of_outputOf hout
  · rw [if_neg hpos] at hrun
    cases hrun
    exact ⟨rfl, rfl, fun text htext => by cases htext⟩

end Run

section Script

variable {source : List Char} {script : Node} {answers : List (Definition × Bool)}

/-- A statement with a call in it is no import, so the edits of imports leave it alone. -/
private theorem apart_of_importEdit (hs : script.Faithful source) {c m : Node}
    (hc : c ∈ script.children) (hcall : ∃ l ∈ c.preorder, l.kind = .call) (hm : m ∈ c.preorder)
    (hsolid : m.kind.isSolid) {wanted : List Builtin} {quote : Quote} {e : Edit}
    (he : e ∈ Import.edits source (Import.Declaration.ofScript script) wanted quote) :
    m.span.Apart e.span := by
  have hroot := Node.mem_preorder_trans script (Node.mem_preorder_child hc) hm
  refine Import.Plan.apart_of_imports (fun d hd => ?_) (hs.starts m hroot hsolid)
    (Import.arranged_ofScript hs) he
  obtain ⟨n, hn, hspan, typeOnly, hk⟩ := Import.mem_ofScript hd
  have hne : c ≠ n := by
    rintro rfl
    obtain ⟨l, hl, hlk⟩ := hcall
    exact hs.imports c hc (by simp [hk, Kind.isImport]) l hl hlk
  have hsymm : Std.Symm fun a b : Node => a.span.Apart b.span := ⟨fun _ _ => Span.Apart.symm⟩
  have hap : script.children.Pairwise fun a b => a.span.Apart b.span :=
    hs.formed.nested.children_from.pairwise.imp .inl
  rw [← hspan]
  exact (hap.forall hc hn hne).mono (Node.WellNested.of_mem c (hs.formed.child hc).nested hm).2

private theorem visited_apart (hs : script.Faithful source)
    (hv : Definition.Visits [(.plain, script)] answers) {a : Definition × Bool} (ha : a ∈ answers)
    {wanted : List Builtin} {quote : Quote} {e : Edit}
    (he : e ∈ Import.edits source (Import.Declaration.ofScript script) wanted quote) :
    a.1.span.Apart e.span ∧ a.1.target.span.Apart e.span := by
  obtain ⟨hcovers, c, hc, ⟨m, hm, hk, -⟩, l, hl, hsolid, hspan⟩ := (hv.of_script hs).2 a ha
  have htarget : a.1.target.span.Apart e.span := by
    rw [← hspan]
    exact apart_of_importEdit hs hc ⟨m, hm, hk⟩ hl hsolid he
  exact ⟨htarget.mono hcovers.1, htarget⟩

private theorem visited_on_boundaries (hs : script.Faithful source)
    (hv : Definition.Visits [(.plain, script)] answers) {a : Definition × Bool} (ha : a ∈ answers) :
    a.1.span.OnBoundaries source ∧ a.1.target.span.start ≤ a.1.target.span.stop ∧
      a.1.target.span.OnBoundaries source := by
  obtain ⟨-, c, hc, ⟨m, hm, -, hms⟩, l, hl, -, hls⟩ := (hv.of_script hs).2 a ha
  have hroot {n : Node} (hn : n ∈ c.preorder) : n ∈ script.preorder :=
    Node.mem_preorder_trans script (Node.mem_preorder_child hc) hn
  rw [← hms, ← hls]
  exact ⟨hs.boundaries m (hroot hm), (hs.formed.of_mem (hroot hl)).nested.start_le_stop,
    hs.boundaries l (hroot hl)⟩

variable {j : Job} {p : Progress}

theorem mem_edits (hp : p.edits.map Edit.span =
      (Definition.replaced answers).map (·.target.span)) {e : Edit} (he : e ∈ p.edits) :
    ∃ d ∈ Definition.replaced answers, e.span = d.target.span := by
  have hmem : e.span ∈ (Definition.replaced answers).map (·.target.span) :=
    hp ▸ List.mem_map_of_mem he
  obtain ⟨d, hd, hspan⟩ := List.mem_map.mp hmem
  exact ⟨d, hd, hspan.symm⟩

/-- Every edit of a file lies in the file and cuts it between characters. -/
theorem editsOf_on_boundaries (hs : script.Faithful j.source)
    (hv : Definition.Visits [(.plain, script)] answers)
    (hp : p.edits.map Edit.span = (Definition.replaced answers).map (·.target.span)) :
    ∀ e ∈ editsOf j (Import.Declaration.ofScript script) p,
      e.span.start ≤ e.span.stop ∧ e.span.OnBoundaries j.source := by
  intro e he
  rcases List.mem_append.mp he with he | he
  · obtain ⟨d, hd, hspan⟩ := mem_edits hp he
    rw [hspan]
    exact (visited_on_boundaries hs hv (Definition.mem_replaced.mp hd)).2
  · exact Import.Plan.edits_on_boundaries (Import.arranged_ofScript hs) he

/-- The edits of a file fit together, and leave alone what should be left alone, exactly when no
definition stands before the call of a replaced one, inside its statement. -/
theorem clear_iff_editsOf_apart (hs : script.Faithful j.source)
    (hv : Definition.Visits [(.plain, script)] answers)
    (hp : p.edits.map Edit.span = (Definition.replaced answers).map (·.target.span)) :
    Definition.Clear answers ↔
      ((editsOf j (Import.Declaration.ofScript script) p).Pairwise fun a b =>
        a.span.Apart b.span) ∧
      ∀ d, Definition.Spared answers d →
        ∀ e ∈ editsOf j (Import.Declaration.ofScript script) p, d.span.Apart e.span := by
  obtain ⟨hplaced, hcovers⟩ := hv.of_script hs
  have hdefinitions : (p.edits.Pairwise fun a b => a.span.Apart b.span) ↔
      (Definition.replaced answers).Pairwise fun a b => a.target.span.Apart b.target.span := by
    rw [← List.pairwise_map (f := Edit.span) (R := Span.Apart), hp, List.pairwise_map]
  unfold editsOf
  constructor
  · intro hclear
    refine ⟨List.pairwise_append.mpr ⟨?_, ?_, fun e he f hf => ?_⟩, fun d hd e he => ?_⟩
    · exact hdefinitions.mpr (hclear.apart hplaced fun a ha => (hcovers a ha).1.1)
    · exact Import.Plan.edits_apart (Import.arranged_ofScript hs) (Import.Plan.make_distinct _ _)
    · obtain ⟨d, hd, hspan⟩ := mem_edits hp he
      rw [hspan]
      exact (visited_apart hs hv (Definition.mem_replaced.mp hd) hf).2
    · rcases List.mem_append.mp he with he | he
      · obtain ⟨r, hr, hspan⟩ := mem_edits hp he
        rw [hspan]
        exact hclear.spared hplaced (fun a ha => (hcovers a ha).1.1) hd hr
      · exact (visited_apart hs hv hd.kept he).1
  · rintro ⟨hap, hspared⟩
    refine Definition.clear_of_apart (fun a ha => (hcovers a ha).1)
      (hdefinitions.mp (List.pairwise_append.mp hap).1) fun d hd r hr => ?_
    have hmem : r.target.span ∈ p.edits.map Edit.span :=
      hp ▸ List.mem_map.mpr ⟨r, hr, rfl⟩
    obtain ⟨e, he, hspan⟩ := List.mem_map.mp hmem
    rw [← hspan]
    exact hspared d hd e (List.mem_append_left _ he)

/-- If no definition stands in the way, the edits can be made, and what was spared is still there.
-/
theorem apply_of_clear (hs : script.Faithful j.source)
    (hv : Definition.Visits [(.plain, script)] answers)
    (hp : p.edits.map Edit.span = (Definition.replaced answers).map (·.target.span))
    (hclear : Definition.Clear answers) :
    ∃ out, Edit.apply j.source (editsOf j (Import.Declaration.ofScript script) p) = .ok out ∧
      ∀ d, Definition.Spared answers d → Text.slice j.source d.span <:+: out := by
  obtain ⟨hap, hspared⟩ := (clear_iff_editsOf_apart hs hv hp).mp hclear
  have hon := editsOf_on_boundaries hs hv hp
  obtain ⟨out, hout⟩ := Edit.apply_ok hap hon
  refine ⟨out, hout, fun d hd => ?_⟩
  have hsplices := Edit.splices_of_apply hon hout
  have hvisited := (hv.of_script hs).2 _ hd.kept
  exact hsplices.slice_infix (visited_on_boundaries hs hv hd.kept).1 hvisited.1.2.le
    fun e he => hspared d hd e ((Edit.sorted_perm _).mem_iff.mp he)

end Script

/-- Going through the definitions of a script never breaks, and leaves an edit or a failure for each
of those that were come to. -/
theorem walk_ok {source : List Char} {script : Node} (hs : script.Faithful source) (j : Job) :
    ∃ answers p, Definition.Visits [(.plain, script)] answers ∧
      Definition.forEach script {} j.convert = .ok p ∧
      Definition.Answers j.convert answers {} p := by
  have hconvert : ∀ m ∈ script.preorder, ∀ site d q, Definition.at? site m = some d →
      ∃ answer, j.convert d q = .ok answer := fun m hm site d q hd =>
    j.convert_ok (fun object ho => (hs.formed.of_mem hm).of_mem (Definition.properties_mem hd ho)) q
  obtain ⟨p, hp⟩ := Definition.forEach_ok hconvert {}
  obtain ⟨answers, hv, ha⟩ := Definition.forEach_visits hp
  exact ⟨answers, p, hv, hp, ha⟩

theorem length_replaced_add_kept (answers : List (Definition × Bool)) :
    (Definition.replaced answers).length + (kept answers).length = answers.length := by
  simp only [Definition.replaced, kept, List.length_map]
  induction answers with
  | nil => rfl
  | cons a answers ih =>
    cases h : a.2 <;> simp [h] <;> omega

/-- The edits of a file fit together exactly when no definition stands before the call of a replaced
one, inside its statement. -/
theorem run_edits_apart_iff_clear (o : Options) (telemetry : Telemetry) (path : Path)
    (source : List Char) (script : Node)
    (hskip : skipReason? o path (telemetry.lookup path) = none)
    (hparse : Script.parse (dialectOf path) source = .ok script) :
    let job := Job.ofScript path source o ((telemetry.lookup path).getD {}) script
    ∃ answers p,
      Definition.Visits [(.plain, script)] answers ∧
      Definition.forEach script {} job.convert = .ok p ∧
      Definition.Answers job.convert answers {} p ∧
      let edits := editsOf job (Import.Declaration.ofScript script) p
      p.edits.map Edit.span = (Definition.replaced answers).map (·.target.span) ∧
      p.failures.map Failure.span = (kept answers).map (·.span) ∧
      p.transformed = p.edits.length ∧
      p.transformed + p.failures.length = answers.length ∧
      (∀ e ∈ edits, e.span.start ≤ e.span.stop ∧ e.span.Inside (Text.whole source)) ∧
      (Definition.Clear answers ↔
        (edits.Pairwise fun a b => a.span.Apart b.span) ∧
          ∀ d, Definition.Spared answers d → ∀ e ∈ edits, d.span.Apart e.span) ∧
      (Definition.Clear answers → ∃ out, Edit.apply source edits = .ok out ∧
        ∀ d, Definition.Spared answers d → Text.slice source d.span <:+: out) ∧
      (¬ (edits.Pairwise fun a b => a.span.Apart b.span) →
        ∃ bad, run o telemetry path source = .error (.breach (.misplaced bad))) ∧
      ∀ report, run o telemetry path source = .ok report →
        report.transformed = p.transformed ∧ report.failures = p.failures ∧
          ∀ text, report.output = some text → Edit.apply source edits = .ok text ∧
            Edit.Splices 0 source (Edit.sorted edits) text := by
  intro job
  have hscript := Script.faithful_of_parse hparse
  obtain ⟨answers, p, hv, hwalk, ha⟩ := walk_ok hscript job
  obtain ⟨hedits, hfailures, htransformed⟩ := progress_of_answers ha
  simp only [List.map_nil, List.nil_append, Nat.zero_add] at hedits hfailures htransformed
  have hon := editsOf_on_boundaries (j := job) hscript hv hedits
  have hiff := clear_iff_editsOf_apart (j := job) hscript hv hedits
  have hlength : p.edits.length = (Definition.replaced answers).length := by
    simpa using congrArg List.length hedits
  have hlength' : p.failures.length = (kept answers).length := by
    simpa using congrArg List.length hfailures
  have hsum := length_replaced_add_kept answers
  refine ⟨answers, p, hv, hwalk, ha, hedits, hfailures, by omega, by omega,
    fun e he => ⟨(hon e he).1, Nat.zero_le _, (hon e he).2.2.le⟩, hiff,
    apply_of_clear (j := job) hscript hv hedits, fun hap => ?_, fun report hrun => ?_⟩
  · refine run_misplaced hskip hparse hwalk (Nat.pos_of_ne_zero fun hzero => hap ?_)
      (fun e he => (hon e he).1) hap
    have hnone : Definition.replaced answers = [] :=
      List.eq_nil_of_length_eq_zero (htransformed.symm.trans hzero)
    refine (hiff.mp fun b hb hreplaced => ?_).1
    have hmem : b.1 ∈ Definition.replaced answers :=
      Definition.mem_replaced.mpr (by rwa [← hreplaced])
    rw [hnone] at hmem
    cases hmem
  · obtain ⟨ht, hf, hout⟩ := report_of_run hskip hparse hwalk hrun
    exact ⟨ht, hf, fun text htext =>
      ⟨hout text htext, Edit.splices_of_apply hon (hout text htext)⟩⟩

theorem run_edits_apart_on_two_declarators :
    ∃ (script : Node) (answers : List (Definition × Bool)) (p : Progress),
      Script.parse (dialectOf ⟨"a.js"⟩)
        "const A = B.extend(\x7b c: 1 \x7d), D = E.extend(\x7b f: \x7b\x7d \x7d);".toList =
          .ok script ∧
      Definition.Visits [(.plain, script)] answers ∧
      p.transformed = 1 ∧ p.transformed + p.failures.length = answers.length := by
  generalize hsource : String.toList _ = source
  have hskip : skipReason? {} ⟨"a.js"⟩ (Telemetry.lookup ⟨[(⟨"a.js"⟩, {})]⟩ ⟨"a.js"⟩) = none := by
    decide +kernel
  have h : ((Script.parse (dialectOf ⟨"a.js"⟩) source).toOption.any fun script =>
      let usage := (Telemetry.lookup ⟨[(⟨"a.js"⟩, {})]⟩ ⟨"a.js"⟩).getD {}
      let job := Job.ofScript ⟨"a.js"⟩ source {} usage script
      (Definition.forEach script {} job.convert).toOption.any fun p =>
        p.transformed == 1) = true := by
    subst hsource
    decide +kernel
  simp only [Option.any_eq_true, Except.toOption_eq_some_iff, beq_iff_eq] at h
  obtain ⟨script, hparse, q, hq, hone⟩ := h
  obtain ⟨answers, p, hv, hp, -, -, -, -, hsum, -⟩ :=
    run_edits_apart_iff_clear {} _ _ source script hskip hparse
  rw [hp, Except.ok.injEq] at hq
  exact ⟨script, answers, p, hparse, hv, hq ▸ hone, hsum⟩

/-- A definition in the type of a variable is replaced, and so is the statement around it. -/
theorem run_fails_on_definition_in_type :
    ∃ bad, run {} ⟨[(⟨"a.ts"⟩, {})]⟩ ⟨"a.ts"⟩
      "const A: \x7b [X.extend(\x7b\x7d)]: string \x7d = Y.extend(\x7b\x7d);".toList =
        .error (.breach (.misplaced bad)) := by
  generalize hsource : String.toList _ = source
  generalize hpath : (⟨"a.ts"⟩ : Path) = path
  have hskip : skipReason? {} path (Telemetry.lookup ⟨[(path, {})]⟩ path) = none := by
    subst hpath
    decide +kernel
  have h : ((Script.parse (dialectOf path) source).toOption.any fun script =>
      let job := Job.ofScript path source {} ((Telemetry.lookup ⟨[(path, {})]⟩ path).getD {}) script
      (Definition.forEach script {} job.convert).toOption.any fun p =>
        let spans := (editsOf job (Import.Declaration.ofScript script) p).map Edit.span
        p.transformed == 2 && spans == [⟨12, 24⟩, ⟨0, 51⟩, ⟨0, 0⟩]) = true := by
    subst hpath hsource
    decide +kernel
  simp only [Option.any_eq_true, Except.toOption_eq_some_iff, Bool.and_eq_true, beq_iff_eq] at h
  obtain ⟨script, hparse, p, hp, htwo, hspans⟩ := h
  apply run_misplaced hskip hparse hp (by omega)
  · intro e he
    have : e.span ∈ [(⟨12, 24⟩ : Span), ⟨0, 51⟩, ⟨0, 0⟩] := hspans ▸ List.mem_map_of_mem he
    revert this
    generalize e.span = s
    revert s
    decide
  · rw [← List.pairwise_map (f := Edit.span) (R := Span.Apart), hspans]
    decide

section Runs

variable {o : Options} {telemetry : Telemetry} {path : Path} {source : List Char} {report : Report}

/-- A file that has a report and was not skipped was read and gone through. -/
theorem walk_of_run (hrun : run o telemetry path source = .ok report)
    (hlooked : ∀ reason, report ≠ { path, outcome := .skipped reason }) :
    skipReason? o path (telemetry.lookup path) = none ∧
      ∃ script p, Script.parse (dialectOf path) source = .ok script ∧
        Definition.forEach script {} (Job.ofScript path source o
          ((telemetry.lookup path).getD {}) script).convert = .ok p := by
  unfold run at hrun
  dsimp only at hrun
  cases hskip : skipReason? o path (telemetry.lookup path) with
  | some reason =>
    rw [hskip] at hrun
    cases hrun
    exact absurd rfl (hlooked reason)
  | none =>
    rw [hskip] at hrun
    dsimp only at hrun
    obtain ⟨script, hparse, hrun⟩ := Except.bind_eq_ok hrun
    obtain ⟨p, hwalk, -⟩ := Except.bind_eq_ok hrun
    exact ⟨rfl, script, p, Except.ok_of_mapError hparse, Except.ok_of_mapError hwalk⟩

end Runs

def plainClasses : Options := { classicDecorator := false }

def oneFile : Telemetry := ⟨[(⟨"a.js"⟩, {})]⟩

end EmberClasses.Conversion
