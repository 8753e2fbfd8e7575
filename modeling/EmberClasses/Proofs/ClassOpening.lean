import EmberClasses.Proofs.ClassLines
import EmberClasses.Proofs.FileConversion
import EmberClasses.Proofs.TracedText

/-! How the text of a class opens. The comments of properties that become decorators of the class
are printed before everything else, also where the class is an expression and not a statement. -/

namespace EmberClasses

open Text

/-- What a text starts with is found in its first line. -/
theorem Text.splitLines_of_prefix {x text : List Char} (h : x <+: text) (hx : '\n' ∉ x) :
    ∃ first lines, splitLines text = first :: lines ∧ x <+: first := by
  obtain ⟨rest, rfl⟩ := h
  induction x with
  | nil =>
    cases hsplit : splitLines ([] ++ rest) with
    | nil => exact absurd hsplit (splitLines_ne_nil _)
    | cons first lines => exact ⟨first, lines, rfl, List.nil_prefix⟩
  | cons c x ih =>
    rw [List.mem_cons, not_or] at hx
    obtain ⟨first, lines, hfirst, hprefix⟩ := ih hx.2
    obtain ⟨line, lines', hline, hsplit⟩ := splitLines_cons_of_ne (Ne.symm hx.1) (x ++ rest)
    rw [hfirst, List.cons.injEq] at hline
    obtain ⟨rfl, rfl⟩ := hline
    exact ⟨c :: first, lines, hsplit, (List.prefix_cons_inj c).mpr hprefix⟩

namespace Comment

def Opens (text : List Char) : Prop := ['/', '/'] <+: text ∨ ['/', '*'] <+: text

instance (text : List Char) : Decidable (Opens text) := inferInstanceAs (Decidable (_ ∨ _))

def Place.Started : Place → Prop
  | .between => True
  | .line rev => ['/', '/'] <+: rev.reverse
  | .block _ rev => ['/', '*'] <+: rev.reverse

theorem Opens.eq_cons {text : List Char} (h : Opens text) : ∃ rest, text = '/' :: rest := by
  rcases h with ⟨rest, rfl⟩ | ⟨rest, rfl⟩
  · exact ⟨_, rfl⟩
  · exact ⟨_, rfl⟩

theorem prefix_trimEnd {text : List Char} (h : ['/', '/'] <+: text) :
    ['/', '/'] <+: trimEnd text := by
  obtain ⟨rest, rfl⟩ := h
  unfold trimEnd
  rw [List.reverse_append, List.dropWhile_append]
  split
  · exact List.prefix_rfl
  · rw [List.reverse_append]
    exact List.prefix_append _ _

private theorem prefix_dedentTail {text : List Char} (columns : Nat) (h : ['/', '*'] <+: text) :
    ['/', '*'] <+: Fragment.dedentTail columns text := by
  obtain ⟨first, lines, hsplit, hprefix⟩ := splitLines_of_prefix h (by decide)
  unfold Fragment.dedentTail Fragment.dedentLines
  rw [hsplit, List.mapIdx_cons, joinLines_cons]
  exact hprefix.trans (List.prefix_append _ _)

theorem opens_of_mem_scan {source : List Char} {place : Place} {n : Nat} {cs : List Char}
    (hplace : place.Started) : ∀ c ∈ scan source place n cs, Opens c := by
  fun_induction scan source place n cs with
  | case1 n => simp
  | case2 n cs ih => exact ih List.prefix_rfl
  | case3 n cs ih => exact ih List.prefix_rfl
  | case4 n c cs _ _ hblank ih => exact ih trivial
  | case5 => simp
  | case6 rev n => simpa [Opens] using .inl (prefix_trimEnd hplace)
  | case7 rev n cs ih =>
    intro c hc
    rcases List.mem_cons.mp hc with rfl | hc
    · exact .inl (prefix_trimEnd hplace)
    · exact ih trivial c hc
  | case8 rev n c cs hc ih =>
    apply ih
    rw [Place.Started, List.reverse_cons]
    exact List.IsPrefix.trans hplace (List.prefix_append _ _)
  | case9 => simp
  | case10 column rev n c cs hend ih =>
    intro x hx
    rcases List.mem_cons.mp hx with rfl | hx
    · apply Or.inr
      apply prefix_dedentTail
      rw [List.reverse_cons]
      exact List.IsPrefix.trans hplace (List.prefix_append _ _)
    · exact ih trivial x hx
  | case11 column rev n c cs hend ih =>
    apply ih
    rw [Place.Started, List.reverse_cons]
    exact List.IsPrefix.trans hplace (List.prefix_append _ _)

theorem opens_of_mem_between {source : List Char} {gap : Span} :
    ∀ c ∈ between source gap, Opens c := opens_of_mem_scan trivial

end Comment

theorem comments_of_mem_withComments {source : List Char} {offset : Nat} {ns : List Script.Node}
    {e : Script.Node × List (List Char)} (h : e ∈ withComments source offset ns) :
    ∀ c ∈ e.2, Comment.Opens c := by
  induction ns generalizing offset with
  | nil => cases h
  | cons n ns ih =>
    rcases List.mem_cons.mp h with rfl | h
    · exact Comment.opens_of_mem_between
    · exact ih h

theorem Property.comments_ofNode (file : File) (property : Script.Node)
    (comments : List (List Char)) : (ofNode file property comments).comments = comments := by
  unfold ofNode
  dsimp only
  split
  · split <;> rfl
  · rfl

theorem PropertyList.opens_of_mem_comments {file : Property.File} {object : Script.Node}
    {p : Property} (hp : p ∈ (PropertyList.ofObject file object).properties) :
    ∀ c ∈ p.comments, Comment.Opens c := by
  obtain ⟨e, he, rfl⟩ := List.mem_map.mp hp
  rw [Property.comments_ofNode]
  exact comments_of_mem_withComments he

namespace Blueprint

def leading (b : Blueprint) : List (List Char) :=
  (b.properties.filter (·.classDecorator?.isSome)).flatMap Property.comments

theorem addProperty_leading {c : Copy} {d d' : ClassDecl} {p : Property}
    (h : addProperty c d p = .ok d') :
    d'.leading = d.leading ++ if p.classDecorator?.isSome then p.comments else [] := by
  unfold addProperty at h
  cases hname : p.classDecorator? with
  | none =>
    rw [hname] at h
    dsimp only at h
    cases hms : Member.ofProperty c p with
    | error e => rw [hms] at h; cases h
    | ok ms =>
      rw [hms] at h
      cases h
      simp
  | some name =>
    rw [hname] at h
    dsimp only at h
    cases hd : classDecorator c p name with
    | error e => rw [hd] at h; cases h
    | ok decorator =>
      rw [hd] at h
      cases h
      simp

theorem build_leading {b : Blueprint} {o : Options} {c : Copy} {d : ClassDecl}
    (h : b.build o c = .ok d) : d.leading = b.leading := by
  refine Except.foldlM_inv (fun ps d => d.leading =
    (ps.filter (·.classDecorator?.isSome)).flatMap Property.comments)
    (fun ps p d d' hd hstep => ?_) [] rfl h
  rw [addProperty_leading hstep, hd, List.filter_append, List.flatMap_append]
  by_cases hp : p.classDecorator?.isSome
  · simp [hp]
  · simp [hp]

theorem leading_eq_nil_iff {b : Blueprint} :
    b.leading = [] ↔ ∀ p ∈ b.properties, p.classDecorator?.isSome → p.comments = [] := by
  simp only [leading, List.flatMap_eq_nil_iff, List.mem_filter, and_imp]

end Blueprint

/-- The text starts with the first token of a class expression. -/
def OpensClass (text : List Char) : Prop :=
  text.head? = some '(' ∨ text.head? = some '@' ∨ "class ".toList <+: text

instance (text : List Char) : Decidable (OpensClass text) := inferInstanceAs (Decidable (_ ∨ _ ∨ _))

theorem Comment.Opens.not_opensClass {text : List Char} (h : Comment.Opens text) :
    ¬ OpensClass text := by
  obtain ⟨rest, rfl⟩ := h.eq_cons
  rintro (h | h | h)
  · simp at h
  · simp at h
  · simp at h

namespace ClassDecl

/-- The first line of a text goes to the start of what is printed. -/
theorem exists_linesAt (level : Nat) {f : Fragment} {first : List Char} {rest : List (List Char)}
    (h : splitLines f.text = first :: rest) :
    ∃ lines, f.linesAt level = ⟨first, level, false⟩ :: lines := by
  unfold Fragment.linesAt
  rw [h, List.mapIdx_cons]
  exact ⟨_, rfl⟩

theorem exists_render_eq {c : ClassDecl} {lead text : List Char} {lines : List PrintedLine}
    (base : List Char) (h : c.lines lead = ⟨text, 0, false⟩ :: lines) :
    ∃ rest, c.render lead base = text ++ rest ∧ (lines ≠ [] → rest.head? = some '\n') := by
  rw [c.render_eq, h, List.mapIdx_cons, joinLines_cons]
  have hfirst : Printer.renderLine base 0 ⟨text, 0, false⟩ = text := by
    unfold Printer.renderLine
    by_cases htext : text = []
    · simp [htext]
    · simp [htext]
  rw [hfirst]
  refine ⟨_, rfl, fun hne => ?_⟩
  cases lines with
  | nil => exact absurd rfl hne
  | cons next lines => simp

theorem bodyLines_ne_nil (c : ClassDecl) (lead : List Char) : c.bodyLines lead ≠ [] := by
  unfold bodyLines
  split <;> simp

/-- A comment before the class comes first, on lines of its own. -/
theorem render_of_comment {c : ClassDecl} {comment : List Char} {comments : List (List Char)}
    (hleading : c.leading = comment :: comments) (hopens : Comment.Opens comment)
    (lead base : List Char) :
    ∃ first rest, c.render lead base = first ++ '\n' :: rest ∧ Comment.Opens first := by
  obtain ⟨first, more, hsplit, hfirst⟩ : ∃ first more,
      splitLines comment = first :: more ∧ Comment.Opens first := by
    rcases hopens with h | h
    · obtain ⟨first, more, hsplit, hfirst⟩ := splitLines_of_prefix h (by decide)
      exact ⟨first, more, hsplit, .inl hfirst⟩
    · obtain ⟨first, more, hsplit, hfirst⟩ := splitLines_of_prefix h (by decide)
      exact ⟨first, more, hsplit, .inr hfirst⟩
  obtain ⟨lines, hlines⟩ := exists_linesAt 0 (f := ⟨comment, []⟩) hsplit
  have hall : c.lines lead = ⟨first, 0, false⟩ :: (lines ++ commentLines 0 comments ++
      decoratorLines 0 c.decorators ++ c.bodyLines lead) := by
    simp [ClassDecl.lines, headLines, hleading, commentLines, hlines]
  obtain ⟨rest, hrender, hfeed⟩ := exists_render_eq base hall
  obtain ⟨rest, rfl⟩ := List.head?_eq_some_iff.mp (hfeed (by simp [c.bodyLines_ne_nil]))
  exact ⟨first, rest, hrender, hfirst⟩

/-- Without comments before it, a class starts with a decorator or its keywords. -/
theorem render_starts {c : ClassDecl} (hleading : c.leading = []) (lead base : List Char) :
    (c.render lead base).head? = some '@' ∨ lead ++ "class ".toList <+: c.render lead base := by
  cases hds : c.decorators with
  | nil =>
    obtain ⟨text, lines, hlines, htext⟩ : ∃ text lines,
        c.lines lead = ⟨text, 0, false⟩ :: lines ∧ lead ++ "class ".toList <+: text := by
      have hopening : lead ++ "class ".toList <+: c.opening lead := by
        simp only [opening, List.append_assoc]
        exact (List.prefix_append_right_inj lead).mpr (List.prefix_append _ _)
      unfold ClassDecl.lines headLines bodyLines
      rw [hleading, hds]
      split
      · exact ⟨_, _, rfl, hopening.trans (List.prefix_append _ _)⟩
      · exact ⟨_, _, rfl, hopening⟩
    obtain ⟨rest, hrender, -⟩ := exists_render_eq base hlines
    rw [hrender]
    exact .inr (htext.trans (List.prefix_append _ _))
  | cons d ds =>
    have hat : ['@'] <+: d.toFragment.text := by
      unfold AppliedDecorator.toFragment
      split
      · exact ⟨_, rfl⟩
      · exact ⟨_, rfl⟩
    obtain ⟨first, more, hsplit, hfirst⟩ := splitLines_of_prefix hat (by decide)
    obtain ⟨lines, hlines⟩ := exists_linesAt 0 hsplit
    have hall : c.lines lead = ⟨first, 0, false⟩ ::
        (lines ++ decoratorLines 0 ds ++ c.bodyLines lead) := by
      simp [ClassDecl.lines, headLines, hleading, hds, commentLines, decoratorLines, hlines]
    obtain ⟨rest, hrender, -⟩ := exists_render_eq base hall
    obtain ⟨more, rfl⟩ := hfirst
    rw [hrender]
    exact .inl rfl

theorem opensClass_render {c : ClassDecl} (hleading : c.leading = []) (base : List Char) :
    OpensClass (c.render [] base) :=
  .inr (render_starts hleading [] base)

end ClassDecl

namespace Conversion.Job

theorem opens_of_mem_leading (j : Job) (d : Definition) :
    ∀ c ∈ (j.blueprintOf d).leading, Comment.Opens c := by
  intro c hc
  obtain ⟨r, hr, hc⟩ := List.mem_flatMap.mp hc
  have hr : r ∈ (j.propertiesOf d).properties := (List.mem_filter.mp hr).1
  unfold propertiesOf at hr
  split at hr
  · exact PropertyList.opens_of_mem_comments hr c hc
  · cases hr

/-- A class that takes the place of a call starts with its first token exactly if it is put in
parentheses or no property that becomes a decorator of the class has comments. Otherwise it starts
with a comment, and a line feed comes before the class. -/
theorem expression_opens_class_iff (j : Job) (d : Definition) (span : Span) (parenthesize : Bool)
    (p q : Progress) (htarget : d.target = .expression span parenthesize)
    (hconvert : j.convert d p = .ok (true, q)) :
    ∃ text, q.edits = p.edits ++ [⟨span, text⟩] ∧
      (OpensClass text ↔ parenthesize = true ∨ ∀ r ∈ (j.propertiesOf d).properties,
        r.classDecorator?.isSome → r.comments = []) ∧
      (¬ OpensClass text → ∃ comment rest, text = comment ++ '\n' :: rest ∧
        Comment.Opens comment) := by
  obtain ⟨c, hbuild, hedits⟩ := convert_replaced hconvert
  refine ⟨j.textFor d c, by rw [hedits, htarget]; rfl, ?_⟩
  have hleading : c.leading = (j.blueprintOf d).leading := Blueprint.build_leading hbuild
  have htext : j.textFor d c = if parenthesize then
      '(' :: c.render [] (Text.lineIndent j.source span.start) ++ [')']
      else c.render [] (Text.lineIndent j.source span.start) := by
    simp only [textFor, htarget, Target.span]
  rw [htext]
  cases parenthesize with
  | true =>
    have hparen (text : List Char) : OpensClass ('(' :: text) := .inl rfl
    exact ⟨by simp [hparen], fun hno => absurd (hparen _) hno⟩
  | false =>
    have hnone : ((false = true) ∨ ∀ r ∈ (j.propertiesOf d).properties,
        r.classDecorator?.isSome → r.comments = []) ↔ c.leading = [] := by
      rw [hleading, Blueprint.leading_eq_nil_iff]
      simp [blueprintOf]
    rw [hnone, if_neg Bool.false_ne_true]
    cases hcomments : c.leading with
    | nil =>
      have hopens := ClassDecl.opensClass_render hcomments (Text.lineIndent j.source span.start)
      exact ⟨by simp [hopens], fun hno => absurd hopens hno⟩
    | cons comment comments =>
      have hopens : Comment.Opens comment := by
        rw [hleading] at hcomments
        exact j.opens_of_mem_leading d comment (hcomments ▸ List.mem_cons_self)
      obtain ⟨first, rest, hrender, hfirst⟩ := ClassDecl.render_of_comment hcomments hopens []
        (Text.lineIndent j.source span.start)
      have hno : ¬ OpensClass (first ++ '\n' :: rest) := by
        apply Comment.Opens.not_opensClass
        exact hfirst.imp (·.trans (List.prefix_append _ _)) (·.trans (List.prefix_append _ _))
      rw [hrender]
      exact ⟨by simp [hno], fun _ => ⟨first, rest, rfl, hfirst⟩⟩

theorem expression_opens_class_of_member_comment :
    ∃ (script : Script.Node) (d : Definition) (q : Progress) (text : List Char),
      let source := "Y.extend(\x7b tagName: 'a', /* b */ c: 1 \x7d);".toList
      Script.parse ⟨false⟩ source = .ok script ∧
      d ∈ script.preorder.filterMap (Definition.at? .plain) ∧
      d.target = .expression ⟨0, 40⟩ false ∧
      (ofScript ⟨"a.js"⟩ source {} {} script).convert d {} = .ok (true, q) ∧
      q.edits = [⟨⟨0, 40⟩, text⟩] ∧ OpensClass text := by
  generalize hsource : String.toList _ = source
  have h : ((Script.parse ⟨false⟩ source).toOption.any fun script =>
      let job := ofScript ⟨"a.js"⟩ source {} {} script
      (script.preorder.filterMap (Definition.at? .plain)).any fun d =>
        (job.convert d {}).toOption.any fun answer =>
          decide (d.target = .expression ⟨0, 40⟩ false) && answer.1 &&
            decide (∀ r ∈ (job.propertiesOf d).properties,
              r.classDecorator?.isSome → r.comments = [])) = true := by
    subst hsource
    decide +kernel
  simp only [Option.any_eq_true, List.any_eq_true, Except.toOption_eq_some_iff, Bool.and_eq_true,
    decide_eq_true_eq] at h
  obtain ⟨script, hparse, d, hd, ⟨replaced, q⟩, hconvert, ⟨htarget, rfl⟩, hnone⟩ := h
  obtain ⟨text, hedits, hopens, -⟩ := expression_opens_class_iff _ d _ _ {} q htarget hconvert
  exact ⟨script, d, q, text, hparse, hd, htarget, hconvert, hedits, hopens.mpr (.inr hnone)⟩

/-- A comment and a line feed come between a `return` and the class it should return. -/
theorem comment_parts_return_from_class :
    ∃ (script : Script.Node) (d : Definition) (q : Progress),
      let source := ("function f() \x7b\n  return Y.extend(\x7b\n    // b\n    tagName: 'c'\n" ++
        "  \x7d);\n\x7d").toList
      Script.parse ⟨false⟩ source = .ok script ∧
      d ∈ script.preorder.filterMap (Definition.at? .plain) ∧
      d.target = .expression ⟨24, 65⟩ false ∧ Text.slice source ⟨17, 24⟩ = "return ".toList ∧
      (ofScript ⟨"a.js"⟩ source {} {} script).convert d {} = .ok (true, q) ∧
      q.edits.map Edit.text =
        ["// b\n  @classic\n  @tagName('c')\n  class A extends Y \x7b\x7d".toList] := by
  generalize hsource : String.toList _ = source
  have h : ((Script.parse ⟨false⟩ source).toOption.any fun script =>
      let job := ofScript ⟨"a.js"⟩ source {} {} script
      (script.preorder.filterMap (Definition.at? .plain)).any fun d =>
        (job.convert d {}).toOption.any fun answer =>
          decide (d.target = .expression ⟨24, 65⟩ false) && answer.1 &&
            decide (answer.2.edits.map Edit.text =
              ["// b\n  @classic\n  @tagName('c')\n  class A extends Y \x7b\x7d".toList])) =
        true := by
    subst hsource
    decide +kernel
  simp only [Option.any_eq_true, List.any_eq_true, Except.toOption_eq_some_iff, Bool.and_eq_true,
    decide_eq_true_eq] at h
  obtain ⟨script, hparse, d, hd, ⟨replaced, q⟩, hconvert, ⟨htarget, rfl⟩, htext⟩ := h
  exact ⟨script, d, q, hparse, hd, htarget, by rw [← hsource]; decide, hconvert, htext⟩

end Conversion.Job

end EmberClasses
