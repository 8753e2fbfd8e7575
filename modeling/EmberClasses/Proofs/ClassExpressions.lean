import EmberClasses.Proofs.ClassOpening
import EmberClasses.Proofs.DefinitionCoverage

/-! Classes in front of a longer expression. Where an expression statement, or the expression of a
default export, starts with a definition and goes on after it, a class that is not put in
parentheses would be read as a declaration, and what follows it as a statement of its own. -/

namespace EmberClasses

open Script (Node Kind)

theorem Script.Node.exists_parent {n : Node} (e : Node) (hn : n ∈ e.preorder) (hne : n ≠ e) :
    ∃ p ∈ e.preorder, n ∈ p.children := by
  rcases Node.mem_preorder.mp hn with rfl | ⟨c, hc, hnc⟩
  · exact absurd rfl hne
  by_cases heq : n = c
  · exact ⟨e, Node.mem_preorder_self e, heq ▸ hc⟩
  · have hlt := Node.sizeOf_lt_of_child hc
    obtain ⟨p, hp, hchild⟩ := Node.exists_parent c hnc heq
    exact ⟨p, Node.mem_preorder_trans e (Node.mem_preorder_child hc) hp, hchild⟩
termination_by sizeOf e

namespace Definition

/-- The expression `e` of a statement or of a default export starts with the node and goes on after
it. -/
structure Leads (script n e : Node) : Prop where
  statement : ∃ s ∈ script.preorder, (s.kind = .expression ∨ s.kind = .exportDefault) ∧
    e ∈ s.children
  mem : n ∈ e.preorder
  start : n.span.start = e.span.start
  more : n ≠ e

/-- In the expression, the node is the object whose member is accessed by name. -/
def IsObject (e n : Node) : Prop :=
  ∃ m ∈ e.preorder, (∃ name, m.kind = .member name) ∧ n ∈ m.children

theorem childSite_eq_accessed {site : Site} {n : Node} {i : Nat} :
    (∃ member owner, childSite site n i = .accessed member owner) ↔
      ∃ name, n.kind = .member name := by
  unfold childSite
  split <;> simp_all
  all_goals split <;> simp_all

theorem Site.target_eq_expression {site : Site} {span span' : Span} {parenthesize : Bool}
    (h : site.target span = .expression span' parenthesize) :
    span' = span ∧
      (parenthesize = true ↔ ∃ member owner, site = .accessed member owner) := by
  unfold Site.target at h
  split at h
  · cases h
  · cases h
  · cases h
    exact ⟨rfl, iff_of_true rfl ⟨_, _, rfl⟩⟩
  · rename_i haccessed
    cases h
    refine ⟨rfl, iff_of_false Bool.false_ne_true ?_⟩
    rintro ⟨member, owner, rfl⟩
    exact haccessed member owner rfl

theorem Leads.mem_script {script n e : Node} (h : Leads script n e) :
    e ∈ script.preorder ∧ n ≠ script := by
  obtain ⟨s, hs, -, he⟩ := h.statement
  refine ⟨Node.mem_preorder_trans script hs (Node.mem_preorder_child he), ?_⟩
  rintro rfl
  have hle := Node.sizeOf_le_of_mem_preorder n hs
  have hlt := Node.sizeOf_lt_of_child he
  have hbelow := Node.sizeOf_le_of_mem_preorder e h.mem
  omega

/-- A call at the start of a longer expression is in the place of an accessed object exactly if the
expression goes on with the access. -/
theorem Leads.site_accessed_iff {script n e : Node} {site : Site} (h : Leads script n e)
    (hs : script.Formed) (hn : n.kind.isSolid) (hreach : Reaches (.plain, script) (site, n)) :
    (∃ member owner, site = .accessed member owner) ↔ IsObject e n := by
  obtain ⟨he, hroot⟩ := h.mem_script
  rcases parent_of_reaches hreach with heq | ⟨p, hp, hbelow⟩
  · cases heq
    exact absurd rfl hroot
  obtain ⟨k, hk, rfl⟩ := mem_below hbelow
  rw [childSite_eq_accessed]
  have hparent : ∀ q ∈ e.preorder, n ∈ q.children → q = p.2 := by
    intro q hq hchild
    obtain ⟨j, hj⟩ := List.getElem?_of_mem hchild
    exact (Node.parent_unique hs (Node.mem_preorder_trans script he hq) hp.mem_preorder hn hj hk).1
  constructor
  · intro hmember
    obtain ⟨q, hq, hchild⟩ := Node.exists_parent e h.mem h.more
    exact ⟨q, hq, hparent q hq hchild ▸ hmember, hchild⟩
  · rintro ⟨q, hq, hmember, hchild⟩
    exact hparent q hq hchild ▸ hmember

end Definition

def Enclosed (text : List Char) : Prop := ∃ inner, text = '(' :: inner ++ [')']

namespace Conversion.Job

open Definition

theorem not_enclosed_render {c : ClassDecl}
    (hleading : ∀ comment ∈ c.leading, Comment.Opens comment) (base : List Char) :
    ¬ Enclosed (c.render [] base) := by
  rintro ⟨inner, hinner⟩
  cases hcomments : c.leading with
  | nil =>
    rcases ClassDecl.render_starts hcomments [] base with hat | hclass
    · simp [hinner] at hat
    · simp [hinner] at hclass
  | cons comment comments =>
    obtain ⟨first, rest, hrender, hopens⟩ := ClassDecl.render_of_comment hcomments
      (hleading comment (hcomments ▸ List.mem_cons_self)) [] base
    obtain ⟨more, rfl⟩ := hopens.eq_cons
    rw [hinner] at hrender
    simp at hrender

/-- A class that takes the place of the start of an expression is put in parentheses exactly if the
expression goes on with an access to a member by name. However else it goes on, the class stands
there bare. -/
theorem leading_class_enclosed_iff (j : Job) {script n e : Node} {site : Site} {d : Definition}
    (hs : script.Formed) (hreach : Reaches (.plain, script) (site, n)) (hd : at? site n = some d)
    (hlead : Leads script n e) {span : Span} {parenthesize : Bool}
    (htarget : d.target = .expression span parenthesize) {p q : Progress}
    (hconvert : j.convert d p = .ok (true, q)) :
    ∃ text, q.edits = p.edits ++ [⟨⟨e.span.start, n.span.stop⟩, text⟩] ∧
      (Enclosed text ↔ IsObject e n) := by
  obtain ⟨hcall, -, hsite⟩ := at?_eq_some hd
  obtain ⟨hspan, hparen⟩ := Site.target_eq_expression (hsite ▸ htarget)
  obtain ⟨c, hbuild, hedits⟩ := convert_replaced hconvert
  have hleading : c.leading = (j.blueprintOf d).leading := Blueprint.build_leading hbuild
  have hstart : d.target.span = ⟨e.span.start, n.span.stop⟩ := by
    rw [htarget, Target.span, hspan, ← hlead.start]
  refine ⟨j.textFor d c, by rw [hedits, hstart], ?_⟩
  rw [← hlead.site_accessed_iff hs (by rw [hcall]; rfl) hreach, ← hparen]
  simp only [textFor, htarget]
  cases parenthesize with
  | true => exact iff_of_true ⟨_, rfl⟩ rfl
  | false =>
    refine iff_of_false (not_enclosed_render ?_ _) Bool.false_ne_true
    rw [hleading]
    exact j.opens_of_mem_leading d

def createdText : List Char := "A.extend(\x7b b: 1 \x7d).create();".toList

/-- The definition in `createdText` is put in parentheses. -/
theorem leading_class_enclosed_of_created :
    ∃ script n e : Node, ∃ (site : Site) (d : Definition) (q : Progress) (text : List Char),
      Script.parse ⟨false⟩ createdText = .ok script ∧ script.Formed ∧
      Reaches (.plain, script) (site, n) ∧ at? site n = some d ∧ Leads script n e ∧
      (ofScript ⟨"a.js"⟩ createdText {} {} script).convert d {} = .ok (true, q) ∧
      q.edits = [⟨⟨0, 18⟩, text⟩] ∧ Enclosed text := by
  have h : ((Script.parse ⟨false⟩ createdText).toOption.any fun script =>
      (below .plain script).any fun s => (below s.1 s.2).any fun e => (below e.1 e.2).any fun m =>
        (below m.1 m.2).any fun n => (at? n.1 n.2).any fun d =>
          ((ofScript ⟨"a.js"⟩ createdText {} {} script).convert d {}).toOption.any fun answer =>
            decide (script.Formed ∧ s.2.kind = .expression ∧ n.2.span.start = e.2.span.start ∧
              n.2.span ≠ e.2.span ∧ m.2.kind = .member "create" ∧
              d.target = .expression ⟨0, 18⟩ true ∧ n.2.span = ⟨0, 18⟩) && answer.1) = true := by
    decide +kernel
  simp only [Option.any_eq_true, Except.toOption_eq_some_iff, List.any_eq_true, Bool.and_eq_true,
    decide_eq_true_eq] at h
  obtain ⟨script, hparse, s, hs, e, he, m, hm, n, hn, d, hd, ⟨replaced, q⟩, hconvert,
    ⟨hformed, hkind, hstart, hspan, hmember, htarget, hn18⟩, rfl⟩ := h
  have hobject : IsObject e.2 n.2 := ⟨m.2, Node.mem_preorder_child (mem_children_of_below hm),
    ⟨_, hmember⟩, mem_children_of_below hn⟩
  have hlead : Leads script n.2 e.2 :=
    { statement := ⟨s.2, Node.mem_preorder_child (mem_children_of_below hs), .inl hkind,
        mem_children_of_below he⟩
      mem := Node.mem_preorder_trans e.2 (Node.mem_preorder_child (mem_children_of_below hm))
        (Node.mem_preorder_child (mem_children_of_below hn))
      start := hstart
      more := fun heq => hspan (congrArg Node.span heq) }
  have hreach : Reaches (.plain, script) (n.1, n.2) :=
    .deeper hs (.deeper he (.deeper hm (.deeper hn (.here _))))
  obtain ⟨text, hedits, hiff⟩ :=
    leading_class_enclosed_iff _ hformed hreach hd hlead htarget hconvert
  rw [← hstart, hn18] at hedits
  exact ⟨script, n.2, e.2, n.1, d, q, text, hparse, hformed, hreach, hd, hlead, hconvert, hedits,
    hiff.mpr hobject⟩

def addedText : List Char :=
  "import classic from 'ember-classic-decorator'; A.extend(\x7b b: 1 \x7d) + 1;".toList

/-- The class in `addedText` stands there bare. The new text is a script, but the class is a
declaration in it and the rest of the expression a statement of its own. -/
theorem bare_class_splits_statement :
    ∃ script n e : Node, ∃ (site : Site) (d : Definition) (q : Progress) (text : List Char),
      Script.parse ⟨false⟩ addedText = .ok script ∧ script.Formed ∧
      Reaches (.plain, script) (site, n) ∧ at? site n = some d ∧ Leads script n e ∧
      d.target = .expression n.span false ∧
      (ofScript ⟨"/a.js"⟩ addedText {} {} script).convert d {} = .ok (true, q) ∧
      q.edits = [⟨n.span, text⟩] ∧ ¬ Enclosed text ∧
      ∃ report output script', run {} ⟨[(⟨"/a"⟩, {})]⟩ ⟨"/a.js"⟩ addedText = .ok report ∧
        report.output = some output ∧ Script.parse ⟨false⟩ output = .ok script' ∧
        script'.children.map Node.kind =
          [.importDeclaration false, .classDef true, .expression] := by
  have hrun : ((run {} ⟨[(⟨"/a"⟩, {})]⟩ ⟨"/a.js"⟩ addedText).toOption.any fun report =>
      report.output.any fun output => (Script.parse ⟨false⟩ output).toOption.any fun script' =>
        decide (script'.children.map Node.kind =
          [.importDeclaration false, .classDef true, .expression])) = true := by
    decide +kernel
  have h : ((Script.parse ⟨false⟩ addedText).toOption.any fun script =>
      (below .plain script).any fun s => (below s.1 s.2).any fun e => (below e.1 e.2).any fun n =>
        (at? n.1 n.2).any fun d =>
          ((ofScript ⟨"/a.js"⟩ addedText {} {} script).convert d {}).toOption.any fun answer =>
            answer.2.edits.any fun edit =>
              decide (script.Formed ∧ s.2.kind = .expression ∧ n.2.span.start = e.2.span.start ∧
                n.2.span ≠ e.2.span ∧ d.target = .expression n.2.span false ∧
                answer.2.edits = [⟨n.2.span, edit.text⟩] ∧ edit.text.head? ≠ some '(') &&
              answer.1) = true := by
    decide +kernel
  simp only [Option.any_eq_true, Except.toOption_eq_some_iff, List.any_eq_true, Bool.and_eq_true,
    decide_eq_true_eq] at hrun h
  obtain ⟨script, hparse, s, hs, e, he, n, hn, d, hd, ⟨replaced, q⟩, hconvert, edit, -,
    ⟨hformed, hkind, hstart, hspan, htarget, hedits, hhead⟩, rfl⟩ := h
  obtain ⟨report, hreport, output, houtput, script', hparse', hkinds⟩ := hrun
  have hlead : Leads script n.2 e.2 :=
    { statement := ⟨s.2, Node.mem_preorder_child (mem_children_of_below hs), .inl hkind,
        mem_children_of_below he⟩
      mem := Node.mem_preorder_child (mem_children_of_below hn)
      start := hstart
      more := fun heq => hspan (congrArg Node.span heq) }
  refine ⟨script, n.2, e.2, n.1, d, q, edit.text, hparse, hformed,
    .deeper hs (.deeper he (.deeper hn (.here _))), hd, hlead, htarget, hconvert, hedits, ?_,
    report, output, script', hreport, houtput, hparse', hkinds⟩
  rintro ⟨inner, hinner⟩
  simp [hinner] at hhead

end Conversion.Job

end EmberClasses
