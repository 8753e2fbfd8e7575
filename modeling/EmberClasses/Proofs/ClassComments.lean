import EmberClasses.Proofs.ClassOpening
import EmberClasses.Proofs.MemberKeys
import Mathlib.Data.List.Perm.Basic

/-! What becomes of the comments between the properties of a definition. Each of them goes to one
place in the class. Lost are those behind the last action, which nobody collects, and those in front
of actions that are none, since there is no member to carry them. -/

namespace EmberClasses

open Script (Node Kind)

theorem map_fst_withComments (source : List Char) (offset : Nat) (ns : List Node) :
    (withComments source offset ns).map Prod.fst = ns := by
  induction ns generalizing offset with
  | nil => rfl
  | cons n ns ih => rw [withComments, List.map_cons, ih]

def ClassDecl.comments (d : ClassDecl) : List (List Char) :=
  d.leading ++ d.members.flatMap Member.comments ++ d.trailing

/-- The comments of a property that get into a class: those of its actions, and its own ones if it
leads to a member or a decorator that they can stand in front of. -/
def Property.keptComments (p : Property) : List (List Char) :=
  if p.isActions then
    (if p.actions = [] then [] else p.comments) ++ p.actions.flatMap Action.comments
  else p.comments

namespace Member

variable {c : Copy} {columns : Nat} {p : Property}

theorem ofFunction_comments {name : String} {kind : MethodKind} {rule : SuperRule} {skip : Nat}
    {f : Callable} {m : Member} (h : ofFunction c columns name kind rule skip f = .ok m) :
    m.comments = [] := by
  unfold ofFunction at h
  obtain ⟨body, -, h⟩ := Except.bind_eq_ok h
  obtain ⟨params, -, h⟩ := Except.bind_eq_ok h
  cases h
  rfl

theorem field_comments {span : Span} {m : Member} (h : field c columns p span = .ok m) :
    m.comments = [] := by
  unfold field at h
  split at h
  · obtain ⟨value, -, h⟩ := Except.bind_eq_ok h
    cases h
    rfl
  · cases h
    rfl

theorem ofAction_comments {a : Action} {m : Member} (h : ofAction c a = .ok m) :
    m.comments = a.comments := by
  unfold ofAction at h
  dsimp only at h
  cases hv : a.value with
  | function f =>
    rw [hv] at h
    obtain ⟨m', -, h⟩ := Except.bind_eq_ok h
    cases h
    rfl
  | identifier reference =>
    rw [hv] at h
    cases h
    rfl
  | unsupported reason =>
    rw [hv] at h
    cases h

private theorem uncommented_of_one {x : Except Breach Member} {ms : List Member}
    (hx : ∀ m, x = .ok m → m.comments = []) (h : (do return [← x]) = .ok ms) :
    ∀ m ∈ ms, m.comments = [] := by
  obtain ⟨m, hm, h⟩ := Except.bind_eq_ok h
  cases h
  exact List.forall_mem_singleton.mpr (hx m hm)

theorem callBodies_comments {chain : Chain} {ms : List Member}
    (h : callBodies c columns p chain = .ok ms) : ∀ m ∈ ms, m.comments = [] := by
  have hmany {kind : MethodKind} {skip : Nat} {fs : List Callable} {ms : List Member}
      (h : fs.mapM (ofFunction c columns p.name kind (superRule p) skip) = .ok ms) :
      ∀ m ∈ ms, m.comments = [] := by
    intro m hm
    obtain ⟨f, -, hf⟩ := Except.exists_of_mem_mapM h hm
    exact ofFunction_comments hf
  unfold callBodies at h
  dsimp only at h
  split at h
  · exact uncommented_of_one (fun _ hm => ofFunction_comments hm) h
  · exact uncommented_of_one (fun _ hm => ofFunction_comments hm) h
  · obtain ⟨getter, hgetter, h⟩ := Except.bind_eq_ok h
    obtain ⟨setter, hsetter, h⟩ := Except.bind_eq_ok h
    cases h
    intro m hm
    exact (List.mem_append.mp hm).elim (hmany hgetter m) (hmany hsetter m)
  · exact uncommented_of_one (fun _ hm => field_comments hm) h

theorem comments_of_mem_decorateFirst {ds : List AppliedDecorator} {ms : List Member}
    (h : ∀ m ∈ ms, m.comments = []) : ∀ m ∈ decorateFirst ds ms, m.comments = [] := by
  cases ms with
  | nil => simp [decorateFirst]
  | cons m ms =>
    obtain ⟨hm, hms⟩ := List.forall_mem_cons.mp h
    exact List.forall_mem_cons.mpr ⟨hm, hms⟩

/-- Before a property gives its comments away, only its actions have some. -/
theorem Becomes.comments {ms : List Member} (h : Becomes c p ms) :
    ms.map Member.comments =
      if p.isActions then p.actions.map Action.comments else ms.map fun _ => [] := by
  have hnone (hactions : ¬ p.isActions) (hms : ∀ m ∈ ms, m.comments = []) :
      ms.map Member.comments =
        if p.isActions then p.actions.map Action.comments else ms.map fun _ => [] := by
    rw [if_neg hactions]
    exact List.map_congr_left hms
  have hone {m : Member} (hm : m.comments = []) :
      ∀ n ∈ [{ m with decorators := recordedDecorators c.quote p }], n.comments = [] := by
    intro n hn
    rw [List.mem_singleton.mp hn]
    exact hm
  cases h with
  | actions hactions hms =>
    rw [if_pos hactions]
    exact Except.map_of_mapM (fun _ _ hm => ofAction_comments hm) hms
  | function hactions _ hm => exact hnone hactions (hone (ofFunction_comments hm))
  | call hactions _ hms =>
    obtain ⟨called, -, hms⟩ := Except.bind_eq_ok hms
    obtain ⟨members, hmembers, hms⟩ := Except.bind_eq_ok hms
    cases hms
    exact hnone hactions (comments_of_mem_decorateFirst (callBodies_comments hmembers))
  | field hactions _ _ hm => exact hnone hactions (hone (field_comments hm))

theorem flatMap_comments_commentFirst (comments : List (List Char)) (ms : List Member) :
    (commentFirst comments ms).flatMap Member.comments =
      (if ms = [] then [] else comments) ++ ms.flatMap Member.comments := by
  cases ms with
  | nil => rfl
  | cons m ms => simp [commentFirst]

/-- The members for a property carry the comments that get into the class, in order. -/
theorem ofProperty_comments {ms : List Member} (hp : p.Complete) (h : ofProperty c p = .ok ms) :
    ms.flatMap Member.comments = p.keptComments := by
  have htags := fun hactions => ofProperty_tags hp hactions h
  obtain ⟨members, hmembers, rfl⟩ := becomes_of_ofProperty h
  have hmap := hmembers.comments
  rw [flatMap_comments_commentFirst, List.flatMap_def, hmap]
  unfold Property.keptComments
  by_cases hactions : p.isActions
  · rw [if_pos hactions] at hmap
    have hnil : members = [] ↔ p.actions = [] := by
      rw [← @List.map_eq_nil_iff _ _ Member.comments, hmap, List.map_eq_nil_iff]
    rw [if_pos hactions, if_pos hactions, List.flatMap_def]
    simp only [hnil]
  · have hne : members ≠ [] := by
      rintro rfl
      exact (htags hactions).ne_nil rfl
    rw [if_neg hactions, if_neg hactions, if_neg hne]
    simp

end Member

namespace Blueprint

/-- A property adds its comments to those of the class, in one place or another. -/
theorem addProperty_comments {c : Copy} {d d' : ClassDecl} {p : Property} (hp : p.Complete)
    (h : addProperty c d p = .ok d') : d'.comments.Perm (d.comments ++ p.keptComments) := by
  unfold addProperty at h
  cases hname : p.classDecorator? with
  | none =>
    rw [hname] at h
    obtain ⟨ms, hms, h⟩ := Except.bind_eq_ok h
    cases h
    simp only [ClassDecl.comments, List.flatMap_append, Member.ofProperty_comments hp hms,
      List.append_assoc]
    exact (List.perm_append_comm.append_left _).append_left _
  | some name =>
    rw [hname] at h
    obtain ⟨decorator, -, h⟩ := Except.bind_eq_ok h
    cases h
    have hactions : ¬ p.isActions := by
      intro hactions
      rw [Property.classDecorator?_of_isActions hactions] at hname
      cases hname
    rw [Property.keptComments, if_neg hactions]
    simp only [ClassDecl.comments, List.append_assoc]
    have hmove : (p.comments ++ (d.members.flatMap Member.comments ++ d.trailing)).Perm
        (d.members.flatMap Member.comments ++ d.trailing ++ p.comments) := List.perm_append_comm
    rw [List.append_assoc] at hmove
    exact hmove.append_left _

/-- So do all properties of a class, one after the other. -/
theorem build_comments {b : Blueprint} {o : Options} {c : Copy} {d : ClassDecl}
    (hb : ∀ p ∈ b.properties, p.Complete) (h : b.build o c = .ok d) :
    d.comments.Perm (b.properties.flatMap Property.keptComments ++ b.trailing) := by
  have hframe : (b.frame o).comments = b.trailing := by simp [frame, ClassDecl.comments]
  refine Except.foldlM_inv (fun (ps : List Property) (d : ClassDecl) => (∀ p ∈ ps, p.Complete) →
    d.comments.Perm (ps.flatMap Property.keptComments ++ b.trailing))
    (fun ps p d d' hd hstep hps => ?_) [] (fun _ => ?_) h hb
  · obtain ⟨hbefore, hp⟩ := List.forall_mem_append.mp hps
    have hadd := addProperty_comments (List.forall_mem_singleton.mp hp) hstep
    refine hadd.trans (((hd hbefore).append_right _).trans ?_)
    rw [List.flatMap_append, List.flatMap_singleton, List.append_assoc, List.append_assoc]
    exact List.perm_append_comm.append_left _
  · rw [hframe]
    exact .refl _

end Blueprint

/-! Comments as they are found in an object literal. -/

/-- The comments in front of the entries of an object literal. -/
def entryComments (source : List Char) (object : Node) : List (List Char) :=
  (withComments source (object.span.start + 1) object.children).flatMap Prod.snd

def closingComments (source : List Char) (object : Node) : List (List Char) :=
  Comment.between source ⟨PropertyList.lastStop object, object.span.stop - 1⟩

def actionsObject? (property : Node) : Option Node :=
  match property.kind, property.children with
  | .property form, key :: rest =>
    let value := rest.head?.getD key
    if key.kind = .identifier "actions" ∧ form.computed = false ∧ value.kind = .object then
      some value
    else none
  | _, _ => none

def actionComments (source : List Char) (property : Node) : List (List Char) :=
  (actionsObject? property).toList.flatMap fun actions =>
    entryComments source actions ++ closingComments source actions

/-- All comments among the properties of an object literal, and among its actions. -/
def foundComments (source : List Char) (object : Node) : List (List Char) :=
  entryComments source object ++ object.children.flatMap (actionComments source) ++
    closingComments source object

/-- Comments of a property and its actions that come into no class: those behind the last action,
and those in front of actions that are none. -/
def lostOf (source : List Char) (entry : Node × List (List Char)) : List (List Char) :=
  (actionsObject? entry.1).toList.flatMap fun actions =>
    (if actions.children = [] then entry.2 else []) ++ closingComments source actions

def lostComments (source : List Char) (object : Node) : List (List Char) :=
  (withComments source (object.span.start + 1) object.children).flatMap (lostOf source)

theorem Action.comments_ofProperty (source : List Char) (usage : Usage) (property : Node)
    (comments : List (List Char)) :
    (ofProperty source usage property comments).comments = comments := by
  unfold ofProperty
  dsimp only
  split
  · split <;> rfl
  · rfl

theorem Action.comments_ofObject (source : List Char) (usage : Usage) (object : Node) :
    (ofObject source usage object).flatMap Action.comments = entryComments source object := by
  rw [ofObject, entryComments, List.flatMap_map]
  exact List.flatMap_congr fun e _ => comments_ofProperty source usage e.1 e.2

theorem Action.ofObject_eq_nil_iff {source : List Char} {usage : Usage} {object : Node} :
    ofObject source usage object = [] ↔ object.children = [] := by
  rw [ofObject, List.map_eq_nil_iff, ← @List.map_eq_nil_iff _ _ Prod.fst, map_fst_withComments]

namespace Property

/-- A property whose value is supported holds actions exactly if its node does. -/
theorem ofNode_actions {file : File} {n : Node} {comments : List (List Char)}
    (h : ∀ reason, (ofNode file n comments).shape ≠ .unsupported reason) :
    (∃ actions, actionsObject? n = some actions ∧ (ofNode file n comments).isActions ∧
        (ofNode file n comments).actions = Action.ofObject file.source file.usage actions) ∨
      actionsObject? n = none ∧ ¬ (ofNode file n comments).isActions := by
  unfold ofNode at h ⊢
  dsimp only at h ⊢
  split at h
  · rename_i form key rest hkind hchildren
    split at h
    · rename_i name hkey hcomputed
      have hobject : actionsObject? n =
          if name = "actions" ∧ (rest.head?.getD key).kind = .object then
            some (rest.head?.getD key) else none := by
        simp [actionsObject?, hkind, hchildren, hkey, hcomputed]
      rw [hobject]
      by_cases hname : name = "actions"
      · by_cases hvalue : (rest.head?.getD key).kind = .object
        · exact .inl ⟨_, if_pos ⟨hname, hvalue⟩, by simp [isActions, ofValue, hname],
            by simp [ofValue, hname, hvalue]⟩
        · have hshape : readShape name form.accessor (rest.head?.getD key) =
              .unsupported (if form.accessor ≠ .plain then .accessor else .actionsValue) := by
            unfold readShape
            split
            · rfl
            · rw [if_pos ⟨hname, hvalue⟩]
          exact absurd hshape (h _)
      · exact .inr ⟨if_neg fun hboth => hname hboth.1, by simp [isActions, ofValue, hname]⟩
    · exact absurd rfl (h _)
  · exact absurd rfl (h _)

/-- What a property keeps and what is lost with it are the comments that were found there. -/
theorem keptComments_append_lostOf {file : File} {entry : Node × List (List Char)}
    (h : ∀ reason, (ofNode file entry.1 entry.2).shape ≠ .unsupported reason) :
    ((ofNode file entry.1 entry.2).keptComments ++ lostOf file.source entry).Perm
      (entry.2 ++ actionComments file.source entry.1) := by
  unfold keptComments lostOf actionComments
  rw [comments_ofNode]
  rcases ofNode_actions h with ⟨actions, hobject, hactions, heq⟩ | ⟨hobject, hactions⟩
  · rw [hobject, if_pos hactions, heq, Action.comments_ofObject]
    simp only [Option.toList_some, List.flatMap_singleton, Action.ofObject_eq_nil_iff]
    by_cases hnone : actions.children = []
    · rw [if_pos hnone, if_pos hnone, List.nil_append, ← List.append_assoc, ← List.append_assoc]
      exact List.perm_append_comm.append_right _
    · rw [if_neg hnone, if_neg hnone, List.nil_append, List.append_assoc]
  · rw [hobject, if_neg hactions]
    simp

end Property

namespace PropertyList

/-- The same for all properties of an object literal. -/
theorem keptComments_append_lostComments {file : Property.File} {object : Node}
    (h : ∀ p ∈ (ofObject file object).properties, ∀ reason, p.shape ≠ .unsupported reason) :
    let list := ofObject file object
    ((list.properties.flatMap Property.keptComments ++ list.trailing) ++
      lostComments file.source object).Perm (foundComments file.source object) := by
  intro list
  let entries := withComments file.source (object.span.start + 1) object.children
  have hentry : ∀ e ∈ entries, ((Property.ofNode file e.1 e.2).keptComments ++
      lostOf file.source e).Perm (e.2 ++ actionComments file.source e.1) := fun e he =>
    Property.keptComments_append_lostOf (h _ (List.mem_map_of_mem he))
  have hproperties : list.properties.flatMap Property.keptComments =
      entries.flatMap fun e => (Property.ofNode file e.1 e.2).keptComments := List.flatMap_map ..
  have hactions : object.children.flatMap (actionComments file.source) =
      entries.flatMap fun e => actionComments file.source e.1 := by
    rw [← map_fst_withComments file.source (object.span.start + 1) object.children,
      List.flatMap_map]
  have hall : (list.properties.flatMap Property.keptComments ++
      lostComments file.source object).Perm
        (entryComments file.source object ++
          object.children.flatMap (actionComments file.source)) := by
    rw [hproperties, hactions]
    refine (List.flatMap_append_perm entries _ _).trans ?_
    exact (List.Perm.flatMap_left entries hentry).trans
      (List.flatMap_append_perm entries _ _).symm
  rw [List.append_assoc]
  refine (List.perm_append_comm.append_left _).trans ?_
  rw [← List.append_assoc]
  exact hall.append_right _

end PropertyList

namespace Conversion.Job

/-- The comments of a class, together with those that are lost, are the comments that were found
among the properties of the definition and its actions. None is doubled, and all are kept if and
only if none stands behind the last action, or in front of actions that are none. -/
theorem comments_kept_iff (j : Job) (d : Definition)
    (hobject : ∀ object, d.properties = some object → object.Formed)
    (hok : Problem.ofProperties j.options (j.propertiesOf d).properties = []) :
    let found := d.properties.toList.flatMap (foundComments j.source)
    let lost := d.properties.toList.flatMap (lostComments j.source)
    ∃ cls, (j.blueprintOf d).build j.options j.copy = .ok cls ∧
      (cls.comments ++ lost).Perm found ∧ (cls.comments.Perm found ↔ lost = []) := by
  intro found lost
  obtain ⟨cls, hcls⟩ := j.build_ok hobject hok
  have hkept := Blueprint.build_comments (j.propertiesOf_complete d) hcls
  have hall : (cls.comments ++ lost).Perm found := by
    refine (hkept.append_right lost).trans ?_
    cases hd : d.properties with
    | none => simp [blueprintOf, propertiesOf, found, lost, hd]
    | some object =>
      have hlist : j.propertiesOf d =
          PropertyList.ofObject ⟨j.source, j.usage, j.wrappers⟩ object := by
        simp only [propertiesOf, hd]
      have hsupported : ∀ p ∈ (j.propertiesOf d).properties, ∀ reason,
          p.shape ≠ .unsupported reason := fun p hp =>
        (Problem.acceptable_of_ofProperty (List.flatMap_eq_nil_iff.mp hok p hp)).supported
      rw [hlist] at hsupported
      have hobject := PropertyList.keptComments_append_lostComments hsupported
      simpa [blueprintOf, found, lost, hd, hlist] using hobject
  refine ⟨cls, hcls, hall, fun hsame => ?_, fun hnone => ?_⟩
  · have hlength := hall.length_eq
    rw [List.length_append, hsame.length_eq] at hlength
    exact List.eq_nil_of_length_eq_zero (by omega)
  · rwa [hnone, List.append_nil] at hall

/-- A definition with a comment in each place, all of them kept: the first one goes in front of the
class. -/
def commentedText : List Char :=
  ("A.extend(\x7b /*1*/ tagName: 'b', /*2*/ actions: \x7b /*3*/ c() \x7b\x7d \x7d, " ++
    "/*4*/ d: 1 /*5*/ \x7d);").toList

theorem comments_kept_of_commented : ∃ script n object : Node, ∃ d cls,
    let j := Job.ofScript ⟨"a.js"⟩ commentedText {} {} script
    Script.parse ⟨false⟩ commentedText = .ok script ∧ n ∈ script.preorder ∧
      Definition.at? .plain n = some d ∧ d.properties = some object ∧ object.Formed ∧
      Problem.ofProperties j.options (j.propertiesOf d).properties = [] ∧
      (j.blueprintOf d).build j.options j.copy = .ok cls ∧
      cls.comments.Perm
        ["/*1*/".toList, "/*2*/".toList, "/*4*/".toList, "/*3*/".toList, "/*5*/".toList] := by
  have h : ((Script.parse ⟨false⟩ commentedText).toOption.any fun script =>
      let j := Job.ofScript ⟨"a.js"⟩ commentedText {} {} script
      script.preorder.any fun n => (Definition.at? .plain n).any fun d =>
        d.properties.any fun object => decide object.Formed &&
          Problem.ofProperties j.options (j.propertiesOf d).properties == [] &&
          foundComments commentedText object ==
            ["/*1*/".toList, "/*2*/".toList, "/*4*/".toList, "/*3*/".toList, "/*5*/".toList] &&
          lostComments commentedText object == []) = true := by
    decide +kernel
  simp only [Option.any_eq_true, Bool.and_eq_true, beq_iff_eq, List.any_eq_true, decide_eq_true_eq,
    Except.toOption_eq_some_iff] at h
  obtain ⟨script, hparse, n, hn, d, hd, object, hobject, ⟨⟨hformed, hok⟩, hfound⟩, hlost⟩ := h
  have hall : ∀ other, d.properties = some other → other.Formed := by
    intro other hother
    rw [hobject, Option.some.injEq] at hother
    exact hother ▸ hformed
  obtain ⟨cls, hcls, -, hiff⟩ := comments_kept_iff _ d hall hok
  rw [hobject] at hiff
  have hkept := hiff.mpr ((List.flatMap_singleton ..).trans hlost)
  rw [Option.toList_some, List.flatMap_singleton] at hkept
  exact ⟨script, n, object, d, cls, hparse, hn, hd, hobject, hformed, hok, hcls, hfound ▸ hkept⟩

/-- In the definition of this text a comment is found, but its class is built without any. -/
def LosesComment (text comment : String) : Prop :=
  ∃ script n object : Node, ∃ d cls,
    let j := Job.ofScript ⟨"a.js"⟩ text.toList {} {} script
    Script.parse ⟨false⟩ text.toList = .ok script ∧ n ∈ script.preorder ∧
      Definition.at? .plain n = some d ∧ d.properties = some object ∧ j.problemsOf d = [] ∧
      (j.blueprintOf d).build j.options j.copy = .ok cls ∧
      foundComments text.toList object = [comment.toList] ∧ cls.comments = []

private theorem losesComment_of_found {text comment : String}
    (h : ((Script.parse ⟨false⟩ text.toList).toOption.any fun script =>
      let j := Job.ofScript ⟨"a.js"⟩ text.toList {} {} script
      script.preorder.any fun n => (Definition.at? .plain n).any fun d =>
        d.properties.any fun object =>
          ((j.blueprintOf d).build j.options j.copy).toOption.any fun cls =>
            j.problemsOf d == [] && foundComments text.toList object == [comment.toList] &&
              cls.comments == []) = true) : LosesComment text comment := by
  simp only [Option.any_eq_true, Bool.and_eq_true, beq_iff_eq, List.any_eq_true,
    Except.toOption_eq_some_iff] at h
  obtain ⟨script, hparse, n, hn, d, hd, object, hobject, cls, hcls, ⟨hok, hfound⟩, hnone⟩ := h
  exact ⟨script, n, object, d, cls, hparse, hn, hd, hobject, hok, hcls, hfound, hnone⟩

/-- A comment is lost behind the last action, and in front of actions that are none. -/
theorem comments_around_actions_are_lost :
    LosesComment "A.extend(\x7b actions: \x7b b() \x7b\x7d /*c*/ \x7d \x7d);" "/*c*/" ∧
      LosesComment "A.extend(\x7b /*c*/ actions: \x7b\x7d \x7d);" "/*c*/" :=
  ⟨losesComment_of_found (by decide +kernel), losesComment_of_found (by decide +kernel)⟩

end Conversion.Job

end EmberClasses
