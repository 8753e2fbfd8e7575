import EmberClasses.Proofs.DecoratorBindings
import Mathlib.Data.List.Forall2

/-! The outline of a class: which decorators and members it has, and in which order, told from the
properties of the definition alone. A class decorator takes its property out of the members, actions
and objects of accessors spread over several members, and any other property becomes one. -/

namespace EmberClasses

open Script (Node Kind)

theorem Except.forall₂_of_mapM {α β ε : Type} {f : α → Except ε β} {R : α → β → Prop} {l : List α}
    {bs : List β} (hf : ∀ a b, f a = .ok b → R a b) (h : l.mapM f = .ok bs) :
    List.Forall₂ R l bs := by
  induction l generalizing bs with
  | nil => cases h; exact .nil
  | cons a l ih =>
    rw [List.mapM_cons] at h
    obtain ⟨b, hb, h⟩ := Except.bind_eq_ok h
    obtain ⟨bs', hbs, h⟩ := Except.bind_eq_ok h
    cases h
    exact .cons (hf a b hb) (ih hbs)

theorem forall_of_forall₂ {α β : Type} {R : α → β → Prop} {P : β → Prop} {l : List α} {bs : List β}
    (h : List.Forall₂ R l bs) (hR : ∀ a b, R a b → P b) : ∀ b ∈ bs, P b := by
  induction h with
  | nil => simp
  | cons hfirst _ ih => exact List.forall_mem_cons.mpr ⟨hR _ _ hfirst, ih⟩

theorem exists_of_mem_forall₂ {α β : Type} {R : α → β → Prop} {l : List α} {bs : List β}
    (h : List.Forall₂ R l bs) {b : β} (hb : b ∈ bs) : ∃ a ∈ l, R a b := by
  induction h with
  | nil => cases hb
  | @cons a _ l _ hfirst _ ih =>
    rcases List.mem_cons.mp hb with rfl | hb
    · exact ⟨a, List.mem_cons_self, hfirst⟩
    · obtain ⟨a', ha', hR⟩ := ih hb
      exact ⟨a', List.mem_cons_of_mem a ha', hR⟩

theorem forall_mem_iff_of_forall₂ {α β : Type} {R : α → β → Prop} {P : α → Prop} {Q : β → Prop}
    {l : List α} {bs : List β} (hR : ∀ a b, R a b → (P a ↔ Q b)) (h : List.Forall₂ R l bs) :
    (∀ a ∈ l, P a) ↔ ∀ b ∈ bs, Q b := by
  induction h with
  | nil => simp
  | cons hfirst _ ih => rw [List.forall_mem_cons, List.forall_mem_cons, hR _ _ hfirst, ih]

/-- The spans are copied as they stand, one after the other. -/
def Copy.Copies (c : Copy) (columns : Nat) (spans : List Span) (code : List Fragment) : Prop :=
  List.Forall₂ (fun s f => (Cut.plain s).MakesAt c columns f) spans code

/-- A function that becomes a method of some kind, without its first parameters. -/
structure MethodSource where
  kind : MethodKind
  skip : Nat := 0
  function : Callable

/-- The getter, then the setter. A setter of a computed property gets the name of the property
first, which a setter of a class does not. -/
def Accessors.sources (a : Accessors) : List MethodSource :=
  (a.getter.toList.map fun f => ⟨.getter, 0, f⟩) ++ a.setter.toList.map fun f => ⟨.setter, 1, f⟩

namespace Property

def accessors? (p : Property) : Option Accessors :=
  match p.shape, p.kind with
  | .call chain, .getter =>
    match chain.args.getLast? with
    | some (.accessors a) => some a
    | _ => none
  | _, _ => none

def method? (p : Property) : Option MethodSource :=
  match p.shape with
  | .function f => some ⟨if p.kind = .getter then .getter else .method, 0, f⟩
  | .call chain =>
    match p.kind, chain.args.getLast? with
    | .method, some (.function f) => some ⟨.method, 0, f⟩
    | .getter, some (.function f) => some ⟨.getter, 0, f⟩
    | _, _ => none
  | _ => none

/-- The code that becomes the arguments of a decorator of the class. -/
def argumentSpans (p : Property) : List Span :=
  match p.shape with
  | .array _ elements => elements
  | shape => shape.span?.toList

theorem classDecorator?_eq_none_iff {p : Property} :
    p.classDecorator? = none ↔ p.isClassDecorator = false := by
  unfold classDecorator?
  split
  · simp_all
  · rename_i hclass
    rw [Bool.not_eq_true, Bool.not_eq_false'] at hclass
    rw [hclass]
    split
    · split <;> simp
    · simp

end Property

namespace Member

variable {c : Copy} {columns : Nat} {p : Property}

/-- The member is a method for the function: it has its flags, the parameters that are left of it,
and its body with the super calls in class form. -/
structure IsMethod (c : Copy) (columns : Nat) (name : String) (s : MethodSource) (m : Member) :
    Prop where
  key : m.key = name
  body : ∃ (params : List Fragment) (code : Fragment) (rule : SuperRule),
    m.body = .method ⟨s.kind, s.function.async, s.function.generator, params, code⟩ ∧
    c.Copies columns (s.function.params.drop s.skip) params ∧
    (Cut.body s.function.body (bodyEdits c.source name rule s.function)).MakesAt c columns code

structure IsAction (c : Copy) (a : Action) (m : Member) : Prop where
  key : m.key = a.name
  decorators : m.decorators = [⟨"action", []⟩]
  method : m.methodKind? = some .method
  function : ∀ f, a.value = .function f →
    IsMethod c (c.columnsOf a.span) a.name { kind := .method, function := f } m

/-- The member is a field for the property, which has the value if no decorator takes it over. -/
structure IsField (c : Copy) (p : Property) (m : Member) : Prop where
  key : m.key = p.name
  body : ∃ value : Option Fragment, m.body = .field value ∧ (value.isSome ↔ p.keepsValue) ∧
    ∀ code, value = some code → ∃ span, p.shape.span? = some span ∧
      (Cut.plain span).MakesAt c (c.columnsOf p.span) code

/-- What the members for a property look like, one by one. -/
structure Forms (c : Copy) (p : Property) (ms : List Member) : Prop where
  actions : p.isActions → List.Forall₂ (IsAction c) p.actions ms
  accessors : ¬ p.isActions → ∀ a, p.accessors? = some a →
    List.Forall₂ (IsMethod c (c.columnsOf p.span) p.name) a.sources ms
  single : ¬ p.isActions → p.accessors? = none → ∃ m, ms = [m] ∧
    (∀ s, p.method? = some s → IsMethod c (c.columnsOf p.span) p.name s m) ∧
    (p.method? = none → IsField c p m)

theorem ofFunction_isMethod {name : String} {kind : MethodKind} {rule : SuperRule} {skip : Nat}
    {f : Callable} {m : Member} (h : ofFunction c columns name kind rule skip f = .ok m) :
    IsMethod c columns name ⟨kind, skip, f⟩ m := by
  unfold ofFunction at h
  obtain ⟨body, hbody, h⟩ := Except.bind_eq_ok h
  obtain ⟨params, hparams, h⟩ := Except.bind_eq_ok h
  cases h
  exact ⟨rfl, params, body, rule, rfl, Except.forall₂_of_mapM (fun _ _ hcopy => hcopy) hparams,
    hbody⟩

theorem field_isField {span : Span} {m : Member} (hspan : p.shape.span? = some span)
    (h : field c (c.columnsOf p.span) p span = .ok m) : IsField c p m := by
  unfold field at h
  split at h
  · rename_i hkeeps
    obtain ⟨value, hvalue, h⟩ := Except.bind_eq_ok h
    cases hcode : c.snippet (c.columnsOf p.span) span with
    | error e =>
      rw [hcode] at hvalue
      cases hvalue
    | ok code =>
      rw [hcode] at hvalue
      cases hvalue
      cases h
      refine ⟨rfl, some code, rfl, by simp [hkeeps], fun other hother => ?_⟩
      cases hother
      exact ⟨span, hspan, hcode⟩
  · rename_i hkeeps
    cases h
    exact ⟨rfl, none, rfl, by simp [hkeeps], fun _ hnone => by cases hnone⟩

theorem ofAction_isAction {a : Action} {m : Member} (h : ofAction c a = .ok m) :
    IsAction c a m := by
  have htag := ofAction_tag h
  refine ⟨congrArg Prod.fst htag, ofAction_decorators h, congrArg Prod.snd htag, fun f hf => ?_⟩
  unfold ofAction at h
  dsimp only at h
  rw [hf] at h
  obtain ⟨m', hm', h⟩ := Except.bind_eq_ok h
  cases h
  have hmethod := ofFunction_isMethod hm'
  exact ⟨hmethod.key, hmethod.body⟩

theorem forall₂_decorateFirst {α : Type} {R : α → Member → Prop} {l : List α} {ms : List Member}
    (ds : List AppliedDecorator) (hR : ∀ a m, R a m → R a { m with decorators := ds })
    (h : List.Forall₂ R l ms) : List.Forall₂ R l (decorateFirst ds ms) := by
  cases h with
  | nil => exact .nil
  | cons hfirst hrest => exact .cons (hR _ _ hfirst) hrest

theorem forall₂_commentFirst {α : Type} {R : α → Member → Prop} {l : List α} {ms : List Member}
    (comments : List (List Char))
    (hR : ∀ a m, R a m → R a { m with comments := comments ++ m.comments })
    (h : List.Forall₂ R l ms) : List.Forall₂ R l (commentFirst comments ms) := by
  cases h with
  | nil => exact .nil
  | cons hfirst hrest => exact .cons (hR _ _ hfirst) hrest

/-- Which decorators the first member has is left open, but for actions. -/
theorem Forms.decorateFirst {ms : List Member} (h : Forms c p ms) (hactions : ¬ p.isActions)
    (ds : List AppliedDecorator) : Forms c p (decorateFirst ds ms) := by
  refine ⟨fun hyes => absurd hyes hactions, fun _ a ha => ?_, fun _ hnone => ?_⟩
  · exact forall₂_decorateFirst ds (fun _ _ hm => ⟨hm.key, hm.body⟩) (h.accessors hactions a ha)
  · obtain ⟨m, rfl, hmethod, hfield⟩ := h.single hactions hnone
    exact ⟨_, rfl, fun s hs => ⟨(hmethod s hs).key, (hmethod s hs).body⟩,
      fun hno => ⟨(hfield hno).key, (hfield hno).body⟩⟩

theorem Forms.commentFirst {ms : List Member} (h : Forms c p ms) (comments : List (List Char)) :
    Forms c p (commentFirst comments ms) := by
  refine ⟨fun hactions => ?_, fun hactions a ha => ?_, fun hactions hnone => ?_⟩
  · refine forall₂_commentFirst comments (fun a m hm => ?_) (h.actions hactions)
    exact ⟨hm.key, hm.decorators, hm.method,
      fun f hf => ⟨(hm.function f hf).key, (hm.function f hf).body⟩⟩
  · exact forall₂_commentFirst comments (fun _ _ hm => ⟨hm.key, hm.body⟩)
      (h.accessors hactions a ha)
  · obtain ⟨m, rfl, hmethod, hfield⟩ := h.single hactions hnone
    exact ⟨_, rfl, fun s hs => ⟨(hmethod s hs).key, (hmethod s hs).body⟩,
      fun hno => ⟨(hfield hno).key, (hfield hno).body⟩⟩

theorem Forms.of_method {s : MethodSource} {m : Member} (hactions : ¬ p.isActions)
    (haccessors : p.accessors? = none) (hs : p.method? = some s)
    (hm : IsMethod c (c.columnsOf p.span) p.name s m) : Forms c p [m] := by
  refine ⟨fun hyes => absurd hyes hactions, fun _ a ha => ?_, fun _ _ => ⟨m, rfl, ?_, ?_⟩⟩
  · rw [haccessors] at ha
    cases ha
  · intro other hother
    rw [hs, Option.some.injEq] at hother
    exact hother ▸ hm
  · intro hnone
    rw [hs] at hnone
    cases hnone

theorem Forms.of_field {m : Member} (hactions : ¬ p.isActions) (haccessors : p.accessors? = none)
    (hnone : p.method? = none) (hm : IsField c p m) : Forms c p [m] := by
  refine ⟨fun hyes => absurd hyes hactions, fun _ a ha => ?_, fun _ _ => ⟨m, rfl, ?_, fun _ => hm⟩⟩
  · rw [haccessors] at ha
    cases ha
  · intro s hs
    rw [hnone] at hs
    cases hs

theorem callBodies_forms {chain : Chain} {ms : List Member} (hactions : ¬ p.isActions)
    (hshape : p.shape = .call chain) (h : callBodies c (c.columnsOf p.span) p chain = .ok ms) :
    Forms c p ms := by
  unfold callBodies at h
  dsimp only at h
  split at h
  · rename_i f hkind hlast
    obtain ⟨m, hm, h⟩ := Except.bind_eq_ok h
    cases h
    exact .of_method hactions (by simp [Property.accessors?, hshape, hkind])
      (by simp [Property.method?, hshape, hkind, hlast]) (ofFunction_isMethod hm)
  · rename_i f hkind hlast
    obtain ⟨m, hm, h⟩ := Except.bind_eq_ok h
    cases h
    exact .of_method hactions (by simp [Property.accessors?, hshape, hkind, hlast])
      (by simp [Property.method?, hshape, hkind, hlast]) (ofFunction_isMethod hm)
  · rename_i a hkind hlast
    obtain ⟨getter, hgetter, h⟩ := Except.bind_eq_ok h
    obtain ⟨setter, hsetter, h⟩ := Except.bind_eq_ok h
    cases h
    have haccessors : p.accessors? = some a := by
      simp [Property.accessors?, hshape, hkind, hlast]
    refine ⟨fun hyes => absurd hyes hactions, fun _ other hother => ?_, fun _ hnone => ?_⟩
    · rw [haccessors, Option.some.injEq] at hother
      subst hother
      refine List.rel_append (List.forall₂_map_left_iff.mpr ?_) (List.forall₂_map_left_iff.mpr ?_)
      · exact Except.forall₂_of_mapM (fun _ _ hm => ofFunction_isMethod hm) hgetter
      · exact Except.forall₂_of_mapM (fun _ _ hm => ofFunction_isMethod hm) hsetter
    · rw [haccessors] at hnone
      cases hnone
  · rename_i hmethod hgetter haccessors
    obtain ⟨m, hm, h⟩ := Except.bind_eq_ok h
    cases h
    refine .of_field hactions ?_ ?_ (field_isField (by rw [hshape]; rfl) hm)
    · unfold Property.accessors?
      split
      · rename_i chain' hshape' hkind
        rw [hshape, Shape.call.injEq] at hshape'
        subst hshape'
        split
        · exact (haccessors _ hkind ‹_›).elim
        · rfl
      · rfl
    · unfold Property.method?
      rw [hshape]
      dsimp only
      split
      · exact (hmethod _ ‹_› ‹_›).elim
      · exact (hgetter _ ‹_› ‹_›).elim
      · rfl

theorem ofProperty_forms {ms : List Member} (h : ofProperty c p = .ok ms) : Forms c p ms := by
  obtain ⟨members, hmembers, rfl⟩ := becomes_of_ofProperty h
  refine Forms.commentFirst ?_ p.comments
  cases hmembers with
  | actions hactions hms =>
    exact ⟨fun _ => Except.forall₂_of_mapM (fun _ _ hm => ofAction_isAction hm) hms,
      fun hno => absurd hactions hno, fun hno => absurd hactions hno⟩
  | function hactions hshape hm =>
    have hmethod := ofFunction_isMethod hm
    exact .of_method hactions (by simp [Property.accessors?, hshape])
      (by simp [Property.method?, hshape]) ⟨hmethod.key, hmethod.body⟩
  | call hactions hshape hms =>
    obtain ⟨called, -, hms⟩ := Except.bind_eq_ok hms
    obtain ⟨bodies, hbodies, hms⟩ := Except.bind_eq_ok hms
    cases hms
    exact (callBodies_forms hactions hshape hbodies).decorateFirst hactions _
  | field hactions hplain hspan hm =>
    have haccessors : p.accessors? = none := by
      unfold Property.accessors?
      split
      · rename_i hshape hkind
        rw [hshape] at hplain
        cases hplain
      · rfl
    have hnone : p.method? = none := by
      unfold Property.method?
      split
      · rename_i hshape
        rw [hshape] at hplain
        cases hplain
      · rename_i hshape
        rw [hshape] at hplain
        cases hplain
      · rfl
    have hfield := field_isField hspan hm
    exact .of_field hactions haccessors hnone ⟨hfield.key, hfield.body⟩

end Member

namespace Blueprint

/-- The decorator is the one that the property becomes, with the value as its arguments. -/
structure IsDecorator (c : Copy) (p : Property) (d : AppliedDecorator) : Prop where
  name : p.classDecorator? = some d.name
  args : c.Copies (c.columnsOf p.span) p.argumentSpans d.args

theorem classDecorator_isDecorator {c : Copy} {p : Property} {name : String} {d : AppliedDecorator}
    (hname : p.classDecorator? = some name) (h : classDecorator c p name = .ok d) :
    IsDecorator c p d := by
  refine ⟨by rw [hname, classDecorator_name h], ?_⟩
  unfold classDecorator at h
  dsimp only at h
  unfold Property.argumentSpans
  cases hshape : p.shape
  all_goals
    rw [hshape] at h
    obtain ⟨spans, hspans, h⟩ := Except.bind_eq_ok h
    cases hspans
  all_goals
    obtain ⟨args, hargs, h⟩ := Except.bind_eq_ok h
    cases h
    exact Except.forall₂_of_mapM (fun _ _ hcopy => hcopy) hargs

/-- The class has the decorators and members for the properties, in their order. -/
structure Outlines (o : Options) (c : Copy) (properties : List Property) (cls : ClassDecl) :
    Prop where
  decorators : ∃ own, cls.decorators =
      (if o.classicDecorator then [⟨"classic", []⟩] else []) ++ own ∧
    List.Forall₂ (IsDecorator c) (properties.filter Property.isClassDecorator) own
  members : ∃ parts, cls.members = parts.flatten ∧
    List.Forall₂ (Member.Forms c) (properties.filter fun p => !p.isClassDecorator) parts

theorem Outlines.addProperty {o : Options} {c : Copy} {ps : List Property} {cls cls' : ClassDecl}
    {p : Property} (h : Outlines o c ps cls) (hstep : addProperty c cls p = .ok cls') :
    Outlines o c (ps ++ [p]) cls' := by
  obtain ⟨own, hown, hforall⟩ := h.decorators
  obtain ⟨parts, hparts, hforms⟩ := h.members
  obtain ⟨-, ⟨name, d, hname, hd, hdecorators, hmembers⟩ |
    ⟨ms, hname, hms, hdecorators, hmembers⟩⟩ := addProperty_eq_ok hstep
  · have hclass : p.isClassDecorator = true := by
      rw [← Bool.not_eq_false, ← Property.classDecorator?_eq_none_iff, hname]
      simp
    refine ⟨⟨own ++ [d], ?_, ?_⟩, ⟨parts, hmembers.trans hparts, ?_⟩⟩
    · rw [hdecorators, hown, List.append_assoc]
    · rw [List.filter_append, List.filter_singleton, hclass]
      exact List.rel_append hforall (.cons (classDecorator_isDecorator hname hd) .nil)
    · rw [List.filter_append, List.filter_singleton, hclass]
      simpa using hforms
  · have hclass : p.isClassDecorator = false := Property.classDecorator?_eq_none_iff.mp hname
    refine ⟨⟨own, hdecorators.trans hown, ?_⟩, ⟨parts ++ [ms], ?_, ?_⟩⟩
    · rw [List.filter_append, List.filter_singleton, hclass]
      simpa using hforall
    · rw [hmembers, hparts, List.flatten_append, List.flatten_singleton]
    · rw [List.filter_append, List.filter_singleton, hclass]
      exact List.rel_append hforms (.cons (Member.ofProperty_forms hms) .nil)

theorem build_outlines {b : Blueprint} {o : Options} {c : Copy} {cls : ClassDecl}
    (h : b.build o c = .ok cls) : Outlines o c b.properties cls := by
  refine Except.foldlM_inv (Outlines o c) (fun _ _ _ _ hcls hstep => hcls.addProperty hstep) [] ?_ h
  exact ⟨⟨[], (List.append_nil _).symm, .nil⟩, ⟨[], rfl, .nil⟩⟩

end Blueprint

namespace Conversion.Job

/-- The class of an accepted definition has exactly the decorators and members that its properties
lead to, one after the other. -/
theorem class_outlined (j : Job) (d : Definition)
    (hobject : ∀ object, d.properties = some object → object.Formed)
    (hok : Problem.ofProperties j.options (j.propertiesOf d).properties = []) :
    ∃ cls, (j.blueprintOf d).build j.options j.copy = .ok cls ∧
      Blueprint.Outlines j.options j.copy (j.propertiesOf d).properties cls := by
  obtain ⟨cls, hcls⟩ := j.build_ok hobject hok
  exact ⟨cls, hcls, Blueprint.build_outlines hcls⟩

/-- A decorator of the class between a field and methods of all kinds. -/
def outlinedText : List Char :=
  ("import \x7b computed \x7d from '@ember/object'; A.extend(\x7b b: 1, " ++
    "actions: \x7b c(d) \x7b\x7d, e: f \x7d, tagName: 'g', async *h(i, k) \x7b\x7d, " ++
    "l: computed('b', \x7b get() \x7b\x7d, set(m, n) \x7b\x7d \x7d) \x7d);").toList

theorem class_outlined_of_five : ∃ script n object : Node, ∃ d cls,
    let j := Job.ofScript ⟨"a.js"⟩ outlinedText {} {} script
    Script.parse ⟨false⟩ outlinedText = .ok script ∧ n ∈ script.preorder ∧
      Definition.at? .plain n = some d ∧ d.properties = some object ∧ object.Formed ∧
      (j.propertiesOf d).properties.map (·.name) = ["b", "actions", "tagName", "h", "l"] ∧
      Problem.ofProperties j.options (j.propertiesOf d).properties = [] ∧
      (j.blueprintOf d).build j.options j.copy = .ok cls ∧
      Blueprint.Outlines j.options j.copy (j.propertiesOf d).properties cls ∧
      cls.decorators.map (·.name) = ["classic", "tagName"] ∧
      cls.members.map Member.tag = [("b", none), ("c", some .method), ("e", some .method),
        ("h", some .method), ("l", some .getter), ("l", some .setter)] := by
  have h : ((Script.parse ⟨false⟩ outlinedText).toOption.any fun script =>
      let j := Job.ofScript ⟨"a.js"⟩ outlinedText {} {} script
      script.preorder.any fun n => (Definition.at? .plain n).any fun d =>
        d.properties.any fun object =>
          ((j.blueprintOf d).build j.options j.copy).toOption.any fun cls =>
            decide object.Formed &&
            (j.propertiesOf d).properties.map (·.name) == ["b", "actions", "tagName", "h", "l"] &&
            Problem.ofProperties j.options (j.propertiesOf d).properties == [] &&
            cls.decorators.map (·.name) == ["classic", "tagName"] &&
            cls.members.map Member.tag == [("b", none), ("c", some .method), ("e", some .method),
              ("h", some .method), ("l", some .getter), ("l", some .setter)]) = true := by
    decide +kernel
  simp only [Option.any_eq_true, Bool.and_eq_true, beq_iff_eq, List.any_eq_true, decide_eq_true_eq,
    Except.toOption_eq_some_iff] at h
  obtain ⟨script, hparse, n, hn, d, hd, object, hobject, cls, hcls,
    ⟨⟨⟨hformed, hnames⟩, hok⟩, hdecorators⟩, hmembers⟩ := h
  have hall : ∀ other, d.properties = some other → other.Formed := by
    intro other hother
    rw [hobject, Option.some.injEq] at hother
    exact hother ▸ hformed
  obtain ⟨cls', hcls', houtlines⟩ := class_outlined _ d hall hok
  rw [hcls, Except.ok.injEq] at hcls'
  subst hcls'
  exact ⟨script, n, object, d, cls, hparse, hn, hd, hobject, hformed, hnames, hok, hcls, houtlines,
    hdecorators, hmembers⟩

end Conversion.Job

end EmberClasses
