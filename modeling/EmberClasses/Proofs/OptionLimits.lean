import EmberClasses.Proofs.ClassOutline

/-! What an option that is off keeps out of a class. The rules decide by the shape of a property,
the builder by the decorators that it writes; without decorators the two agree, and without class
fields they agree but for calls. -/

namespace EmberClasses

open Script (Node Kind)

def Member.initial? (m : Member) : Option Fragment :=
  match m.body with
  | .field value => value
  | .method _ => none

namespace Property

/-- The call of a property is copied as the initial value of its field: no function in it becomes
the member, and no decorator takes it over. -/
def KeepsCall (p : Property) : Prop :=
  ¬ p.isActions ∧ (p.shape matches .call _) ∧ p.accessors?.isNone ∧ p.method?.isNone ∧ p.keepsValue

instance (p : Property) : Decidable p.KeepsCall := inferInstanceAs (Decidable (_ ∧ _ ∧ _ ∧ _ ∧ _))

theorem KeepsCall.not_isClassDecorator {p : Property} (h : p.KeepsCall)
    (hp : p.Acceptable) : p.isClassDecorator = false := by
  by_contra hclass
  rw [Bool.not_eq_false] at hclass
  have hfits := hp.fits hclass
  obtain ⟨-, hshape, -⟩ := h
  cases hcall : p.shape with
  | call chain =>
    rw [hcall] at hfits
    cases hfits
  | _ =>
    rw [hcall] at hshape
    cases hshape

/-- What is written without decorators has none, is no decorator of the class, no list of actions
and no call. -/
structure Undecorated (p : Property) : Prop where
  decorators : p.decorators = []
  isClassDecorator : p.isClassDecorator = false
  isActions : ¬ p.isActions
  shape : ∀ chain, p.shape ≠ .call chain

theorem Undecorated.not_writes {p : Property} (h : p.Undecorated) (name : String) :
    ¬ p.Writes name := by
  intro hwrites
  cases hwrites with
  | action hactions => exact h.isActions hactions
  | own hd _ =>
    rw [h.decorators] at hd
    cases hd
  | readOnly hshape _ _ => exact h.shape _ hshape

end Property

namespace Problem

variable {o : Options} {p : Property}

theorem rules_of_ofProperty (h : ofProperty o p = []) :
    (!o.classFields && p.isInitialized) = false ∧
      ((!o.decorators && needsDecorators p) || isBareCall p) = false := by
  simp only [ofProperty, messages, List.append_eq_nil_iff, List.map_eq_nil_iff, ite_eq_right_iff,
    reduceCtorEq, imp_false, Bool.not_eq_true] at h
  obtain ⟨⟨⟨⟨⟨⟨hfields, -⟩, hdecorators⟩, -⟩, -⟩, -⟩, -⟩ := h
  exact ⟨hfields, hdecorators⟩

theorem not_isInitialized_of_ofProperty (hfields : o.classFields = false)
    (h : ofProperty o p = []) : p.isInitialized = false := by
  simpa [hfields] using (rules_of_ofProperty h).1

theorem undecorated_of_ofProperty (hdecorators : o.decorators = false)
    (h : ofProperty o p = []) : p.Undecorated := by
  have hrule : needsDecorators p = false ∧ isBareCall p = false := by
    simpa [hdecorators] using (rules_of_ofProperty h).2
  obtain ⟨hneeds, hbare⟩ := hrule
  simp only [needsDecorators, Bool.or_eq_false_iff, Bool.not_eq_false', List.isEmpty_iff] at hneeds
  obtain ⟨⟨⟨hnone, hclass⟩, hactions⟩, -⟩ := hneeds
  refine ⟨hnone, hclass, by simp [hactions], fun chain hshape => ?_⟩
  simp [isBareCall, hshape, hnone] at hbare

end Problem

namespace Member

variable {c : Copy} {p : Property} {ms : List Member}

theorem IsMethod.initial?_eq_none {columns : Nat} {name : String} {s : MethodSource} {m : Member}
    (h : IsMethod c columns name s m) : m.initial? = none := by
  obtain ⟨params, code, rule, hbody, -⟩ := h.body
  rw [Member.initial?, hbody]

theorem IsAction.initial?_eq_none {a : Action} {m : Member} (h : IsAction c a m) :
    m.initial? = none := by
  have hmethod := h.method
  unfold methodKind? at hmethod
  unfold Member.initial?
  split
  · rename_i hbody
    rw [hbody] at hmethod
    cases hmethod
  · rfl

/-- The members for an accepted property have no value if class fields are off, but for a call that
is copied. -/
theorem Forms.initial?_eq_none_iff (h : Forms c p ms) (hp : p.Acceptable)
    (hclass : p.isClassDecorator = false) (hplain : p.isInitialized = false) :
    (∀ m ∈ ms, m.initial? = none) ↔ ¬ p.KeepsCall := by
  by_cases hactions : p.isActions
  · exact iff_of_true (forall_of_forall₂ (h.actions hactions) fun _ _ hm => hm.initial?_eq_none)
      fun hcall => hcall.1 hactions
  cases haccessors : p.accessors? with
  | some a =>
    refine iff_of_true (forall_of_forall₂ (h.accessors hactions a haccessors)
      fun _ _ hm => hm.initial?_eq_none) fun hcall => ?_
    obtain ⟨-, -, hnone, -⟩ := hcall
    rw [haccessors] at hnone
    cases hnone
  | none =>
    obtain ⟨m, rfl, hmethod, hfield⟩ := h.single hactions haccessors
    rw [List.forall_mem_singleton]
    cases hs : p.method? with
    | some s =>
      refine iff_of_true (hmethod s hs).initial?_eq_none fun hcall => ?_
      obtain ⟨-, -, -, hnone, -⟩ := hcall
      rw [hs] at hnone
      cases hnone
    | none =>
      obtain ⟨value, hbody, hkeeps, -⟩ := (hfield hs).body
      have hinitial : m.initial? = value := by rw [Member.initial?, hbody]
      rw [hinitial, ← Option.not_isSome_iff_eq_none, hkeeps, not_iff_not]
      refine ⟨fun hkeeps => ⟨hactions, ?_, by rw [haccessors]; rfl, by rw [hs]; rfl, hkeeps⟩,
        fun hcall => hcall.2.2.2.2⟩
      cases hshape : p.shape with
      | call chain => rfl
      | function f => simp [Property.method?, hshape] at hs
      | unsupported reason => exact absurd hshape (hp.supported reason)
      | _ =>
        simp [Property.isInitialized, hclass, hactions, hkeeps, hshape, Shape.isPlain] at hplain

end Member

namespace Property.Adds

variable {o : Options} {c : Copy} {p : Property} {ms : List Member}

theorem initial?_eq_none_iff (h : p.Adds c ms) (hfields : o.classFields = false)
    (hok : Problem.ofProperty o p = []) : (∀ m ∈ ms, m.initial? = none) ↔ ¬ p.KeepsCall := by
  have hp : p.Acceptable := Problem.acceptable_of_ofProperty hok
  unfold Adds at h
  split at h
  · rename_i hsome
    refine iff_of_true (by simp [h]) fun hcall => ?_
    rw [classDecorator?_eq_none_iff.mpr (hcall.not_isClassDecorator hp)] at hsome
    cases hsome
  · rename_i hnone
    have hclass : p.isClassDecorator = false :=
      classDecorator?_eq_none_iff.mp (Option.not_isSome_iff_eq_none.mp hnone)
    exact (Member.ofProperty_forms h).initial?_eq_none_iff hp hclass
      (Problem.not_isInitialized_of_ofProperty hfields hok)

theorem decorators_eq_nil (h : p.Adds c ms) (hp : p.Undecorated) :
    ∀ m ∈ ms, m.decorators = [] := by
  rw [Adds, classDecorator?_eq_none_iff.mpr hp.isClassDecorator] at h
  intro m hm
  rw [List.eq_nil_iff_forall_not_mem]
  intro d hd
  exact hp.not_writes d.name (Member.ofProperty_writes h m hm d hd)

end Property.Adds

/-- Without class fields, the class of an accepted definition has no field with an initial value,
provided that no call is copied as one, and only then. -/
theorem initial_values_denied_iff (o : Options) (file : Property.File) (object : Node)
    (b : Blueprint) (c : Copy) (hobject : object.Formed)
    (hb : b.properties = (PropertyList.ofObject file object).properties)
    (hfields : o.classFields = false) (hok : Problem.ofProperties o b.properties = []) :
    ∃ cls, b.build o c = .ok cls ∧
      ((∀ m ∈ cls.members, m.initial? = none) ↔ ∀ p ∈ b.properties, ¬ p.KeepsCall) := by
  obtain ⟨cls, hcls⟩ := Blueprint.build_ok_of_object hobject hb hok c
  obtain ⟨parts, hparts, hadds, hmembers⟩ := Blueprint.build_members hcls
  have hpart : ∀ x ∈ parts, (∀ m ∈ x.2, m.initial? = none) ↔ ¬ x.1.KeepsCall := fun x hx =>
    (hadds x hx).initial?_eq_none_iff hfields
      (List.flatMap_eq_nil_iff.mp hok x.1 (hparts ▸ List.mem_map_of_mem hx))
  refine ⟨cls, hcls, ?_⟩
  rw [hmembers, ← hparts]
  simp only [List.mem_flatMap, List.forall_mem_map]
  exact ⟨fun hall x hx => (hpart x hx).mp fun m hm => hall m ⟨x, hx, hm⟩,
    fun hall m ⟨x, hx, hm⟩ => (hpart x hx).mpr (hall x hx) m hm⟩

def valuelessText : List Char :=
  ("import \x7b computed, inject \x7d from '@ember/object'; " ++
    "import \x7b inject as service \x7d from '@ember/service'; A.extend(\x7b b: service(), " ++
    "c: computed('b', function() \x7b\x7d), d() \x7b\x7d \x7d);").toList

/-- The only field of the class for `valuelessText` has no value. -/
theorem initial_values_denied_of_valueless :
    ∃ script object : Node, ∃ cls : ClassDecl,
      let file : Property.File :=
        ⟨valuelessText, {}, Wrapper.all (Import.Declaration.ofScript script)⟩
      let b : Blueprint := ⟨"B", "A", [], (PropertyList.ofObject file object).properties, []⟩
      let o : Options := { classFields := false }
      Script.parse ⟨false⟩ valuelessText = .ok script ∧ object ∈ script.preorder ∧
      object.Formed ∧ Problem.ofProperties o b.properties = [] ∧
      b.build o ⟨valuelessText, [], .single⟩ = .ok cls ∧
      cls.members.map Member.tag = [("b", none), ("c", some .getter), ("d", some .method)] ∧
      ∀ m ∈ cls.members, m.initial? = none := by
  have h : ((Script.parse ⟨false⟩ valuelessText).toOption.any fun script =>
      let file : Property.File :=
        ⟨valuelessText, {}, Wrapper.all (Import.Declaration.ofScript script)⟩
      let o : Options := { classFields := false }
      script.preorder.any fun object =>
        let b : Blueprint := ⟨"B", "A", [], (PropertyList.ofObject file object).properties, []⟩
        (b.build o ⟨valuelessText, [], .single⟩).toOption.any fun cls =>
          decide object.Formed && Problem.ofProperties o b.properties == [] &&
          decide (∀ p ∈ b.properties, ¬ p.KeepsCall) &&
          cls.members.map Member.tag ==
            [("b", none), ("c", some .getter), ("d", some .method)]) = true := by
    decide +kernel
  simp only [Option.any_eq_true, Except.toOption_eq_some_iff, List.any_eq_true, Bool.and_eq_true,
    beq_iff_eq, decide_eq_true_eq] at h
  obtain ⟨script, hparse, object, hmem, cls, hcls, ⟨⟨hformed, hok⟩, hcalls⟩, hmembers⟩ := h
  obtain ⟨cls', hcls', hiff⟩ := initial_values_denied_iff { classFields := false } _ object
    ⟨"B", "A", [], _, []⟩ ⟨valuelessText, [], .single⟩ hformed rfl rfl hok
  rw [hcls, Except.ok.injEq] at hcls'
  subst hcls'
  exact ⟨script, object, cls, hparse, hmem, hformed, hok, hcls, hmembers, hiff.mpr hcalls⟩

/-- A call of what usage data says is a computed property, under the name of a decorator that leaves
fields their values. -/
def keptCallText : List Char := "A.extend(\x7b b: className('c') \x7d);".toList

/-- The definition is accepted without class fields, and its class has a field with a value. -/
theorem kept_call_is_initial_value :
    ∃ script object : Node, ∃ cls : ClassDecl, ∃ m ∈ cls.members,
      let usage : Usage := { type := some "Component", computed := ["b"] }
      let b : Blueprint :=
        ⟨"B", "A", [], (PropertyList.ofObject ⟨keptCallText, usage, []⟩ object).properties, []⟩
      let o : Options := { classFields := false }
      Script.parse ⟨false⟩ keptCallText = .ok script ∧ object ∈ script.preorder ∧
      object.Formed ∧ Problem.ofProperties o b.properties = [] ∧
      b.build o ⟨keptCallText, [], .single⟩ = .ok cls ∧
      m.key = "b" ∧ m.initial?.map (·.text) = some "className('c')".toList := by
  have h : ((Script.parse ⟨false⟩ keptCallText).toOption.any fun script =>
      let usage : Usage := { type := some "Component", computed := ["b"] }
      let o : Options := { classFields := false }
      script.preorder.any fun object =>
        let b : Blueprint :=
          ⟨"B", "A", [], (PropertyList.ofObject ⟨keptCallText, usage, []⟩ object).properties, []⟩
        (b.build o ⟨keptCallText, [], .single⟩).toOption.any fun cls => cls.members.any fun m =>
          decide object.Formed && Problem.ofProperties o b.properties == [] && m.key == "b" &&
          m.initial?.map (·.text) == some "className('c')".toList) = true := by
    decide +kernel
  simp only [Option.any_eq_true, Except.toOption_eq_some_iff, List.any_eq_true, Bool.and_eq_true,
    beq_iff_eq, decide_eq_true_eq] at h
  obtain ⟨script, hparse, object, hmem, cls, hcls, m, hm, ⟨⟨hformed, hok⟩, hkey⟩, hvalue⟩ := h
  exact ⟨script, object, cls, m, hm, hparse, hmem, hformed, hok, hcls, hkey, hvalue⟩

/-- Without decorators, the class of an accepted definition has none but `classic`, which has an
option of its own. -/
theorem decorators_denied (o : Options) (file : Property.File) (object : Node) (b : Blueprint)
    (c : Copy) (hobject : object.Formed)
    (hb : b.properties = (PropertyList.ofObject file object).properties)
    (hdecorators : o.decorators = false) (hok : Problem.ofProperties o b.properties = []) :
    ∃ cls, b.build o c = .ok cls ∧
      cls.decorators = (if o.classicDecorator then [⟨"classic", []⟩] else []) ∧
      ∀ m ∈ cls.members, m.decorators = [] := by
  obtain ⟨cls, hcls⟩ := Blueprint.build_ok_of_object hobject hb hok c
  have hundecorated : ∀ p ∈ b.properties, p.Undecorated := fun p hp =>
    Problem.undecorated_of_ofProperty hdecorators (List.flatMap_eq_nil_iff.mp hok p hp)
  refine ⟨cls, hcls, ?_, fun m hm => ?_⟩
  · obtain ⟨own, hown, hforall⟩ := (Blueprint.build_outlines hcls).decorators
    have hnone : b.properties.filter Property.isClassDecorator = [] := by
      rw [List.filter_eq_nil_iff]
      intro p hp
      rw [(hundecorated p hp).isClassDecorator]
      exact Bool.false_ne_true
    rw [hnone, List.forall₂_nil_left_iff] at hforall
    rw [hown, hforall, List.append_nil]
  · obtain ⟨parts, hparts, hadds, hmembers⟩ := Blueprint.build_members hcls
    rw [hmembers] at hm
    obtain ⟨x, hx, hm⟩ := List.mem_flatMap.mp hm
    exact (hadds x hx).decorators_eq_nil (hundecorated x.1 (hparts ▸ List.mem_map_of_mem hx)) m hm

def undecoratedText : List Char := "A.extend(\x7b b: 1, c() \x7b\x7d, d: [] \x7d);".toList

/-- The class for `undecoratedText` has three members and no decorator but `classic`. -/
theorem decorators_denied_of_three :
    ∃ script object : Node, ∃ cls : ClassDecl,
      let b : Blueprint :=
        ⟨"B", "A", [], (PropertyList.ofObject ⟨undecoratedText, {}, []⟩ object).properties, []⟩
      let o : Options := { decorators := false }
      Script.parse ⟨false⟩ undecoratedText = .ok script ∧ object ∈ script.preorder ∧
      object.Formed ∧ Problem.ofProperties o b.properties = [] ∧
      b.build o ⟨undecoratedText, [], .single⟩ = .ok cls ∧
      cls.members.map Member.tag = [("b", none), ("c", some .method), ("d", none)] ∧
      cls.decorators = [⟨"classic", []⟩] ∧ ∀ m ∈ cls.members, m.decorators = [] := by
  have h : ((Script.parse ⟨false⟩ undecoratedText).toOption.any fun script =>
      let o : Options := { decorators := false }
      script.preorder.any fun object =>
        let b : Blueprint :=
          ⟨"B", "A", [], (PropertyList.ofObject ⟨undecoratedText, {}, []⟩ object).properties, []⟩
        (b.build o ⟨undecoratedText, [], .single⟩).toOption.any fun cls =>
          decide object.Formed && Problem.ofProperties o b.properties == [] &&
          cls.members.map Member.tag ==
            [("b", none), ("c", some .method), ("d", none)]) = true := by
    decide +kernel
  simp only [Option.any_eq_true, Except.toOption_eq_some_iff, List.any_eq_true, Bool.and_eq_true,
    beq_iff_eq, decide_eq_true_eq] at h
  obtain ⟨script, hparse, object, hmem, cls, hcls, ⟨hformed, hok⟩, hmembers⟩ := h
  obtain ⟨cls', hcls', hdecorators, hnone⟩ := decorators_denied { decorators := false } _ object
    ⟨"B", "A", [], _, []⟩ ⟨undecoratedText, [], .single⟩ hformed rfl rfl hok
  rw [hcls, Except.ok.injEq] at hcls'
  subst hcls'
  exact ⟨script, object, cls, hparse, hmem, hformed, hok, hcls, hmembers, hdecorators, hnone⟩

end EmberClasses
