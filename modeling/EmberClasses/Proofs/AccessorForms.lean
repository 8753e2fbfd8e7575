import EmberClasses.Proofs.ClassOutline
import EmberClasses.Conversion

/-! Which getters and setters a class may have. A getter takes no parameter, a setter takes one, and
neither is `async` or a generator. The functions of a computed property are taken over as they are,
a setter without its first parameter, so the accessors of a class are well formed exactly if these
functions are. -/

namespace EmberClasses

open Script (Node Kind)

/-- A method of the kind can have these flags and this number of parameters. -/
def MethodKind.Admits (kind : MethodKind) (async generator : Bool) (params : Nat) : Prop :=
  match kind with
  | .method => True
  | .getter => params = 0 ∧ async = false ∧ generator = false
  | .setter => params = 1 ∧ async = false ∧ generator = false

instance (kind : MethodKind) (async generator : Bool) (params : Nat) :
    Decidable (kind.Admits async generator params) :=
  match kind with
  | .method => inferInstanceAs (Decidable True)
  | .getter => inferInstanceAs (Decidable (_ ∧ _ ∧ _))
  | .setter => inferInstanceAs (Decidable (_ ∧ _ ∧ _))

def Method.Admitted (m : Method) : Prop := m.kind.Admits m.async m.generator m.params.length

/-- The member is a field, or a method that a class can have. -/
def Member.Admitted (m : Member) : Prop :=
  match m.body with
  | .field _ => True
  | .method method => method.Admitted

instance (m : Member) : Decidable m.Admitted :=
  match h : m.body with
  | .field _ => isTrue (by simp [Member.Admitted, h])
  | .method method =>
    decidable_of_iff (method.kind.Admits method.async method.generator method.params.length)
      (by simp [Member.Admitted, Method.Admitted, h])

/-- The function makes a method that a class can have. -/
def MethodSource.Admitted (s : MethodSource) : Prop :=
  s.kind.Admits s.function.async s.function.generator (s.function.params.length - s.skip)

instance (s : MethodSource) : Decidable s.Admitted :=
  inferInstanceAs (Decidable (MethodKind.Admits _ _ _ _))

/-- The functions that become members for a property. Those of actions become methods always. -/
def Property.methodSources (p : Property) : List MethodSource :=
  if p.isActions then []
  else
    match p.accessors? with
    | some a => a.sources
    | none => p.method?.toList

namespace Member

variable {c : Copy} {columns : Nat} {p : Property} {m : Member}

theorem IsMethod.admitted_iff {name : String} {s : MethodSource}
    (h : IsMethod c columns name s m) : s.Admitted ↔ m.Admitted := by
  obtain ⟨params, code, rule, hbody, hparams, -⟩ := h.body
  have hlength : s.function.params.length - s.skip = params.length := by
    rw [← List.length_drop]
    exact hparams.length_eq
  unfold MethodSource.Admitted Member.Admitted
  rw [hbody, hlength]
  rfl

theorem IsField.admitted (h : IsField c p m) : m.Admitted := by
  obtain ⟨value, hbody, -⟩ := h.body
  unfold Member.Admitted
  rw [hbody]
  trivial

theorem admitted_of_method (h : m.methodKind? = some .method) : m.Admitted := by
  unfold methodKind? at h
  unfold Member.Admitted
  cases hbody : m.body with
  | field _ => trivial
  | method method =>
    rw [hbody] at h
    have hkind : method.kind = .method := Option.some.inj h
    change method.kind.Admits _ _ _
    rw [hkind]
    trivial

/-- The members for a property are well formed exactly if its functions are. -/
theorem Forms.admitted_iff {ms : List Member} (h : Forms c p ms) :
    (∀ m ∈ ms, m.Admitted) ↔ ∀ s ∈ p.methodSources, s.Admitted := by
  unfold Property.methodSources
  split
  · rename_i hactions
    exact iff_of_true (forall_of_forall₂ (h.actions hactions)
      fun _ _ hm => admitted_of_method hm.method) (by simp)
  rename_i hactions
  cases haccessors : p.accessors? with
  | some a =>
    exact (forall_mem_iff_of_forall₂ (fun _ _ hm => hm.admitted_iff)
      (h.accessors hactions a haccessors)).symm
  | none =>
    obtain ⟨m, rfl, hmethod, hfield⟩ := h.single hactions haccessors
    rw [List.forall_mem_singleton]
    cases hs : p.method? with
    | some s => simpa using (hmethod s hs).admitted_iff.symm
    | none => exact iff_of_true (hfield hs).admitted (by simp)

end Member

namespace Conversion.Job

/-- The getters and setters in the class of an accepted definition are well formed, provided that
the functions they are made of fit, and only then. -/
theorem accessors_admitted_iff (j : Job) (d : Definition)
    (hobject : ∀ object, d.properties = some object → object.Formed)
    (hok : Problem.ofProperties j.options (j.propertiesOf d).properties = []) :
    ∃ cls, (j.blueprintOf d).build j.options j.copy = .ok cls ∧
      ((∀ m ∈ cls.members, m.Admitted) ↔
        ∀ p ∈ (j.propertiesOf d).properties, ¬ p.isClassDecorator →
          ∀ s ∈ p.methodSources, s.Admitted) := by
  obtain ⟨cls, hcls⟩ := j.build_ok hobject hok
  obtain ⟨parts, hparts, hforms⟩ := (Blueprint.build_outlines hcls).members
  refine ⟨cls, hcls, ?_⟩
  calc (∀ m ∈ cls.members, m.Admitted)
      ↔ ∀ ms ∈ parts, ∀ m ∈ ms, m.Admitted := by
        rw [hparts]
        exact List.forall_mem_flatten
    _ ↔ ∀ p ∈ (j.propertiesOf d).properties.filter fun p => !p.isClassDecorator,
          ∀ s ∈ p.methodSources, s.Admitted :=
        (forall_mem_iff_of_forall₂ (fun _ _ hms => hms.admitted_iff.symm) hforms).symm
    _ ↔ ∀ p ∈ (j.propertiesOf d).properties, ¬ p.isClassDecorator →
          ∀ s ∈ p.methodSources, s.Admitted := by
        simp [List.mem_filter]

def accessorsText : List Char :=
  ("import \x7b computed \x7d from '@ember/object'; A.extend(\x7b b: computed('c', " ++
    "\x7b get() \x7b\x7d, set(d, e) \x7b\x7d \x7d), f: computed(function() \x7b\x7d) \x7d);").toList

theorem accessors_admitted_of_three : ∃ script n object : Node, ∃ d cls,
    let j := Job.ofScript ⟨"a.js"⟩ accessorsText {} {} script
    Script.parse ⟨false⟩ accessorsText = .ok script ∧ n ∈ script.preorder ∧
      Definition.at? .plain n = some d ∧ d.properties = some object ∧ object.Formed ∧
      Problem.ofProperties j.options (j.propertiesOf d).properties = [] ∧
      (j.blueprintOf d).build j.options j.copy = .ok cls ∧
      cls.members.map Member.tag =
        [("b", some .getter), ("b", some .setter), ("f", some .getter)] ∧
      ∀ m ∈ cls.members, m.Admitted := by
  have h : ((Script.parse ⟨false⟩ accessorsText).toOption.any fun script =>
      let j := Job.ofScript ⟨"a.js"⟩ accessorsText {} {} script
      script.preorder.any fun n => (Definition.at? .plain n).any fun d =>
        d.properties.any fun object =>
          ((j.blueprintOf d).build j.options j.copy).toOption.any fun cls =>
            decide object.Formed &&
            Problem.ofProperties j.options (j.propertiesOf d).properties == [] &&
            cls.members.map Member.tag ==
              [("b", some .getter), ("b", some .setter), ("f", some .getter)] &&
            decide (∀ p ∈ (j.propertiesOf d).properties, ¬ p.isClassDecorator →
              ∀ s ∈ p.methodSources, s.Admitted)) = true := by
    decide +kernel
  simp only [Option.any_eq_true, Bool.and_eq_true, beq_iff_eq, List.any_eq_true, decide_eq_true_eq,
    Except.toOption_eq_some_iff] at h
  obtain ⟨script, hparse, n, hn, d, hd, object, hobject, cls, hcls,
    ⟨⟨hformed, hok⟩, hmembers⟩, hsources⟩ := h
  have hall : ∀ other, d.properties = some other → other.Formed := by
    intro other hother
    rw [hobject, Option.some.injEq] at hother
    exact hother ▸ hformed
  obtain ⟨cls', hcls', hiff⟩ := accessors_admitted_iff _ d hall hok
  rw [hcls, Except.ok.injEq] at hcls'
  subst hcls'
  exact ⟨script, n, object, d, cls, hparse, hn, hd, hobject, hformed, hok, hcls, hmembers,
    hiff.mpr hsources⟩

/-- A computed property whose function takes the name of the property. -/
def keyedGetterText : List Char :=
  ("import classic from 'ember-classic-decorator'; " ++
    "import \x7b computed \x7d from '@ember/object'; " ++
    "A.extend(\x7b b: computed('c', function(d) \x7b\x7d) \x7d);").toList

/-- The definition is accepted, its getter has a parameter, and the file can not be converted. -/
theorem getter_with_parameter_fails_file : ∃ script n object : Node, ∃ d cls, ∃ m ∈ cls.members,
    let j := Job.ofScript ⟨"/a.js"⟩ keyedGetterText {} {} script
    Script.parse ⟨false⟩ keyedGetterText = .ok script ∧ n ∈ script.preorder ∧
      Definition.at? .plain n = some d ∧ d.properties = some object ∧ object.Formed ∧
      Problem.ofProperties j.options (j.propertiesOf d).properties = [] ∧
      (j.blueprintOf d).build j.options j.copy = .ok cls ∧
      m.methodKind? = some .getter ∧ ¬ m.Admitted ∧
      ∃ r, run {} ⟨[(⟨"/a"⟩, {})]⟩ ⟨"/a.js"⟩ keyedGetterText =
        .error (.outputParse ⟨"/a.js"⟩ r) := by
  have hrun : (match run {} ⟨[(⟨"/a"⟩, {})]⟩ ⟨"/a.js"⟩ keyedGetterText with
      | .error (.outputParse path _) => path == ⟨"/a.js"⟩
      | _ => false) = true := by
    decide +kernel
  have h : ((Script.parse ⟨false⟩ keyedGetterText).toOption.any fun script =>
      let j := Job.ofScript ⟨"/a.js"⟩ keyedGetterText {} {} script
      script.preorder.any fun n => (Definition.at? .plain n).any fun d =>
        d.properties.any fun object =>
          ((j.blueprintOf d).build j.options j.copy).toOption.any fun cls =>
            cls.members.any fun m =>
              decide object.Formed &&
              Problem.ofProperties j.options (j.propertiesOf d).properties == [] &&
              m.methodKind? == some .getter && !decide m.Admitted) = true := by
    decide +kernel
  simp only [Option.any_eq_true, Bool.and_eq_true, beq_iff_eq, List.any_eq_true, decide_eq_true_eq,
    Except.toOption_eq_some_iff, Bool.not_eq_true', decide_eq_false_iff_not] at h
  obtain ⟨script, hparse, n, hn, d, hd, object, hobject, cls, hcls, m, hm,
    ⟨⟨hformed, hok⟩, hkind⟩, hnot⟩ := h
  refine ⟨script, n, object, d, cls, m, hm, hparse, hn, hd, hobject, hformed, hok, hcls, hkind,
    hnot, ?_⟩
  generalize run _ _ _ keyedGetterText = result at hrun ⊢
  split at hrun
  · rename_i path r
    rw [beq_iff_eq] at hrun
    exact ⟨r, by rw [hrun]⟩
  · cases hrun

end Conversion.Job

end EmberClasses
