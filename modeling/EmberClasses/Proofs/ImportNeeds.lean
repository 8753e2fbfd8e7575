import EmberClasses.Proofs.ClassOutline
import EmberClasses.Proofs.LastArgument

/-! Which of the requested imports a class needs. What is to be imported is read off the names and
the recorded decorators of the properties, but not every property comes to a decorator: an `actions`
object may be empty, and what is recorded for it, or for a decorator of the class, is not written.
-/

namespace EmberClasses

open Script (Node Kind)

namespace Import

def Names (x : Builtin) (name : String) : Prop := ∃ r ∈ table, r.decorator = x ∧ r.localName = name

instance (x : Builtin) (name : String) : Decidable (Names x name) :=
  inferInstanceAs (Decidable (∃ r ∈ table, _ ∧ _))

theorem Names.unique {x : Builtin} {m n : String} (hm : Names x m) (hn : Names x n) : m = n := by
  have htable :
      ∀ r ∈ table, ∀ s ∈ table, r.decorator = s.decorator → r.localName = s.localName := by
    decide
  obtain ⟨r, hr, rfl, rfl⟩ := hm
  obtain ⟨s, hs, hrs, rfl⟩ := hn
  exact htable r hr s hs hrs.symm

end Import

open Import (Names)

/-- A decorator that asks for an import has the name that is imported. -/
theorem Wrapper.names_of_requires {imports : List Import.Declaration} {w : Wrapper} {x : Builtin}
    (hw : w ∈ all imports) (h : w.requires = some x) : Names x w.decorator := by
  obtain ⟨d, -, -, n, -, hn⟩ := mem_all hw
  obtain ⟨-, decorator, hdecorator, hcases⟩ := decorator_of_ofNamed? hn
  split at hcases
  · obtain ⟨y, hy, hr⟩ := hcases
    rw [h, Option.some.injEq] at hy
    exact hy ▸ hr
  · rename_i hrehomed
    obtain ⟨other, hother, rfl⟩ := Option.map_eq_some_iff.mp hn
    rw [hdecorator, Option.some.injEq] at hother
    subst hother
    have hne : decorator ≠ "observes" := fun heq => hrehomed (by simp [isRehomed, heq])
    simp [hne, hrehomed] at h

namespace Property

inductive Shows (p : Property) : String → Prop where
  | onClass {name : String} : p.classDecorator? = some name → Shows p name
  | onAction {a : Action} : p.isActions → a ∈ p.actions → Shows p "action"
  | onMember {name : String} : p.IsMember → p.Writes name → Shows p name

/-- Imports that a property asks for without a decorator of its own that needs them. -/
def idleBuiltins (p : Property) : List Builtin :=
  (if p.isActions && p.actions.isEmpty then [.action] else []) ++
    if p.IsMember then [] else p.decorators.filterMap p.decoratorBuiltin?

/-- A property as the analysis makes it: calls stand under plain names, and decorators come from
usage data or from the property's own call. -/
structure Analyzed (wrappers : List Wrapper) (p : Property) : Prop where
  complete : p.Complete
  sourced : ∀ d ∈ p.decorators, Sourced wrappers p d
  call : ∀ chain, p.shape = .call chain → ¬ p.isActions

theorem analyzed_of_ofObject {file : File} {object : Node} {p : Property}
    (hp : p ∈ (PropertyList.ofObject file object).properties) : p.Analyzed file.wrappers := by
  refine ⟨PropertyList.ofObject_complete file object p hp, fun d hd => ?_, fun chain hshape => ?_⟩
  · obtain ⟨e, -, rfl⟩ := List.mem_map.mp hp
    exact sourced_ofNode hd
  · exact (isCall_of_ofObject hp hshape).2

section Needs

variable {imports : List Import.Declaration} {wrappers : List Wrapper} {p : Property}

theorem Analyzed.isMember_of_call (h : p.Analyzed wrappers) (hp : p.Acceptable) {chain : Chain}
    (hshape : p.shape = .call chain) : p.IsMember :=
  ⟨h.call chain hshape, hp.classDecorator?_eq_none hshape⟩

theorem exists_call_of_callee? {name : String} (h : p.callee? = some name) :
    ∃ chain, p.shape = .call chain := by
  unfold callee? at h
  split at h
  · rename_i chain hshape
    exact ⟨chain, hshape⟩
  · cases h

/-- Only a member has decorators that are made from a call. -/
theorem Analyzed.recorded_or_call (h : p.Analyzed wrappers) {d : Decorator}
    (hd : d ∈ p.decorators) :
    (∃ args, d.origin = .recorded args ∧ (d.name = "unobserves" ∨ d.name = "off")) ∨
      d.isFromCall ∧ ∃ chain, p.shape = .call chain := by
  cases h.sourced d hd with
  | @recorded name args hname => exact .inl ⟨args, rfl, hname⟩
  | imported _ hcallee => exact .inr ⟨rfl, exists_call_of_callee? hcallee⟩
  | synthesized _ hcallee => exact .inr ⟨rfl, exists_call_of_callee? hcallee⟩

theorem Analyzed.names_of_decoratorBuiltin? (h : p.Analyzed (Wrapper.all imports)) {d : Decorator}
    (hd : d ∈ p.decorators) {x : Builtin} (hx : p.decoratorBuiltin? d = some x) :
    Names x d.name ∧ (d.isFromCall → p.keepsCallDecorator) := by
  cases h.sourced d hd with
  | @recorded name args hname =>
    refine ⟨?_, fun hcall => by cases hcall⟩
    rcases hname with rfl | rfl
    · cases hx
      exact (by decide : Names .unobserves "unobserves")
    · cases hx
      exact (by decide : Names .off "off")
  | @imported w hw _ =>
    have hrequires : (if p.keepsCallDecorator then w.requires else none) = some x := hx
    split at hrequires
    · rename_i hkeeps
      exact ⟨Wrapper.names_of_requires hw hrequires, fun _ => hkeeps⟩
    · cases hrequires
  | synthesized => cases hx

theorem classDecorator?_of_name (hclass : p.isClassDecorator) (hname : p.name ≠ Name.layout) :
    p.classDecorator? = some p.name := by
  unfold classDecorator?
  split
  · rename_i hno
    rw [hclass] at hno
    cases hno
  · split
    · rw [if_neg fun h => hname h.1]
    · rfl

/-- An import that the name of a property asks for is needed, unless there are no actions. -/
theorem shows_of_namedBuiltins {x : Builtin} (h : x ∈ p.namedBuiltins) :
    (∃ name, Names x name ∧ p.Shows name) ∨ x ∈ p.idleBuiltins := by
  have hclass {name : String} (hp : p.name = name) (hmem : name ∈ Name.classDecorators)
      (hne : name ≠ Name.layout) : p.Shows name := by
    subst hp
    have hclass : p.isClassDecorator := by
      simpa [isClassDecorator, Name.isClassDecorator] using hmem
    exact .onClass (classDecorator?_of_name hclass hne)
  simp only [namedBuiltins, List.mem_append, List.mem_ite_nil_right, List.mem_singleton] at h
  rcases h with (((((⟨hp, rfl⟩ | ⟨hp, rfl⟩) | ⟨hp, rfl⟩) | ⟨hp, rfl⟩) | ⟨hp, rfl⟩) | ⟨hp, rfl⟩) |
    ⟨hp, rfl⟩
  · have hactions : p.isActions := by simpa [isActions] using hp
    cases hnone : p.actions with
    | nil => exact .inr (by simp [idleBuiltins, hactions, hnone])
    | cons a as => exact .inl ⟨"action", by decide, .onAction hactions (hnone ▸ List.mem_cons_self)⟩
  · exact .inl ⟨_, by decide, hclass hp (by decide) (by decide)⟩
  · exact .inl ⟨_, by decide, hclass hp (by decide) (by decide)⟩
  · exact .inl ⟨_, by decide, hclass hp (by decide) (by decide)⟩
  · exact .inl ⟨_, by decide, hclass hp (by decide) (by decide)⟩
  · exact .inl ⟨_, by decide, .onClass hp⟩
  · exact .inl ⟨_, by decide, .onClass hp⟩

/-- An import that a property asks for is needed for a decorator of its own, or it is idle. -/
theorem Analyzed.shows_or_idle (h : p.Analyzed (Wrapper.all imports)) (hp : p.Acceptable)
    {x : Builtin} (hx : x ∈ p.builtins) :
    (∃ name, Names x name ∧ p.Shows name) ∨ x ∈ p.idleBuiltins := by
  rcases List.mem_append.mp hx with hx | hx
  · rcases List.mem_append.mp hx with hx | hx
    · exact shows_of_namedBuiltins hx
    · by_cases hmember : p.IsMember
      · obtain ⟨d, hd, hdx⟩ := List.mem_filterMap.mp hx
        obtain ⟨hname, hkeeps⟩ := h.names_of_decoratorBuiltin? hd hdx
        exact .inl ⟨d.name, hname, .onMember hmember (.own hd hkeeps)⟩
      · exact .inr (List.mem_append_right _ (by rwa [if_neg hmember]))
  · rw [List.mem_ite_nil_right, List.mem_singleton, Bool.and_eq_true, Bool.and_eq_true,
      Bool.not_eq_true'] at hx
    obtain ⟨⟨⟨hreadOnly, hvolatile⟩, hshape⟩, rfl⟩ := hx
    split at hshape
    · rename_i chain hchain
      exact .inl ⟨"readOnly", by decide,
        .onMember (h.isMember_of_call hp hchain) (.readOnly hchain hreadOnly hvolatile)⟩
    · cases hshape

theorem idleBuiltins_subset : p.idleBuiltins ⊆ p.builtins := by
  intro x hx
  rcases List.mem_append.mp hx with hx | hx
  · rw [List.mem_ite_nil_right, List.mem_singleton, Bool.and_eq_true] at hx
    obtain ⟨⟨hactions, -⟩, rfl⟩ := hx
    have hname : p.name = "actions" := by simpa [isActions] using hactions
    simp [builtins, namedBuiltins, hname]
  · split at hx
    · cases hx
    · exact List.mem_append_left _ (List.mem_append_right _ hx)

/-- Only the decorators of actions and those of usage data are ever idle. -/
theorem Analyzed.idleBuiltins_cases (h : p.Analyzed wrappers) (hp : p.Acceptable) {x : Builtin}
    (hx : x ∈ p.idleBuiltins) : x = .action ∨ x = .off ∨ x = .unobserves := by
  rcases List.mem_append.mp hx with hx | hx
  · rw [List.mem_ite_nil_right, List.mem_singleton] at hx
    exact .inl hx.2
  · split at hx
    · cases hx
    · rename_i hmember
      obtain ⟨d, hd, hdx⟩ := List.mem_filterMap.mp hx
      rcases h.recorded_or_call hd with ⟨args, horigin, hname⟩ | ⟨-, chain, hshape⟩
      · unfold decoratorBuiltin? at hdx
        rw [horigin] at hdx
        rcases hname with hname | hname
        · exact .inr (.inr (by simpa [hname, eq_comm] using hdx))
        · exact .inr (.inl (by simpa [hname, eq_comm] using hdx))
      · exact absurd (h.isMember_of_call hp hshape) hmember

end Needs

end Property

def ClassDecl.HasDecorator (cls : ClassDecl) (name : String) : Prop :=
  (∃ d ∈ cls.decorators, d.name = name) ∨ ∃ m ∈ cls.members, ∃ d ∈ m.decorators, d.name = name

instance (cls : ClassDecl) (name : String) : Decidable (cls.HasDecorator name) :=
  inferInstanceAs (Decidable ((∃ d ∈ cls.decorators, _) ∨ ∃ m ∈ cls.members, ∃ d ∈ m.decorators, _))

namespace Member

variable {c : Copy} {wrappers : List Wrapper} {p : Property} {ms : List Member}

theorem exists_recordedDecorator (quote : Quote) {d : Decorator} (hd : d ∈ p.decorators)
    {args : Json} (h : d.origin = .recorded args) :
    ∃ a ∈ recordedDecorators quote p, a.name = d.name := by
  refine ⟨⟨d.name, (args.argumentLiterals quote).map fun text => ⟨text, []⟩⟩,
    List.mem_filterMap.mpr ⟨d, hd, ?_⟩, rfl⟩
  rw [h]

theorem exists_callDecorator {columns : Nat} {chain : Chain} {ds : List AppliedDecorator}
    {d : Decorator} (h : callDecorators c columns p chain = .ok ds) (hd : d ∈ p.decorators)
    (hcall : d.isFromCall) (hkeeps : p.keepsCallDecorator) : ∃ a ∈ ds, a.name = d.name := by
  unfold callDecorators at h
  rw [if_pos hkeeps] at h
  obtain ⟨args, -, h⟩ := Except.bind_eq_ok h
  cases h
  exact ⟨⟨d.name, args⟩, List.mem_append_left _
    (List.mem_map.mpr ⟨d, List.mem_filter.mpr ⟨hd, hcall⟩, rfl⟩), rfl⟩

theorem exists_readOnly {columns : Nat} {chain : Chain} {ds : List AppliedDecorator}
    (h : callDecorators c columns p chain = .ok ds) (hreadOnly : p.isReadOnly)
    (hvolatile : p.isVolatile = false) : ∃ a ∈ ds, a.name = "readOnly" := by
  have hkeeps : p.keepsCallDecorator := by simp [Property.keepsCallDecorator, hvolatile]
  unfold callDecorators at h
  rw [if_pos hkeeps] at h
  obtain ⟨args, -, h⟩ := Except.bind_eq_ok h
  cases h
  exact ⟨⟨"readOnly", []⟩, List.mem_append_right _ (by simp [hreadOnly, hvolatile]), rfl⟩

/-- The first member for a call has the decorators that are written for the property. -/
theorem ofCall_shows {chain : Chain} (hp : p.Analyzed wrappers) (hactions : ¬ p.isActions)
    (hshape : p.shape = .call chain) (h : ofCall c (c.columnsOf p.span) p chain = .ok ms)
    {name : String} (hname : p.Writes name) : ∃ m ∈ ms, ∃ d ∈ m.decorators, d.name = name := by
  unfold ofCall at h
  obtain ⟨called, hcalled, h⟩ := Except.bind_eq_ok h
  obtain ⟨bodies, hbodies, h⟩ := Except.bind_eq_ok h
  cases h
  have hwritten : ∃ d ∈ recordedDecorators c.quote p ++ called, d.name = name := by
    cases hname with
    | action hyes => exact absurd hyes hactions
    | @own d hd hkeeps =>
      rcases hp.recorded_or_call hd with ⟨args, horigin, -⟩ | ⟨hcall, -⟩
      · obtain ⟨a, ha, heq⟩ := exists_recordedDecorator c.quote hd horigin
        exact ⟨a, List.mem_append_left _ ha, heq⟩
      · obtain ⟨a, ha, heq⟩ := exists_callDecorator hcalled hd hcall (hkeeps hcall)
        exact ⟨a, List.mem_append_right _ ha, heq⟩
    | readOnly _ hreadOnly hvolatile =>
      obtain ⟨a, ha, heq⟩ := exists_readOnly hcalled hreadOnly hvolatile
      exact ⟨a, List.mem_append_right _ ha, heq⟩
  cases bodies with
  | nil => exact absurd rfl (callBodies_ne_nil (hp.complete chain hshape) hbodies)
  | cons first rest =>
    obtain ⟨d, hd, heq⟩ := hwritten
    exact ⟨_, List.mem_cons_self, d, hd, heq⟩

theorem exists_mem_commentFirst (comments : List (List Char)) {m : Member} (h : m ∈ ms) :
    ∃ m' ∈ commentFirst comments ms, m'.decorators = m.decorators := by
  cases ms with
  | nil => cases h
  | cons first rest =>
    rcases List.mem_cons.mp h with rfl | h
    · exact ⟨_, List.mem_cons_self, rfl⟩
    · exact ⟨m, List.mem_cons_of_mem _ h, rfl⟩

/-- What is written for a property that becomes a member is written above one of its members. -/
theorem ofProperty_shows (hp : p.Analyzed wrappers) (hactions : ¬ p.isActions)
    (h : ofProperty c p = .ok ms) {name : String} (hname : p.Writes name) :
    ∃ m ∈ ms, ∃ d ∈ m.decorators, d.name = name := by
  obtain ⟨members, hmembers, rfl⟩ := becomes_of_ofProperty h
  suffices hbare : ∃ m ∈ members, ∃ d ∈ m.decorators, d.name = name by
    obtain ⟨m, hm, d, hd, heq⟩ := hbare
    obtain ⟨m', hm', hdecorators⟩ := exists_mem_commentFirst p.comments hm
    exact ⟨m', hm', d, hdecorators ▸ hd, heq⟩
  have hplain (hshape : ∀ chain, p.shape ≠ .call chain) :
      ∃ d ∈ recordedDecorators c.quote p, d.name = name := by
    cases hname with
    | action hyes => exact absurd hyes hactions
    | @own d hd _ =>
      rcases hp.recorded_or_call hd with ⟨args, horigin, -⟩ | ⟨-, chain, hchain⟩
      · exact exists_recordedDecorator c.quote hd horigin
      · exact absurd hchain (hshape chain)
    | readOnly hchain => exact absurd hchain (hshape _)
  cases hmembers with
  | actions hyes => exact absurd hyes hactions
  | function _ hshape => exact ⟨_, List.mem_singleton_self _, hplain (by simp [hshape])⟩
  | call _ hshape hms => exact ofCall_shows hp hactions hshape hms hname
  | field _ hisPlain =>
    refine ⟨_, List.mem_singleton_self _, hplain fun chain hshape => ?_⟩
    rw [hshape] at hisPlain
    cases hisPlain

end Member

/-- The decorators of a class are `classic` and those that are written for the properties. -/
theorem Blueprint.hasDecorator_iff {b : Blueprint} {o : Options} {c : Copy} {cls : ClassDecl}
    {wrappers : List Wrapper} (hp : ∀ p ∈ b.properties, p.Analyzed wrappers)
    (h : b.build o c = .ok cls) (name : String) :
    cls.HasDecorator name ↔
      o.classicDecorator ∧ name = "classic" ∨ ∃ p ∈ b.properties, p.Shows name := by
  constructor
  · rintro (⟨d, hd, rfl⟩ | ⟨m, hm, d, hd, rfl⟩)
    · refine (build_decorators h d hd).imp_right ?_
      rintro ⟨p, hmem, hname⟩
      exact ⟨p, hmem, .onClass hname⟩
    · obtain ⟨parts, hparts, hadds, hmembers⟩ := build_members h
      rw [hmembers] at hm
      obtain ⟨⟨p, ms⟩, hpart, hm⟩ := List.mem_flatMap.mp hm
      have hmem : p ∈ b.properties := hparts ▸ List.mem_map_of_mem hpart
      have hadd := hadds _ hpart
      unfold Property.Adds at hadd
      split at hadd
      · rw [show ms = [] from hadd] at hm
        cases hm
      · rename_i hnone
        refine .inr ⟨p, hmem, ?_⟩
        by_cases hactions : p.isActions
        · obtain ⟨a, ha, haction⟩ :=
            exists_of_mem_forall₂ ((Member.ofProperty_forms hadd).actions hactions) hm
          rw [haction.decorators, List.mem_singleton] at hd
          rw [hd]
          exact .onAction hactions ha
        · exact .onMember ⟨hactions, Option.not_isSome_iff_eq_none.mp hnone⟩
            (Member.ofProperty_writes hadd m hm d hd)
  · rintro (⟨hclassic, rfl⟩ | ⟨p, hmem, hshows⟩)
    · obtain ⟨own, hown, -⟩ := (build_outlines h).decorators
      exact .inl ⟨⟨"classic", []⟩, by simp [hown, hclassic], rfl⟩
    · have hholds := build_holds h p hmem
      cases hshows with
      | onClass hname =>
        rcases hholds with ⟨name', d, hname', hd, hin⟩ | ⟨ms, hnone, -⟩
        · rw [hname, Option.some.injEq] at hname'
          subst hname'
          exact .inl ⟨d, hin, classDecorator_name hd⟩
        · rw [hname] at hnone
          cases hnone
      | @onAction a hactions ha =>
        rcases hholds with ⟨name', d, hname', -⟩ | ⟨ms, -, hms, hin⟩
        · rw [Property.classDecorator?_of_isActions hactions] at hname'
          cases hname'
        · obtain ⟨m, hm, haction⟩ :=
            exists_of_mem_forall₂ ((Member.ofProperty_forms hms).actions hactions).flip ha
          refine .inr ⟨m, hin.subset hm, ⟨"action", []⟩, ?_, rfl⟩
          rw [haction.decorators]
          exact List.mem_singleton_self _
      | onMember hmember hwrites =>
        rcases hholds with ⟨name', d, hname', -⟩ | ⟨ms, -, hms, hin⟩
        · rw [hmember.2] at hname'
          cases hname'
        · obtain ⟨m, hm, hd⟩ := Member.ofProperty_shows (hp p hmem) hmember.1 hms hwrites
          exact .inr ⟨m, hin.subset hm, hd⟩

/-- A decorator of the class, or of a member, has the name under which this one is imported. -/
def ClassDecl.Needs (cls : ClassDecl) (x : Builtin) : Prop :=
  ∃ name, Names x name ∧ cls.HasDecorator name

/-- Every import that the class of an accepted definition asks for is needed, provided that those
which are idle in one property are needed for another one, and only then. -/
theorem imports_needed_iff (o : Options) (source : List Char) (usage : Usage)
    (imports : List Import.Declaration) (object : Node) (b : Blueprint) (c : Copy)
    (hobject : object.Formed)
    (hb : b.properties =
      (PropertyList.ofObject ⟨source, usage, Wrapper.all imports⟩ object).properties)
    (hok : Problem.ofProperties o b.properties = []) :
    ∃ cls, b.build o c = .ok cls ∧
      ((∀ x ∈ b.builtins o, cls.Needs x) ↔
        ∀ p ∈ b.properties, ∀ x ∈ p.idleBuiltins,
          ∃ name, Names x name ∧ ∃ q ∈ b.properties, q.Shows name) := by
  obtain ⟨cls, hcls⟩ := Blueprint.build_ok_of_object hobject hb hok c
  have hanalyzed : ∀ p ∈ b.properties, p.Analyzed (Wrapper.all imports) := fun p hp =>
    Property.analyzed_of_ofObject (hb ▸ hp)
  have haccept : ∀ p ∈ b.properties, p.Acceptable := fun p hp =>
    Problem.acceptable_of_ofProperty (List.flatMap_eq_nil_iff.mp hok p hp)
  have hshown := Blueprint.hasDecorator_iff hanalyzed hcls
  refine ⟨cls, hcls, fun hneeds p hp x hx => ?_, fun hidle x hx => ?_⟩
  · obtain ⟨name, hname, hhas⟩ := hneeds x (Blueprint.builtins_subset hp o
      (Property.idleBuiltins_subset hx))
    rcases (hshown name).mp hhas with ⟨-, rfl⟩ | hshows
    · rcases (hanalyzed p hp).idleBuiltins_cases (haccept p hp) hx with rfl | rfl | rfl
      all_goals exact absurd hname (by decide)
    · exact ⟨name, hname, hshows⟩
  · rcases List.mem_append.mp hx with hx | hx
    · obtain ⟨p, hp, hx⟩ := List.mem_flatMap.mp hx
      rcases (hanalyzed p hp).shows_or_idle (haccept p hp) hx with ⟨name, hname, hshows⟩ | hx
      · exact ⟨name, hname, (hshown name).mpr (.inr ⟨p, hp, hshows⟩)⟩
      · obtain ⟨name, hname, hshows⟩ := hidle p hp x hx
        exact ⟨name, hname, (hshown name).mpr (.inr hshows)⟩
    · rw [List.mem_ite_nil_right, List.mem_singleton] at hx
      obtain ⟨hclassic, rfl⟩ := hx
      exact ⟨"classic", by decide, (hshown "classic").mpr (.inl ⟨hclassic, rfl⟩)⟩

def offText : List Char :=
  "A.extend(\x7b tagName: 'b', actions: \x7b c() \x7b\x7d \x7d, d() \x7b\x7d \x7d);".toList

def offUsage : Usage :=
  { type := some "Component", off := [("actions", .string "e"), ("d", .string "e")] }

/-- The import of `off` that `actions` asks for is needed for `d`. -/
theorem imports_needed_of_off :
    ∃ script object : Node, ∃ cls : ClassDecl,
      let b : Blueprint :=
        ⟨"B", "A", [], (PropertyList.ofObject ⟨offText, offUsage, []⟩ object).properties, []⟩
      Script.parse ⟨false⟩ offText = .ok script ∧ object ∈ script.preorder ∧ object.Formed ∧
      Problem.ofProperties {} b.properties = [] ∧ b.build {} ⟨offText, [], .single⟩ = .ok cls ∧
      b.builtins {} = [.tagName, .action, .off, .off, .classic] ∧
      ∀ x ∈ b.builtins {}, cls.Needs x := by
  have h : ((Script.parse ⟨false⟩ offText).toOption.any fun script =>
      script.preorder.any fun object =>
        let b : Blueprint :=
          ⟨"B", "A", [], (PropertyList.ofObject ⟨offText, offUsage, []⟩ object).properties, []⟩
        decide object.Formed && Problem.ofProperties {} b.properties == [] &&
        b.builtins {} == [.tagName, .action, .off, .off, .classic] &&
        decide (∀ p ∈ b.properties, ∀ x ∈ p.idleBuiltins, x = .off) &&
        b.properties.any fun q => decide q.IsMember &&
          q.decorators.any fun d => d.name == "off" && !d.isFromCall) = true := by
    decide +kernel
  simp only [Option.any_eq_true, Except.toOption_eq_some_iff, List.any_eq_true, Bool.and_eq_true,
    beq_iff_eq, decide_eq_true_eq, Bool.not_eq_true'] at h
  obtain ⟨script, hparse, object, hmem, ⟨⟨⟨hformed, hok⟩, hbuiltins⟩, hidle⟩, q, hq, hmember, d, hd,
    hname, hown⟩ := h
  have hshows : q.Shows "off" :=
    .onMember hmember (hname ▸ .own hd fun hcall => by rw [hown] at hcall; cases hcall)
  obtain ⟨cls, hcls, hiff⟩ := imports_needed_iff {} offText offUsage [] object
    ⟨"B", "A", [], _, []⟩ ⟨offText, [], .single⟩ hformed rfl hok
  refine ⟨script, object, cls, hparse, hmem, hformed, hok, hcls, hbuiltins,
    hiff.mpr fun p hp x hx => ?_⟩
  rw [hidle p hp x hx]
  exact ⟨"off", by decide, q, hq, hshows⟩

/-- The import for an action is asked for, but there is no action. -/
theorem empty_actions_need_no_import :
    ∃ script object : Node, ∃ cls : ClassDecl,
      let source := "A.extend(\x7b actions: \x7b\x7d \x7d);".toList
      let b : Blueprint :=
        ⟨"B", "A", [], (PropertyList.ofObject ⟨source, {}, []⟩ object).properties, []⟩
      Script.parse ⟨false⟩ source = .ok script ∧ object ∈ script.preorder ∧ object.Formed ∧
      Problem.ofProperties {} b.properties = [] ∧ b.build {} ⟨source, [], .single⟩ = .ok cls ∧
      .action ∈ b.builtins {} ∧ ¬ cls.Needs .action := by
  generalize hsource : String.toList _ = source
  have h : ((Script.parse ⟨false⟩ source).toOption.any fun script =>
      script.preorder.any fun object =>
        let b : Blueprint :=
          ⟨"B", "A", [], (PropertyList.ofObject ⟨source, {}, []⟩ object).properties, []⟩
        (b.build {} ⟨source, [], .single⟩).toOption.any fun cls =>
          decide object.Formed && Problem.ofProperties {} b.properties == [] &&
          decide (.action ∈ b.builtins {}) && !decide (cls.HasDecorator "action")) = true := by
    subst hsource
    decide +kernel
  simp only [Option.any_eq_true, Except.toOption_eq_some_iff, List.any_eq_true, Bool.and_eq_true,
    beq_iff_eq, decide_eq_true_eq, Bool.not_eq_true', decide_eq_false_iff_not] at h
  obtain ⟨script, hparse, object, hmem, cls, hcls, ⟨⟨hformed, hok⟩, haction⟩, hnot⟩ := h
  refine ⟨script, object, cls, hparse, hmem, hformed, hok, hcls, haction, ?_⟩
  rintro ⟨name, hname, hhas⟩
  rw [hname.unique (by decide : Names .action "action")] at hhas
  exact hnot hhas

end EmberClasses
