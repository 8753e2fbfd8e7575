import EmberClasses.Proofs.MemberKeys

/-! What the decorators of a generated class are bound to. The builder writes them down in several
places, and what has to be imported is worked out in another one; each name that is written is one
that is to be imported, or one that the file has already. -/

namespace EmberClasses

open Script (Node Kind)

namespace Import

/-- One of the decorators that are to be imported has this local name. -/
def Requested (wanted : List Builtin) (name : String) : Prop :=
  ∃ r ∈ table, r.decorator ∈ wanted ∧ r.localName = name

theorem Requested.mono {wanted wanted' : List Builtin} {name : String} (h : Requested wanted name)
    (hsub : wanted ⊆ wanted') : Requested wanted' name := by
  obtain ⟨r, hr, hw, hname⟩ := h
  exact ⟨r, hr, hsub hw, hname⟩

theorem Requested.of_mem {wanted : List Builtin} {b : Builtin} {name : String} (hb : b ∈ wanted)
    (h : ∃ r ∈ table, r.decorator = b ∧ r.localName = name) : Requested wanted name := by
  obtain ⟨r, hr, rfl, hname⟩ := h
  exact ⟨r, hr, hb, hname⟩

/-- The file imports a decorator under this name: an export that has a decorator form in its own
module. -/
def HasDecorator (imports : List Declaration) (name : String) : Prop :=
  ∃ d ∈ imports, d.typeOnly = false ∧ ∃ n ∈ d.named, n.localName = name ∧
    ∃ decorator, Wrapper.decoratorFor? d.module n.imported = some decorator ∧
      Wrapper.isRehomed d.module decorator = false

end Import

namespace Wrapper

open Import (HasDecorator)

theorem decoratorFor?_eq_some {module imported decorator : String}
    (h : decoratorFor? module imported = some decorator) :
    decorator = imported ∨ decorator = "observes" := by
  unfold decoratorFor? at h
  split at h
  · split at h
    · exact .inr (Option.some.inj h).symm
    · split at h
      · rename_i hcomputed
        exact .inl ((Option.some.inj h).symm.trans hcomputed.symm)
      · cases h
  · split at h
    · split at h
      · rename_i hon
        exact .inl ((Option.some.inj h).symm.trans hon.symm)
      · cases h
    · split at h
      · split at h
        · rename_i hinject
          exact .inl ((Option.some.inj h).symm.trans hinject.symm)
        · cases h
      · split at h
        · exact .inl (Option.some.inj h).symm
        · cases h

theorem decoratorFor?_event {imported decorator : String}
    (h : decoratorFor? eventModule imported = some decorator) : decorator = "on" := by
  have hne : ¬ eventModule = objectModule := by decide
  rw [decoratorFor?, if_neg hne, if_pos rfl] at h
  split at h
  · exact (Option.some.inj h).symm
  · cases h

/-- A decorator that lives elsewhere asks for its import, any other has the local name. -/
theorem decorator_of_ofNamed? {module : String} {n : Import.Named} {w : Wrapper}
    (h : ofNamed? module n = some w) :
    w.localName = n.localName ∧ ∃ decorator, decoratorFor? module n.imported = some decorator ∧
      if isRehomed module decorator then
        ∃ b, w.requires = some b ∧
          ∃ r ∈ Import.table, r.decorator = b ∧ r.localName = w.decorator
      else w.decorator = n.localName := by
  obtain ⟨decorator, hd, rfl⟩ := Option.map_eq_some_iff.mp h
  refine ⟨rfl, decorator, hd, ?_⟩
  dsimp only
  split
  · rename_i hrehomed
    simp only [hrehomed, Bool.not_true, Bool.false_and, Bool.false_eq_true, if_false, Bool.and_true,
      decide_eq_true_eq]
    by_cases hobserves : decorator = "observes"
    · rw [if_pos hobserves, hobserves]
      exact ⟨.observes, rfl, by decide⟩
    · have hmodule : module = eventModule := by
        simpa [isRehomed, hobserves] using hrehomed
      rw [hmodule] at hd
      rw [decoratorFor?_event hd]
      exact ⟨.on, rfl, by decide⟩
  · rename_i hrehomed
    rw [Bool.not_eq_true] at hrehomed
    have hsame : decorator = n.imported := by
      rcases decoratorFor?_eq_some hd with heq | heq
      · exact heq
      · simp [isRehomed, heq] at hrehomed
    by_cases hlocal : n.imported = n.localName
    · simp [hsame, hlocal]
    · simp [hrehomed, hlocal]

theorem mem_all {imports : List Import.Declaration} {w : Wrapper} (h : w ∈ all imports) :
    ∃ d ∈ imports, d.typeOnly = false ∧ ∃ n ∈ d.named, ofNamed? d.module n = some w := by
  obtain ⟨d, hd, hw⟩ := List.mem_flatMap.mp h
  obtain ⟨hd, htype⟩ := List.mem_filter.mp hd
  obtain ⟨n, hn, hw⟩ := List.mem_filterMap.mp hw
  exact ⟨d, hd, by simpa using htype, n, hn, hw⟩

/-- The decorator of a wrapper is to be imported, or the file has it under the wrapper's name. -/
theorem requested_or_hasDecorator {imports : List Import.Declaration} {w : Wrapper}
    (h : w ∈ all imports) :
    (∃ b, w.requires = some b ∧ ∃ r ∈ Import.table, r.decorator = b ∧ r.localName = w.decorator) ∨
      w.decorator = w.localName ∧ HasDecorator imports w.decorator := by
  obtain ⟨d, hd, htype, n, hn, hw⟩ := mem_all h
  obtain ⟨hlocal, decorator, hdecorator, hcases⟩ := decorator_of_ofNamed? hw
  split at hcases
  · exact .inl hcases
  · rename_i hrehomed
    refine .inr ⟨hcases.trans hlocal.symm, d, hd, htype, n, hn, hcases.symm, decorator, hdecorator,
      ?_⟩
    simpa using hrehomed

end Wrapper

namespace Property

def callee? (p : Property) : Option String :=
  match p.shape with
  | .call chain => chain.callee
  | _ => none

/-- Where the decorators of a property may come from. -/
inductive Sourced (wrappers : List Wrapper) (p : Property) : Decorator → Prop where
  | recorded {name : String} {args : Json} : name = "unobserves" ∨ name = "off" →
      Sourced wrappers p ⟨name, .recorded args⟩
  | imported {w : Wrapper} : w ∈ wrappers → p.callee? = some w.localName →
      Sourced wrappers p ⟨w.decorator, .imported w⟩
  | synthesized {callee : String} : p.isComputed → p.callee? = some callee →
      Sourced wrappers p ⟨callee, .synthesized⟩

theorem mem_recordedDecorators {usage : Usage} {name : String} {d : Decorator}
    (h : d ∈ recordedDecorators usage name) :
    (d.name = "unobserves" ∨ d.name = "off") ∧ ∃ args, d.origin = .recorded args := by
  unfold recordedDecorators at h
  dsimp only at h
  split at h
  · rcases List.mem_append.mp h with h | h
    · obtain ⟨args, -, rfl⟩ := Option.map_eq_some_iff.mp (Option.mem_toList.mp h)
      exact ⟨.inl rfl, args, rfl⟩
    · obtain ⟨args, -, rfl⟩ := Option.map_eq_some_iff.mp (Option.mem_toList.mp h)
      exact ⟨.inr rfl, args, rfl⟩
  · cases h

theorem sourced_of_callDecorator {wrappers : List Wrapper} {p : Property} {d : Decorator}
    (h : d ∈ callDecorator wrappers p.isComputed p.shape) : Sourced wrappers p d := by
  unfold callDecorator at h
  split at h
  · rename_i chain hshape
    split at h
    · cases h
    · rename_i callee hcallee
      have hp : p.callee? = some callee := by
        rw [callee?, hshape]
        exact hcallee
      split at h
      · rename_i w hfind
        rw [List.mem_singleton.mp h]
        have hlocal : w.localName = callee := by
          simpa using List.find?_some hfind
        exact .imported (List.mem_reverse.mp (List.mem_of_find?_eq_some hfind)) (hlocal ▸ hp)
      · split at h
        · rename_i hcomputed
          rw [List.mem_singleton.mp h]
          exact .synthesized hcomputed hp
        · cases h
  · cases h

theorem sourced_ofNode {file : File} {property : Node} {comments : List (List Char)}
    {d : Decorator} (h : d ∈ (ofNode file property comments).decorators) :
    Sourced file.wrappers (ofNode file property comments) d := by
  unfold ofNode at h ⊢
  dsimp only at h ⊢
  split
  · rename_i hkind hchildren
    rw [hkind, hchildren] at h
    dsimp only at h
    split
    · rename_i hkey hcomputed
      rw [hkey, hcomputed] at h
      rcases List.mem_append.mp h with h | h
      · obtain ⟨hname, args, horigin⟩ := mem_recordedDecorators h
        obtain ⟨name, origin⟩ := d
        rw [show origin = .recorded args from horigin]
        exact .recorded hname
      · exact sourced_of_callDecorator h
    · rename_i hno
      split at h
      · rename_i hkey hcomputed
        exact absurd hcomputed (hno _ hkey)
      · cases h
  · rename_i hno
    split at h
    · rename_i hkind hchildren
      exact absurd hchildren (hno _ _ _ hkind)
    · cases h

/-- A property that becomes a decorator of the class asks for the import of that decorator. -/
theorem requested_of_classDecorator? {p : Property} {name : String}
    (h : p.classDecorator? = some name) : Import.Requested p.builtins name := by
  have hnamed : p.namedBuiltins ⊆ p.builtins := fun b hb =>
    List.mem_append_left _ (List.mem_append_left _ hb)
  have hname : name = Name.templateLayout ∨ name = p.name ∧ p.name ∈ Name.classDecorators := by
    unfold classDecorator? at h
    split at h
    · cases h
    · rename_i hclass
      have hmem : p.name ∈ Name.classDecorators := by
        simpa [isClassDecorator, Name.isClassDecorator] using hclass
      split at h
      · split at h
        · exact .inl (Option.some.inj h).symm
        · exact .inr ⟨(Option.some.inj h).symm, hmem⟩
      · exact .inr ⟨(Option.some.inj h).symm, hmem⟩
  suffices hrequested : Import.Requested p.namedBuiltins name from hrequested.mono hnamed
  rcases hname with rfl | ⟨rfl, hmem⟩
  · exact .of_mem (b := .templateLayout) (by simp [namedBuiltins, h]) (by decide)
  · simp only [Name.classDecorators, List.mem_cons, List.not_mem_nil, or_false] at hmem
    rcases hmem with hp | hp | hp | hp | hp
    · rw [hp] at h ⊢
      exact .of_mem (b := .layout) (by simp [namedBuiltins, h]) (by decide)
    · rw [hp]
      exact .of_mem (b := .tagName) (by simp [namedBuiltins, hp]) (by decide)
    · rw [hp]
      exact .of_mem (b := .classNames) (by simp [namedBuiltins, hp]) (by decide)
    · rw [hp]
      exact .of_mem (b := .classNameBindings) (by simp [namedBuiltins, hp]) (by decide)
    · rw [hp]
      exact .of_mem (b := .attributeBindings) (by simp [namedBuiltins, hp]) (by decide)

theorem decoratorBuiltin?_mem {p : Property} {d : Decorator} {b : Builtin} (hd : d ∈ p.decorators)
    (hb : p.decoratorBuiltin? d = some b) : b ∈ p.builtins :=
  List.mem_append_left _ (List.mem_append_right _ (List.mem_filterMap.mpr ⟨d, hd, hb⟩))

/-- The decorators that the members of a property may have. -/
inductive Writes (p : Property) : String → Prop where
  | action : p.isActions → Writes p "action"
  | own {d : Decorator} : d ∈ p.decorators → (d.isFromCall → p.keepsCallDecorator) → Writes p d.name
  | readOnly {chain : Chain} : p.shape = .call chain → p.isReadOnly → p.isVolatile = false →
      Writes p "readOnly"

/-- What the members of a property are decorated with is to be imported, or it is what the
property's own call calls; the file then imports a decorator under this name, unless it is usage
data that makes the property a computed one. -/
theorem Writes.bound {imports : List Import.Declaration} {p : Property} {name : String}
    (hp : ∀ d ∈ p.decorators, Sourced (Wrapper.all imports) p d) (h : Writes p name) :
    Import.Requested p.builtins name ∨
      p.callee? = some name ∧ (Import.HasDecorator imports name ∨ p.isComputed) := by
  cases h with
  | action hactions =>
    have hname : p.name = "actions" := by simpa [isActions] using hactions
    exact .inl (.of_mem (b := .action) (by simp [builtins, namedBuiltins, hname]) (by decide))
  | readOnly hshape hreadOnly hvolatile =>
    exact .inl (.of_mem (b := .readOnly) (by simp [builtins, hshape, hreadOnly, hvolatile])
      (by decide))
  | @own d hd hkeeps =>
    cases hp d hd with
    | recorded hname =>
      dsimp only
      rcases hname with rfl | rfl
      · exact .inl (.of_mem (b := .unobserves) (decoratorBuiltin?_mem hd rfl) (by decide))
      · exact .inl (.of_mem (b := .off) (decoratorBuiltin?_mem hd rfl) (by decide))
    | @imported w hw hcallee =>
      rcases Wrapper.requested_or_hasDecorator hw with ⟨b, hb, hr⟩ | ⟨hlocal, himported⟩
      · refine .inl (.of_mem (decoratorBuiltin?_mem hd ?_) hr)
        exact (if_pos (hkeeps rfl)).trans hb
      · exact .inr ⟨hcallee.trans (congrArg some hlocal.symm), .inl himported⟩
    | synthesized hcomputed hcallee => exact .inr ⟨hcallee, .inr hcomputed⟩

end Property

namespace Member

theorem mem_decorators_commentFirst {comments : List (List Char)} {ms : List Member} {m : Member}
    (h : m ∈ commentFirst comments ms) : ∃ m' ∈ ms, m.decorators = m'.decorators := by
  cases ms with
  | nil => cases h
  | cons m' ms =>
    rcases List.mem_cons.mp h with rfl | h
    · exact ⟨m', List.mem_cons_self, rfl⟩
    · exact ⟨m, List.mem_cons_of_mem m' h, rfl⟩

theorem recordedDecorators_writes {quote : Quote} {p : Property} {d : AppliedDecorator}
    (h : d ∈ recordedDecorators quote p) : p.Writes d.name := by
  obtain ⟨own, hown, hd⟩ := List.mem_filterMap.mp h
  split at hd
  · rename_i args horigin
    cases hd
    exact .own hown fun hcall => by simp [Decorator.isFromCall, horigin] at hcall
  · cases hd

theorem callDecorators_writes {c : Copy} {columns : Nat} {p : Property} {chain : Chain}
    {ds : List AppliedDecorator} (hshape : p.shape = .call chain)
    (h : callDecorators c columns p chain = .ok ds) : ∀ d ∈ ds, p.Writes d.name := by
  intro d hd
  unfold callDecorators at h
  split at h
  · rename_i hkeeps
    obtain ⟨args, -, h⟩ := Except.bind_eq_ok h
    cases h
    rcases List.mem_append.mp hd with hd | hd
    · obtain ⟨own, hown, rfl⟩ := List.mem_map.mp hd
      exact .own (List.mem_filter.mp hown).1 fun _ => hkeeps
    · split at hd
      · rename_i hreadOnly
        rw [Bool.and_eq_true, Bool.not_eq_true'] at hreadOnly
        rw [List.mem_singleton.mp hd]
        exact .readOnly hshape hreadOnly.1 hreadOnly.2
      · cases hd
  · cases h
    cases hd

theorem ofCall_writes {c : Copy} {columns : Nat} {p : Property} {chain : Chain}
    {ms : List Member} (hshape : p.shape = .call chain) (h : ofCall c columns p chain = .ok ms) :
    ∀ m ∈ ms, ∀ d ∈ m.decorators, p.Writes d.name := by
  unfold ofCall at h
  obtain ⟨called, hcalled, h⟩ := Except.bind_eq_ok h
  obtain ⟨bodies, hbodies, h⟩ := Except.bind_eq_ok h
  cases h
  have hplain := (callBodies_composed hbodies).1
  cases bodies with
  | nil => intro m hm; cases hm
  | cons first rest =>
    intro m hm d hd
    rcases List.mem_cons.mp hm with rfl | hm
    · rcases List.mem_append.mp hd with hd | hd
      · exact recordedDecorators_writes hd
      · exact callDecorators_writes hshape hcalled d hd
    · rw [hplain m (List.mem_cons_of_mem first hm)] at hd
      cases hd

theorem ofAction_decorators {c : Copy} {a : Action} {m : Member} (h : ofAction c a = .ok m) :
    m.decorators = [⟨"action", []⟩] := by
  unfold ofAction at h
  dsimp only at h
  split at h
  all_goals
    obtain ⟨m', -, h⟩ := Except.bind_eq_ok h
    cases h
    rfl

theorem Becomes.writes {c : Copy} {p : Property} {ms : List Member} (h : Becomes c p ms) :
    ∀ m ∈ ms, ∀ d ∈ m.decorators, p.Writes d.name := by
  have hrecorded {m : Member} : ∀ n ∈ [{ m with decorators := recordedDecorators c.quote p }],
      ∀ d ∈ n.decorators, p.Writes d.name := by
    intro n hn d hd
    rw [List.mem_singleton.mp hn] at hd
    exact recordedDecorators_writes hd
  cases h with
  | actions hactions hms =>
    intro m hm d hd
    obtain ⟨a, -, ha⟩ := Except.exists_of_mem_mapM hms hm
    rw [ofAction_decorators ha, List.mem_singleton] at hd
    rw [hd]
    exact .action hactions
  | function => exact hrecorded
  | call _ hshape hms => exact ofCall_writes hshape hms
  | field => exact hrecorded

theorem ofProperty_writes {c : Copy} {p : Property} {ms : List Member}
    (h : ofProperty c p = .ok ms) : ∀ m ∈ ms, ∀ d ∈ m.decorators, p.Writes d.name := by
  obtain ⟨members, hmembers, rfl⟩ := becomes_of_ofProperty h
  intro m hm d hd
  obtain ⟨m', hm', heq⟩ := mem_decorators_commentFirst hm
  exact hmembers.writes m' hm' d (heq ▸ hd)

end Member

namespace Blueprint

theorem classDecorator_name {c : Copy} {p : Property} {name : String} {d : AppliedDecorator}
    (h : classDecorator c p name = .ok d) : d.name = name := by
  unfold classDecorator at h
  dsimp only at h
  split at h
  all_goals
    obtain ⟨spans, -, h⟩ := Except.bind_eq_ok h
    obtain ⟨args, -, h⟩ := Except.bind_eq_ok h
    cases h
    rfl

/-- The decorators of a class are `classic` and those that properties become. -/
theorem build_decorators {b : Blueprint} {o : Options} {c : Copy} {cls : ClassDecl}
    (h : b.build o c = .ok cls) : ∀ d ∈ cls.decorators,
      o.classicDecorator ∧ d.name = "classic" ∨
        ∃ p ∈ b.properties, p.classDecorator? = some d.name := by
  refine Except.foldlM_inv (fun (ps : List Property) (cls : ClassDecl) => ∀ d ∈ cls.decorators,
      o.classicDecorator ∧ d.name = "classic" ∨ ∃ p ∈ ps, p.classDecorator? = some d.name)
    (fun ps p cls cls' hcls hstep d hd => ?_) [] (fun d hd => ?_) h
  · have hold (hd : d ∈ cls.decorators) : o.classicDecorator ∧ d.name = "classic" ∨
        ∃ q ∈ ps ++ [p], q.classDecorator? = some d.name := by
      refine (hcls d hd).imp_right ?_
      rintro ⟨q, hq, hname⟩
      exact ⟨q, List.mem_append_left _ hq, hname⟩
    obtain ⟨-, ⟨name, decorator, hname, hdec, hds, -⟩ | ⟨ms, -, -, hds, -⟩⟩ :=
      addProperty_eq_ok hstep
    · rw [hds] at hd
      rcases List.mem_append.mp hd with hd | hd
      · exact hold hd
      · rw [List.mem_singleton.mp hd, classDecorator_name hdec]
        exact .inr ⟨p, by simp, hname⟩
    · rw [hds] at hd
      exact hold hd
  · unfold frame at hd
    dsimp only at hd
    split at hd
    · rename_i hclassic
      rw [List.mem_singleton.mp hd]
      exact .inl ⟨hclassic, rfl⟩
    · cases hd

theorem builtins_subset {b : Blueprint} {p : Property} (hp : p ∈ b.properties) (o : Options) :
    p.builtins ⊆ b.builtins o := fun _ hx =>
  List.mem_append_left _ (List.mem_flatMap.mpr ⟨p, hp, hx⟩)

end Blueprint

/-- In the class of an accepted definition, every decorator of the class is one that is to be
imported. So is every decorator of a member, unless it is what the own call of the member's property
calls; then the file imports a decorator under this name, or usage data tells that the property is a
computed one. -/
theorem decorators_bound (o : Options) (source : List Char) (usage : Usage)
    (imports : List Import.Declaration) (object : Node) (b : Blueprint) (c : Copy)
    (hobject : object.Formed)
    (hb : b.properties =
      (PropertyList.ofObject ⟨source, usage, Wrapper.all imports⟩ object).properties)
    (hok : Problem.ofProperties o b.properties = []) :
    ∃ cls, b.build o c = .ok cls ∧
      (∀ d ∈ cls.decorators, Import.Requested (b.builtins o) d.name) ∧
      ∀ m ∈ cls.members, ∃ p ∈ b.properties, (∃ ms, Member.ofProperty c p = .ok ms ∧ m ∈ ms) ∧
        ∀ d ∈ m.decorators, Import.Requested (b.builtins o) d.name ∨
          p.callee? = some d.name ∧ (Import.HasDecorator imports d.name ∨ p.isComputed) := by
  obtain ⟨cls, hcls⟩ := Blueprint.build_ok_of_object hobject hb hok c
  refine ⟨cls, hcls, fun d hd => ?_, fun m hm => ?_⟩
  · rcases Blueprint.build_decorators hcls d hd with ⟨hclassic, hname⟩ | ⟨p, hp, hname⟩
    · have hmem : Builtin.classic ∈ b.builtins o := by simp [Blueprint.builtins, hclassic]
      rw [hname]
      exact .of_mem hmem (by decide)
    · exact (Property.requested_of_classDecorator? hname).mono (Blueprint.builtins_subset hp o)
  · obtain ⟨parts, hparts, hadds, hmembers⟩ := Blueprint.build_members hcls
    rw [hmembers] at hm
    obtain ⟨⟨p, ms⟩, hpart, hm⟩ := List.mem_flatMap.mp hm
    have hp : p ∈ b.properties := hparts ▸ List.mem_map_of_mem hpart
    have hms : Member.ofProperty c p = .ok ms := by
      have hadd := hadds _ hpart
      unfold Property.Adds at hadd
      split at hadd
      · rw [show ms = [] from hadd] at hm
        cases hm
      · exact hadd
    have hsourced : ∀ d ∈ p.decorators, p.Sourced (Wrapper.all imports) d := by
      rw [hb] at hp
      obtain ⟨⟨property, comments⟩, -, rfl⟩ := List.mem_map.mp hp
      intro d hd
      exact Property.sourced_ofNode hd
    refine ⟨p, hp, ⟨ms, hms, hm⟩, fun d hd => ?_⟩
    have hbound := (Member.ofProperty_writes hms m hm d hd).bound hsourced
    exact hbound.imp_left (·.mono (Blueprint.builtins_subset hp o))

/-- A renamed decorator with a modifier, one that lives in another module, one of the class and one
of an action. -/
def decoratedText : List Char :=
  ("import \x7b computed as c, observer \x7d from '@ember/object'; A.extend(\x7b tagName: 'b', " ++
    "d: c('e', function() \x7b\x7d).readOnly(), f: observer('g', function() \x7b\x7d), " ++
    "actions: \x7b h() \x7b\x7d \x7d \x7d);").toList

/-- The class for `decoratedText` has six decorators, and only `c` is not to be imported. -/
theorem decorators_bound_of_six :
    ∃ script object : Node, ∃ cls : ClassDecl,
      let imports := Import.Declaration.ofScript script
      let b : Blueprint := ⟨"B", "A", [],
        (PropertyList.ofObject ⟨decoratedText, {}, Wrapper.all imports⟩ object).properties, []⟩
      Script.parse ⟨false⟩ decoratedText = .ok script ∧ object ∈ script.preorder ∧
      object.Formed ∧ Problem.ofProperties {} b.properties = [] ∧
      b.build {} ⟨decoratedText, [], .single⟩ = .ok cls ∧
      cls.decorators.map (·.name) = ["classic", "tagName"] ∧
      cls.members.map (·.decorators.map (·.name)) = [["c", "readOnly"], ["observes"], ["action"]] ∧
      (∀ d ∈ cls.decorators, Import.Requested (b.builtins {}) d.name) ∧
      ∀ m ∈ cls.members, ∀ d ∈ m.decorators, Import.Requested (b.builtins {}) d.name ∨
        ∃ p ∈ b.properties, p.callee? = some d.name ∧
          (Import.HasDecorator imports d.name ∨ p.isComputed) := by
  have h : ((Script.parse ⟨false⟩ decoratedText).toOption.any fun script =>
      let imports := Import.Declaration.ofScript script
      script.preorder.any fun object =>
        let b : Blueprint := ⟨"B", "A", [],
          (PropertyList.ofObject ⟨decoratedText, {}, Wrapper.all imports⟩ object).properties, []⟩
        (b.build {} ⟨decoratedText, [], .single⟩).toOption.any fun cls =>
          decide object.Formed && Problem.ofProperties {} b.properties == [] &&
          cls.decorators.map (·.name) == ["classic", "tagName"] &&
          cls.members.map (·.decorators.map (·.name)) ==
            [["c", "readOnly"], ["observes"], ["action"]]) = true := by
    decide +kernel
  simp only [Option.any_eq_true, Except.toOption_eq_some_iff, List.any_eq_true, Bool.and_eq_true,
    beq_iff_eq, decide_eq_true_eq] at h
  obtain ⟨script, hparse, object, hmem, cls, hcls, ⟨⟨hformed, hok⟩, hclass⟩, hmembers⟩ := h
  obtain ⟨cls', hcls', hdecorators, hbound⟩ := decorators_bound {} decoratedText {} _ object
    ⟨"B", "A", [], _, []⟩ ⟨decoratedText, [], .single⟩ hformed rfl hok
  rw [hcls, Except.ok.injEq] at hcls'
  subst hcls'
  refine ⟨script, object, cls, hparse, hmem, hformed, hok, hcls, hclass, hmembers, hdecorators,
    fun m hm d hd => ?_⟩
  obtain ⟨p, hp, -, hall⟩ := hbound m hm
  exact (hall d hd).imp_right fun h => ⟨p, hp, h⟩

end EmberClasses
