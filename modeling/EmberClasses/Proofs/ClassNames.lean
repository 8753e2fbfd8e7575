import EmberClasses.Proofs.Arguments
import EmberClasses.Proofs.FileConversion
import EmberClasses.Proofs.References
import EmberClasses.Proofs.SuperRewriting

/-! The name of a class and the names in it. A class never has the name of its superclass, but
nothing else is compared with its name: a reference in a mixin or in copied code to something of
that name comes to refer to the class, and so may an import. -/

namespace EmberClasses

open Script (Node Kind Reference)

theorem Name.avoiding_ne (superclass name : String) : avoiding superclass name ≠ superclass := by
  unfold avoiding
  split
  · rename_i heq
    intro h
    have hlength := congrArg String.length h
    rw [heq, String.length_append] at hlength
    simp at hlength
  · assumption

theorem Name.avoiding_eq_iff {superclass name : String} :
    avoiding superclass name = name ↔ name ≠ superclass := by
  refine ⟨fun h heq => avoiding_ne superclass name (h.trans heq), fun h => ?_⟩
  rw [avoiding, if_neg h]

def Script.Reference.isFreeIn (cuts : List Cut) (r : Reference) : Bool :=
  let copied (s : Span) : Bool := cuts.any fun k => k.Copies s
  copied r.span && r.binder.all fun s => !copied s

def Property.forwarded (p : Property) : List String :=
  if p.isActions then
    p.actions.filterMap fun a => match a.value with
      | .identifier name => some name
      | _ => none
  else []

/-- The definition is replaced as a whole statement, which has declared a variable of this name. -/
def Definition.Declares (d : Definition) (name : String) : Prop :=
  (∃ span lead, d.target = .statement span lead) ∧ d.binding = some name

theorem Definition.at?_binding {site : Site} {n : Node} {d : Definition}
    (h : at? site n = some d) : d.binding = site.binding? := by
  unfold at? at h
  split at h
  · cases h
  · obtain ⟨superclass, -, rfl⟩ := Option.map_eq_some_iff.mp h
    rfl

theorem Blueprint.build_name {b : Blueprint} {o : Options} {c : Copy} {d : ClassDecl}
    (h : b.build o c = .ok d) : d.name = b.name := by
  refine Except.foldlM_inv (fun _ d => d.name = b.name) (fun _ p d d' hd hstep => ?_) [] rfl h
  unfold addProperty at hstep
  split at hstep
  · obtain ⟨decorator, -, hstep⟩ := Except.bind_eq_ok hstep
    cases hstep
    exact hd
  · obtain ⟨ms, -, hstep⟩ := Except.bind_eq_ok hstep
    cases hstep
    exact hd

theorem Action.exists_of_forwards {source : List Char} {usage : Usage} {property : Node}
    {comments : List (List Char)} {name : String}
    (h : (Action.ofProperty source usage property comments).value = .identifier name) :
    ∃ m ∈ property.preorder, m.kind = .identifier name := by
  unfold Action.ofProperty at h
  split at h
  · rename_i key rest _ hchildren
    split at h
    · refine ⟨_, value_mem hchildren, ?_⟩
      dsimp only at h
      unfold Action.readValue at h
      split at h
      · split at h
        · cases h
        · split at h <;> cases h
      · rename_i hkind
        cases h
        exact hkind
      · cases h
    · cases h
  · cases h

theorem Property.exists_of_forwarded {file : File} {property : Node} {comments : List (List Char)}
    {name : String} (h : name ∈ (ofNode file property comments).forwarded) :
    ∃ m ∈ property.preorder, m.kind = .identifier name := by
  obtain ⟨a, ha, hvalue⟩ : ∃ a ∈ (ofNode file property comments).actions,
      a.value = .identifier name := by
    unfold forwarded at h
    split at h
    · obtain ⟨a, ha, hvalue⟩ := List.mem_filterMap.mp h
      refine ⟨a, ha, ?_⟩
      split at hvalue
      · rename_i hforwards
        cases hvalue
        exact hforwards
      · cases hvalue
    · cases h
  unfold ofNode at ha
  dsimp only at ha
  split at ha
  · rename_i key rest _ hchildren
    split at ha
    · simp only [ofValue] at ha
      split at ha
      · obtain ⟨e, he, rfl⟩ := List.mem_map.mp ha
        obtain ⟨m, hm, hkind⟩ := Action.exists_of_forwards hvalue
        have hentry := Node.mem_preorder_child (mem_of_mem_withComments he)
        have hobject := Node.mem_preorder_trans property (value_mem hchildren) hentry
        exact ⟨m, Node.mem_preorder_trans property hobject hm, hkind⟩
      · cases ha
    · cases ha
  · cases ha

namespace Conversion.Job

variable (j : Job) (imports : List Import.Declaration) (d : Definition) (call : Node)

/-- All that is copied into the class for a definition: its mixins and parts of its properties. -/
def cutsFor : List Cut :=
  d.mixins.map Cut.plain ++ (j.propertiesOf d).properties.flatMap (Blueprint.cutsOf j.source)

/-- The names that the class for a definition refers to without binding them, its superclass
apart. -/
def copiedNames : List String :=
  ((call.arguments.flatMap (Reference.below [])).filter (·.isFreeIn (j.cutsFor d))).map
      Reference.name ++
    (j.propertiesOf d).properties.flatMap Property.forwarded

/-- A class of this name captures nothing that it refers to, unless it is the variable of that name
itself, and a class that is bound to no variable takes no name from an import. -/
structure CapturesNothing (name : String) : Prop where
  code : name ∈ d.superclass :: j.copiedNames d call → d.Declares name
  imports : d.binding = none → ∀ i ∈ imports, name ∉ i.localNames

/-- How the name of a class can clash, by where its definition stands. -/
def Clashes : Definition.Site → Prop
  -- The class is the variable, unless that has the name of the superclass.
  | .initial variable_ (some _) =>
    variable_ = d.superclass ∧ "_" ++ variable_ ∈ j.copiedNames d call
  -- The class is an expression in the initial value, where its name hides the variable.
  | .initial variable_ none | .accessed "create" (some variable_) =>
    Name.avoiding d.superclass variable_ ∈ j.copiedNames d call
  | _ =>
    let name := Name.avoiding d.superclass (Name.ofDefinition none j.path j.usage.objectType)
    name ∈ j.copiedNames d call ∨ ∃ i ∈ imports, name ∈ i.localNames

variable {j imports d call}

theorem exists_of_mem_copiedNames {site : Definition.Site} (hd : Definition.at? site call = some d)
    {name : String} (hname : name ∈ j.copiedNames d call) :
    ∃ m ∈ call.preorder, m.kind = .identifier name := by
  rcases List.mem_append.mp hname with hname | hname
  · obtain ⟨r, hr, rfl⟩ := List.mem_map.mp hname
    obtain ⟨a, ha, hr⟩ := List.mem_flatMap.mp (List.mem_filter.mp hr).1
    obtain ⟨m, hm, hkind, -⟩ := Reference.exists_of_mem_below a hr
    exact ⟨m, Node.mem_preorder_trans call (Node.mem_preorder_argument ha) hm, hkind⟩
  · obtain ⟨p, hp, hname⟩ := List.mem_flatMap.mp hname
    unfold propertiesOf at hp
    split at hp
    · rename_i object hobject
      obtain ⟨e, he, rfl⟩ := List.mem_map.mp hp
      obtain ⟨m, hm, hkind⟩ := Property.exists_of_forwarded hname
      have hproperty := Node.mem_preorder_child (mem_of_mem_withComments he)
      have hinside := Node.mem_preorder_trans object hproperty hm
      exact ⟨m, Node.mem_preorder_trans call (Definition.properties_mem hd hobject) hinside, hkind⟩
    · cases hp

/-- For a class that is not the variable, being referred to is what makes the difference. -/
theorem capturesNothing_iff {name : String} (hsuperclass : name ≠ d.superclass)
    (hother : ¬ d.Declares name) :
    j.CapturesNothing imports d call name ↔ name ∉ j.copiedNames d call ∧
      (d.binding = none → ∀ i ∈ imports, name ∉ i.localNames) := by
  constructor
  · rintro ⟨hcode, himports⟩
    exact ⟨fun hname => hother (hcode (List.mem_cons_of_mem _ hname)), himports⟩
  · rintro ⟨hname, himports⟩
    refine ⟨fun hmem => ?_, himports⟩
    rcases List.mem_cons.mp hmem with heq | hmem
    · exact absurd heq hsuperclass
    · exact absurd hmem hname

theorem capturesNothing_unbound_iff {name : String} (hsuperclass : name ≠ d.superclass)
    (hbinding : d.binding = none) :
    j.CapturesNothing imports d call name ↔
      ¬ (name ∈ j.copiedNames d call ∨ ∃ i ∈ imports, name ∈ i.localNames) := by
  have hother : ¬ d.Declares name := fun h => nomatch hbinding.symm.trans h.2
  rw [capturesNothing_iff hsuperclass hother, not_or]
  simp [hbinding]

theorem capturesNothing_expression_iff {name owner : String} (hsuperclass : name ≠ d.superclass)
    (hbinding : d.binding = some owner) (htarget : ∀ span lead, d.target ≠ .statement span lead) :
    j.CapturesNothing imports d call name ↔ name ∉ j.copiedNames d call := by
  have hother : ¬ d.Declares name := by
    rintro ⟨⟨span, lead, hstatement⟩, -⟩
    exact htarget span lead hstatement
  rw [capturesNothing_iff hsuperclass hother]
  simp [hbinding]

/-- A definition that fills the declaration of a variable clashes only if the class can not have the
name of the variable. -/
theorem capturesNothing_statement_iff {owner : String} (hbinding : d.binding = some owner)
    {span : Span} {lead : String} (htarget : d.target = .statement span lead) :
    j.CapturesNothing imports d call (Name.avoiding d.superclass owner) ↔
      ¬ (owner = d.superclass ∧ "_" ++ owner ∈ j.copiedNames d call) := by
  have hsuperclass := Name.avoiding_ne d.superclass owner
  by_cases howner : owner = d.superclass
  · have hname : Name.avoiding d.superclass owner = "_" ++ owner := if_pos howner
    have hother : ¬ d.Declares (Name.avoiding d.superclass owner) := by
      rintro ⟨-, hsome⟩
      rw [hbinding, howner] at hsome
      exact hsuperclass (howner ▸ (Option.some.inj hsome).symm)
    rw [capturesNothing_iff hsuperclass hother, hname]
    simp [hbinding, howner]
  · rw [Name.avoiding_eq_iff.mpr howner]
    refine iff_of_true ⟨fun _ => ⟨⟨span, lead, htarget⟩, hbinding⟩, fun hnone => ?_⟩
      fun h => howner h.1
    cases hbinding.symm.trans hnone

theorem capturesNothing_iff_not_clashes {site : Definition.Site}
    (hbinding : d.binding = site.binding?) (htarget : d.target = site.target call.span) :
    j.CapturesNothing imports d call (j.blueprintOf d).name ↔ ¬ j.Clashes imports d call site := by
  change j.CapturesNothing imports d call (Name.avoiding d.superclass
    (Name.ofDefinition d.binding j.path j.usage.objectType)) ↔ _
  have hne (name : String) := Name.avoiding_ne d.superclass name
  unfold Clashes
  split
  · rename_i owner statement
    rw [show d.binding = some owner from hbinding]
    exact capturesNothing_statement_iff hbinding htarget
  · rename_i owner
    rw [show d.binding = some owner from hbinding]
    exact capturesNothing_expression_iff (hne owner) hbinding fun _ _ h =>
      nomatch htarget.symm.trans h
  · rename_i owner
    rw [show d.binding = some owner from hbinding]
    exact capturesNothing_expression_iff (hne owner) hbinding fun _ _ h =>
      nomatch htarget.symm.trans h
  · rename_i hstatement hinitial hcreate
    have hnone : d.binding = none := by
      rw [hbinding]
      unfold Definition.Site.binding?
      split
      · rename_i owner statement
        cases statement with
        | none => exact absurd rfl (hinitial owner)
        | some s => exact absurd rfl (hstatement owner s)
      · rename_i owner
        cases owner with
        | none => rfl
        | some owner => exact absurd rfl (hcreate owner)
      · rfl
    rw [hnone]
    exact capturesNothing_unbound_iff (hne _) hnone

theorem mem_copiedNames_of_mixin {site : Definition.Site} (hd : Definition.at? site call = some d)
    (hcall : call.WellNested) {a : Node} (ha : a ∈ call.arguments) (hkind : a.kind ≠ .object)
    {r : Reference} (hr : r ∈ Reference.below [] a) (hfree : r.binder = none) :
    r.name ∈ j.copiedNames d call := by
  obtain ⟨m, hm, -, hspan⟩ := Reference.exists_of_mem_below a hr
  have hnested := (Node.WellNested.of_mem call hcall (Node.mem_preorder_argument ha)).1
  have hinside : r.span.Inside a.span := hspan ▸ (Node.WellNested.of_mem a hnested hm).2
  have hcut : Cut.plain a.span ∈ j.cutsFor d := by
    refine List.mem_append_left _ (List.mem_map_of_mem ?_)
    rw [(Definition.at?_arguments hd).2]
    exact List.mem_map_of_mem (List.mem_filter.mpr ⟨ha, by simpa using hkind⟩)
  have hcopies : (Cut.plain a.span).Copies r.span := ⟨hinside, fun e he => nomatch he⟩
  refine List.mem_append_left _ (List.mem_map_of_mem (List.mem_filter.mpr ⟨?_, ?_⟩))
  · exact List.mem_flatMap_of_mem ha hr
  · simp only [Script.Reference.isFreeIn, hfree, Option.all_none, Bool.and_true]
    exact List.any_eq_true.mpr ⟨_, hcut, by simpa using hcopies⟩

end Conversion.Job

namespace Conversion

/-- Every definition that is replaced becomes a class of another name than its superclass, made of
its mixins and of what is cut from its properties. The name of the class captures nothing exactly if
it does not clash: with what the mixins and the copied code refer to, unless the class takes the
place of the variable of that name, and with the imports if there is no variable. -/
theorem class_name_captures_nothing_iff (path : Path) (source : List Char) (o : Options)
    (usage : Usage) (script call : Node) (site : Definition.Site) (d : Definition) (p q : Progress)
    (hd : Definition.at? site call = some d)
    (hconvert : (Job.ofScript path source o usage script).convert d p = .ok (true, q)) :
    let j := Job.ofScript path source o usage script
    let imports := Import.Declaration.ofScript script
    ∃ cls, (j.blueprintOf d).build o j.copy = .ok cls ∧
      q.edits = p.edits ++ [⟨d.target.span, j.textFor d cls⟩] ∧
      cls.name = Name.avoiding d.superclass (Name.ofDefinition d.binding path usage.objectType) ∧
      cls.name ≠ d.superclass ∧
      cls.superclass = (j.blueprintOf d).heritage ∧
      Composed j.copy ((j.propertiesOf d).properties.flatMap (Blueprint.cutsOf source))
        ((j.propertiesOf d).properties.flatMap (Blueprint.codeOf o.quote)) cls.fragments ∧
      (call.WellNested → ∀ a ∈ call.arguments, a.kind ≠ .object → ∀ r ∈ Reference.below [] a,
        r.binder = none → r.name ∈ j.copiedNames d call) ∧
      ((∀ m ∈ call.preorder, m.kind ≠ .identifier cls.name) →
        cls.name ∉ j.copiedNames d call) ∧
      (j.CapturesNothing imports d call cls.name ↔ ¬ j.Clashes imports d call site) := by
  intro j imports
  obtain ⟨cls, hbuild, hedits⟩ := Job.convert_replaced hconvert
  have hname : cls.name = (j.blueprintOf d).name := Blueprint.build_name hbuild
  have hcomposed := Blueprint.build_composed (j.propertiesOf_complete d) hbuild
  refine ⟨cls, hbuild, hedits, hname, ?_, Blueprint.build_superclass hbuild, hcomposed, ?_, ?_, ?_⟩
  · rw [hname]
    exact Name.avoiding_ne _ _
  · intro hcall a ha hkind r hr hfree
    exact Job.mem_copiedNames_of_mixin hd hcall ha hkind hr hfree
  · intro hnone hmem
    obtain ⟨m, hm, hkind⟩ := Job.exists_of_mem_copiedNames hd hmem
    exact hnone m hm hkind
  · rw [hname]
    exact Job.capturesNothing_iff_not_clashes (Definition.at?_binding hd)
      (Definition.at?_eq_some hd).2.2

def shadowedNameText : List Char :=
  "export default Y.extend(M, \x7b f(FooBar) \x7b return FooBar; \x7d \x7d);".toList

theorem class_name_captures_nothing_past_parameter : ∃ script call : Node, ∃ d q cls,
    let j := Job.ofScript ⟨"/foo-bar.js"⟩ shadowedNameText {} {} script
    Script.parse ⟨false⟩ shadowedNameText = .ok script ∧ call ∈ script.preorder ∧
    Definition.at? (.defaultExport ⟨0, 61⟩) call = some d ∧ j.convert d {} = .ok (true, q) ∧
    (j.blueprintOf d).build {} j.copy = .ok cls ∧ cls.name = "FooBar" ∧
    j.copiedNames d call = ["M"] ∧
    j.CapturesNothing (Import.Declaration.ofScript script) d call cls.name := by
  have h : ((Script.parse ⟨false⟩ shadowedNameText).toOption.any fun script =>
      let j := Job.ofScript ⟨"/foo-bar.js"⟩ shadowedNameText {} {} script
      (Import.Declaration.ofScript script).isEmpty && script.preorder.any fun call =>
        (Definition.at? (.defaultExport ⟨0, 61⟩) call).any fun d =>
          (j.convert d {}).toOption.any fun r => r.1 && (j.blueprintOf d).name == "FooBar" &&
            j.copiedNames d call == ["M"]) = true := by
    decide +kernel
  simp only [Option.any_eq_true, Bool.and_eq_true, beq_iff_eq, List.any_eq_true, List.isEmpty_iff,
    Except.toOption_eq_some_iff] at h
  obtain ⟨script, hparse, himports, call, hcall, d, hd, ⟨replaced, q⟩, hconvert,
    ⟨hreplaced, hname⟩, hcopied⟩ := h
  obtain rfl : replaced = true := hreplaced
  obtain ⟨cls, hbuild, -, hcls, -, -, -, -, -, hiff⟩ :=
    class_name_captures_nothing_iff _ _ _ _ script call _ d {} q hd hconvert
  have hfoo : cls.name = "FooBar" := hcls.trans hname
  refine ⟨script, call, d, q, cls, hparse, hcall, hd, hconvert, hbuild, hfoo, hcopied,
    hiff.mpr ?_⟩
  rintro (hmem | ⟨i, hi, -⟩)
  · have hpath := hcls.symm.trans hfoo
    rw [show d.binding = none from Definition.at?_binding hd] at hpath
    rw [hcopied] at hmem
    have hfoo' : "FooBar" ∈ ["M"] := hpath ▸ hmem
    exact absurd hfoo' (by decide)
  · rw [himports] at hi
    cases hi

/-- In a file of this text, the definition at the site is replaced by a class of the name, and the
name captures something. -/
def Captures (text : String) (site : Definition.Site) (name : String) : Prop :=
  ∃ script call : Node, ∃ d q cls,
    let j := Job.ofScript ⟨"/foo-bar.js"⟩ text.toList {} {} script
    Script.parse ⟨false⟩ text.toList = .ok script ∧ call ∈ script.preorder ∧
    Definition.at? site call = some d ∧ j.convert d {} = .ok (true, q) ∧
    (j.blueprintOf d).build {} j.copy = .ok cls ∧ cls.name = name ∧
    ¬ j.CapturesNothing (Import.Declaration.ofScript script) d call name

private theorem captures_of_found {text : String} {site : Definition.Site} {name : String}
    (h : ((Script.parse ⟨false⟩ text.toList).toOption.any fun script =>
      let j := Job.ofScript ⟨"/foo-bar.js"⟩ text.toList {} {} script
      script.preorder.any fun call => (Definition.at? site call).any fun d =>
        (j.convert d {}).toOption.any fun r => r.1 && (j.blueprintOf d).name == name &&
          if d.binding.isSome then
            (d.target matches .expression _ _) && (j.copiedNames d call).contains name
          else (j.copiedNames d call).contains name ||
            (Import.Declaration.ofScript script).any fun i => i.localNames.contains name) =
      true) : Captures text site name := by
  simp only [Option.any_eq_true, Bool.and_eq_true, beq_iff_eq, List.any_eq_true,
    Except.toOption_eq_some_iff] at h
  obtain ⟨script, hparse, call, hcall, d, hd, ⟨replaced, q⟩, hconvert, ⟨hreplaced, hname⟩,
    hfound⟩ := h
  obtain rfl : replaced = true := hreplaced
  obtain ⟨cls, hbuild, -⟩ := Job.convert_replaced hconvert
  refine ⟨script, call, d, q, cls, hparse, hcall, hd, hconvert, hbuild,
    (Blueprint.build_name hbuild).trans hname, ?_⟩
  rintro ⟨hcode, himports⟩
  cases hbinding : d.binding with
  | some owner =>
    simp only [hbinding, Option.isSome_some, if_true, Bool.and_eq_true,
      List.contains_iff_mem] at hfound
    obtain ⟨⟨span, lead, htarget⟩, -⟩ := hcode (List.mem_cons_of_mem _ hfound.2)
    rw [htarget] at hfound
    cases hfound.1
  | none =>
    simp only [hbinding, Option.isSome_none, Bool.false_eq_true, if_false, Bool.or_eq_true,
      List.any_eq_true, List.contains_iff_mem] at hfound
    rcases hfound with hmem | ⟨i, hi, hmem⟩
    · obtain ⟨-, hsome⟩ := hcode (List.mem_cons_of_mem _ hmem)
      cases hbinding.symm.trans hsome
    · exact himports hbinding i hi hmem

/-- The name of a class may be that of its mixin, hide the variable that the result of the class is
bound to from a method of the class, or be that of an import. -/
theorem class_name_captures_mixin_variable_and_import :
    Captures "export default Y.extend(FooBar);" (.defaultExport ⟨0, 32⟩) "FooBar" ∧
    Captures "const b = Y.extend(\x7b c() \x7b return b; \x7d \x7d).create();"
      (.accessed "create" (some "b")) "b" ∧
    Captures "import FooBar from 'x'; export default Y.extend();" (.defaultExport ⟨24, 50⟩)
      "FooBar" := by
  refine ⟨captures_of_found ?_, captures_of_found ?_, captures_of_found ?_⟩ <;> decide +kernel

end Conversion

end EmberClasses
