import EmberClasses.Proofs.SuperRewriting

/-! The keys of the members of a class. Properties and actions have names of their own kind, but in
a class they stand side by side, so an action may take the place of a property that it is named
after. -/

namespace EmberClasses

open Script (Node Kind)

theorem Except.map_of_mapM {α β γ ε : Type} {f : α → Except ε β} {g : β → γ} {h : α → γ}
    {l : List α} {bs : List β} (hf : ∀ a b, f a = .ok b → g b = h a) (hbs : l.mapM f = .ok bs) :
    bs.map g = l.map h := by
  induction l generalizing bs with
  | nil => cases hbs; rfl
  | cons a l ih =>
    rw [List.mapM_cons] at hbs
    obtain ⟨b, hb, hbs⟩ := Except.bind_eq_ok hbs
    obtain ⟨bs', hbs', hbs⟩ := Except.bind_eq_ok hbs
    cases hbs
    rw [List.map_cons, List.map_cons, hf a b hb, ih hbs']

namespace Member

def methodKind? (m : Member) : Option MethodKind :=
  match m.body with
  | .field _ => none
  | .method f => some f.kind

def tag (m : Member) : String × Option MethodKind := (m.key, m.methodKind?)

theorem map_tag_decorateFirst (ds : List AppliedDecorator) (ms : List Member) :
    (decorateFirst ds ms).map tag = ms.map tag := by
  cases ms <;> rfl

theorem map_tag_commentFirst (comments : List (List Char)) (ms : List Member) :
    (commentFirst comments ms).map tag = ms.map tag := by
  cases ms <;> rfl

theorem ofFunction_tag {c : Copy} {columns : Nat} {name : String} {kind : MethodKind}
    {rule : SuperRule} {skip : Nat} {f : Callable} {m : Member}
    (h : ofFunction c columns name kind rule skip f = .ok m) : m.tag = (name, some kind) := by
  unfold ofFunction at h
  obtain ⟨body, -, h⟩ := Except.bind_eq_ok h
  obtain ⟨params, -, h⟩ := Except.bind_eq_ok h
  cases h
  rfl

theorem field_tag {c : Copy} {columns : Nat} {p : Property} {span : Span} {m : Member}
    (h : field c columns p span = .ok m) : m.tag = (p.name, none) := by
  unfold field at h
  split at h
  · obtain ⟨value, -, h⟩ := Except.bind_eq_ok h
    cases h
    rfl
  · cases h
    rfl

theorem ofAction_tag {c : Copy} {a : Action} {m : Member} (h : ofAction c a = .ok m) :
    m.tag = (a.name, some .method) := by
  unfold ofAction at h
  dsimp only at h
  cases hv : a.value with
  | function f =>
    rw [hv] at h
    obtain ⟨m', hm', h⟩ := Except.bind_eq_ok h
    cases h
    have htag : m'.tag = (a.name, some .method) := ofFunction_tag hm'
    exact htag
  | identifier reference =>
    rw [hv] at h
    cases h
    rfl
  | unsupported reason =>
    rw [hv] at h
    cases h

/-- The tags of the members for a property that is not `actions`: one member under its name, or a
getter and a setter. -/
inductive Tags (p : Property) : List (String × Option MethodKind) → Prop where
  | one (kind : Option MethodKind) : Tags p [(p.name, kind)]
  | pair : p.kind = .getter → Tags p [(p.name, some .getter), (p.name, some .setter)]

theorem Tags.fst_eq {p : Property} {tags : List (String × Option MethodKind)} (h : Tags p tags) :
    ∀ t ∈ tags, t.1 = p.name := by
  cases h <;> simp

theorem Tags.ne_nil {p : Property} {tags : List (String × Option MethodKind)} (h : Tags p tags) :
    tags ≠ [] := by
  cases h <;> simp

private theorem tags_of_one {p : Property} {x : Except Breach Member} {kind : Option MethodKind}
    {ms : List Member} (hx : ∀ m, x = .ok m → m.tag = (p.name, kind))
    (h : (do return [← x]) = .ok ms) : Tags p (ms.map tag) := by
  obtain ⟨m, hm, h⟩ := Except.bind_eq_ok h
  cases h
  rw [List.map_singleton, hx m hm]
  exact .one kind

theorem callBodies_tags {c : Copy} {columns : Nat} {p : Property} {chain : Chain}
    {ms : List Member} (hchain : chain.Complete) (h : callBodies c columns p chain = .ok ms) :
    Tags p (ms.map tag) := by
  unfold callBodies at h
  dsimp only at h
  split at h
  · exact tags_of_one (fun _ hm => ofFunction_tag hm) h
  · exact tags_of_one (fun _ hm => ofFunction_tag hm) h
  · rename_i a hkind hlast
    obtain ⟨getter, hgetter, h⟩ := Except.bind_eq_ok h
    obtain ⟨setter, hsetter, h⟩ := Except.bind_eq_ok h
    cases h
    rw [List.map_append, Except.map_of_mapM (fun _ _ hm => ofFunction_tag hm) hgetter,
      Except.map_of_mapM (fun _ _ hm => ofFunction_tag hm) hsetter]
    have hsome := hchain a (List.mem_of_getLast? hlast)
    cases hg : a.getter with
    | none =>
      cases hs : a.setter with
      | none => simp [hg, hs] at hsome
      | some _ => exact .one _
    | some _ =>
      cases hs : a.setter with
      | none => exact .one _
      | some _ => exact .pair hkind
  · exact tags_of_one (fun _ hm => field_tag hm) h

theorem ofProperty_tags {c : Copy} {p : Property} {ms : List Member} (hp : p.Complete)
    (hactions : ¬ p.isActions) (h : ofProperty c p = .ok ms) : Tags p (ms.map tag) := by
  obtain ⟨members, hmembers, rfl⟩ := becomes_of_ofProperty h
  rw [map_tag_commentFirst]
  have hone {m : Member} {kind : Option MethodKind} (hm : m.tag = (p.name, kind)) :
      Tags p ([{ m with decorators := recordedDecorators c.quote p }].map tag) := by
    have htag : ({ m with decorators := recordedDecorators c.quote p } : Member).tag =
        (p.name, kind) := hm
    rw [List.map_singleton, htag]
    exact .one kind
  cases hmembers with
  | actions hactions' _ => exact absurd hactions' hactions
  | function _ _ hm => exact hone (ofFunction_tag hm)
  | call _ hshape hms =>
    obtain ⟨called, -, hms⟩ := Except.bind_eq_ok hms
    obtain ⟨bodies, hbodies, hms⟩ := Except.bind_eq_ok hms
    cases hms
    rw [map_tag_decorateFirst]
    exact callBodies_tags (hp _ hshape) hbodies
  | field _ _ _ hm => exact hone (field_tag hm)

theorem ofProperty_actions_tags {c : Copy} {p : Property} {ms : List Member}
    (hactions : p.isActions) (h : ofProperty c p = .ok ms) :
    ms.map tag = p.actions.map fun a => (a.name, some .method) := by
  obtain ⟨members, hmembers, rfl⟩ := becomes_of_ofProperty h
  rw [map_tag_commentFirst]
  cases hmembers with
  | actions _ hms => exact Except.map_of_mapM (fun _ _ hm => ofAction_tag hm) hms
  | function hno => exact absurd hactions hno
  | call hno => exact absurd hactions hno
  | field hno => exact absurd hactions hno

end Member

def Property.Adds (c : Copy) (p : Property) (ms : List Member) : Prop :=
  if p.classDecorator?.isSome then ms = [] else Member.ofProperty c p = .ok ms

theorem Blueprint.build_members {b : Blueprint} {o : Options} {c : Copy} {d : ClassDecl}
    (h : b.build o c = .ok d) : ∃ parts : List (Property × List Member),
      parts.map Prod.fst = b.properties ∧ (∀ x ∈ parts, x.1.Adds c x.2) ∧
      d.members = parts.flatMap Prod.snd := by
  refine Except.foldlM_inv (fun (ps : List Property) (d : ClassDecl) =>
      ∃ parts : List (Property × List Member), parts.map Prod.fst = ps ∧
        (∀ x ∈ parts, x.1.Adds c x.2) ∧ d.members = parts.flatMap Prod.snd)
    (fun ps p d d' hd hstep => ?_) [] ⟨[], rfl, by simp, rfl⟩ h
  obtain ⟨parts, hparts, hadds, hmembers⟩ := hd
  have hnew : ∃ ms, p.Adds c ms ∧ d'.members = d.members ++ ms := by
    obtain ⟨-, ⟨name, decorator, hname, -, -, hms⟩ | ⟨ms, hname, hms, -, hd'⟩⟩ :=
      addProperty_eq_ok hstep
    · exact ⟨[], by simp [Property.Adds, hname], by simp [hms]⟩
    · exact ⟨ms, by simp [Property.Adds, hname, hms], hd'⟩
  obtain ⟨ms, hms, hd'⟩ := hnew
  refine ⟨parts ++ [(p, ms)], by simp [hparts], ?_, by simp [hd', hmembers]⟩
  intro x hx
  rcases List.mem_append.mp hx with hx | hx
  · exact hadds x hx
  · rw [List.mem_singleton.mp hx]
    exact hms

/-- The property becomes a member, or two of them, under its own name. -/
def Property.IsMember (p : Property) : Prop := ¬ p.isActions ∧ p.classDecorator? = none

instance (p : Property) : Decidable p.IsMember := inferInstanceAs (Decidable (_ ∧ _))

/-- The two members are the getter and the setter of one computed property. -/
def Member.Paired (c : Copy) (properties : List Property) (m n : Member) : Prop :=
  m.methodKind? = some .getter ∧ n.methodKind? = some .setter ∧
    ∃ p ∈ properties, p.kind = .getter ∧ Member.ofProperty c p = .ok [m, n]

namespace Property

variable {c : Copy} {p : Property} {ms : List Member}

theorem classDecorator?_of_isActions (h : p.isActions) : p.classDecorator? = none := by
  have hname : p.name = "actions" := by simpa [isActions] using h
  have hclass : p.isClassDecorator = false := by
    rw [isClassDecorator, hname]
    decide
  simp [classDecorator?, hclass]

theorem Adds.of_isActions (h : p.Adds c ms) (hactions : p.isActions) :
    ms.map Member.tag = p.actions.map fun a => (a.name, some .method) := by
  rw [Adds, classDecorator?_of_isActions hactions] at h
  exact Member.ofProperty_actions_tags hactions h

theorem Adds.of_isMember (h : p.Adds c ms) (hp : p.Complete) (hmember : p.IsMember) :
    Member.ofProperty c p = .ok ms ∧ Member.Tags p (ms.map Member.tag) := by
  rw [Adds, hmember.2] at h
  exact ⟨h, Member.ofProperty_tags hp hmember.1 h⟩

/-- A member is named after its property, or after an action of it. -/
theorem Adds.key_of_mem (h : p.Adds c ms) (hp : p.Complete) {m : Member} (hm : m ∈ ms) :
    p.IsMember ∧ m.key = p.name ∨ p.isActions ∧ ∃ a ∈ p.actions, m.key = a.name := by
  have htag : m.tag ∈ ms.map Member.tag := List.mem_map_of_mem hm
  by_cases hactions : p.isActions
  · rw [h.of_isActions hactions] at htag
    obtain ⟨a, ha, heq⟩ := List.mem_map.mp htag
    exact .inr ⟨hactions, a, ha, (congrArg Prod.fst heq).symm⟩
  · by_cases hclass : p.classDecorator? = none
    · exact .inl ⟨⟨hactions, hclass⟩, (h.of_isMember hp ⟨hactions, hclass⟩).2.fst_eq _ htag⟩
    · rw [Adds, if_pos (Option.isSome_iff_ne_none.mpr hclass)] at h
      rw [h] at hm
      cases hm

theorem Adds.exists_action (h : p.Adds c ms) (hactions : p.isActions) {a : Action}
    (ha : a ∈ p.actions) : ∃ m ∈ ms, m.tag = (a.name, some .method) := by
  rw [← List.mem_map, h.of_isActions hactions]
  exact List.mem_map_of_mem ha

theorem Adds.exists_member (h : p.Adds c ms) (hp : p.Complete) (hmember : p.IsMember) :
    ∃ m ∈ ms, m.key = p.name := by
  have htags := (h.of_isMember hp hmember).2
  obtain ⟨m, hm⟩ : ∃ m, m ∈ ms :=
    List.exists_mem_of_ne_nil ms fun hnil => htags.ne_nil (by rw [hnil]; rfl)
  exact ⟨m, hm, htags.fst_eq m.tag (List.mem_map_of_mem hm)⟩

theorem Adds.pairwise {properties : List Property} (h : p.Adds c ms) (hp : p.Complete)
    (hmem : p ∈ properties) (hnames : (p.actions.map Action.name).Nodup) :
    ms.Pairwise fun m n => m.key = n.key → Member.Paired c properties m n := by
  by_cases hactions : p.isActions
  · have hkeys : ms.map Member.key = p.actions.map Action.name := by
      have htags := congrArg (List.map Prod.fst) (h.of_isActions hactions)
      simpa [Member.tag, Function.comp_def] using htags
    rw [← hkeys, List.nodup_iff_pairwise_ne, List.pairwise_map] at hnames
    exact hnames.imp fun hne heq => absurd heq hne
  · by_cases hclass : p.classDecorator? = none
    · obtain ⟨hms, htags⟩ := h.of_isMember hp ⟨hactions, hclass⟩
      generalize htag : ms.map Member.tag = tags at htags
      cases htags with
      | one kind =>
        obtain ⟨m, rfl, -⟩ := List.map_eq_singleton_iff.mp htag
        exact List.pairwise_singleton _ _
      | pair hkind =>
        obtain ⟨m, rest, rfl, hm, hrest⟩ := List.map_eq_cons_iff.mp htag
        obtain ⟨n, rfl, hn⟩ := List.map_eq_singleton_iff.mp hrest
        rw [List.pairwise_pair]
        intro _
        exact ⟨congrArg Prod.snd hm, congrArg Prod.snd hn, p, hmem, hkind, hms⟩
    · rw [Adds, if_pos (Option.isSome_iff_ne_none.mpr hclass)] at h
      rw [h]
      exact .nil

end Property

/-- No action is named after a property that becomes a member. -/
def Blueprint.Separate (b : Blueprint) : Prop :=
  ∀ p ∈ b.properties, p.isActions → ∀ a ∈ p.actions,
    ∀ q ∈ b.properties, q.IsMember → a.name ≠ q.name

instance (b : Blueprint) : Decidable b.Separate :=
  inferInstanceAs (Decidable (∀ p ∈ b.properties, _ → ∀ a ∈ p.actions, ∀ q ∈ b.properties, _ → _))

theorem Property.Adds.key_ne {c : Copy} {b : Blueprint} (hb : b.Separate) {p q : Property}
    (hp : p ∈ b.properties) (hq : q ∈ b.properties) (hne : p.name ≠ q.name) (hpc : p.Complete)
    (hqc : q.Complete) {ms ns : List Member} (hms : p.Adds c ms) (hns : q.Adds c ns) {m n : Member}
    (hm : m ∈ ms) (hn : n ∈ ns) : m.key ≠ n.key := by
  intro heq
  rcases hms.key_of_mem hpc hm with ⟨hpm, hmk⟩ | ⟨hpa, a, ha, hmk⟩
  · rcases hns.key_of_mem hqc hn with ⟨-, hnk⟩ | ⟨hqa, a, ha, hnk⟩
    · exact hne (by rw [← hmk, heq, hnk])
    · exact hb q hq hqa a ha p hp hpm (by rw [← hnk, ← heq, hmk])
  · rcases hns.key_of_mem hqc hn with ⟨hqm, hnk⟩ | ⟨hqa, -⟩
    · exact hb p hp hpa a ha q hq hqm (by rw [← hmk, heq, hnk])
    · simp only [Property.isActions, decide_eq_true_eq] at hpa hqa
      exact hne (hpa.trans hqa.symm)

theorem Member.Paired.ne_method {c : Copy} {properties : List Property} {m n : Member}
    (h : Paired c properties m n) :
    m.methodKind? ≠ some .method ∧ n.methodKind? ≠ some .method := by
  rw [h.1, h.2.1]
  simp

/-- In the class of an accepted definition, whose properties have different names and whose actions
have, two members share a key only if they are a getter and a setter of one computed property;
provided that no action is named after a property, and only then. -/
theorem member_keys_distinct_iff (o : Options) (file : Property.File) (object : Node)
    (b : Blueprint) (c : Copy) (hobject : object.Formed)
    (hb : b.properties = (PropertyList.ofObject file object).properties)
    (hok : Problem.ofProperties o b.properties = [])
    (hnames : (b.properties.map Property.name).Nodup)
    (hactions : ∀ p ∈ b.properties, (p.actions.map Action.name).Nodup) :
    ∃ cls, b.build o c = .ok cls ∧
      ((cls.members.Pairwise fun m n => m.key = n.key → Member.Paired c b.properties m n) ↔
        b.Separate) := by
  obtain ⟨cls, hcls⟩ := Blueprint.build_ok_of_object hobject hb hok c
  have hcomplete : ∀ p ∈ b.properties, p.Complete := by
    rw [hb]
    exact PropertyList.ofObject_complete file object
  obtain ⟨parts, hparts, hadds, hmembers⟩ := Blueprint.build_members hcls
  refine ⟨cls, hcls, ?_⟩
  rw [hmembers, List.pairwise_flatMap]
  have hmem : ∀ x ∈ parts, x.1 ∈ b.properties := fun x hx => by
    rw [← hparts]
    exact List.mem_map_of_mem hx
  constructor
  · rintro ⟨-, hpairwise⟩ p hp hpa a ha q hq hqm heq
    rw [← hparts] at hp hq
    obtain ⟨x, hx, rfl⟩ := List.mem_map.mp hp
    obtain ⟨y, hy, rfl⟩ := List.mem_map.mp hq
    obtain ⟨m, hm, hmtag⟩ := (hadds x hx).exists_action hpa ha
    obtain ⟨n, hn, hnkey⟩ := (hadds y hy).exists_member (hcomplete _ (hmem y hy)) hqm
    have hkey : m.key = n.key := (congrArg Prod.fst hmtag).trans (heq.trans hnkey.symm)
    have hxy : x ≠ y := by
      rintro rfl
      exact hqm.1 hpa
    have hpairs : parts.Pairwise fun x y => ∀ m ∈ x.2, ∀ n ∈ y.2, m.key = n.key →
        m.methodKind? ≠ some .method ∧ n.methodKind? ≠ some .method :=
      hpairwise.imp fun h m hm n hn hkey => (h m hm n hn hkey).ne_method
    have hsymm : Std.Symm fun x y : Property × List Member => ∀ m ∈ x.2, ∀ n ∈ y.2, m.key = n.key →
        m.methodKind? ≠ some .method ∧ n.methodKind? ≠ some .method :=
      ⟨fun _ _ h m hm n hn hkey => (h n hn m hm hkey.symm).symm⟩
    exact (hpairs.forall hx hy hxy m hm n hn hkey).1 (congrArg Prod.snd hmtag)
  · intro hseparate
    refine ⟨fun x hx => (hadds x hx).pairwise (hcomplete _ (hmem x hx)) (hmem x hx)
      (hactions _ (hmem x hx)), ?_⟩
    rw [← hparts, List.map_map, List.nodup_iff_pairwise_ne, List.pairwise_map] at hnames
    apply hnames.imp_of_mem
    intro x y hx hy hne m hm n hn hkey
    exact absurd hkey (Property.Adds.key_ne hseparate (hmem x hx) (hmem y hy) hne
      (hcomplete _ (hmem x hx)) (hcomplete _ (hmem y hy)) (hadds x hx) (hadds y hy) hm hn)

/-- A computed property with a getter and a setter, and an action. -/
def computedText : List Char :=
  ("import \x7b computed \x7d from '@ember/object'; A.extend(\x7b " ++
    "b: computed(\x7b get() \x7b\x7d, set(c, d) \x7b\x7d \x7d), " ++
    "actions: \x7b e() \x7b\x7d \x7d \x7d);").toList

/-- The members for `computedText` are a getter and a setter of one property, and a method. -/
theorem member_keys_distinct_of_computed :
    ∃ script object : Node, ∃ cls : ClassDecl,
      let j := Conversion.Job.ofScript ⟨"a.js"⟩ computedText {} {} script
      let b : Blueprint := ⟨"B", "A", [],
        (PropertyList.ofObject ⟨computedText, {}, j.wrappers⟩ object).properties, []⟩
      Script.parse ⟨false⟩ computedText = .ok script ∧ object ∈ script.preorder ∧ object.Formed ∧
      Problem.ofProperties {} b.properties = [] ∧ (b.properties.map Property.name).Nodup ∧
      (∀ p ∈ b.properties, (p.actions.map Action.name).Nodup) ∧ b.build {} j.copy = .ok cls ∧
      cls.members.map Member.tag =
        [("b", some .getter), ("b", some .setter), ("e", some .method)] ∧
      cls.members.Pairwise fun m n => m.key = n.key → Member.Paired j.copy b.properties m n := by
  have h : ((Script.parse ⟨false⟩ computedText).toOption.any fun script =>
      let j := Conversion.Job.ofScript ⟨"a.js"⟩ computedText {} {} script
      script.preorder.any fun object =>
        let b : Blueprint := ⟨"B", "A", [],
          (PropertyList.ofObject ⟨computedText, {}, j.wrappers⟩ object).properties, []⟩
        (b.build {} j.copy).toOption.any fun cls =>
          decide (object.Formed ∧ (b.properties.map Property.name).Nodup ∧
            (∀ p ∈ b.properties, (p.actions.map Action.name).Nodup) ∧ b.Separate) &&
          Problem.ofProperties {} b.properties == [] &&
          cls.members.map Member.tag ==
            [("b", some .getter), ("b", some .setter), ("e", some .method)]) = true := by
    decide +kernel
  simp only [Option.any_eq_true, Except.toOption_eq_some_iff, List.any_eq_true, Bool.and_eq_true,
    beq_iff_eq, decide_eq_true_eq] at h
  obtain ⟨script, hparse, object, hmem, cls, hcls, ⟨⟨hformed, hnames, hactions, hseparate⟩, hok⟩,
    htags⟩ := h
  obtain ⟨cls', hcls', hiff⟩ := member_keys_distinct_iff {} ⟨computedText, {}, _⟩ object
    ⟨"B", "A", [], _, []⟩ (Conversion.Job.ofScript ⟨"a.js"⟩ computedText {} {} script).copy hformed
    rfl hok hnames hactions
  rw [hcls, Except.ok.injEq] at hcls'
  subst hcls'
  exact ⟨script, object, cls, hparse, hmem, hformed, hok, hnames, hactions, hcls, htags,
    hiff.mpr hseparate⟩

def collidingText : List Char :=
  "A.extend(\x7b b() \x7b\x7d, actions: \x7b b() \x7b\x7d \x7d \x7d);".toList

/-- The definition in `collidingText` is accepted, and both methods of its class have one key. -/
theorem action_collides_with_method :
    ∃ script n : Node, ∃ d : Definition, ∃ cls : ClassDecl,
      let j := Conversion.Job.ofScript ⟨"a.js"⟩ collidingText {} {} script
      Script.parse ⟨false⟩ collidingText = .ok script ∧ n ∈ script.preorder ∧
      Definition.at? .plain n = some d ∧ j.problemsOf d = [] ∧
      ((j.blueprintOf d).properties.map Property.name).Nodup ∧
      (∀ p ∈ (j.blueprintOf d).properties, (p.actions.map Action.name).Nodup) ∧
      (j.blueprintOf d).build {} j.copy = .ok cls ∧
      cls.members.map Member.tag = [("b", some .method), ("b", some .method)] := by
  have h : ((Script.parse ⟨false⟩ collidingText).toOption.any fun script =>
      let j := Conversion.Job.ofScript ⟨"a.js"⟩ collidingText {} {} script
      script.preorder.any fun n => (Definition.at? .plain n).any fun d =>
        ((j.blueprintOf d).build {} j.copy).toOption.any fun cls =>
          decide (((j.blueprintOf d).properties.map Property.name).Nodup ∧
            ∀ p ∈ (j.blueprintOf d).properties, (p.actions.map Action.name).Nodup) &&
          j.problemsOf d == [] &&
          cls.members.map Member.tag == [("b", some .method), ("b", some .method)]) = true := by
    decide +kernel
  simp only [Option.any_eq_true, Except.toOption_eq_some_iff, List.any_eq_true, Bool.and_eq_true,
    beq_iff_eq, decide_eq_true_eq] at h
  obtain ⟨script, hparse, n, hn, d, hd, cls, hcls, ⟨⟨hnames, hactions⟩, hok⟩, htags⟩ := h
  exact ⟨script, n, d, cls, hparse, hn, hd, hok, hnames, hactions, hcls, htags⟩

end EmberClasses
