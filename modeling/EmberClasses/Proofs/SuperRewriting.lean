import EmberClasses.Proofs.Acceptance
import EmberClasses.Proofs.ClassCuts

/-! What becomes of `this._super`. In the body of a function that becomes a member each of them is
written over. Code that is taken over as it stands may keep some: parameters with default values,
and functions that stay arguments of a decorator or part of the value of a field. -/

namespace EmberClasses

open Script (Node Kind)

/-- An edit of the cut takes a part of the source away, or makes it a method of the parent class. -/
def Cut.WritesOver (k : Cut) (name : String) (s : Span) : Prop :=
  ∃ e ∈ k.edits, s.Inside e.span ∧ e.text = "undefined".toList ∨
    e.span = s ∧ e.text = ("super." ++ name).toList

theorem Cut.WritesOver.not_copies {k : Cut} {name : String} {s : Span} (h : k.WritesOver name s)
    (hs : s.start < s.stop) : ¬k.Copies s := by
  rintro ⟨-, hapart⟩
  obtain ⟨e, he, ⟨hin, -⟩ | ⟨rfl, -⟩⟩ := h
  · exact hin.not_apart hs (hapart e he)
  · exact (Span.Inside.refl _).not_apart hs (hapart e he)

namespace Member

theorem callee_mem_superEdits {source : List Char} {name : String} {inAction : Bool}
    {noted : List Nat} {calls : List SuperCall} {c : SuperCall} (h : c ∈ calls) :
    ⟨c.callee, ("super." ++ name).toList⟩ ∈ superEdits source name inAction noted calls := by
  induction calls generalizing noted with
  | nil => cases h
  | cons d ds ih =>
    unfold superEdits
    dsimp only
    rcases List.mem_cons.mp h with rfl | h
    · split <;> exact List.mem_cons_self
    · split
      · exact List.mem_cons_of_mem _ (List.mem_cons_of_mem _ (ih h))
      · exact List.mem_cons_of_mem _ (ih h)

/-- Whatever the rule, an edit writes over the `this._super` of each super call. -/
theorem callee_written_over {f : Callable} (hf : f.Orderly) {c : SuperCall}
    (hc : c ∈ f.superCalls) (source : List Char) (name : String) (rule : SuperRule) :
    (Cut.body f.body (bodyEdits source name rule f)).WritesOver name c.callee := by
  unfold bodyEdits
  cases rule with
  | undefined =>
    obtain ⟨d, hd, hin⟩ := hf.inside_outermost hc
    exact ⟨_, List.mem_map_of_mem hd, .inl ⟨(hf.inside c hc).2.trans hin, rfl⟩⟩
  | parent inAction => exact ⟨_, callee_mem_superEdits hc, .inr ⟨rfl, rfl⟩⟩

theorem body_mem_functionCuts {source : List Char} {name : String} {rule : SuperRule} {skip : Nat}
    {f : Callable} {span : Span} {edits : List Edit}
    (h : Cut.body span edits ∈ functionCuts source name rule skip f) :
    span = f.body ∧ edits = bodyEdits source name rule f := by
  rcases List.mem_cons.mp h with h | h
  · cases h
    exact ⟨rfl, rfl⟩
  · obtain ⟨_, -, h⟩ := List.mem_map.mp h
    cases h

theorem body_not_mem_fieldCuts {p : Property} {span s : Span} {edits : List Edit} :
    Cut.body span edits ∉ fieldCuts p s := by
  unfold fieldCuts
  split <;> simp

theorem body_mem_callCuts {source : List Char} {p : Property} {chain : Chain} {span : Span}
    {edits : List Edit} (h : Cut.body span edits ∈ callCuts source p chain) :
    ∃ f ∈ chain.args.flatMap Argument.functions, ∃ rule,
      span = f.body ∧ edits = bodyEdits source p.name rule f := by
  have hlast {a : Argument} {f : Callable} (ha : chain.args.getLast? = some a)
      (hf : f ∈ a.functions) : f ∈ chain.args.flatMap Argument.functions :=
    List.mem_flatMap.mpr ⟨a, List.mem_of_getLast? ha, hf⟩
  unfold callCuts at h
  dsimp only at h
  split at h
  · exact ⟨_, hlast ‹_› List.mem_cons_self, _, body_mem_functionCuts h⟩
  · exact ⟨_, hlast ‹_› List.mem_cons_self, _, body_mem_functionCuts h⟩
  · rcases List.mem_append.mp h with h | h
    · obtain ⟨f, hf, h⟩ := List.mem_flatMap.mp h
      exact ⟨f, hlast ‹_› (List.mem_append_left _ hf), _, body_mem_functionCuts h⟩
    · obtain ⟨f, hf, h⟩ := List.mem_flatMap.mp h
      exact ⟨f, hlast ‹_› (List.mem_append_right _ hf), _, body_mem_functionCuts h⟩
  · exact absurd h body_not_mem_fieldCuts

end Member

/-- The functions of a property and of its actions, under the names that they go by. -/
def Property.Has (p : Property) (name : String) (f : Callable) : Prop :=
  f ∈ p.functions ∧ name = p.name ∨
    p.isActions ∧ ∃ a ∈ p.actions, a.value = .function f ∧ name = a.name

/-- A body with edits is that of one of the functions of the property. -/
theorem Blueprint.body_mem_cutsOf {source : List Char} {p : Property} {span : Span}
    {edits : List Edit} (h : Cut.body span edits ∈ cutsOf source p) :
    ∃ name f, p.Has name f ∧ ∃ rule,
      span = f.body ∧ edits = Member.bodyEdits source name rule f := by
  unfold cutsOf at h
  split at h
  · unfold decoratorCuts at h
    split at h <;> simp at h
  · unfold Member.cuts at h
    split at h
    · rename_i hactions
      obtain ⟨a, ha, h⟩ := List.mem_flatMap.mp h
      unfold Member.actionCuts at h
      split at h
      · exact ⟨a.name, _, .inr ⟨hactions, a, ha, ‹_›, rfl⟩, _, Member.body_mem_functionCuts h⟩
      · cases h
    · cases hshape : p.shape with
      | function f =>
        rw [hshape] at h
        refine ⟨p.name, f, .inl ⟨?_, rfl⟩, _, Member.body_mem_functionCuts h⟩
        simp [Property.functions, hshape]
      | call chain =>
        rw [hshape] at h
        rcases List.mem_append.mp h with h | h
        · unfold Member.decoratorCuts at h
          split at h
          · obtain ⟨_, -, h⟩ := List.mem_map.mp h
            cases h
          · cases h
        · obtain ⟨f, hf, hbody⟩ := Member.body_mem_callCuts h
          exact ⟨p.name, f, .inl ⟨by simpa [Property.functions, hshape] using hf, rfl⟩, hbody⟩
      | unsupported reason => rw [hshape] at h; cases h
      | literal s => rw [hshape] at h; exact absurd h Member.body_not_mem_fieldCuts
      | identifier name s => rw [hshape] at h; exact absurd h Member.body_not_mem_fieldCuts
      | array s elements => rw [hshape] at h; exact absurd h Member.body_not_mem_fieldCuts
      | object s => rw [hshape] at h; exact absurd h Member.body_not_mem_fieldCuts
      | expression s => rw [hshape] at h; exact absurd h Member.body_not_mem_fieldCuts

theorem Property.Acceptable.misuse_eq_none {p : Property} (h : p.Acceptable) {name : String}
    {f : Callable} (hf : p.Has name f) : f.misuse = none := by
  rcases hf with ⟨hf, -⟩ | ⟨hactions, a, ha, hv, -⟩
  · exact h.functions f hf
  · have hreason := h.actions hactions a ha
    rw [Problem.actionReason?, hv] at hreason
    exact Option.map_eq_none_iff.mp hreason

theorem PropertyList.ofObject_readFrom (file : Property.File) (object : Node) {p : Property}
    (hp : p ∈ (PropertyList.ofObject file object).properties) {name : String} {f : Callable}
    (hf : p.Has name f) : f.ReadFrom object := by
  obtain ⟨e, he, rfl⟩ := List.mem_map.mp hp
  have hmem := Node.mem_preorder_child (mem_of_mem_withComments he)
  obtain ⟨hfunctions, hactions⟩ := Property.ofNode_readFrom file e.1 e.2
  rcases hf with ⟨hf, -⟩ | ⟨-, a, ha, hv, -⟩
  · exact (hfunctions f hf).mono hmem
  · exact (hactions a ha f hv).mono hmem

/-- Where the body of a function comes into a class, no `this._super` in it does. -/
theorem Blueprint.written_over {o : Options} {file : Property.File} {object : Node}
    (h : object.Formed) {p : Property}
    (hp : p ∈ (PropertyList.ofObject file object).properties) (hok : Problem.ofProperty o p = [])
    {source : List Char} {k : Cut} (hk : k ∈ cutsOf source p) {m : Node} (hm : m ∈ object.preorder)
    {s : Span} (hs : SuperUse.member? m = some s) (hin : s.Inside k.span) :
    k = .plain k.span ∨ ∃ name f, p.Has name f ∧ k.span = f.body ∧ k.WritesOver name s := by
  cases k with
  | plain t => exact .inl rfl
  | body t edits =>
    obtain ⟨name, f, hf, rule, rfl, rfl⟩ := body_mem_cutsOf hk
    obtain ⟨n, hn, hread⟩ := PropertyList.ofObject_readFrom file object hp hf
    have hmisuse := (Problem.acceptable_of_ofProperty hok).misuse_eq_none hf
    obtain ⟨c, hc, rfl⟩ := Callable.superCall_of_inside_body h hn hread hmisuse hm hs hin
    have horderly := Callable.orderly_of_ofFunction? (h.of_mem hn) hread
    exact .inr ⟨name, f, hf, rfl, Member.callee_written_over horderly hc source name rule⟩

theorem Argument.accessors?_complete {n : Node} {a : Accessors} (h : accessors? n = some a) :
    a.getter.isSome ∨ a.setter.isSome := by
  have hstep {a b : Accessors} {property : Node} (h : addAccessor a property = some b) :
      b.getter.isSome ∨ b.setter.isSome := by
    unfold addAccessor at h
    split at h
    · split at h
      · cases h
      · split at h
        · cases h; exact .inl rfl
        · cases h; exact .inr rfl
        · cases h
    · cases h
  have hfold (ps : List Node) (a b : Accessors) (ha : ps = [] → a.getter.isSome ∨ a.setter.isSome)
      (h : ps.foldlM addAccessor a = some b) : b.getter.isSome ∨ b.setter.isSome := by
    induction ps generalizing a with
    | nil => cases h; exact ha rfl
    | cons p ps ih =>
      rw [List.foldlM_cons, Option.bind_eq_bind, Option.bind_eq_some_iff] at h
      obtain ⟨a', ha', h⟩ := h
      exact ih a' (fun _ => hstep ha') h
  unfold accessors? at h
  split at h
  · cases h
  · rename_i hne
    exact hfold _ _ _ (fun hnil => absurd (by simp [hnil]) hne) h

theorem Chain.ofCall_complete (n : Node) : (Chain.ofCall n).Complete := by
  intro a ha
  obtain ⟨m, -, hm⟩ := List.mem_map.mp ha
  unfold Argument.ofNode at hm
  split at hm
  · split at hm <;> cases hm
  · split at hm
    · cases hm
      exact Argument.accessors?_complete ‹_›
    · cases hm
  · cases hm

theorem Property.readShape_complete (name : String) (accessor : Script.Accessor) (value : Node)
    {chain : Chain} (h : readShape name accessor value = .call chain) : chain.Complete := by
  unfold readShape at h
  split at h
  · cases h
  · split at h
    · cases h
    · unfold Shape.ofValue at h
      split at h
      case h_11 => cases h; exact Chain.ofCall_complete value
      case h_10 => split at h <;> cases h
      all_goals cases h

theorem PropertyList.ofObject_complete (file : Property.File) (object : Node) :
    ∀ p ∈ (PropertyList.ofObject file object).properties, p.Complete := by
  intro p hp
  obtain ⟨e, -, rfl⟩ := List.mem_map.mp hp
  intro chain hchain
  unfold Property.ofNode at hchain
  dsimp only at hchain
  split at hchain
  · split at hchain
    · exact Property.readShape_complete _ _ _ hchain
    · cases hchain
  · cases hchain

theorem Conversion.Job.propertiesOf_complete (j : Job) (d : Definition) :
    ∀ p ∈ (j.propertiesOf d).properties, p.Complete := by
  unfold propertiesOf
  split
  · exact PropertyList.ofObject_complete _ _
  · simp

/-- The parameters of the functions of a call that become members. A setter loses its first one.
None if the call stays a call. -/
def Chain.params? (chain : Chain) (kind : PropertyKind) : Option (List Span) :=
  match kind, chain.args.getLast? with
  | .method, some (.function f) => some f.params
  | .getter, some (.function f) => some f.params
  | .getter, some (.accessors a) =>
    some (a.getter.toList.flatMap Callable.params ++
      a.setter.toList.flatMap fun f => f.params.drop 1)
  | _, _ => none

def Action.params (a : Action) : List Span :=
  match a.value with
  | .function f => f.params
  | _ => []

namespace Property

/-- The parameters of the functions of a property that become members. -/
def params (p : Property) : List Span :=
  if p.isActions then p.actions.flatMap Action.params
  else
    match p.shape with
    | .function f => f.params
    | .call chain => (chain.params? p.kind).getD []
    | _ => []

/-- Code that stays with the decorator of a call, or as the value of a field. -/
def kept (p : Property) : List Span :=
  match p.shape with
  | .call chain =>
    (if p.keepsCallDecorator && p.decorators.any Decorator.isFromCall then
      (Member.decoratorArgs p chain).map Argument.span else []) ++
    if (chain.params? p.kind).isNone && p.keepsValue then [chain.span] else []
  | shape => if shape.isPlain && p.keepsValue then shape.span?.toList else []

/-- All code of a property that a class takes over as it stands. -/
def copied (p : Property) : List Span :=
  if p.classDecorator?.isSome then
    match p.shape with
    | .array _ elements => elements
    | .literal span | .expression span | .identifier _ span => [span]
    | _ => []
  else if p.isActions then p.params
  else p.params ++ p.kept

end Property

namespace Member

variable {source : List Char} {p : Property} {t : Span}

theorem plain_mem_functionCuts {name : String} {rule : SuperRule} {skip : Nat} {f : Callable} :
    Cut.plain t ∈ functionCuts source name rule skip f ↔ t ∈ f.params.drop skip := by
  simp [functionCuts, -List.map_drop]

theorem plain_mem_fieldCuts {s : Span} :
    Cut.plain t ∈ fieldCuts p s ↔ p.keepsValue ∧ t = s := by
  unfold fieldCuts
  split <;> simp [*]

theorem plain_mem_actionCuts {a : Action} : Cut.plain t ∈ actionCuts source a ↔ t ∈ a.params := by
  unfold actionCuts Action.params
  cases a.value <;> simp [plain_mem_functionCuts]

theorem plain_mem_callCuts {chain : Chain} :
    Cut.plain t ∈ callCuts source p chain ↔ t ∈ (chain.params? p.kind).getD [] ∨
      (chain.params? p.kind).isNone ∧ p.keepsValue ∧ t = chain.span := by
  unfold callCuts
  dsimp only
  split
  · rename_i hkind hlast
    simp [Chain.params?, hkind, hlast, plain_mem_functionCuts]
  · rename_i hkind hlast
    simp [Chain.params?, hkind, hlast, plain_mem_functionCuts]
  · rename_i a hkind hlast
    simp [Chain.params?, hkind, hlast, plain_mem_functionCuts]
  · rename_i hmethod hgetter haccessors
    have hnone : chain.params? p.kind = none := by
      unfold Chain.params?
      split
      · exact (hmethod _ ‹_› ‹_›).elim
      · exact (hgetter _ ‹_› ‹_›).elim
      · exact (haccessors _ ‹_› ‹_›).elim
      · rfl
    simp [hnone, plain_mem_fieldCuts]

theorem plain_mem_cuts : Cut.plain t ∈ cuts source p ↔
    t ∈ if p.isActions then p.params else p.params ++ p.kept := by
  unfold cuts Property.params Property.kept
  by_cases hactions : p.isActions
  · simp [hactions, plain_mem_actionCuts]
  · simp only [hactions, if_false, Bool.false_eq_true, List.mem_append]
    cases p.shape with
    | function f => simp [plain_mem_functionCuts, Shape.isPlain]
    | call chain =>
      have hdecorator : Cut.plain t ∈ decoratorCuts p chain ↔
          t ∈ (if p.keepsCallDecorator && p.decorators.any Decorator.isFromCall then
            (decoratorArgs p chain).map Argument.span else []) := by
        unfold decoratorCuts
        split <;> simp
      rw [List.mem_append, hdecorator, plain_mem_callCuts, List.mem_append]
      simp [or_left_comm, and_assoc]
    | unsupported reason => simp [Shape.isPlain]
    | literal s => simp [plain_mem_fieldCuts, Shape.isPlain, Shape.span?]
    | identifier name s => simp [plain_mem_fieldCuts, Shape.isPlain, Shape.span?]
    | array s elements => simp [plain_mem_fieldCuts, Shape.isPlain, Shape.span?]
    | object s => simp [plain_mem_fieldCuts, Shape.isPlain, Shape.span?]
    | expression s => simp [plain_mem_fieldCuts, Shape.isPlain, Shape.span?]

end Member

theorem Blueprint.plain_mem_cutsOf {source : List Char} {p : Property} {t : Span} :
    Cut.plain t ∈ cutsOf source p ↔ t ∈ p.copied := by
  unfold cutsOf Property.copied
  split
  · unfold decoratorCuts
    cases p.shape <;> simp
  · exact Member.plain_mem_cuts

namespace SuperUse

mutual

/-- Each `this._super` at and below a node, except in functions. -/
def outer : Node → List Span
  | ⟨kind, span, children⟩ =>
    (member? ⟨kind, span, children⟩).toList ++
      if opensFunction ⟨kind, span, children⟩ then [] else outerAll children

def outerAll : List Node → List Span
  | [] => []
  | n :: ns => outer n ++ outerAll ns

end

mutual

theorem exists_of_mem_outer {s : Span} : (n : Node) → s ∈ outer n →
    ∃ m ∈ n.preorder, member? m = some s
  | ⟨kind, span, children⟩, h => by
    rw [outer] at h
    rcases List.mem_append.mp h with h | h
    · exact ⟨_, Node.mem_preorder_self _, Option.mem_toList.mp h⟩
    · split at h
      · cases h
      · obtain ⟨m, hm, hs⟩ := exists_of_mem_outerAll children h
        exact ⟨m, Node.mem_preorder.mpr (.inr (Node.mem_preorderAll.mp hm)), hs⟩

theorem exists_of_mem_outerAll {s : Span} : (ns : List Node) → s ∈ outerAll ns →
    ∃ m ∈ Node.preorderAll ns, member? m = some s
  | n :: ns, h => by
    rw [outerAll] at h
    rw [Node.preorderAll]
    rcases List.mem_append.mp h with h | h
    · obtain ⟨m, hm, hs⟩ := exists_of_mem_outer n h
      exact ⟨m, List.mem_append_left _ hm, hs⟩
    · obtain ⟨m, hm, hs⟩ := exists_of_mem_outerAll ns h
      exact ⟨m, List.mem_append_right _ hm, hs⟩

end

end SuperUse

/-- Each `this._super` in the parameters and the body of a function, except in nested ones. -/
def Callable.supers (f : Node) : List Span :=
  SuperUse.outerAll (f.children.filter fun n => isParam n || n.kind = .body)

/-- A `this._super` that belongs to one of the functions of a property of the object literal. -/
def Property.HasSuper (object : Node) (p : Property) (s : Span) : Prop :=
  ∃ n ∈ object.preorder, ∃ name f, p.Has name f ∧ Callable.ofFunction? n = some f ∧
    s ∈ Callable.supers n

theorem Property.HasSuper.exists_node {object : Node} {p : Property} {s : Span}
    (h : p.HasSuper object s) : ∃ m ∈ object.preorder, SuperUse.member? m = some s := by
  obtain ⟨n, hn, name, f, -, -, hs⟩ := h
  obtain ⟨m, hm, hs⟩ := SuperUse.exists_of_mem_outerAll _ hs
  obtain ⟨c, hc, hm⟩ := Node.mem_preorderAll.mp hm
  have hchild := Node.mem_preorder_child (List.mem_of_mem_filter hc)
  exact ⟨m, Node.mem_preorder_trans object hn (Node.mem_preorder_trans n hchild hm), hs⟩

/-- The class of an accepted definition consists of code cut from the source and of generated code.
Where a `this._super` of the object literal lies in a body that becomes that of a member, it comes
to nothing or becomes a method of the parent class. So no `this._super` of a function of the
definition is left in the class exactly when none of them lies in code that is taken over as it
stands. -/
theorem no_super_left_iff (o : Options) (file : Property.File) (object : Node) (b : Blueprint)
    (c : Copy) (hobject : object.Formed)
    (hb : b.properties = (PropertyList.ofObject file object).properties)
    (hok : Problem.ofProperties o b.properties = []) :
    ∃ cls, b.build o c = .ok cls ∧
      Composed c (b.properties.flatMap (Blueprint.cutsOf c.source))
        (b.properties.flatMap (Blueprint.codeOf c.quote)) cls.fragments ∧
      (∀ p ∈ b.properties, ∀ k ∈ Blueprint.cutsOf c.source p, ∀ m ∈ object.preorder, ∀ s,
        SuperUse.member? m = some s → s.Inside k.span →
        k = .plain k.span ∨ ∃ name f, p.Has name f ∧ k.span = f.body ∧ k.WritesOver name s) ∧
      ((∀ p ∈ b.properties, ∀ s, p.HasSuper object s →
          ∀ k ∈ b.properties.flatMap (Blueprint.cutsOf c.source), ¬k.Copies s) ↔
        ∀ p ∈ b.properties, ∀ s, p.HasSuper object s →
          ∀ q ∈ b.properties, ∀ t ∈ q.copied, ¬s.Inside t) := by
  obtain ⟨cls, hcls⟩ := Blueprint.build_ok_of_object hobject hb hok c
  have hcomplete : ∀ p ∈ b.properties, p.Complete := by
    rw [hb]
    exact PropertyList.ofObject_complete file object
  have hover {p : Property} (hp : p ∈ b.properties) {k : Cut}
      (hk : k ∈ Blueprint.cutsOf c.source p) {m : Node} (hm : m ∈ object.preorder) {s : Span}
      (hs : SuperUse.member? m = some s) (hin : s.Inside k.span) :=
    Blueprint.written_over hobject (hb ▸ hp) (List.flatMap_eq_nil_iff.mp hok p hp) hk hm hs hin
  refine ⟨cls, hcls, Blueprint.build_composed hcomplete hcls,
    fun p hp k hk m hm s => hover hp hk hm, ?_⟩
  constructor
  · intro hnone p hp s hs q hq t ht hin
    have hmem : Cut.plain t ∈ Blueprint.cutsOf c.source q := Blueprint.plain_mem_cutsOf.mpr ht
    exact hnone p hp s hs (.plain t) (List.mem_flatMap_of_mem hq hmem) ⟨hin, by simp [Cut.edits]⟩
  · intro hcopied p hp s hs k hk hcopies
    obtain ⟨q, hq, hkq⟩ := List.mem_flatMap.mp hk
    obtain ⟨m, hm, hms⟩ := hs.exists_node
    rcases hover hq hkq hm hms hcopies.1 with heq | ⟨name, f, -, -, hwrites⟩
    · exact hcopied p hp s hs q hq _ (Blueprint.plain_mem_cutsOf.mp (heq ▸ hkq)) hcopies.1
    · obtain ⟨_, rfl⟩ := SuperUse.member?_eq_some hms
      exact hwrites.not_copies (hobject.solid _ hm (by simp [Kind.isSolid])) hcopies

/-- Both super calls of `nestedSuperText` are written over. -/
theorem no_super_left_of_nestedSuperObject :
    let b : Blueprint := ⟨"A", "B", [],
      (PropertyList.ofObject ⟨nestedSuperText, {}, []⟩ nestedSuperObject).properties, []⟩
    nestedSuperObject.Formed ∧ Problem.ofProperties {} b.properties = [] ∧
      (∃ p ∈ b.properties, p.HasSuper nestedSuperObject ⟨31, 42⟩) ∧
      ∀ p ∈ b.properties, ∀ s, p.HasSuper nestedSuperObject s →
        ∀ k ∈ b.properties.flatMap (Blueprint.cutsOf nestedSuperText), ¬k.Copies s := by
  intro b
  have hformed : nestedSuperObject.Formed := by decide
  have hok : Problem.ofProperties {} b.properties = [] := by decide +kernel
  have hcopied : b.properties.flatMap Property.copied = [] := by decide +kernel
  have hsuper : (b.properties.any fun p => p.isActions && p.actions.any fun a =>
      nestedSuperObject.preorder.any fun n => (Callable.ofFunction? n).any fun f =>
        a.value == .function f && (Callable.supers n).contains ⟨31, 42⟩) = true := by
    decide +kernel
  obtain ⟨cls, -, -, -, hiff⟩ := no_super_left_iff {} ⟨nestedSuperText, {}, []⟩ nestedSuperObject b
    ⟨nestedSuperText, [], .single⟩ hformed rfl hok
  refine ⟨hformed, hok, ?_, hiff.mpr fun p hp s hs q hq t ht => ?_⟩
  · simp only [List.any_eq_true, Bool.and_eq_true, Option.any_eq_true, beq_iff_eq,
      List.contains_iff_mem] at hsuper
    obtain ⟨p, hp, hactions, a, ha, n, hn, f, hf, hv, hmem⟩ := hsuper
    exact ⟨p, hp, n, hn, a.name, f, .inr ⟨hactions, a, ha, hv, rfl⟩, hf, hmem⟩
  · have hmem := List.mem_flatMap_of_mem hq ht
    rw [hcopied] at hmem
    cases hmem

def parameterSuperText : List Char :=
  "A.extend(\x7b b(c = this._super()) \x7b\x7d \x7d);".toList

/-- The super call in `parameterSuperText` is neither reported nor written over: it is left in the
parameter of the method. -/
theorem super_in_parameter_is_left :
    ∃ script n object : Node, ∃ d : Definition, ∃ cls : ClassDecl, ∃ p : Property,
      let j := Conversion.Job.ofScript ⟨"a.js"⟩ parameterSuperText {} {} script
      Script.parse ⟨false⟩ parameterSuperText = .ok script ∧ n ∈ script.preorder ∧
      Definition.at? .plain n = some d ∧ d.properties = some object ∧ j.problemsOf d = [] ∧
      (j.blueprintOf d).build {} j.copy = .ok cls ∧ p ∈ (j.propertiesOf d).properties ∧
      p.HasSuper object ⟨17, 28⟩ ∧
      Text.slice parameterSuperText ⟨17, 28⟩ = "this._super".toList ∧
      ⟨13, 30⟩ ∈ p.copied ∧ (∃ k ∈ Blueprint.cutsOf parameterSuperText p, k.Copies ⟨17, 28⟩) ∧
      cls.fragments.map Fragment.text = ["\x7b\x7d".toList, "c = this._super()".toList] := by
  have h : ((Script.parse ⟨false⟩ parameterSuperText).toOption.any fun script =>
      let j := Conversion.Job.ofScript ⟨"a.js"⟩ parameterSuperText {} {} script
      script.preorder.any fun n => (Definition.at? .plain n).any fun d =>
        d.properties.any fun object => ((j.blueprintOf d).build {} j.copy).toOption.any fun cls =>
          j.problemsOf d == [] &&
          cls.fragments.map Fragment.text == ["\x7b\x7d".toList, "c = this._super()".toList] &&
          (j.propertiesOf d).properties.any fun p => p.functions.any fun f =>
            object.preorder.any fun m => Callable.ofFunction? m == some f &&
              (Callable.supers m).contains ⟨17, 28⟩ && p.copied.contains ⟨13, 30⟩ &&
              (Blueprint.cutsOf parameterSuperText p).any fun k => decide (k.Copies ⟨17, 28⟩)) =
      true := by
    decide +kernel
  simp only [Option.any_eq_true, Bool.and_eq_true, beq_iff_eq, List.any_eq_true, decide_eq_true_eq,
    List.contains_iff_mem, Except.toOption_eq_some_iff] at h
  obtain ⟨script, hparse, n, hn, d, hd, object, hobject, cls, hcls, ⟨hok, htexts⟩, p, hp, f, hf, m,
    hm, ⟨⟨hread, hsuper⟩, hcopied⟩, k, hk, hcopies⟩ := h
  exact ⟨script, n, object, d, cls, p, hparse, hn, hd, hobject, hok, hcls, hp,
    ⟨m, hm, p.name, f, .inl ⟨hf, rfl⟩, hread, hsuper⟩, by decide, hcopied,
    ⟨k, hk, hcopies⟩, htexts⟩

end EmberClasses
