import EmberClasses.Class.Build
import EmberClasses.Problem
import EmberClasses.Proofs.SuperCalls

/-! A definition without problems can be built: no edit of a function body is misplaced, and no
value of a kind that has no class form gets as far as the builder. -/

namespace EmberClasses

theorem Except.toOption_eq_some_iff {α ε : Type} {x : Except ε α} {a : α} :
    x.toOption = some a ↔ x = .ok a := by
  cases x <;> simp [Except.toOption]

theorem Except.mapM_ok {α β ε : Type} {f : α → Except ε β} {l : List α}
    (h : ∀ a ∈ l, ∃ b, f a = .ok b) : ∃ bs, l.mapM f = .ok bs := by
  induction l with
  | nil => exact ⟨[], rfl⟩
  | cons a l ih =>
    obtain ⟨b, hb⟩ := h a List.mem_cons_self
    obtain ⟨bs, hbs⟩ := ih fun x hx => h x (List.mem_cons_of_mem a hx)
    exact ⟨b :: bs, by rw [List.mapM_cons, hb, hbs]; rfl⟩

/-- What the steps of a fold keep, given the elements that were taken in so far. -/
theorem Except.foldlM_inv {α β ε : Type} {f : β → α → Except ε β} (P : List α → β → Prop)
    (hstep : ∀ as a b b', P as b → f b a = .ok b' → P (as ++ [a]) b') (as : List α) {l : List α}
    {b b' : β} (hb : P as b) (h : l.foldlM f b = .ok b') : P (as ++ l) b' := by
  induction l generalizing as b with
  | nil => cases h; simpa using hb
  | cons a l ih =>
    rw [List.foldlM_cons] at h
    cases ha : f b a with
    | error e => rw [ha] at h; cases h
    | ok c =>
      rw [ha] at h
      simpa using ih (as ++ [a]) (hstep as a b c hb ha) h

namespace Copy

theorem edited_ok (c : Copy) {span : Span} {edits : List Edit} (columns : Nat)
    (hap : edits.Pairwise fun a b => a.span.Apart b.span)
    (hin : ∀ e ∈ edits, e.span.start ≤ e.span.stop ∧ e.span.Inside span) :
    ∃ f, c.edited span edits columns = .ok f := by
  obtain ⟨ps, hps⟩ := Edit.pieces_ok_of_apart c.source span hap hin
  exact ⟨_, by rw [edited, Fragment.cut, hps]; rfl⟩

theorem snippet_ok (c : Copy) (columns : Nat) (span : Span) :
    ∃ f, c.snippet columns span = .ok f :=
  c.edited_ok columns .nil (by simp)

end Copy

namespace Callable

variable {f : Callable}

theorem Orderly.callee_ordered (h : f.Orderly) :
    f.superCalls.Pairwise fun c d => c.callee.Before d.callee := by
  refine h.ordered.imp_of_mem fun {c d} hc hd hcd => ?_
  have hcin := (h.inside c hc).2
  have hdin := (h.inside d hd).2
  rcases hcd with hcd | ⟨-, hcd⟩
  · exact hcin.2.trans (hcd.trans hdin.1)
  · exact hcd.trans hdin.1

/-- Of two super calls that stand in none, neither overlaps the other. -/
theorem Orderly.outermost_apart (h : f.Orderly) :
    f.outermost.Pairwise fun c d => c.call.Apart d.call := by
  refine (h.ordered.filter _).imp_of_mem fun {c d} hc hd hcd => ?_
  obtain ⟨hc, -⟩ := List.mem_filter.mp hc
  obtain ⟨hd, hout⟩ := List.mem_filter.mp hd
  rcases hcd with hcd | ⟨hin, hbefore⟩
  · exact .inl hcd
  · -- `d` would stand in the arguments of `c`, which start behind the callee.
    have hne : c.call ≠ d.call := by
      intro heq
      have hsolid := h.solid c hc
      have hcallee := (h.inside c hc).2.1
      rw [Span.Before, ← heq] at hbefore
      omega
    have : (f.superCalls.any fun other =>
        other.call ≠ d.call && decide (d.call.Inside other.call)) = true :=
      List.any_eq_true.mpr ⟨c, hc, by simp [hne, hin]⟩
    rw [this] at hout
    cases hout

/-- Every super call is one that stands in none, or stands in such a one. -/
theorem Orderly.inside_outermost (h : f.Orderly) {c : SuperCall} (hc : c ∈ f.superCalls) :
    ∃ d ∈ f.outermost, c.call.Inside d.call := by
  -- Going outwards, calls get longer, and none is longer than the body.
  induction hn : f.body.stop - f.body.start - (c.call.stop - c.call.start) using
    Nat.strong_induction_on generalizing c with
  | _ n ih =>
    by_cases hout : c ∈ f.outermost
    · exact ⟨c, hout, .refl _⟩
    · have hany : (f.superCalls.any fun other =>
          other.call ≠ c.call && decide (c.call.Inside other.call)) = true := by
        by_contra hno
        exact hout (List.mem_filter.mpr ⟨hc, by simpa using hno⟩)
      obtain ⟨e, he, hboth⟩ := List.any_eq_true.mp hany
      simp only [Bool.and_eq_true, decide_eq_true_eq] at hboth
      obtain ⟨hne, hin⟩ := hboth
      have hlonger : c.call.stop - c.call.start < e.call.stop - e.call.start := by
        have hcallee := (h.inside c hc).2
        have hsolid := h.solid c hc
        have hne' : e.call.start ≠ c.call.start ∨ e.call.stop ≠ c.call.stop := by
          by_contra hboth
          rw [not_or, not_not, not_not] at hboth
          exact hne (by rw [← Span.mk.injEq] at hboth; exact hboth)
        obtain ⟨h₁, h₂⟩ := hin
        obtain ⟨h₃, h₄⟩ := hcallee
        omega
      obtain ⟨⟨h₁, h₂⟩, -⟩ := h.inside e he
      obtain ⟨d, hd, hed⟩ := ih _ (by omega) he rfl
      exact ⟨d, hd, hin.trans hed⟩

end Callable

namespace Member

theorem mem_superEdits {source : List Char} {name : String} {inAction : Bool} {noted : List Nat}
    {calls : List SuperCall} {e : Edit} (h : e ∈ superEdits source name inAction noted calls) :
    ∃ c ∈ calls, e.span = c.callee ∨ e.span = .point c.statement := by
  induction calls generalizing noted with
  | nil => cases h
  | cons c cs ih =>
    have hlater {noted : List Nat} (h : e ∈ superEdits source name inAction noted cs) :
        ∃ d ∈ c :: cs, e.span = d.callee ∨ e.span = .point d.statement := by
      obtain ⟨d, hd, he⟩ := ih h
      exact ⟨d, List.mem_cons_of_mem c hd, he⟩
    unfold superEdits at h
    dsimp only at h
    split at h
    · rcases List.mem_cons.mp h with rfl | h
      · exact ⟨c, List.mem_cons_self, .inl rfl⟩
      · rcases List.mem_cons.mp h with rfl | h
        · exact ⟨c, List.mem_cons_self, .inr rfl⟩
        · exact hlater h
    · rcases List.mem_cons.mp h with rfl | h
      · exact ⟨c, List.mem_cons_self, .inl rfl⟩
      · exact hlater h

theorem superEdits_apart {source : List Char} {name : String} {inAction : Bool} {noted : List Nat}
    {calls : List SuperCall} (hcallee : calls.Pairwise fun c d => c.callee.Before d.callee)
    (hstatement : ∀ c ∈ calls, ∀ d ∈ calls,
      c.statement ≤ d.callee.start ∨ d.callee.stop ≤ c.statement) :
    (superEdits source name inAction noted calls).Pairwise fun a b => a.span.Apart b.span := by
  induction calls generalizing noted with
  | nil => exact .nil
  | cons c cs ih =>
    obtain ⟨hfirst, hrest⟩ := List.pairwise_cons.mp hcallee
    have hih (noted : List Nat) :
        (superEdits source name inAction noted cs).Pairwise fun a b => a.span.Apart b.span :=
      ih hrest fun d hd e he =>
        hstatement d (List.mem_cons_of_mem c hd) e (List.mem_cons_of_mem c he)
    have hpoint {d e : SuperCall} (hd : d ∈ c :: cs) (he : e ∈ c :: cs) :
        (Span.point d.statement).Apart e.callee := hstatement d hd e he
    have hcall (noted : List Nat) : ∀ e ∈ superEdits source name inAction noted cs,
        c.callee.Apart e.span := by
      intro e he
      obtain ⟨d, hd, he | he⟩ := mem_superEdits he
      · exact .inl (he ▸ hfirst d hd)
      · exact he ▸ (hpoint (List.mem_cons_of_mem c hd) List.mem_cons_self).symm
    have hnote (noted : List Nat) : ∀ e ∈ superEdits source name inAction noted cs,
        (Span.point c.statement).Apart e.span := by
      intro e he
      obtain ⟨d, hd, he | he⟩ := mem_superEdits he
      · exact he ▸ hpoint List.mem_cons_self (List.mem_cons_of_mem c hd)
      · rw [he]
        exact Nat.le_total _ _
    unfold superEdits
    dsimp only
    split
    · refine .cons (fun e he => ?_) (.cons (hnote _) (hih _))
      rcases List.mem_cons.mp he with rfl | he
      · exact (hpoint List.mem_cons_self List.mem_cons_self).symm
      · exact hcall _ e he
    · exact .cons (hcall _) (hih _)

def bodyEdits (source : List Char) (name : String) (rule : SuperRule) (f : Callable) : List Edit :=
  match rule with
  | .undefined => f.outermost.map fun s => ⟨s.call, "undefined".toList⟩
  | .parent inAction => superEdits source name inAction [] f.superCalls

theorem mem_bodyEdits {source : List Char} {name : String} {rule : SuperRule} {f : Callable}
    {e : Edit} (h : e ∈ bodyEdits source name rule f) :
    ∃ c ∈ f.superCalls, e.span = c.call ∨ e.span = c.callee ∨ e.span = .point c.statement := by
  cases rule with
  | undefined =>
    obtain ⟨c, hc, rfl⟩ := List.mem_map.mp h
    exact ⟨c, (List.mem_filter.mp hc).1, .inl rfl⟩
  | parent inAction =>
    obtain ⟨c, hc, he⟩ := mem_superEdits h
    exact ⟨c, hc, .inr he⟩

theorem bodyEdits_inside {f : Callable} (hf : f.Orderly) (source : List Char) (name : String)
    (rule : SuperRule) : ∀ e ∈ bodyEdits source name rule f,
      e.span.start ≤ e.span.stop ∧ e.span.Inside f.body := by
  intro e he
  obtain ⟨d, hd, hspan⟩ := mem_bodyEdits he
  obtain ⟨hbody, hcallee⟩ := hf.inside d hd
  have hsolid := hf.solid d hd
  rcases hspan with hspan | hspan | hspan
  · have := hcallee.1
    have := hcallee.2
    rw [hspan]
    exact ⟨by omega, hbody⟩
  · rw [hspan]
    exact ⟨hsolid.le, hcallee.trans hbody⟩
  · rw [hspan]
    exact ⟨le_rfl, hf.statement_inside d hd⟩

theorem bodyEdits_apart {f : Callable} (hf : f.Orderly) (source : List Char) (name : String)
    (rule : SuperRule) :
    (bodyEdits source name rule f).Pairwise fun a b => a.span.Apart b.span := by
  cases rule with
  | undefined => exact List.pairwise_map.mpr hf.outermost_apart
  | parent inAction => exact superEdits_apart hf.callee_ordered hf.statement_apart

theorem classBody_ok (c : Copy) (columns : Nat) (name : String) (rule : SuperRule) {f : Callable}
    (hf : f.Orderly) : ∃ body, classBody c columns name rule f = .ok body :=
  c.edited_ok columns (bodyEdits_apart hf c.source name rule)
    (bodyEdits_inside hf c.source name rule)

theorem ofFunction_ok (c : Copy) (columns : Nat) (name : String) (kind : MethodKind)
    (rule : SuperRule) (skip : Nat) {f : Callable} (hf : f.Orderly) :
    ∃ m, ofFunction c columns name kind rule skip f = .ok m := by
  obtain ⟨body, hbody⟩ := classBody_ok c columns name rule hf
  obtain ⟨params, hparams⟩ := Except.mapM_ok (l := f.params.drop skip)
    fun s _ => c.snippet_ok columns s
  exact ⟨_, by rw [ofFunction, hbody]; dsimp only [bind, Except.bind]; rw [hparams]; rfl⟩

end Member

structure Property.Orderly (p : Property) : Prop where
  functions : ∀ f ∈ p.functions, f.Orderly
  actions : ∀ a ∈ p.actions, ∀ f, a.value = .function f → f.Orderly

structure Property.Acceptable (p : Property) : Prop where
  supported : ∀ reason, p.shape ≠ .unsupported reason
  fits : p.isClassDecorator → Problem.fitsClassDecorator p.shape
  actions : p.isActions → ∀ a ∈ p.actions, Problem.actionReason? a = none
  functions : ∀ f ∈ p.functions, f.misuse = none

namespace Problem

private theorem valueMessages_eq_nil {p : Property} (h : valueMessages p = []) :
    (∀ reason, p.shape ≠ .unsupported reason) ∧
      (p.isClassDecorator → fitsClassDecorator p.shape) ∧ ∀ f ∈ p.functions, f.misuse = none := by
  simp only [valueMessages, List.append_eq_nil_iff, Option.toList_eq_nil_iff,
    Option.map_eq_none_iff, List.findSome?_eq_none_iff] at h
  obtain ⟨⟨hclass, hmisuse⟩, hshape⟩ := h
  refine ⟨fun reason hr => ?_, fun hp => ?_, hmisuse⟩
  · rw [hr] at hshape
    cases hshape
  · by_contra hfit
    simp [hp, hfit] at hclass

theorem acceptable_of_ofProperty {o : Options} {p : Property} (h : ofProperty o p = []) :
    p.Acceptable := by
  simp only [ofProperty, List.append_eq_nil_iff, List.map_eq_nil_iff] at h
  obtain ⟨⟨-, hactions⟩, hvalue⟩ := h
  obtain ⟨hshape, hfits, hmisuse⟩ := valueMessages_eq_nil hvalue
  refine ⟨hshape, hfits, fun hp a ha => ?_, hmisuse⟩
  rw [if_pos hp, ofActions, List.append_eq_nil_iff, entryProblems,
    List.filterMap_eq_nil_iff] at hactions
  exact Option.map_eq_none_iff.mp (hactions.2 a ha)

end Problem

namespace Member

theorem field_ok (c : Copy) (columns : Nat) (p : Property) (span : Span) :
    ∃ m, field c columns p span = .ok m := by
  obtain ⟨value, hvalue⟩ := c.snippet_ok columns span
  unfold field
  split
  · exact ⟨_, by rw [hvalue]; rfl⟩
  · exact ⟨_, rfl⟩

theorem callDecorators_ok (c : Copy) (columns : Nat) (p : Property) (chain : Chain) :
    ∃ ds, callDecorators c columns p chain = .ok ds := by
  obtain ⟨args, hargs⟩ := Except.mapM_ok (l := decoratorArgs p chain)
    fun a _ => c.snippet_ok columns a.span
  unfold callDecorators
  split
  · exact ⟨_, by rw [hargs]; rfl⟩
  · exact ⟨_, rfl⟩

theorem callBodies_ok (c : Copy) (columns : Nat) (p : Property) {chain : Chain}
    (h : ∀ f ∈ chain.args.flatMap Argument.functions, f.Orderly) :
    ∃ ms, callBodies c columns p chain = .ok ms := by
  have hlast {a : Argument} (ha : chain.args.getLast? = some a) : ∀ f ∈ a.functions, f.Orderly :=
    fun f hf => h f (List.mem_flatMap.mpr ⟨a, List.mem_of_getLast? ha, hf⟩)
  unfold callBodies
  dsimp only
  split
  · rename_i f hkind ha
    obtain ⟨m, hm⟩ := ofFunction_ok c columns p.name .method (superRule p) 0
      (hlast ha f List.mem_cons_self)
    exact ⟨_, by rw [hm]; rfl⟩
  · rename_i f hkind ha
    obtain ⟨m, hm⟩ := ofFunction_ok c columns p.name .getter (superRule p) 0
      (hlast ha f List.mem_cons_self)
    exact ⟨_, by rw [hm]; rfl⟩
  · rename_i a hkind ha
    obtain ⟨getter, hgetter⟩ := Except.mapM_ok (l := a.getter.toList) fun f hf =>
      ofFunction_ok c columns p.name .getter (superRule p) 0
        (hlast ha f (List.mem_append_left _ hf))
    obtain ⟨setter, hsetter⟩ := Except.mapM_ok (l := a.setter.toList) fun f hf =>
      ofFunction_ok c columns p.name .setter (superRule p) 1
        (hlast ha f (List.mem_append_right _ hf))
    exact ⟨_, by rw [hgetter]; dsimp only [bind, Except.bind]; rw [hsetter]; rfl⟩
  · obtain ⟨m, hm⟩ := field_ok c columns p chain.span
    exact ⟨_, by rw [hm]; rfl⟩

theorem ofCall_ok (c : Copy) (columns : Nat) (p : Property) {chain : Chain}
    (h : ∀ f ∈ chain.args.flatMap Argument.functions, f.Orderly) :
    ∃ ms, ofCall c columns p chain = .ok ms := by
  obtain ⟨ds, hds⟩ := callDecorators_ok c columns p chain
  obtain ⟨ms, hms⟩ := callBodies_ok c columns p h
  exact ⟨_, by rw [ofCall, hds]; dsimp only [bind, Except.bind]; rw [hms]; rfl⟩

theorem ofAction_ok (c : Copy) {a : Action} (hreason : Problem.actionReason? a = none)
    (hf : ∀ f, a.value = .function f → f.Orderly) : ∃ m, ofAction c a = .ok m := by
  unfold ofAction
  dsimp only
  cases hv : a.value with
  | function f =>
    obtain ⟨m, hm⟩ := ofFunction_ok c (c.columnsOf a.span) a.name .method
      (if a.superIsUndefined then .undefined else .parent true) 0 (hf f hv)
    exact ⟨_, by dsimp only; rw [hm]; rfl⟩
  | identifier reference => exact ⟨_, rfl⟩
  | unsupported reason => simp [Problem.actionReason?, hv] at hreason

theorem ofProperty_ok (c : Copy) {p : Property} (ho : p.Orderly) (ha : p.Acceptable) :
    ∃ ms, ofProperty c p = .ok ms := by
  suffices h : ∃ ms, bodies c p = .ok ms by
    obtain ⟨ms, hms⟩ := h
    exact ⟨_, by rw [ofProperty, hms]; rfl⟩
  have hplain (span : Span) : ∃ ms, (do
      return [{ ← field c (c.columnsOf p.span) p span with
        decorators := recordedDecorators c.quote p }] : Except Breach (List Member)) = .ok ms := by
    obtain ⟨m, hm⟩ := field_ok c (c.columnsOf p.span) p span
    exact ⟨_, by rw [hm]; rfl⟩
  have hfunctions := ho.functions
  unfold bodies
  dsimp only
  split
  · rename_i hactions
    exact Except.mapM_ok fun a hmem =>
      ofAction_ok c (ha.actions hactions a hmem) (ho.actions a hmem)
  · unfold Property.functions at hfunctions
    split
    · rename_i f hshape
      rw [hshape] at hfunctions
      obtain ⟨m, hm⟩ := ofFunction_ok c (c.columnsOf p.span) p.name
        (if p.kind = .getter then .getter else .method) (superRule p) 0
        (hfunctions f List.mem_cons_self)
      exact ⟨_, by rw [hm]; rfl⟩
    · rename_i chain hshape
      rw [hshape] at hfunctions
      exact ofCall_ok c _ p hfunctions
    · rename_i reason hshape
      exact absurd hshape (ha.supported reason)
    all_goals exact hplain _

end Member

namespace Blueprint

theorem classDecorator_ok (c : Copy) {p : Property} (name : String) (ha : p.Acceptable)
    (hp : p.isClassDecorator) : ∃ d, classDecorator c p name = .ok d := by
  have hfits := ha.fits hp
  have hspans (spans : List Span) : ∃ fs, spans.mapM (c.snippet (c.columnsOf p.span)) = .ok fs :=
    Except.mapM_ok fun s _ => c.snippet_ok _ s
  unfold classDecorator
  dsimp only
  cases hshape : p.shape with
  | call chain => simp [hshape, Problem.fitsClassDecorator] at hfits
  | function f => simp [hshape, Problem.fitsClassDecorator] at hfits
  | object span => simp [hshape, Problem.fitsClassDecorator] at hfits
  | unsupported reason => exact absurd hshape (ha.supported reason)
  | array span elements =>
    obtain ⟨fs, hfs⟩ := hspans elements
    exact ⟨⟨name, fs⟩, by dsimp only [bind, Except.bind, pure, Except.pure]; rw [hfs]⟩
  | literal span =>
    obtain ⟨fs, hfs⟩ := hspans [span]
    exact ⟨⟨name, fs⟩, by dsimp only [bind, Except.bind, pure, Except.pure]; rw [hfs]⟩
  | expression span =>
    obtain ⟨fs, hfs⟩ := hspans [span]
    exact ⟨⟨name, fs⟩, by dsimp only [bind, Except.bind, pure, Except.pure]; rw [hfs]⟩
  | identifier value span =>
    obtain ⟨fs, hfs⟩ := hspans [span]
    exact ⟨⟨name, fs⟩, by dsimp only [bind, Except.bind, pure, Except.pure]; rw [hfs]⟩

theorem addProperty_ok (c : Copy) (d : ClassDecl) {p : Property} (ho : p.Orderly)
    (ha : p.Acceptable) : ∃ d', addProperty c d p = .ok d' := by
  unfold addProperty
  cases hname : p.classDecorator? with
  | none =>
    obtain ⟨ms, hms⟩ := Member.ofProperty_ok c ho ha
    exact ⟨_, by dsimp only; rw [hms]; rfl⟩
  | some name =>
    have hp : p.isClassDecorator := by
      by_contra hno
      simp [Property.classDecorator?, hno] at hname
    obtain ⟨decorator, hd⟩ := classDecorator_ok c name ha hp
    exact ⟨_, by dsimp only; rw [hd]; rfl⟩

theorem build_ok (b : Blueprint) (o : Options) (c : Copy)
    (h : ∀ p ∈ b.properties, p.Orderly ∧ p.Acceptable) : ∃ d, b.build o c = .ok d := by
  unfold build
  generalize b.frame o = d
  generalize b.properties = ps at h
  induction ps generalizing d with
  | nil => exact ⟨d, rfl⟩
  | cons p ps ih =>
    obtain ⟨ho, ha⟩ := h p List.mem_cons_self
    obtain ⟨d', hd'⟩ := addProperty_ok c d ho ha
    obtain ⟨e, he⟩ := ih d' fun q hq => h q (List.mem_cons_of_mem p hq)
    exact ⟨e, by rw [List.foldlM_cons, hd']; exact he⟩

/-- A property becomes a decorator of the class or some of its members; all else stays. -/
theorem addProperty_eq_ok {c : Copy} {d d' : ClassDecl} {p : Property}
    (h : addProperty c d p = .ok d') :
    d'.superclass = d.superclass ∧
      ((∃ name decorator, p.classDecorator? = some name ∧
          classDecorator c p name = .ok decorator ∧
          d'.decorators = d.decorators ++ [decorator] ∧ d'.members = d.members) ∨
        ∃ ms, p.classDecorator? = none ∧ Member.ofProperty c p = .ok ms ∧
          d'.decorators = d.decorators ∧ d'.members = d.members ++ ms) := by
  unfold addProperty at h
  cases hname : p.classDecorator? with
  | none =>
    rw [hname] at h
    dsimp only at h
    cases hms : Member.ofProperty c p with
    | error e => rw [hms] at h; cases h
    | ok ms =>
      rw [hms] at h
      cases h
      exact ⟨rfl, .inr ⟨ms, rfl, rfl, rfl, rfl⟩⟩
  | some name =>
    rw [hname] at h
    dsimp only at h
    cases hd : classDecorator c p name with
    | error e => rw [hd] at h; cases h
    | ok decorator =>
      rw [hd] at h
      cases h
      exact ⟨rfl, .inl ⟨name, decorator, rfl, hd, rfl, rfl⟩⟩

theorem build_superclass {b : Blueprint} {o : Options} {c : Copy} {d : ClassDecl}
    (h : b.build o c = .ok d) : d.superclass = b.heritage :=
  Except.foldlM_inv (fun _ d => d.superclass = b.heritage)
    (fun _ _ _ _ hd hstep => (addProperty_eq_ok hstep).1.trans hd) [] rfl h

/-- What a property becomes is part of the class. -/
def Holds (c : Copy) (d : ClassDecl) (p : Property) : Prop :=
  (∃ name decorator, p.classDecorator? = some name ∧ classDecorator c p name = .ok decorator ∧
    decorator ∈ d.decorators) ∨
  ∃ ms, p.classDecorator? = none ∧ Member.ofProperty c p = .ok ms ∧ ms <:+: d.members

theorem build_holds {b : Blueprint} {o : Options} {c : Copy} {d : ClassDecl}
    (h : b.build o c = .ok d) : ∀ p ∈ b.properties, Holds c d p := by
  refine Except.foldlM_inv (fun ps d => ∀ p ∈ ps, Holds c d p) (fun ps p d d' hd hstep q hq => ?_)
    [] (by simp) h
  obtain ⟨-, hnew⟩ := addProperty_eq_ok hstep
  rcases List.mem_append.mp hq with hq | hq
  · rcases hd q hq with ⟨name, decorator, hname, hdec, hmem⟩ | ⟨ms, hname, hms, hin⟩
    · refine .inl ⟨name, decorator, hname, hdec, ?_⟩
      rcases hnew with ⟨_, _, _, _, hdecorators, _⟩ | ⟨_, _, _, hdecorators, _⟩
      · rw [hdecorators]; exact List.mem_append_left _ hmem
      · rw [hdecorators]; exact hmem
    · refine .inr ⟨ms, hname, hms, ?_⟩
      rcases hnew with ⟨_, _, _, _, _, hmembers⟩ | ⟨_, _, _, _, hmembers⟩
      · rw [hmembers]; exact hin
      · rw [hmembers]; exact hin.trans (List.prefix_append _ _).isInfix
  · rw [List.mem_singleton.mp hq]
    rcases hnew with ⟨name, decorator, hname, hdec, hdecorators, -⟩ | ⟨ms, hname, hms, -, hmembers⟩
    · exact .inl ⟨name, decorator, hname, hdec, by simp [hdecorators]⟩
    · exact .inr ⟨ms, hname, hms, by rw [hmembers]; exact (List.suffix_append _ _).isInfix⟩

end Blueprint

end EmberClasses
