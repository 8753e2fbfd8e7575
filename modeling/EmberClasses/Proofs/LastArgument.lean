import EmberClasses.Proofs.SuperRewriting

/-! What becomes of the last argument of a call. It is the body of a member, or it stays with a
decorator or in the value of a field; or it is lost, in ways that are listed here. -/

namespace EmberClasses

open Script (Node Kind)

theorem Callable.ofFunction?_parts {n : Node} {f : Callable} (h : Callable.ofFunction? n = some f) :
    f.span = n.span ∧ ∀ s ∈ f.params, ∃ m ∈ n.children, m.span = s := by
  unfold Callable.ofFunction? at h
  split at h
  · cases h
    refine ⟨rfl, fun s hs => ?_⟩
    obtain ⟨m, hm, rfl⟩ := List.mem_map.mp hs
    exact ⟨m, List.mem_of_mem_filter hm, rfl⟩
  · cases h

namespace Argument

/-- The functions that are written in an argument: itself, or the values of an object. -/
def written (n : Node) : List Callable :=
  match n.kind with
  | .object => n.children.filterMap fun p => p.children.getLast?.bind Callable.ofFunction?
  | _ => (Callable.ofFunction? n).toList

/-- The property is a name with a function. -/
def Holds (property : Node) (f : Callable) : Prop :=
  ∃ key value, property.children = [key, value] ∧ key.kind.isSolid ∧
    Callable.ofFunction? value = some f

theorem addAccessor_eq_some {a b : Accessors} {property : Node}
    (h : addAccessor a property = some b) :
    ∃ f, Holds property f ∧
      (b = { a with getter := some f } ∨ b = { a with setter := some f }) := by
  unfold addAccessor at h
  split at h
  · rename_i form span name s cs value
    split at h
    · cases h
    · split at h
      · rename_i f hf
        cases h
        exact ⟨f, ⟨_, value, rfl, rfl, hf⟩, .inl rfl⟩
      · rename_i f hf
        cases h
        exact ⟨f, ⟨_, value, rfl, rfl, hf⟩, .inr rfl⟩
      · cases h
  · cases h

theorem foldlM_addAccessor {ps : List Node} {a b : Accessors}
    (h : ps.foldlM addAccessor a = some b) :
    b.span = a.span ∧ (∀ p ∈ ps, ∃ f, Holds p f) ∧
      ∀ f ∈ (accessors b).functions, f ∈ (accessors a).functions ∨ ∃ p ∈ ps, Holds p f := by
  induction ps generalizing a with
  | nil =>
    cases h
    exact ⟨rfl, by simp, fun f hf => .inl hf⟩
  | cons p ps ih =>
    rw [List.foldlM_cons, Option.bind_eq_bind, Option.bind_eq_some_iff] at h
    obtain ⟨a', ha', h⟩ := h
    obtain ⟨hspan, hall, hfunctions⟩ := ih h
    obtain ⟨g, hg, hor⟩ := addAccessor_eq_some ha'
    have hspan' : a'.span = a.span := by
      rcases hor with rfl | rfl <;> rfl
    have hmem : ∀ f ∈ (accessors a').functions, f ∈ (accessors a).functions ∨ f = g := by
      intro f hf
      rcases hor with rfl | rfl
      · simp only [functions, Option.toList_some, List.singleton_append, List.mem_cons] at hf
        simp only [functions, List.mem_append]
        tauto
      · simp only [functions, Option.toList_some, List.mem_append, List.mem_singleton] at hf
        simp only [functions, List.mem_append]
        tauto
    refine ⟨hspan.trans hspan', ?_, fun f hf => ?_⟩
    · intro q hq
      rcases List.mem_cons.mp hq with rfl | hq
      · exact ⟨g, hg⟩
      · exact hall q hq
    · rcases hfunctions f hf with hf | ⟨q, hq, hfq⟩
      · rcases hmem f hf with hf | rfl
        · exact .inl hf
        · exact .inr ⟨p, List.mem_cons_self, hg⟩
      · exact .inr ⟨q, List.mem_cons_of_mem p hq, hfq⟩

theorem mem_written_of_holds {n p : Node} {f : Callable} (hn : n.kind = .object)
    (hp : p ∈ n.children) (hf : Holds p f) : f ∈ written n := by
  obtain ⟨key, value, hchildren, -, hvalue⟩ := hf
  rw [written, hn]
  exact List.mem_filterMap.mpr ⟨p, hp, by simp [hchildren, hvalue]⟩

structure IsAccessors (n : Node) (a : Accessors) : Prop where
  kind : n.kind = .object
  span : a.span = n.span
  nonempty : n.children ≠ []
  all : ∀ p ∈ n.children, ∃ f, Holds p f
  functions : ∀ f ∈ (accessors a).functions, ∃ p ∈ n.children, Holds p f

theorem isAccessors_of_ofNode {n : Node} {a : Accessors} (h : ofNode n = .accessors a) :
    IsAccessors n a := by
  unfold ofNode at h
  split at h
  · split at h <;> cases h
  · rename_i hkind
    split at h
    · rename_i b hb
      cases h
      unfold accessors? at hb
      split at hb
      · cases hb
      · rename_i hne
        obtain ⟨hspan, hall, hfunctions⟩ := foldlM_addAccessor hb
        refine ⟨hkind, hspan, by simpa using hne, hall, fun f hf => ?_⟩
        rcases hfunctions f hf with hf | hf
        · simp [functions] at hf
        · exact hf
    · cases h
  · cases h

theorem ofFunction?_of_ofNode {n : Node} {f : Callable} (h : ofNode n = .function f) :
    Callable.ofFunction? n = some f ∧ written n = [f] := by
  unfold ofNode at h
  split at h
  · rename_i form hkind
    split at h
    · rename_i g hg
      cases h
      exact ⟨hg, by simp [written, hkind, hg]⟩
    · cases h
  · split at h <;> cases h
  · cases h

theorem ofNode_span (n : Node) : (ofNode n).span = n.span := by
  cases h : ofNode n with
  | function f => exact (Callable.ofFunction?_parts (ofFunction?_of_ofNode h).1).1
  | accessors a => exact (isAccessors_of_ofNode h).span
  | other s =>
    unfold ofNode at h
    split at h
    · split at h
      · cases h
      · cases h; rfl
    · split at h
      · cases h
      · cases h; rfl
    · cases h; rfl

theorem written_ne_nil {n : Node} (h : (ofNode n).isFunctionLike) : ∃ f, f ∈ written n := by
  cases hn : ofNode n with
  | function f => exact ⟨f, by simp [(ofFunction?_of_ofNode hn).2]⟩
  | accessors a =>
    have ha := isAccessors_of_ofNode hn
    obtain ⟨p, hp⟩ := List.exists_mem_of_ne_nil _ ha.nonempty
    obtain ⟨f, hf⟩ := ha.all p hp
    exact ⟨f, mem_written_of_holds ha.kind hp hf⟩
  | other s =>
    rw [hn] at h
    cases h

theorem holds_of_mem_written {n : Node} {a : Accessors} (ha : IsAccessors n a) {f : Callable}
    (hf : f ∈ written n) : ∃ p ∈ n.children, Holds p f := by
  rw [written, ha.kind] at hf
  obtain ⟨p, hp, hlast⟩ := List.mem_filterMap.mp hf
  obtain ⟨g, hg⟩ := ha.all p hp
  obtain ⟨key, value, hchildren, hkey, hvalue⟩ := hg
  refine ⟨p, hp, key, value, hchildren, hkey, ?_⟩
  simpa [hchildren] using hlast

/-- A function in an object does not cover the object. -/
theorem Holds.not_inside {n p : Node} {f : Callable} (hn : n.Formed) (hp : p ∈ n.children)
    (hf : Holds p f) {s : Span} (hs : s = f.body ∨ s ∈ f.params) : ¬ n.span.Inside s := by
  obtain ⟨key, value, hchildren, hkey, hvalue⟩ := hf
  have hformed := hn.child hp
  obtain ⟨m, hm, hspan⟩ : ∃ m ∈ value.children, m.span = s := by
    rcases hs with rfl | hs
    · obtain ⟨body, hbody, -, hspan, -⟩ := Callable.ofFunction?_eq_some hvalue
      exact ⟨body, hbody, hspan.symm⟩
    · exact (Callable.ofFunction?_parts hvalue).2 s hs
  have hvalueFormed : value.Formed := hformed.child (by simp [hchildren])
  have hfirst := (hn.inside hp).1
  have hsecond := (hformed.inside (m := key) (by simp [hchildren])).1
  have hsolid := hformed.solid key (Node.mem_preorder_child (by simp [hchildren])) hkey
  have hbefore : key.span.stop ≤ value.span.start := by
    have hpair := hformed.nested.children_from.pairwise
    rw [hchildren, List.pairwise_pair] at hpair
    exact hpair
  have hlast := (hvalueFormed.inside hm).1
  rw [hspan] at hlast
  -- the name stands between the start of the object and what belongs to the function
  intro hinside
  have := hinside.1
  omega

/-- Two functions in an object have different bodies. -/
theorem Holds.eq_of_body {n p q : Node} {f g : Callable} (hn : n.Formed) (hp : p ∈ n.children)
    (hq : q ∈ n.children) (hf : Holds p f) (hg : Holds q g) (hbody : f.body = g.body) : f = g := by
  have hinside {r : Node} {h : Callable} (hr : r ∈ n.children) (hh : Holds r h) :
      h.body.Inside r.span ∧ h.body.start < h.body.stop := by
    obtain ⟨key, value, hchildren, -, hvalue⟩ := hh
    obtain ⟨body, hmem, hkind, hspan, -⟩ := Callable.ofFunction?_eq_some hvalue
    have hformed : value.Formed := (hn.child hr).child (by simp [hchildren])
    rw [hspan]
    exact ⟨(hformed.inside hmem).trans ((hn.child hr).inside (by simp [hchildren])),
      hformed.solid body (Node.mem_preorder_child hmem) (by rw [hkind]; rfl)⟩
  by_cases heq : p = q
  · obtain ⟨key, value, hchildren, -, hvalue⟩ := hf
    obtain ⟨key', value', hchildren', -, hvalue'⟩ := hg
    rw [heq, hchildren'] at hchildren
    cases hchildren
    exact Option.some.inj (hvalue.symm.trans hvalue')
  · have hapart : n.children.Pairwise fun a b => a.span.Apart b.span :=
      hn.nested.children_from.pairwise.imp .inl
    have hsymm : Std.Symm fun a b : Node => a.span.Apart b.span := ⟨fun _ _ => Span.Apart.symm⟩
    obtain ⟨hfp, hsolid⟩ := hinside hp hf
    obtain ⟨hgq, -⟩ := hinside hq hg
    rw [← hbody] at hgq
    exact absurd ((hapart.forall hp hq heq).mono hfp) (hgq.not_apart hsolid)

/-- The code of an argument comes into a class: it is copied as it stands, or every function that is
written in it becomes the body of a member. -/
def Kept (cuts : List Cut) (n : Node) : Prop :=
  (∃ k ∈ cuts, k.Copies n.span) ∨
    (ofNode n).isFunctionLike ∧ ∀ f ∈ written n, ∃ edits, Cut.body f.body edits ∈ cuts

/-- Whether the last argument becomes the body of a member, or of two of them. -/
def becomesBody (kind : PropertyKind) (a : Argument) : Bool :=
  match kind, a with
  | .method, .function _ => true
  | .getter, .function _ => true
  | .getter, .accessors _ => true
  | _, _ => false

theorem becomesBody_field (a : Argument) : becomesBody .field a = false := by
  cases a <;> rfl

theorem becomesBody_getter (a : Argument) : becomesBody .getter a = a.isFunctionLike := by
  cases a <;> rfl

theorem becomesBody_other (kind : PropertyKind) (s : Span) :
    becomesBody kind (.other s) = false := by
  cases kind <;> rfl

/-- The ways in which the last argument `n` of the call of a property is lost. -/
inductive Lost (p : Property) (n : Node) : Prop where
  /-- An accessor is replaced by a later one of the same name. -/
  | overwritten {a : Accessors} {f : Callable} : p.kind = .getter → ofNode n = .accessors a →
      f ∈ written n → f ∉ (accessors a).functions → Lost p n
  /-- Accessors are taken from the arguments, but a method can not be made of them. -/
  | accessors {a : Accessors} : p.kind = .method → ofNode n = .accessors a → ¬ p.keepsValue →
      Lost p n
  /-- No plain getter can be made, but the decorator is dropped. -/
  | volatile : p.kind = .getter → p.isVolatile → ¬ (ofNode n).isFunctionLike → ¬ p.keepsValue →
      Lost p n
  /-- All decorators come from usage data, and none from the call. -/
  | recorded : becomesBody p.kind (ofNode n) = false → ¬ p.keepsValue →
      (∀ d ∈ p.decorators, ¬ d.isFromCall) → Lost p n

theorem not_kept_of_plain {cuts : List Cut} {n : Node}
    (h : ∀ k ∈ cuts, ∃ s, k = .plain s ∧ ¬ n.span.Inside s) : ¬ Kept cuts n := by
  rintro (⟨k, hk, hcopies⟩ | ⟨hlike, hall⟩)
  · obtain ⟨s, rfl, hinside⟩ := h k hk
    exact hinside hcopies.1
  · obtain ⟨f, hf⟩ := written_ne_nil hlike
    obtain ⟨edits, hk⟩ := hall f hf
    obtain ⟨s, heq, -⟩ := h _ hk
    cases heq

end Argument

/-- The base call of the chain is `base`, and `last` is its last argument. -/
structure Chain.EndsIn (chain : Chain) (base last : Node) : Prop where
  args : chain.args = base.arguments.map Argument.ofNode
  ends : base.arguments.getLast? = some last
  inside : last.span.Inside chain.span

namespace Chain.EndsIn

variable {chain : Chain} {base last : Node}

theorem getLast? (h : chain.EndsIn base last) :
    chain.args.getLast? = some (Argument.ofNode last) := by
  rw [h.args, List.getLast?_map, h.ends]
  rfl

theorem not_inside_of_dropLast (h : chain.EndsIn base last) (hbase : base.Formed)
    (hlast : last.kind.isSolid) {a : Argument} (ha : a ∈ chain.args.dropLast) :
    ¬ last.span.Inside a.span := by
  rw [h.args, ← List.map_dropLast] at ha
  obtain ⟨m, hm, rfl⟩ := List.mem_map.mp ha
  have hpair : base.arguments.Pairwise fun a b => a.span.Before b.span :=
    (hbase.nested.children_from.pairwise.sublist (List.tail_sublist _)).filter _
  have hmem : last ∈ base.arguments := List.mem_of_getLast? h.ends
  rw [← List.dropLast_append_getLast? last h.ends, List.pairwise_append] at hpair
  have hbefore : m.span.Before last.span := hpair.2.2 m hm last (List.mem_singleton_self last)
  have hsolid := hbase.solid last (Node.mem_preorder_argument hmem) hlast
  rw [Argument.ofNode_span]
  intro hinside
  exact hinside.not_apart hsolid (.inr hbefore)

end Chain.EndsIn

namespace Member

variable {source : List Char} {p : Property} {chain : Chain}

theorem span_of_mem_functionCuts {name : String} {rule : SuperRule} {skip : Nat} {f : Callable}
    {k : Cut} (h : k ∈ functionCuts source name rule skip f) :
    k.span = f.body ∨ k.span ∈ f.params := by
  rcases List.mem_cons.mp h with rfl | h
  · exact .inl rfl
  · obtain ⟨s, hs, rfl⟩ := List.mem_map.mp h
    exact .inr (List.mem_of_mem_drop hs)

/-- A call that does not become a body becomes a field. -/
theorem callCuts_eq_fieldCuts {a : Argument} (ha : chain.args.getLast? = some a)
    (hbody : Argument.becomesBody p.kind a = false) :
    callCuts source p chain = fieldCuts p chain.span := by
  unfold callCuts
  rw [ha]
  dsimp only
  split
  all_goals simp_all [Argument.becomesBody]

theorem mem_callCuts_accessors {a : Accessors} (hkind : p.kind = .getter)
    (ha : chain.args.getLast? = some (.accessors a)) {k : Cut}
    (h : k ∈ callCuts source p chain) :
    ∃ f ∈ (Argument.accessors a).functions, ∃ skip,
      k ∈ functionCuts source p.name (superRule p) skip f := by
  simp only [callCuts, hkind, ha, List.mem_append, List.mem_flatMap] at h
  rcases h with ⟨f, hf, hk⟩ | ⟨f, hf, hk⟩
  · exact ⟨f, List.mem_append_left _ hf, 0, hk⟩
  · exact ⟨f, List.mem_append_right _ hf, 1, hk⟩

theorem body_mem_callCuts_function (source : List Char) {f : Callable} (hkind : p.kind ≠ .field)
    (ha : chain.args.getLast? = some (.function f)) :
    ∃ edits, Cut.body f.body edits ∈ callCuts source p chain := by
  unfold callCuts
  rw [ha]
  dsimp only
  cases hk : p.kind with
  | field => exact absurd hk hkind
  | method => exact ⟨_, List.mem_cons_self⟩
  | getter => exact ⟨_, List.mem_cons_self⟩

theorem body_mem_callCuts_accessors (source : List Char) {a : Accessors} (hkind : p.kind = .getter)
    (ha : chain.args.getLast? = some (.accessors a)) {f : Callable}
    (hf : f ∈ (Argument.accessors a).functions) :
    ∃ edits, Cut.body f.body edits ∈ callCuts source p chain := by
  simp only [callCuts, hkind, ha]
  rcases List.mem_append.mp hf with hf | hf
  · exact ⟨_, List.mem_append_left _ (List.mem_flatMap_of_mem hf List.mem_cons_self)⟩
  · exact ⟨_, List.mem_append_right _ (List.mem_flatMap_of_mem hf List.mem_cons_self)⟩

theorem mem_decoratorCuts {k : Cut} (h : k ∈ decoratorCuts p chain) :
    p.keepsCallDecorator ∧ (∃ d ∈ p.decorators, d.isFromCall) ∧
      ∃ a ∈ decoratorArgs p chain, k = .plain a.span := by
  unfold decoratorCuts at h
  split at h
  · rename_i hkeeps
    rw [Bool.and_eq_true, List.any_eq_true] at hkeeps
    obtain ⟨a, ha, rfl⟩ := List.mem_map.mp h
    exact ⟨hkeeps.1, hkeeps.2, a, ha, rfl⟩
  · cases h

end Member

namespace Argument

open Member

variable {source : List Char} {p : Property} {chain : Chain} {base last : Node}

theorem decoratorArgs_eq_dropLast (h : chain.EndsIn base last) (hkind : p.kind ≠ .field)
    (hlike : (ofNode last).isFunctionLike) : decoratorArgs p chain = chain.args.dropLast := by
  simp [decoratorArgs, hkind, h.getLast?, hlike]

theorem Lost.not_kept (hlost : Lost p last) (h : chain.EndsIn base last) (hbase : base.Formed) :
    ¬ Kept (decoratorCuts p chain ++ callCuts source p chain) last := by
  have hformed : last.Formed :=
    hbase.of_mem (Node.mem_preorder_argument (List.mem_of_getLast? h.ends))
  -- where nothing becomes a body and the value is not kept, the decorator is all there is
  have hplain (hbody : becomesBody p.kind (ofNode last) = false) (hvalue : ¬ p.keepsValue)
      (hk : ∀ k ∈ decoratorCuts p chain, ∃ s, k = .plain s ∧ ¬ last.span.Inside s) :
      ¬ Kept (decoratorCuts p chain ++ callCuts source p chain) last := by
    rw [callCuts_eq_fieldCuts h.getLast? hbody, fieldCuts, if_neg hvalue, List.append_nil]
    exact not_kept_of_plain hk
  have hearlier {a : Accessors} (ha : ofNode last = .accessors a) (hkind : p.kind ≠ .field) :
      ∀ k ∈ decoratorCuts p chain, ∃ s, k = .plain s ∧ ¬ last.span.Inside s := by
    intro k hk
    obtain ⟨-, -, b, hb, rfl⟩ := mem_decoratorCuts hk
    rw [decoratorArgs_eq_dropLast h hkind (by rw [ha]; rfl)] at hb
    have hsolid : last.kind.isSolid := by rw [(isAccessors_of_ofNode ha).kind]; rfl
    exact ⟨b.span, rfl, h.not_inside_of_dropLast hbase hsolid hb⟩
  cases hlost with
  | @overwritten a f hkind ha hf hnot =>
    have hacc := isAccessors_of_ofNode ha
    have hlast := h.getLast?
    rw [ha] at hlast
    -- neither is the object copied, nor does the replaced function have the body of another one
    rintro (⟨k, hk, hcopies⟩ | ⟨-, hall⟩)
    · rcases List.mem_append.mp hk with hk | hk
      · obtain ⟨s, rfl, hinside⟩ := hearlier ha (by simp [hkind]) k hk
        exact hinside hcopies.1
      · obtain ⟨g, hg, skip, hk⟩ := mem_callCuts_accessors hkind hlast hk
        obtain ⟨q, hq, hholds⟩ := hacc.functions g hg
        exact hholds.not_inside hformed hq (span_of_mem_functionCuts hk) hcopies.1
    · obtain ⟨edits, hk⟩ := hall f hf
      rcases List.mem_append.mp hk with hk | hk
      · obtain ⟨s, heq, -⟩ := hearlier ha (by simp [hkind]) _ hk
        cases heq
      · obtain ⟨g, hg, skip, hk⟩ := mem_callCuts_accessors hkind hlast hk
        obtain ⟨q, hq, hholds⟩ := hacc.functions g hg
        obtain ⟨r, hr, hfholds⟩ := holds_of_mem_written hacc hf
        have hfg := hfholds.eq_of_body hformed hr hq hholds (body_mem_functionCuts hk).1
        exact hnot (hfg ▸ hg)
  | accessors hkind ha hvalue =>
    exact hplain (by rw [hkind, ha]; rfl) hvalue (hearlier ha (by simp [hkind]))
  | volatile hkind hvolatile hlike hvalue =>
    refine hplain ?_ hvalue fun k hk => ?_
    · cases ha : ofNode last with
      | other s => rw [hkind]; rfl
      | function f => simp [ha, isFunctionLike] at hlike
      | accessors a => simp [ha, isFunctionLike] at hlike
    · obtain ⟨hkeeps, -⟩ := mem_decoratorCuts hk
      simp [Property.keepsCallDecorator, hkind, hvolatile] at hkeeps
  | recorded hbody hvalue hnone =>
    refine hplain hbody hvalue fun k hk => ?_
    obtain ⟨-, ⟨d, hd, hcall⟩, -⟩ := mem_decoratorCuts hk
    exact absurd hcall (hnone d hd)

/-- The functions of an argument become bodies, unless one of them is replaced by another. -/
theorem kept_as_bodies (hlost : ¬ Lost p last) (h : chain.EndsIn base last)
    (hbody : becomesBody p.kind (ofNode last) = true) :
    Kept (decoratorCuts p chain ++ callCuts source p chain) last := by
  have hlast := h.getLast?
  cases ha : ofNode last with
  | other s =>
    rw [ha, becomesBody_other] at hbody
    cases hbody
  | function g =>
    rw [ha] at hlast hbody
    refine .inr ⟨by rw [ha]; rfl, fun f hf => ?_⟩
    rw [(ofFunction?_of_ofNode ha).2, List.mem_singleton] at hf
    have hkind : p.kind ≠ .field := by
      intro hfield
      rw [hfield, becomesBody_field] at hbody
      cases hbody
    obtain ⟨edits, hk⟩ := body_mem_callCuts_function source hkind hlast
    exact ⟨edits, List.mem_append_right _ (hf ▸ hk)⟩
  | accessors a =>
    rw [ha] at hlast hbody
    refine .inr ⟨by rw [ha]; rfl, fun f hf => ?_⟩
    have hkind : p.kind = .getter := by
      cases hk : p.kind with
      | getter => rfl
      | field => simp [hk, becomesBody] at hbody
      | method => simp [hk, becomesBody] at hbody
    have hmem : f ∈ (accessors a).functions := by
      by_contra hnot
      exact hlost (.overwritten hkind ha hf hnot)
    obtain ⟨edits, hk⟩ := body_mem_callCuts_accessors source hkind hlast hmem
    exact ⟨edits, List.mem_append_right _ hk⟩

/-- An argument of which no body is made stays with the decorator, if there is one to stay with. -/
theorem plain_mem_decoratorCuts (hlost : ¬ Lost p last) (h : chain.EndsIn base last)
    (hbody : becomesBody p.kind (ofNode last) = false) (hvalue : ¬ p.keepsValue) :
    Cut.plain last.span ∈ decoratorCuts p chain := by
  have hcall : p.decorators.any Decorator.isFromCall = true := by
    by_contra hnone
    refine hlost (.recorded hbody hvalue fun d hd hcall => hnone ?_)
    exact List.any_eq_true.mpr ⟨d, hd, hcall⟩
  have hkeeps : p.keepsCallDecorator = true := by
    by_contra hno
    simp only [Property.keepsCallDecorator, Bool.not_eq_true', Bool.not_eq_false,
      Bool.and_eq_true, decide_eq_true_eq] at hno
    obtain ⟨hvolatile, hkind⟩ := hno
    rw [hkind, becomesBody_getter] at hbody
    exact hlost (.volatile hkind hvolatile (by simp [hbody]) hvalue)
  have hargs : decoratorArgs p chain = chain.args := by
    unfold decoratorArgs
    dsimp only
    rw [if_neg]
    simp only [ne_eq, decide_not, h.getLast?, Option.any_some, Bool.and_eq_true, Bool.not_eq_true',
      decide_eq_false_iff_not, not_and, Bool.not_eq_true]
    intro hkind
    cases ha : ofNode last with
    | other s => rfl
    | function f => cases hk : p.kind <;> simp_all [becomesBody]
    | accessors a =>
      cases hk : p.kind with
      | field => exact absurd hk hkind
      | getter => simp [ha, hk, becomesBody] at hbody
      | method => exact absurd (.accessors hk ha hvalue) hlost
  have hmem : ofNode last ∈ chain.args := List.mem_of_getLast? h.getLast?
  rw [decoratorCuts, hkeeps, hcall, hargs, ← ofNode_span]
  exact List.mem_map_of_mem hmem

theorem kept_of_not_lost (hlost : ¬ Lost p last) (h : chain.EndsIn base last) :
    Kept (decoratorCuts p chain ++ callCuts source p chain) last := by
  by_cases hbody : becomesBody p.kind (ofNode last) = true
  · exact kept_as_bodies hlost h hbody
  · rw [Bool.not_eq_true] at hbody
    by_cases hvalue : p.keepsValue
    · refine .inl ⟨.plain chain.span, List.mem_append_right _ ?_, h.inside, by simp [Cut.edits]⟩
      rw [callCuts_eq_fieldCuts h.getLast? hbody, fieldCuts, if_pos hvalue]
      exact List.mem_cons_self
    · exact .inl ⟨.plain last.span,
        List.mem_append_left _ (plain_mem_decoratorCuts hlost h hbody hvalue), .refl _,
        by simp [Cut.edits]⟩

end Argument

namespace Property

/-- The value of the property is the call `value` of the object literal. -/
structure IsCall (object : Node) (p : Property) (value : Node) : Prop where
  child : ∃ property ∈ object.children, property.span = p.span ∧ value ∈ property.children
  shape : p.shape = .call (Chain.ofCall value)

theorem IsCall.endsIn {object value last : Node} {p : Property} (h : p.IsCall object value)
    (hobject : object.Formed) (hlast : (Chain.peel value).1.arguments.getLast? = some last) :
    (Chain.peel value).1.Formed ∧ (Chain.ofCall value).EndsIn (Chain.peel value).1 last := by
  obtain ⟨property, hproperty, -, hvalue⟩ := h.child
  have hformed := (hobject.child hproperty).child hvalue
  have hbase := Chain.peel_mem value
  refine ⟨hformed.of_mem hbase, rfl, hlast, ?_⟩
  have hmem := Node.mem_preorder_trans value hbase
    (Node.mem_preorder_argument (List.mem_of_getLast? hlast))
  exact (Node.WellNested.of_mem value hformed.nested hmem).2

private theorem ofCall_of_readShape {name : String} {accessor : Script.Accessor} {value : Node}
    {chain : Chain} (h : readShape name accessor value = .call chain) :
    chain = Chain.ofCall value ∧ name ≠ "actions" := by
  unfold readShape at h
  split at h
  · cases h
  · split at h
    · cases h
    · rename_i hactions
      unfold Shape.ofValue at h
      split at h
      case h_11 hkind =>
        cases h
        exact ⟨rfl, fun hname => hactions ⟨hname, by simp [hkind]⟩⟩
      case h_10 => split at h <;> cases h
      all_goals cases h

private theorem ofNode_call {file : File} {property : Node} {comments : List (List Char)}
    {p : Property} (hp : ofNode file property comments = p) {chain : Chain}
    (hshape : p.shape = .call chain) :
    property.span = p.span ∧ (∃ value ∈ property.children, chain = Chain.ofCall value) ∧
      ¬ p.isActions := by
  unfold ofNode at hp
  dsimp only at hp
  split at hp
  · rename_i form key rest hkind hchildren
    split at hp
    · subst hp
      obtain ⟨hchain, hname⟩ := ofCall_of_readShape hshape
      refine ⟨rfl, ⟨_, ?_, hchain⟩, fun hactions => hname (of_decide_eq_true hactions)⟩
      rw [hchildren]
      cases rest with
      | nil => exact List.mem_cons_self
      | cons value rest => exact List.mem_cons_of_mem key List.mem_cons_self
    · subst hp
      cases hshape
  · subst hp
    cases hshape

/-- A call was read off the object literal, and not as its actions. -/
theorem isCall_of_ofObject {file : File} {object : Node} {p : Property}
    (hp : p ∈ (PropertyList.ofObject file object).properties) {chain : Chain}
    (hshape : p.shape = .call chain) : (∃ value, p.IsCall object value) ∧ ¬ p.isActions := by
  obtain ⟨e, he, hnode⟩ := List.mem_map.mp hp
  obtain ⟨hspan, ⟨value, hvalue, rfl⟩, hactions⟩ := ofNode_call hnode hshape
  exact ⟨⟨value, ⟨e.1, mem_of_mem_withComments he, hspan, hvalue⟩, hshape⟩, hactions⟩

theorem Acceptable.classDecorator?_eq_none {p : Property} (h : p.Acceptable) {chain : Chain}
    (hshape : p.shape = .call chain) : p.classDecorator? = none := by
  have hclass : p.isClassDecorator = false := by
    by_contra htrue
    have hfits := h.fits (by simpa using htrue)
    rw [hshape] at hfits
    cases hfits
  simp [classDecorator?, hclass]

end Property

/-- The last argument of a call in an accepted definition comes into the members for its property:
as code that stays with a decorator or in the value of a field, or as the bodies of members. It does
not only in the cases that `Argument.Lost` lists. -/
theorem last_argument_kept_iff (o : Options) (file : Property.File) (object : Node) (b : Blueprint)
    (c : Copy) (hobject : object.Formed)
    (hb : b.properties = (PropertyList.ofObject file object).properties)
    (hok : Problem.ofProperties o b.properties = []) :
    ∃ cls, b.build o c = .ok cls ∧ ∀ p ∈ b.properties, ∀ chain, p.shape = .call chain →
      ∃ ms, Member.ofProperty c p = .ok ms ∧ ms <:+: cls.members ∧
        Composed c (Member.cuts c.source p) (Member.code c.quote p)
          (ms.flatMap Member.fragments) ∧
        (∃ value, p.IsCall object value) ∧
        ∀ value, p.IsCall object value → ∀ last,
          (Chain.peel value).1.arguments.getLast? = some last →
          (Argument.Kept (Member.cuts c.source p) last ↔ ¬ Argument.Lost p last) := by
  obtain ⟨cls, hcls⟩ := Blueprint.build_ok_of_object hobject hb hok c
  refine ⟨cls, hcls, fun p hp chain hshape => ?_⟩
  have hmem := hb ▸ hp
  have haccept := Problem.acceptable_of_ofProperty (List.flatMap_eq_nil_iff.mp hok p hp)
  have hclass := haccept.classDecorator?_eq_none hshape
  obtain ⟨hcall, hactions⟩ := Property.isCall_of_ofObject hmem hshape
  obtain ⟨ms, hms, hinfix⟩ : ∃ ms, Member.ofProperty c p = .ok ms ∧ ms <:+: cls.members := by
    rcases Blueprint.build_holds hcls p hp with ⟨name, _, hname, -⟩ | ⟨ms, -, hms, hinfix⟩
    · rw [hclass] at hname
      cases hname
    · exact ⟨ms, hms, hinfix⟩
  have hcomplete := PropertyList.ofObject_complete file object p hmem
  refine ⟨ms, hms, hinfix, Member.ofProperty_composed hcomplete hms, hcall, ?_⟩
  intro value hvalue last hlast
  obtain ⟨hbase, hends⟩ := hvalue.endsIn hobject hlast
  have hcuts : Member.cuts c.source p = Member.decoratorCuts p (Chain.ofCall value) ++
      Member.callCuts c.source p (Chain.ofCall value) := by
    simp only [Member.cuts, hactions, hvalue.shape, Bool.false_eq_true, if_false]
  rw [hcuts]
  constructor
  · intro hkept hlost
    exact hlost.not_kept hends hbase hkept
  · intro hlost
    exact Argument.kept_of_not_lost hlost hends

/-- A computed property whose getter and setter are an argument of the call. -/
def accessorsText : List Char :=
  ("import \x7b computed \x7d from '@ember/object'; A.extend(\x7b " ++
    "b: computed('c', \x7b get() \x7b d; \x7d, set(e, f) \x7b g; \x7d \x7d)" ++
    ".readOnly() \x7d);").toList

/-- The last argument of the call in `accessorsText` becomes the bodies of two members. -/
theorem last_argument_kept_of_accessors :
    ∃ script object value last : Node, ∃ p : Property,
      let j := Conversion.Job.ofScript ⟨"a.js"⟩ accessorsText {} {} script
      let b : Blueprint := ⟨"B", "A", [],
        (PropertyList.ofObject ⟨accessorsText, {}, j.wrappers⟩ object).properties, []⟩
      Script.parse ⟨false⟩ accessorsText = .ok script ∧ object ∈ script.preorder ∧ object.Formed ∧
      Problem.ofProperties {} b.properties = [] ∧ p ∈ b.properties ∧ p.IsCall object value ∧
      (Chain.peel value).1.arguments.getLast? = some last ∧
      (Argument.written last).length = 2 ∧ Argument.Kept (Member.cuts j.copy.source p) last := by
  have h : ((Script.parse ⟨false⟩ accessorsText).toOption.any fun script =>
      let j := Conversion.Job.ofScript ⟨"a.js"⟩ accessorsText {} {} script
      script.preorder.any fun object =>
        let b : Blueprint := ⟨"B", "A", [],
          (PropertyList.ofObject ⟨accessorsText, {}, j.wrappers⟩ object).properties, []⟩
        b.properties.any fun p => object.children.any fun property =>
          property.children.any fun value =>
            (Chain.peel value).1.arguments.getLast?.any fun last =>
              decide (object.Formed) && Problem.ofProperties {} b.properties == [] &&
              p.shape == .call (Chain.ofCall value) && property.span == p.span &&
              p.kind == .getter && (Argument.written last).length == 2 &&
              (Argument.ofNode last).isFunctionLike &&
              (Argument.written last).all (Argument.ofNode last).functions.contains) = true := by
    decide +kernel
  simp only [Option.any_eq_true, Except.toOption_eq_some_iff, List.any_eq_true, Bool.and_eq_true,
    beq_iff_eq, decide_eq_true_eq, List.all_eq_true, List.contains_iff_mem] at h
  obtain ⟨script, hparse, object, hmem, p, hp, property, hproperty, value, hvalue, last, hlast,
    ⟨⟨⟨⟨⟨⟨⟨hformed, hok⟩, hshape⟩, hspan⟩, hkind⟩, htwo⟩, hlike⟩, hall⟩⟩ := h
  have hcall : p.IsCall object value := ⟨⟨property, hproperty, hspan, hvalue⟩, hshape⟩
  have hlost : ¬ Argument.Lost p last := by
    intro hlost
    cases hlost with
    | overwritten _ ha hf hnot =>
      have hmem := hall _ hf
      rw [ha] at hmem
      exact hnot hmem
    | accessors hmethod => rw [hkind] at hmethod; cases hmethod
    | volatile _ _ hother => exact hother hlike
    | recorded hbody => rw [hkind, Argument.becomesBody_getter, hlike] at hbody; cases hbody
  obtain ⟨cls, hcls, hkept⟩ := last_argument_kept_iff {} ⟨accessorsText, {}, _⟩ object
    ⟨"B", "A", [], _, []⟩ (Conversion.Job.ofScript ⟨"a.js"⟩ accessorsText {} {} script).copy hformed
    rfl hok
  obtain ⟨ms, hms, -, -, -, hiff⟩ := hkept p hp _ hshape
  exact ⟨script, object, value, last, p, hparse, hmem, hformed, hok, hp, hcall, hlast, htwo,
    (hiff value hcall last hlast).mpr hlost⟩

/-- A volatile computed property whose last argument is no function. -/
def volatileText : List Char :=
  ("import \x7b computed \x7d from '@ember/object'; " ++
    "A.extend(\x7b b: computed('c', d).volatile() \x7d);").toList

/-- The definition in `volatileText` is accepted, and nothing of the call is left in its class. -/
theorem volatile_argument_is_lost :
    ∃ script n : Node, ∃ d : Definition, ∃ cls : ClassDecl,
      let j := Conversion.Job.ofScript ⟨"a.js"⟩ volatileText {} {} script
      Script.parse ⟨false⟩ volatileText = .ok script ∧ n ∈ script.preorder ∧
      Definition.at? .plain n = some d ∧ j.problemsOf d = [] ∧
      (j.blueprintOf d).build {} j.copy = .ok cls ∧
      cls.members = [{ key := "b", body := .field none }] := by
  have h : ((Script.parse ⟨false⟩ volatileText).toOption.any fun script =>
      let j := Conversion.Job.ofScript ⟨"a.js"⟩ volatileText {} {} script
      script.preorder.any fun n => (Definition.at? .plain n).any fun d =>
        ((j.blueprintOf d).build {} j.copy).toOption.any fun cls =>
          j.problemsOf d == [] && cls.members == [{ key := "b", body := .field none }]) = true := by
    decide +kernel
  simp only [Option.any_eq_true, Except.toOption_eq_some_iff, List.any_eq_true, Bool.and_eq_true,
    beq_iff_eq] at h
  obtain ⟨script, hparse, n, hn, d, hd, cls, hcls, hok, hmembers⟩ := h
  exact ⟨script, n, d, cls, hparse, hn, hd, hok, hcls, hmembers⟩

end EmberClasses
