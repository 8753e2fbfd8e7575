import EmberClasses.Proofs.Nesting
import EmberClasses.Property.Callable

/-! The super calls of a function. They are listed in the order of the source: a later one stands
behind an earlier one, or in its arguments. No statement starts inside a `this._super`. -/

namespace EmberClasses

open Script (Node Kind)

namespace SuperUse

theorem member?_eq_some {n : Node} {s : Span} (h : member? n = some s) :
    ∃ t, n = ⟨.member "_super", s, [⟨.thisRef, t, []⟩]⟩ := by
  unfold member? at h
  split at h
  · cases h; exact ⟨_, rfl⟩
  · cases h

/-- The `this._super` of a callee is a node of it, and no call or statement stands in the callee. -/
theorem callee?_eq_some {n : Node} {s : Span} (h : callee? n = some s) :
    (∃ m ∈ n.preorder, m.kind = .member "_super" ∧ m.span = s) ∧
      ∀ m ∈ n.preorder, m.kind ≠ .call ∧ ¬ m.kind.isStatement := by
  unfold callee? at h
  split at h
  · rename_i hm
    cases h
    obtain ⟨t, rfl⟩ := member?_eq_some hm
    simp [Node.preorder, Node.preorderAll, Kind.isStatement]
  · split at h
    · split at h
      · obtain ⟨t, rfl⟩ := member?_eq_some h
        simp [Node.preorder, Node.preorderAll, Kind.isStatement]
      · cases h
    · cases h

theorem superCall?_eq_some {statement : Option Nat} {n : Node} {c : SuperCall}
    (h : superCall? statement n = some c) :
    n.kind = .call ∧ n.span = c.call ∧ c.statement = statement.getD n.span.start ∧
      ∃ callee rest, n.children = callee :: rest ∧ callee? callee = some c.callee := by
  unfold superCall? at h
  split at h
  · obtain ⟨s, hs, rfl⟩ := Option.map_eq_some_iff.mp h
    exact ⟨rfl, rfl, rfl, _, _, rfl, hs⟩
  · cases h

/-- The call was read off the node, and `P` holds of the start of the statement around it. -/
structure Traced (P : Nat → Prop) (t : SuperCall × Node) : Prop where
  node : ∃ statement, superCall? statement t.2 = some t.1
  statement : P t.1.statement

structure Trace (P : Nat → Prop) (calls : List SuperCall) (nodes : List Node)
    (trace : List (SuperCall × Node)) : Prop where
  calls : trace.map Prod.fst = calls
  nodes : (trace.map Prod.snd).Sublist nodes
  traced : ∀ t ∈ trace, Traced P t

theorem Trace.append {P : Nat → Prop} {calls calls' : List SuperCall} {nodes nodes' : List Node}
    {trace trace' : List (SuperCall × Node)} (h : Trace P calls nodes trace)
    (h' : Trace P calls' nodes' trace') :
    Trace P (calls ++ calls') (nodes ++ nodes') (trace ++ trace') := by
  refine ⟨by rw [List.map_append, h.calls, h'.calls], ?_, fun t ht => ?_⟩
  · rw [List.map_append]
    exact h.nodes.append h'.nodes
  · rcases List.mem_append.mp ht with ht | ht
    · exact h.traced t ht
    · exact h'.traced t ht

theorem filterMap_own (nested : Bool) (statement : Option Nat) (claimed : Option Span) (n : Node) :
    (own nested statement claimed n).filterMap call? =
      if nested then [] else (superCall? statement n).toList := by
  have hcalls (cs : List SuperCall) : (cs.map call).filterMap call? = cs := by
    simp [List.filterMap_map, Function.comp_def, call?]
  unfold own
  cases nested with
  | true => cases member? n <;> simp [call?]
  | false =>
    cases member? n with
    | none => simpa using hcalls _
    | some span => by_cases hclaimed : claimed = some span <;> simp [hclaimed, hcalls, call?]

/-- Whether a `this` below the node is another one than that above it. -/
def opensFunction (n : Node) : Bool := n.kind matches .function _

/-- The start of the innermost statement around the children of a node. -/
def innermost (statement : Option Nat) (n : Node) : Option Nat :=
  if n.kind.isStatement then some n.span.start else statement

/-- The `this._super` of the innermost super call around the children of a node. -/
def innermostCallee (statement : Option Nat) (claimed : Option Span) (n : Node) : Option Span :=
  match superCall? statement n with
  | some c => some c.callee
  | none => claimed

theorem below_eq (nested : Bool) (statement : Option Nat) (claimed : Option Span) (n : Node) :
    below nested statement claimed n =
      own (nested || opensFunction n) (innermost statement n)
        (innermostCallee (innermost statement n) claimed n) n ++
      belowAll (nested || opensFunction n) (innermost statement n)
        (innermostCallee (innermost statement n) claimed n) n.children := by
  obtain ⟨kind, span, children⟩ := n
  unfold below
  rfl

mutual

/-- Every super call below a node can be traced to a node, in order. -/
theorem below_trace {P : Nat → Prop} : (n : Node) → ∀ {nested : Bool} {statement : Option Nat}
    {claimed : Option Span}, (∀ s, statement = some s → P s) →
    (∀ m ∈ n.preorder, m.kind.isStatement ∨ m.kind = .call → P m.span.start) →
    ∃ trace, Trace P ((below nested statement claimed n).filterMap call?) n.preorder trace
  | ⟨kind, span, children⟩, nested, statement, claimed, hst, hn => by
    rw [below_eq, Node.preorder, List.filterMap_append, filterMap_own]
    have hself := hn _ (Node.mem_preorder_self _)
    have hst' : ∀ s, innermost statement ⟨kind, span, children⟩ = some s → P s := by
      intro s hs
      unfold innermost at hs
      split at hs
      · rename_i hk; cases hs; exact hself (.inl hk)
      · exact hst s hs
    obtain ⟨rest, hrest⟩ := belowAll_trace children hst'
      fun m hm => hn m (by rw [Node.preorder]; exact List.mem_cons_of_mem _ hm)
    split
    · exact ⟨rest, hrest.calls, hrest.nodes.cons _, hrest.traced⟩
    · cases hc : superCall? (innermost statement ⟨kind, span, children⟩) ⟨kind, span, children⟩ with
      | none => exact ⟨rest, hrest.calls, hrest.nodes.cons _, hrest.traced⟩
      | some c =>
        obtain ⟨hk, -, hs, -⟩ := superCall?_eq_some hc
        have hP : P c.statement := by
          rw [hs]
          cases hstat : innermost statement ⟨kind, span, children⟩ with
          | none => exact hself (.inr hk)
          | some s => exact hst' s hstat
        refine ⟨(c, ⟨kind, span, children⟩) :: rest, ?_, hrest.nodes.cons_cons _, fun t ht => ?_⟩
        · simp [hrest.calls]
        · rcases List.mem_cons.mp ht with rfl | ht
          · exact ⟨⟨_, hc⟩, hP⟩
          · exact hrest.traced t ht

theorem belowAll_trace {P : Nat → Prop} : (ns : List Node) → ∀ {nested : Bool}
    {statement : Option Nat} {claimed : Option Span}, (∀ s, statement = some s → P s) →
    (∀ m ∈ Node.preorderAll ns, m.kind.isStatement ∨ m.kind = .call → P m.span.start) →
    ∃ trace, Trace P ((belowAll nested statement claimed ns).filterMap call?)
      (Node.preorderAll ns) trace
  | [], nested, statement, claimed, hst, hns => ⟨[], rfl, .slnil, by simp⟩
  | n :: ns, nested, statement, claimed, hst, hns => by
    rw [belowAll, Node.preorderAll, List.filterMap_append]
    rw [Node.preorderAll] at hns
    obtain ⟨first, hfirst⟩ := below_trace n hst fun m hm => hns m (List.mem_append_left _ hm)
    obtain ⟨rest, hrest⟩ := belowAll_trace ns hst fun m hm => hns m (List.mem_append_right _ hm)
    exact ⟨first ++ rest, hfirst.append hrest⟩

end

/-- A `this._super` that is no misuse stands outside of nested functions, in the callee that the
call around it has claimed. -/
theorem claimed_of_own {nested : Bool} {statement : Option Nat} {claimed : Option Span} {n : Node}
    {s : Span} (hs : member? n = some s)
    (h : ∀ u ∈ own nested statement claimed n, misuse? u = none) :
    nested = false ∧ claimed = some s := by
  unfold own at h
  rw [hs] at h
  cases nested with
  | true => simpa [misuse?] using h (misuse .nested) (by simp)
  | false =>
    by_cases hclaimed : claimed = some s
    · exact ⟨rfl, hclaimed⟩
    · simpa [misuse?] using h (misuse .uncalled) (by simp [hclaimed])

mutual

/-- Without misuses, every `this._super` below a node is that of a super call. -/
theorem below_claimed {m : Node} {s : Span} (hs : member? m = some s) : (n : Node) →
    ∀ {nested : Bool} {statement : Option Nat} {claimed : Option Span},
    (∀ u ∈ below nested statement claimed n, misuse? u = none) → m ∈ n.preorder →
    nested = false ∧ (claimed = some s ∨
      ∃ c ∈ (below nested statement claimed n).filterMap call?, c.callee = s)
  | ⟨kind, span, children⟩, nested, statement, claimed, h, hm => by
    rw [below_eq] at h ⊢
    rw [Node.preorder] at hm
    rw [List.filterMap_append, filterMap_own]
    rcases List.mem_cons.mp hm with rfl | hm
    · obtain ⟨hnested, hclaimed⟩ := claimed_of_own hs fun u hu => h u (List.mem_append_left _ hu)
      obtain ⟨t, ht⟩ := member?_eq_some hs
      rw [ht] at hnested hclaimed
      exact ⟨(Bool.or_eq_false_iff.mp hnested).1, .inl hclaimed⟩
    · obtain ⟨hnested, hclaimed⟩ := belowAll_claimed hs children
        (fun u hu => h u (List.mem_append_right _ hu)) hm
      refine ⟨(Bool.or_eq_false_iff.mp hnested).1, ?_⟩
      rw [hnested]
      rcases hclaimed with hclaimed | ⟨c, hc, hcs⟩
      · unfold innermostCallee at hclaimed
        split at hclaimed
        · rename_i c hc
          rw [hc]
          exact .inr ⟨c, List.mem_append_left _ (by simp), Option.some.inj hclaimed⟩
        · exact .inl hclaimed
      · rw [hnested] at hc
        exact .inr ⟨c, List.mem_append_right _ hc, hcs⟩

theorem belowAll_claimed {m : Node} {s : Span} (hs : member? m = some s) : (ns : List Node) →
    ∀ {nested : Bool} {statement : Option Nat} {claimed : Option Span},
    (∀ u ∈ belowAll nested statement claimed ns, misuse? u = none) → m ∈ Node.preorderAll ns →
    nested = false ∧ (claimed = some s ∨
      ∃ c ∈ (belowAll nested statement claimed ns).filterMap call?, c.callee = s)
  | [], _, _, _, _, hm => by simp [Node.preorderAll] at hm
  | n :: ns, nested, statement, claimed, h, hm => by
    rw [belowAll] at h ⊢
    rw [Node.preorderAll, List.mem_append] at hm
    rw [List.filterMap_append]
    rcases hm with hm | hm
    · obtain ⟨hnested, hclaimed⟩ :=
        below_claimed hs n (fun u hu => h u (List.mem_append_left _ hu)) hm
      refine ⟨hnested, hclaimed.imp_right ?_⟩
      rintro ⟨c, hc, hcs⟩
      exact ⟨c, List.mem_append_left _ hc, hcs⟩
    · obtain ⟨hnested, hclaimed⟩ := belowAll_claimed hs ns
        (fun u hu => h u (List.mem_append_right _ hu)) hm
      refine ⟨hnested, hclaimed.imp_right ?_⟩
      rintro ⟨c, hc, hcs⟩
      exact ⟨c, List.mem_append_right _ hc, hcs⟩

end

end SuperUse

def SuperCall.Precedes (c d : SuperCall) : Prop :=
  c.call.Before d.call ∨ d.call.Inside c.call ∧ c.callee.Before d.call

namespace Callable

structure Orderly (f : Callable) : Prop where
  ordered : f.superCalls.Pairwise SuperCall.Precedes
  inside : ∀ c ∈ f.superCalls, c.call.Inside f.body ∧ c.callee.Inside c.call
  solid : ∀ c ∈ f.superCalls, c.callee.start < c.callee.stop
  statement_inside : ∀ c ∈ f.superCalls, f.body.start ≤ c.statement ∧ c.statement ≤ f.body.stop
  statement_apart : ∀ c ∈ f.superCalls, ∀ d ∈ f.superCalls,
    c.statement ≤ d.callee.start ∨ d.callee.stop ≤ c.statement

theorem ofFunction?_eq_some {n : Node} {f : Callable} (h : ofFunction? n = some f) :
    ∃ body ∈ n.children, body.kind = .body ∧ f.body = body.span ∧
      f.superCalls = (SuperUse.belowAll false none none body.children).filterMap SuperUse.call? ∧
      f.misuse = (SuperUse.belowAll false none none body.children).findSome? SuperUse.misuse? := by
  unfold ofFunction? at h
  split at h
  · rename_i hbody
    cases h
    exact ⟨_, List.mem_of_find?_eq_some hbody, by simpa using List.find?_some hbody, rfl, rfl, rfl⟩
  · cases h

section Orderly

variable {a b : Nat} {ns : List Node}

theorem callee_node {t : SuperCall × Node} {statement : Option Nat}
    (h : SuperUse.superCall? statement t.2 = some t.1) :
    ∃ m ∈ t.2.preorder, m.kind = .member "_super" ∧ m.span = t.1.callee ∧
      ∀ l ∈ m.preorder, l.kind ≠ .call ∧ ¬ l.kind.isStatement := by
  obtain ⟨-, -, -, callee, rest, hch, hcallee⟩ := SuperUse.superCall?_eq_some h
  obtain ⟨⟨m, hm, hk, hs⟩, hno⟩ := SuperUse.callee?_eq_some hcallee
  refine ⟨m, Node.mem_preorder.mpr (.inr ⟨callee, by simp [hch], hm⟩), hk, hs, fun l hl => ?_⟩
  exact hno l (Node.mem_preorder_trans callee hm hl)

theorem precedes_of_nodes {t u : SuperCall × Node} {st su : Option Nat}
    (ht : SuperUse.superCall? st t.2 = some t.1) (hu : SuperUse.superCall? su u.2 = some u.1)
    (hw : t.2.WellNested)
    (h : t.2.span.Before u.2.span ∨ u.2 ∈ Node.preorderAll t.2.children) : t.1.Precedes u.1 := by
  obtain ⟨-, hts, -, callee, rest, hch, hcallee⟩ := SuperUse.superCall?_eq_some ht
  obtain ⟨huk, hus, -⟩ := SuperUse.superCall?_eq_some hu
  rw [SuperCall.Precedes, ← hts, ← hus]
  rcases h with h | h
  · exact .inl h
  · refine .inr ⟨(hw.children_from.of_mem_preorderAll _ h).2, ?_⟩
    have hfrom := hw.children_from
    rw [hch] at h hfrom
    obtain ⟨-, -, hwc, hrest⟩ := Node.wellNestedFrom_cons.mp hfrom
    obtain ⟨⟨m, hm, -, hs⟩, hno⟩ := SuperUse.callee?_eq_some hcallee
    rw [Node.preorderAll, List.mem_append] at h
    rcases h with h | h
    · exact absurd huk (hno _ h).1
    · rw [← hs]
      exact (Node.WellNested.of_mem callee hwc hm).2.2.trans (hrest.of_mem_preorderAll rest h).2.1

theorem orderly_of_ofFunction? {n : Node} {f : Callable} (hn : n.Formed)
    (h : ofFunction? n = some f) : f.Orderly := by
  obtain ⟨body, hbody, -, hspan, hcalls, -⟩ := ofFunction?_eq_some h
  have hformed := hn.child hbody
  have hfrom := hformed.nested.children_from
  have hmem {m : Node} (hm : m ∈ Node.preorderAll body.children) :
      m.Formed ∧ m.span.Inside body.span := by
    have : m ∈ body.preorder := by
      cases body
      exact List.mem_cons_of_mem _ hm
    exact ⟨hformed.of_mem this, (Node.WellNested.of_mem body hformed.nested this).2⟩
  obtain ⟨trace, htrace⟩ : ∃ trace, SuperUse.Trace (fun s => ∃ m ∈ Node.preorderAll body.children,
      (m.kind.isStatement ∨ m.kind = .call) ∧ m.span.start = s) f.superCalls
      (Node.preorderAll body.children) trace := by
    rw [hcalls]
    exact SuperUse.belowAll_trace body.children (by simp) fun m hm hk => ⟨m, hm, hk, rfl⟩
  have hnode {t : SuperCall × Node} (ht : t ∈ trace) : t.2 ∈ Node.preorderAll body.children :=
    htrace.nodes.subset (List.mem_map_of_mem ht)
  have hcall {c : SuperCall} (hc : c ∈ f.superCalls) : ∃ m, (c, m) ∈ trace := by
    rw [← htrace.calls] at hc
    obtain ⟨t, ht, rfl⟩ := List.mem_map.mp hc
    exact ⟨t.2, ht⟩
  constructor
  · rw [← htrace.calls, List.pairwise_map]
    have hp := List.pairwise_map.mp ((hfrom.preorderAll_pairwise _).sublist htrace.nodes)
    refine hp.imp_of_mem fun {t u} ht hu htu => ?_
    obtain ⟨st, hst⟩ := (htrace.traced t ht).node
    obtain ⟨su, hsu⟩ := (htrace.traced u hu).node
    exact precedes_of_nodes hst hsu (hmem (hnode ht)).1.nested htu
  · intro c hc
    obtain ⟨m, ht⟩ := hcall hc
    obtain ⟨st, hst⟩ := (htrace.traced _ ht).node
    obtain ⟨l, hl, -, hs, -⟩ := callee_node hst
    rw [hspan, ← (SuperUse.superCall?_eq_some hst).2.1, ← hs]
    exact ⟨(hmem (hnode ht)).2, (Node.WellNested.of_mem m (hmem (hnode ht)).1.nested hl).2⟩
  · intro c hc
    obtain ⟨m, ht⟩ := hcall hc
    obtain ⟨st, hst⟩ := (htrace.traced _ ht).node
    obtain ⟨l, hl, hk, hs, -⟩ := callee_node hst
    rw [← hs]
    exact (hmem (hnode ht)).1.solid l hl (by simp [hk, Kind.isSolid])
  · intro c hc
    obtain ⟨m, ht⟩ := hcall hc
    obtain ⟨l, hl, -, hs⟩ := (htrace.traced _ ht).statement
    have hin := (hmem hl).2
    have hle := (hmem hl).1.nested.start_le_stop
    rw [hspan, ← hs]
    exact ⟨hin.1, hle.trans hin.2⟩
  · intro c hc d hd
    obtain ⟨m, ht⟩ := hcall hc
    obtain ⟨k, hu⟩ := hcall hd
    obtain ⟨l, hl, hlk, hs⟩ := (htrace.traced _ ht).statement
    obtain ⟨su, hsu⟩ := (htrace.traced _ hu).node
    obtain ⟨q, hq, -, hqs, hno⟩ := callee_node hsu
    rw [← hs, ← hqs]
    have hqmem := Node.mem_preorderAll_trans _ (hnode hu) hq
    rcases hfrom.apart_or_mem hl hqmem with hap | hin | hin
    · rcases hap with hap | hap
      · exact .inl ((hmem hl).1.nested.start_le_stop.trans hap)
      · exact .inr hap
    · exact absurd hlk (by simpa using (hno l hin).symm)
    · exact .inl (Node.WellNested.of_mem l (hmem hl).1.nested hin).2.1

/-- Without misuses, every `this._super` that lies in the body of a function is that of one of its
super calls. -/
theorem superCall_of_inside_body {root n m : Node} {f : Callable} {s : Span} (hroot : root.Formed)
    (hn : n ∈ root.preorder) (hf : ofFunction? n = some f) (hmisuse : f.misuse = none)
    (hm : m ∈ root.preorder) (hs : SuperUse.member? m = some s) (hin : s.Inside f.body) :
    ∃ c ∈ f.superCalls, c.callee = s := by
  obtain ⟨body, hbody, hkind, hspan, hcalls, hfind⟩ := ofFunction?_eq_some hf
  obtain ⟨t, rfl⟩ := SuperUse.member?_eq_some hs
  have hbodymem := Node.mem_preorder_trans root hn (Node.mem_preorder_child hbody)
  have hsolid : s.start < s.stop := hroot.solid _ hm (by simp [Kind.isSolid])
  -- The node of the `this._super` and the body are not apart, so it stands below the body.
  have hbelow : ⟨.member "_super", s, [⟨.thisRef, t, []⟩]⟩ ∈ Node.preorderAll body.children := by
    have hwrap : Node.WellNestedFrom root.span.start root.span.stop [root] :=
      Node.wellNestedFrom_cons.mpr ⟨le_rfl, le_rfl, hroot.nested, trivial⟩
    have hlist {l : Node} (hl : l ∈ root.preorder) : l ∈ Node.preorderAll [root] := by
      simpa [Node.preorderAll] using hl
    rcases hwrap.apart_or_mem (hlist hm) (hlist hbodymem) with hap | hmem | hmem
    · rw [hspan] at hin
      exact absurd hap (hin.not_apart hsolid)
    · cases body
      rw [Node.preorder] at hmem
      rcases List.mem_cons.mp hmem with heq | hmem
      · cases heq
        cases hkind
      · exact hmem
    · simp only [Node.preorder, Node.preorderAll, List.append_nil, List.mem_cons,
        List.not_mem_nil, or_false] at hmem
      rcases hmem with rfl | rfl <;> cases hkind
  rw [hmisuse] at hfind
  obtain ⟨-, hclaimed⟩ := SuperUse.belowAll_claimed hs body.children
    (List.findSome?_eq_none_iff.mp hfind.symm) hbelow
  rw [hcalls]
  simpa using hclaimed

end Orderly

end Callable

end EmberClasses
