import EmberClasses.Proofs.ClassBuild
import EmberClasses.Script.Parse
import Mathlib.Data.List.Nodup

/-! Whose `this` a super call uses. A function, the initial value of a class field and a static
block have a `this` of their own. Super calls in nested functions are told apart from those of the
function itself; those in the other two are not. -/

namespace EmberClasses

open Script (Node Kind)

/-- What has a `this` of its own. Arrow functions have none, and neither have the keys of a class or
its decorators. -/
inductive ThisBinder where
  | function
  | fieldValue
  | staticBlock
  deriving DecidableEq

namespace ThisBinder

/-- What a node is to a child of it. `value` tells the initial value of a field from its other
children. -/
def of? (kind : Kind) (value : Bool) : Option ThisBinder :=
  match kind with
  | .function _ => some function
  | .classField => if value then some fieldValue else none
  | .staticBlock => some staticBlock
  | _ => none

mutual

/-- A node and everything below it, each with what binds `this` around it, outermost first. -/
def within (binders : List ThisBinder) : Node → List (Node × List ThisBinder)
  | ⟨kind, span, children⟩ =>
    (⟨kind, span, children⟩, binders) :: withinAll kind false binders children

/-- The value of a field is what follows its key, apart from its type. -/
def withinAll (parent : Kind) (keyed : Bool) (binders : List ThisBinder) :
    List Node → List (Node × List ThisBinder)
  | [] => []
  | n :: ns =>
    within (binders ++ (of? parent (keyed && n.kind != .type)).toList) n ++
      withinAll parent (keyed || n.kind != .decorator) binders ns

end

mutual

theorem map_fst_within : (n : Node) → ∀ {binders : List ThisBinder},
    (within binders n).map Prod.fst = n.preorder
  | ⟨kind, span, children⟩, binders => by
    rw [within, Node.preorder, List.map_cons, map_fst_withinAll]

theorem map_fst_withinAll : (ns : List Node) → ∀ {parent : Kind} {keyed : Bool}
    {binders : List ThisBinder},
    (withinAll parent keyed binders ns).map Prod.fst = Node.preorderAll ns
  | [], _, _, _ => rfl
  | n :: ns, _, _, _ => by
    rw [withinAll, Node.preorderAll, List.map_append, map_fst_within, map_fst_withinAll]

end

theorem function_mem_append (binders : List ThisBinder) (n : Node) (value : Bool) :
    decide (function ∈ binders ++ (of? n.kind value).toList) =
      (decide (function ∈ binders) || SuperUse.opensFunction n) := by
  simp only [List.mem_append, Bool.decide_or]
  congr 1
  unfold of? SuperUse.opensFunction
  cases n.kind <;> cases value <;> rfl

end ThisBinder

namespace SuperUse

open ThisBinder (within withinAll)

def isSuperCall (n : Node) : Bool := (superCall? none n).isSome

theorem map_call_superCall? (statement : Option Nat) (n : Node) :
    (superCall? statement n).toList.map SuperCall.call =
      if isSuperCall n then [n.span] else [] := by
  unfold isSuperCall superCall?
  split
  · rename_i callee _
    simp only [Option.isSome_map]
    cases callee? callee <;> rfl
  · rfl

theorem kind_of_isSuperCall {n : Node} (h : isSuperCall n = true) : n.kind = .call := by
  obtain ⟨c, hc⟩ := Option.isSome_iff_exists.mp h
  exact (superCall?_eq_some hc).1

/-- A super call that no nested function stands around. -/
def isCollected (site : Node × List ThisBinder) : Bool :=
  !decide (.function ∈ site.2) && isSuperCall site.1

/-- A node itself is collected if it is a super call outside of nested functions. -/
theorem map_call_own (binders : List ThisBinder) (statement : Option Nat) (claimed : Option Span)
    (n : Node) :
    ((own (decide (.function ∈ binders) || opensFunction n) statement claimed n).filterMap
        call?).map SuperCall.call =
      if isCollected (n, binders) then [n.span] else [] := by
  rw [filterMap_own]
  unfold isCollected
  by_cases hcall : isSuperCall n = true
  · have hopens : opensFunction n = false := by
      rw [opensFunction, kind_of_isSuperCall hcall]
    by_cases hnested : ThisBinder.function ∈ binders <;>
      simp [hnested, hopens, hcall, map_call_superCall?]
  · by_cases hnested : decide (.function ∈ binders) || opensFunction n <;>
      simp [hnested, hcall, map_call_superCall?]

mutual

/-- The collected super calls are those that no nested function stands around, in order. -/
theorem below_calls : (n : Node) → ∀ {binders : List ThisBinder} {statement : Option Nat}
    {claimed : Option Span},
    ((below (decide (.function ∈ binders)) statement claimed n).filterMap call?).map
        SuperCall.call =
      ((within binders n).filter isCollected).map fun site => site.1.span
  | ⟨kind, span, children⟩, binders, statement, claimed => by
    rw [below_eq, within, List.filterMap_append, List.map_append, map_call_own, Node.children_mk,
      belowAll_calls ⟨kind, span, children⟩ children, List.filter_cons]
    split <;> rfl

theorem belowAll_calls (parent : Node) : (ns : List Node) → ∀ {keyed : Bool}
    {binders : List ThisBinder} {statement : Option Nat} {claimed : Option Span},
    ((belowAll (decide (.function ∈ binders) || opensFunction parent) statement claimed
        ns).filterMap call?).map SuperCall.call =
      ((withinAll parent.kind keyed binders ns).filter isCollected).map fun site => site.1.span
  | [], _, _, _, _ => rfl
  | n :: ns, keyed, binders, statement, claimed => by
    rw [belowAll, withinAll, List.filterMap_append, List.map_append, List.filter_append,
      List.map_append, belowAll_calls parent ns, ← ThisBinder.function_mem_append, below_calls n]

end

theorem exists_member_of_isSuperCall {n : Node} (h : isSuperCall n = true) :
    ∃ m ∈ n.preorder, ∃ s, member? m = some s := by
  obtain ⟨c, hc⟩ := Option.isSome_iff_exists.mp h
  obtain ⟨-, -, -, callee, rest, hchildren, hcallee⟩ := superCall?_eq_some hc
  have hmem : callee ∈ n.preorder := Node.mem_preorder_child (by simp [hchildren])
  unfold callee? at hcallee
  split at hcallee
  · rename_i s hs
    exact ⟨callee, hmem, s, hs⟩
  · split at hcallee
    · split at hcallee
      · exact ⟨_, Node.mem_preorder_trans n hmem (Node.mem_preorder_child List.mem_cons_self), _,
          hcallee⟩
      · cases hcallee
    · cases hcallee

mutual

/-- In a nested function, every `this._super` is a misuse. -/
theorem nested_mem_below {m : Node} {s : Span} (hs : member? m = some s) : (n : Node) →
    ∀ {statement : Option Nat} {claimed : Option Span}, m ∈ n.preorder →
    misuse .nested ∈ below true statement claimed n
  | ⟨kind, span, children⟩, statement, claimed, hm => by
    rw [below_eq, Bool.true_or, List.mem_append]
    rw [Node.preorder] at hm
    rcases List.mem_cons.mp hm with rfl | hm
    · exact .inl (by simp [own, hs])
    · exact .inr (nested_mem_belowAll hs children hm)

theorem nested_mem_belowAll {m : Node} {s : Span} (hs : member? m = some s) : (ns : List Node) →
    ∀ {statement : Option Nat} {claimed : Option Span}, m ∈ Node.preorderAll ns →
    misuse .nested ∈ belowAll true statement claimed ns
  | [], _, _, hm => by simp [Node.preorderAll] at hm
  | n :: ns, _, _, hm => by
    rw [belowAll, List.mem_append]
    rw [Node.preorderAll, List.mem_append] at hm
    exact hm.imp (nested_mem_below hs n) (nested_mem_belowAll hs ns)

end

mutual

/-- A super call that a nested function stands around is told as a misuse. -/
theorem nested_mem_below_of_site {site : Node × List ThisBinder}
    (hcall : isSuperCall site.1 = true) (hnested : .function ∈ site.2) : (n : Node) →
    ∀ {binders : List ThisBinder} {statement : Option Nat} {claimed : Option Span},
    site ∈ within binders n →
    misuse .nested ∈ below (decide (.function ∈ binders)) statement claimed n
  | ⟨kind, span, children⟩, binders, statement, claimed, hsite => by
    rw [within] at hsite
    rcases List.mem_cons.mp hsite with rfl | hsite
    · obtain ⟨m, hm, s, hs⟩ := exists_member_of_isSuperCall hcall
      rw [decide_eq_true hnested]
      exact nested_mem_below hs _ hm
    · rw [below_eq, List.mem_append]
      exact .inr (nested_mem_belowAll_of_site hcall hnested ⟨kind, span, children⟩ children hsite)

theorem nested_mem_belowAll_of_site {site : Node × List ThisBinder}
    (hcall : isSuperCall site.1 = true) (hnested : .function ∈ site.2) (parent : Node) :
    (ns : List Node) → ∀ {keyed : Bool} {binders : List ThisBinder} {statement : Option Nat}
    {claimed : Option Span}, site ∈ withinAll parent.kind keyed binders ns →
    misuse .nested ∈
      belowAll (decide (.function ∈ binders) || opensFunction parent) statement claimed ns
  | [], _, _, _, _, hsite => by simp [withinAll] at hsite
  | n :: ns, keyed, binders, statement, claimed, hsite => by
    rw [withinAll, List.mem_append] at hsite
    rw [belowAll, List.mem_append]
    rcases hsite with hsite | hsite
    · left
      rw [← ThisBinder.function_mem_append binders parent (keyed && n.kind != .type)]
      exact nested_mem_below_of_site hcall hnested n hsite
    · exact .inr (nested_mem_belowAll_of_site hcall hnested parent ns hsite)

end

end SuperUse

namespace Callable

/-- The super calls in the body of a function, each with what binds `this` between the function and
the call. -/
def superSites (n : Node) : List (Node × List ThisBinder) :=
  match body? n with
  | some body =>
    (ThisBinder.withinAll .body false [] body.children).filter fun s => SuperUse.isSuperCall s.1
  | none => []

section

variable {n : Node} {f : Callable}

theorem body?_of_ofFunction? (hf : ofFunction? n = some f) :
    ∃ body, body? n = some body ∧ f.body = body.span ∧
      f.superCalls = (SuperUse.belowAll false none none body.children).filterMap SuperUse.call? ∧
      f.misuse = (SuperUse.belowAll false none none body.children).findSome? SuperUse.misuse? := by
  unfold ofFunction? at hf
  split at hf
  · rename_i body _ hbody
    cases hf
    exact ⟨body, hbody, rfl, rfl, rfl⟩
  · cases hf

theorem superSites_nodup (hn : n.Formed) :
    ((superSites n).map fun site => site.1.span).Nodup := by
  unfold superSites
  split
  case h_2 => simp
  case h_1 body hbody =>
  have hformed := hn.child (List.mem_of_find?_eq_some hbody)
  have hnodes := hformed.nested.children_from.preorderAll_pairwise
  have hmap : (ThisBinder.withinAll .body false [] body.children).map Prod.fst =
      Node.preorderAll body.children := ThisBinder.map_fst_withinAll body.children
  rw [← hmap, List.pairwise_map] at hnodes
  rw [List.Nodup, List.pairwise_map]
  refine (hnodes.sublist List.filter_sublist).imp_of_mem fun {s t} hs ht hst => ?_
  obtain ⟨hsmem, hscall⟩ := List.mem_filter.mp hs
  obtain ⟨c, hc⟩ := Option.isSome_iff_exists.mp hscall
  obtain ⟨d, hd⟩ := Option.isSome_iff_exists.mp (List.mem_filter.mp ht).2
  have hsformed : s.1.Formed := by
    have hmem := List.mem_map_of_mem (f := Prod.fst) hsmem
    rw [hmap] at hmem
    obtain ⟨child, hchild, hmem⟩ := Node.mem_preorderAll.mp hmem
    exact (hformed.child hchild).of_mem hmem
  -- The `this._super` of the first call takes room in front of the second one.
  obtain ⟨m, hm, hkind, hspan, -⟩ := callee_node (t := (c, s.1)) hc
  have hsolid := hsformed.solid m hm (by simp [hkind, Kind.isSolid])
  have hinside := (Node.WellNested.of_mem s.1 hsformed.nested hm).2
  have hprecedes := precedes_of_nodes (t := (c, s.1)) (u := (d, t.1)) hc hd hsformed.nested hst
  rw [hspan] at hsolid hinside
  rw [SuperCall.Precedes, ← (SuperUse.superCall?_eq_some hc).2.1,
    ← (SuperUse.superCall?_eq_some hd).2.1] at hprecedes
  intro heq
  rw [← heq] at hprecedes
  simp only [Span.Before, Span.Inside] at hprecedes hinside hsolid
  omega

/-- For each function, the listed super calls are those that no nested function stands around, and
a nested function around a super call is told as a misuse. So the listed super calls are those with
the `this` of the function, and all others are told, if and only if no super call stands in the
value of a class field or in a static block without a nested function around it. -/
theorem super_calls_have_own_this_iff (hn : n.Formed) (hf : ofFunction? n = some f) :
    let sites := superSites n
    let calls := f.superCalls.map SuperCall.call
    calls = (sites.filter fun s => !decide (.function ∈ s.2)).map (fun s => s.1.span) ∧
      (∀ s ∈ sites, s.1.span ∈ calls ↔ .function ∉ s.2) ∧
      (∀ s ∈ sites, .function ∈ s.2 → f.misuse ≠ none) ∧
      ((∀ s ∈ sites, s.1.span ∈ calls → s.2 = []) ∧
          (∀ s ∈ sites, s.2 ≠ [] → s.1.span ∉ calls ∧ f.misuse ≠ none) ↔
        ∀ s ∈ sites, s.2 = [] ∨ .function ∈ s.2) := by
  intro sites calls
  obtain ⟨body, hbody, -, hcalls, hmisuse⟩ := body?_of_ofFunction? hf
  have hsites : sites = (ThisBinder.withinAll .body false [] body.children).filter
      fun s => SuperUse.isSuperCall s.1 := by
    simp only [sites, superSites, hbody]
  have hlisted : calls =
      (sites.filter fun s => !decide (.function ∈ s.2)).map (fun s => s.1.span) := by
    have hall : ((SuperUse.belowAll false none none body.children).filterMap
        SuperUse.call?).map SuperCall.call =
          ((ThisBinder.withinAll .body false [] body.children).filter SuperUse.isCollected).map
            fun site => site.1.span :=
      @SuperUse.belowAll_calls ⟨.body, body.span, body.children⟩ body.children false [] none none
    simp only [calls, hcalls, hall, hsites, List.filter_filter]
    rfl
  have hrecorded (s : Node × List ThisBinder) (hs : s ∈ sites) :
      s.1.span ∈ calls ↔ .function ∉ s.2 := by
    rw [hlisted, List.mem_map]
    constructor
    · rintro ⟨t, ht, heq⟩
      obtain ⟨ht, hnested⟩ := List.mem_filter.mp ht
      cases List.inj_on_of_nodup_map (superSites_nodup hn) ht hs heq
      simpa using hnested
    · intro hnested
      exact ⟨s, List.mem_filter.mpr ⟨hs, by simpa using hnested⟩, rfl⟩
  have htold (s : Node × List ThisBinder) (hs : s ∈ sites) (hnested : .function ∈ s.2) :
      f.misuse ≠ none := by
    rw [hsites, List.mem_filter] at hs
    have hmem : SuperUse.misuse .nested ∈ SuperUse.belowAll false none none body.children :=
      SuperUse.nested_mem_belowAll_of_site hs.2 hnested ⟨.body, body.span, body.children⟩
        body.children hs.1
    intro hnone
    rw [hmisuse] at hnone
    cases List.findSome?_eq_none_iff.mp hnone _ hmem
  refine ⟨hlisted, hrecorded, htold, ⟨?_, ?_⟩⟩
  · rintro ⟨-, hothers⟩ s hs
    by_cases hown : s.2 = []
    · exact .inl hown
    · right
      by_contra hnested
      exact (hothers s hs hown).1 ((hrecorded s hs).mpr hnested)
  · intro hclear
    refine ⟨fun s hs hcall => (hclear s hs).resolve_right ((hrecorded s hs).mp hcall),
      fun s hs hown => ?_⟩
    have hnested := (hclear s hs).resolve_left hown
    exact ⟨fun hcall => (hrecorded s hs).mp hcall hnested, htold s hs hnested⟩

end

/-- A function with super calls of its own, one of them in an arrow function and one in the key of a
class, and with one in a nested function. -/
def ownSuperText : List Char :=
  ("function f() \x7b this._super(() => this._super()); class A \x7b [this._super()] = 1; \x7d " ++
    "g(function () \x7b this._super(); \x7d); \x7d").toList

theorem super_calls_have_own_this_around_nested : ∃ n f,
    n.Formed ∧ ofFunction? n = some f ∧
    (superSites n).map Prod.snd = [[], [], [], [.function]] ∧
    (∀ s ∈ superSites n, s.1.span ∈ f.superCalls.map SuperCall.call → s.2 = []) ∧
    ∀ s ∈ superSites n, s.2 ≠ [] →
      s.1.span ∉ f.superCalls.map SuperCall.call ∧ f.misuse ≠ none := by
  have h : ((Script.parse ⟨false⟩ ownSuperText).toOption.any fun script =>
      script.children.any fun n => (ofFunction? n).isSome && decide n.Formed &&
        (superSites n).map Prod.snd == [[], [], [], [.function]]) = true := by
    decide +kernel
  simp only [Option.any_eq_true, Bool.and_eq_true, beq_iff_eq, List.any_eq_true, decide_eq_true_eq,
    Option.isSome_iff_exists] at h
  obtain ⟨script, -, n, -, ⟨⟨f, hf⟩, hformed⟩, hbinders⟩ := h
  have hclear : ∀ s ∈ superSites n, s.2 = [] ∨ .function ∈ s.2 := by
    intro s hs
    have hmem := List.mem_map_of_mem (f := Prod.snd) hs
    rw [hbinders] at hmem
    simp only [List.mem_cons, List.not_mem_nil, or_false, or_self_left] at hmem
    rcases hmem with hmem | hmem
    · exact .inl hmem
    · exact .inr (by simp [hmem])
  obtain ⟨hown, hothers⟩ := (super_calls_have_own_this_iff hformed hf).2.2.2.mpr hclear
  exact ⟨n, f, hformed, hf, hbinders, hown, hothers⟩

def fieldSuperText : List Char :=
  "function f() \x7b class A \x7b b = this._super(); \x7d \x7d".toList

/-- The `this` of a super call in the value of a field is an instance of the class of the field, but
the super call is listed as one of the function around the class, and nothing is told. -/
theorem super_call_in_field_is_listed : ∃ script n f,
    Script.parse ⟨false⟩ fieldSuperText = .ok script ∧ n ∈ script.preorder ∧
    ofFunction? n = some f ∧
    (superSites n).map Prod.snd = [[.fieldValue]] ∧
    (superSites n).map (fun s => s.1.span) = [⟨29, 42⟩] ∧
    f.superCalls.map SuperCall.call = [⟨29, 42⟩] ∧ f.misuse = none := by
  have h : ((Script.parse ⟨false⟩ fieldSuperText).toOption.any fun script =>
      script.preorder.any fun n => (ofFunction? n).any fun f =>
        (superSites n).map Prod.snd == [[.fieldValue]] &&
        (superSites n).map (fun s => s.1.span) == [⟨29, 42⟩] &&
        f.superCalls.map SuperCall.call == [⟨29, 42⟩] && f.misuse == none) = true := by
    decide +kernel
  simp only [Option.any_eq_true, Bool.and_eq_true, beq_iff_eq, List.any_eq_true,
    Except.toOption_eq_some_iff] at h
  obtain ⟨script, hparse, n, hn, f, hf, ⟨⟨hbinders, hspans⟩, hcalls⟩, hmisuse⟩ := h
  exact ⟨script, n, f, hparse, hn, hf, hbinders, hspans, hcalls, hmisuse⟩

end Callable

end EmberClasses
