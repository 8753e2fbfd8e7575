import EmberClasses.Proofs.LastArgument
import EmberClasses.Proofs.TemplateLines

/-! Where the cuts of a class lie. Each of them is the text of a node, and the edits in the body of
a function write over nodes or stand in front of one. So with a tree that describes its source,
every cut can be made. -/

namespace EmberClasses

open Script (Node Kind)

namespace Script.Node

def HasSpan (n : Node) (s : Span) : Prop := ∃ m ∈ n.preorder, m.span = s

theorem HasSpan.mono {m n : Node} {s : Span} (h : m.HasSpan s) (hm : m ∈ n.preorder) :
    n.HasSpan s := by
  obtain ⟨l, hl, hs⟩ := h
  exact ⟨l, mem_preorder_trans n hm hl, hs⟩

theorem HasSpan.of_child {m n : Node} (hm : m ∈ n.children) : n.HasSpan m.span :=
  ⟨m, mem_preorder_child hm, rfl⟩

def PlainQuasis (n : Node) : Prop := ∀ m ∈ n.preorder, m.kind = .quasi → m.children = []

instance (n : Node) : Decidable n.PlainQuasis :=
  inferInstanceAs (Decidable (∀ m ∈ n.preorder, m.kind = .quasi → m.children = []))

theorem quasis_ascending {n : Node} (hn : n.Formed) (hq : n.PlainQuasis) :
    n.quasis.Pairwise Span.Before := by
  have hspans : ((n.preorder.filter fun m => m.kind = .quasi).map span).Pairwise Span.Before := by
    rw [List.pairwise_map]
    have hall := (WellNested.preorder_pairwise n hn.nested).filter fun m => m.kind = .quasi
    refine hall.imp_of_mem fun {a b} ha hb hab => ?_
    obtain ⟨hmem, hkind⟩ := List.mem_filter.mp ha
    rcases hab with hbefore | hbelow
    · exact hbefore
    · rw [hq a hmem (of_decide_eq_true hkind)] at hbelow
      cases hbelow
  -- They come in the order of the source, so sorting changes nothing.
  have hsorted : n.quasis = (n.preorder.filter fun m => m.kind = .quasi).map span := by
    apply List.mergeSort_of_pairwise
    refine hspans.imp_of_mem fun {a b} ha hb hab => ?_
    obtain ⟨m, hm, rfl⟩ := List.mem_map.mp ha
    have hle := (hn.of_mem (List.mem_of_mem_filter hm)).nested.start_le_stop
    exact decide_eq_true (hle.trans hab)
  rw [hsorted]
  exact hspans

end Script.Node

namespace Callable.ReadFrom

variable {n : Node} {f : Callable}

theorem hasSpan_body (h : f.ReadFrom n) : n.HasSpan f.body := by
  obtain ⟨m, hm, hf⟩ := h
  obtain ⟨body, hbody, -, hspan, -⟩ := ofFunction?_eq_some hf
  rw [hspan]
  exact (Node.HasSpan.of_child hbody).mono hm

theorem hasSpan_param (h : f.ReadFrom n) : ∀ s ∈ f.params, n.HasSpan s := by
  intro s hs
  obtain ⟨m, hm, hf⟩ := h
  obtain ⟨param, hparam, rfl⟩ := (ofFunction?_parts hf).2 s hs
  exact (Node.HasSpan.of_child hparam).mono hm

theorem hasSpan_superCall (h : f.ReadFrom n) : ∀ c ∈ f.superCalls,
    n.HasSpan c.call ∧ n.HasSpan c.callee ∧ ∃ m ∈ n.preorder, m.span.start = c.statement := by
  intro c hc
  obtain ⟨m, hm, hf⟩ := h
  obtain ⟨body, hbody, -, -, hcalls, -⟩ := ofFunction?_eq_some hf
  have hsub {l : Node} (hl : l ∈ Node.preorderAll body.children) : l ∈ n.preorder := by
    obtain ⟨child, hchild, hl⟩ := Node.mem_preorderAll.mp hl
    have hbelow : l ∈ body.preorder := Node.mem_preorder.mpr (.inr ⟨child, hchild, hl⟩)
    exact Node.mem_preorder_trans n hm
      (Node.mem_preorder_trans m (Node.mem_preorder_child hbody) hbelow)
  obtain ⟨trace, htrace⟩ : ∃ trace, SuperUse.Trace
      (fun s => ∃ l ∈ Node.preorderAll body.children, l.span.start = s) f.superCalls
      (Node.preorderAll body.children) trace := by
    rw [hcalls]
    exact SuperUse.belowAll_trace body.children (by simp) fun l hl _ => ⟨l, hl, rfl⟩
  rw [← htrace.calls] at hc
  obtain ⟨t, ht, rfl⟩ := List.mem_map.mp hc
  obtain ⟨⟨statement, hcall⟩, l, hl, hstart⟩ := htrace.traced t ht
  have hnode := hsub (htrace.nodes.subset (List.mem_map_of_mem ht))
  obtain ⟨-, hspan, -, callee, rest, hchildren, hcallee⟩ := SuperUse.superCall?_eq_some hcall
  obtain ⟨⟨member, hmember, -, hcalleeSpan⟩, -⟩ := SuperUse.callee?_eq_some hcallee
  have hchild : callee ∈ t.2.children := by simp [hchildren]
  refine ⟨⟨t.2, hnode, hspan⟩, ⟨member, ?_, hcalleeSpan⟩, l, hsub hl, hstart⟩
  exact Node.mem_preorder_trans n hnode (Node.mem_preorder.mpr (.inr ⟨callee, hchild, hmember⟩))

/-- The edits in the body of a function lie between characters. -/
theorem bodyEdits_on_boundaries (h : f.ReadFrom n) {source : List Char}
    (hn : ∀ m ∈ n.preorder, m.span.OnBoundaries source) (name : String) (rule : Member.SuperRule) :
    ∀ e ∈ Member.bodyEdits source name rule f, e.span.OnBoundaries source := by
  intro e he
  obtain ⟨c, hc, hspan⟩ := Member.mem_bodyEdits he
  obtain ⟨⟨k, hk, hcall⟩, ⟨l, hl, hcallee⟩, m, hm, hstart⟩ := h.hasSpan_superCall c hc
  rcases hspan with hspan | hspan | hspan
  · rw [hspan, ← hcall]
    exact hn k hk
  · rw [hspan, ← hcallee]
    exact hn l hl
  · rw [hspan, ← hstart]
    exact ⟨(hn m hm).1, (hn m hm).1⟩

end Callable.ReadFrom

/-- The spans of all code in a value that may be copied as it stands, functions apart. -/
def Shape.spans : Shape → List Span
  | .literal span | .identifier _ span | .object span | .expression span => [span]
  | .array span elements => span :: elements
  | .call chain => chain.span :: chain.args.map Argument.span
  | .function _ | .unsupported _ => []

theorem Shape.hasSpan_ofValue (n : Node) : ∀ s ∈ (Shape.ofValue n).spans, n.HasSpan s := by
  intro s hs
  have hself : n.HasSpan n.span := ⟨n, Node.mem_preorder_self n, rfl⟩
  unfold Shape.ofValue at hs
  split at hs
  case h_8 =>
    rcases List.mem_cons.mp hs with rfl | hs
    · exact hself
    · obtain ⟨m, hm, rfl⟩ := List.mem_map.mp hs
      exact .of_child hm
  case h_10 => split at hs <;> cases hs
  case h_11 =>
    rcases List.mem_cons.mp hs with rfl | hs
    · exact hself
    · obtain ⟨a, ha, rfl⟩ := List.mem_map.mp hs
      obtain ⟨m, hm, rfl⟩ := List.mem_map.mp ha
      rw [Argument.ofNode_span]
      exact ⟨m, Node.mem_preorder_trans n (Chain.peel_mem n) (Node.mem_preorder_argument hm), rfl⟩
  all_goals
    first
    | cases hs; done
    | rw [List.mem_singleton.mp hs]; exact hself

namespace Property

theorem hasSpan_ofNode (file : File) (property : Node) (comments : List (List Char)) :
    ∀ s ∈ (ofNode file property comments).shape.spans, property.HasSpan s := by
  intro s hs
  unfold ofNode at hs
  dsimp only at hs
  split at hs
  · rename_i key rest _ hchildren
    split at hs
    · have hvalue : rest.head?.getD key ∈ property.children := by
        rw [hchildren]
        cases rest <;> simp
      have hshape : s ∈ (readShape _ _ (rest.head?.getD key)).spans := hs
      unfold readShape at hshape
      split at hshape
      · cases hshape
      · split at hshape
        · cases hshape
        · exact (Shape.hasSpan_ofValue _ s hshape).mono (Node.mem_preorder_child hvalue)
    · cases hs
  · cases hs

theorem mem_params {p : Property} {t : Span} (h : t ∈ p.params) :
    ∃ name f, p.Has name f ∧ t ∈ f.params := by
  unfold params at h
  split at h
  · rename_i hactions
    obtain ⟨a, ha, ht⟩ := List.mem_flatMap.mp h
    unfold Action.params at ht
    split at ht
    · exact ⟨a.name, _, .inr ⟨hactions, a, ha, ‹_›, rfl⟩, ht⟩
    · cases ht
  · split at h
    · rename_i f hshape
      exact ⟨p.name, f, .inl ⟨by simp [functions, hshape], rfl⟩, h⟩
    · rename_i chain hshape
      have hlast {a : Argument} {f : Callable} (ha : chain.args.getLast? = some a)
          (hf : f ∈ a.functions) : p.Has p.name f := by
        refine .inl ⟨?_, rfl⟩
        rw [functions, hshape]
        exact List.mem_flatMap.mpr ⟨a, List.mem_of_getLast? ha, hf⟩
      unfold Chain.params? at h
      split at h
      · exact ⟨_, _, hlast ‹_› List.mem_cons_self, h⟩
      · exact ⟨_, _, hlast ‹_› List.mem_cons_self, h⟩
      · rcases List.mem_append.mp h with h | h
        · obtain ⟨f, hf, ht⟩ := List.mem_flatMap.mp h
          exact ⟨_, f, hlast ‹_› (List.mem_append_left _ hf), ht⟩
        · obtain ⟨f, hf, ht⟩ := List.mem_flatMap.mp h
          exact ⟨_, f, hlast ‹_› (List.mem_append_right _ hf), List.mem_of_mem_drop ht⟩
      · cases h
    · cases h

theorem mem_kept {p : Property} {t : Span} (h : t ∈ p.kept) : t ∈ p.shape.spans := by
  unfold kept at h
  split at h
  · rename_i chain hshape
    rw [hshape]
    rcases List.mem_append.mp h with h | h
    · split at h
      · obtain ⟨a, ha, rfl⟩ := List.mem_map.mp h
        have harg : a ∈ chain.args := by
          unfold Member.decoratorArgs at ha
          dsimp only at ha
          split at ha
          · exact List.mem_of_mem_dropLast ha
          · exact ha
        exact List.mem_cons_of_mem _ (List.mem_map_of_mem harg)
      · cases h
    · split at h
      · rw [List.mem_singleton.mp h]
        exact List.mem_cons_self
      · cases h
  · rename_i hcall
    split at h
    · cases hshape : p.shape <;> simp_all [Shape.span?, Shape.spans, Shape.isPlain]
    · cases h

/-- Code that is taken over as it stands is part of the value, or a parameter of a function. -/
theorem mem_copied {p : Property} {t : Span} (h : t ∈ p.copied) :
    t ∈ p.shape.spans ∨ ∃ name f, p.Has name f ∧ t ∈ f.params := by
  unfold copied at h
  split at h
  · cases hshape : p.shape <;> simp_all [Shape.spans]
  · split at h
    · exact .inr (mem_params h)
    · rcases List.mem_append.mp h with h | h
      · exact .inr (mem_params h)
      · exact .inl (mem_kept h)

end Property

theorem Blueprint.cuttable_of_mem_cutsOf {source : List Char} {script object : Node}
    (hs : script.Faithful source) (hq : script.PlainQuasis) (hobject : object ∈ script.preorder)
    {file : Property.File} {p : Property}
    (hp : p ∈ (PropertyList.ofObject file object).properties) {k : Cut}
    (hk : k ∈ cutsOf source p) :
    Fragment.Cuttable source k.span k.edits script.quasis := by
  have hnode {s : Span} (h : object.HasSpan s) : s.start ≤ s.stop ∧ s.OnBoundaries source := by
    obtain ⟨m, hm, rfl⟩ := h
    have hmem := Node.mem_preorder_trans script hobject hm
    exact ⟨(hs.formed.of_mem hmem).nested.start_le_stop, hs.boundaries m hmem⟩
  have hquasis := Node.quasis_ascending hs.formed hq
  cases k with
  | plain t =>
    have hspan : object.HasSpan t := by
      rcases Property.mem_copied (plain_mem_cutsOf.mp hk) with ht | ⟨name, f, hf, ht⟩
      · obtain ⟨e, he, rfl⟩ := List.mem_map.mp hp
        exact (Property.hasSpan_ofNode file e.1 e.2 t ht).mono
          (Node.mem_preorder_child (mem_of_mem_withComments he))
      · exact (PropertyList.ofObject_readFrom file object hp hf).hasSpan_param t ht
    obtain ⟨hle, hbounds⟩ := hnode hspan
    exact ⟨hle, hbounds, by simp [Cut.edits], by simp [Cut.edits], .nil, hquasis⟩
  | body t edits =>
    obtain ⟨name, f, hf, rule, rfl, rfl⟩ := body_mem_cutsOf hk
    have hread := PropertyList.ofObject_readFrom file object hp hf
    have horderly := hread.orderly (hs.formed.of_mem hobject)
    refine ⟨(hnode hread.hasSpan_body).1, (hnode hread.hasSpan_body).2,
      Member.bodyEdits_inside horderly source name rule,
      hread.bodyEdits_on_boundaries (fun m hm => ?_) name rule,
      Member.bodyEdits_apart horderly source name rule, hquasis⟩
    exact hs.boundaries m (Node.mem_preorder_trans script hobject hm)

end EmberClasses
