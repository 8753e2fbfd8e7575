import EmberClasses.Proofs.Edits
import EmberClasses.Script.Tree

/-! Where the nodes of a script tree lie: below a node everything is inside its span, and what
stands in different children is apart. -/

namespace EmberClasses.Script

/-- Texts of templates may be empty, and so may a whole script. Every other node has a text. -/
def Kind.isSolid : Kind → Bool
  | .quasi | .program => false
  | _ => true

def Kind.isImport : Kind → Bool
  | .importDeclaration _ => true
  | _ => false

def Kind.isName : Kind → Bool
  | .identifier _ => true
  | _ => false

namespace Node

@[simp] theorem kind_mk (k : Kind) (s : Span) (ns : List Node) : (mk k s ns).kind = k := rfl

@[simp] theorem span_mk (k : Kind) (s : Span) (ns : List Node) : (mk k s ns).span = s := rfl

@[simp] theorem children_mk (k : Kind) (s : Span) (ns : List Node) :
    (mk k s ns).children = ns := rfl

theorem WellNested.start_le_stop {n : Node} (h : n.WellNested) : n.span.start ≤ n.span.stop := by
  cases n
  unfold WellNested at h
  exact h.1

theorem WellNested.children_from {n : Node} (h : n.WellNested) :
    WellNestedFrom n.span.start n.span.stop n.children := by
  cases n
  unfold WellNested at h
  exact h.2

theorem wellNestedFrom_cons {a b : Nat} {n : Node} {ns : List Node} :
    WellNestedFrom a b (n :: ns) ↔
      a ≤ n.span.start ∧ n.span.stop ≤ b ∧ n.WellNested ∧ WellNestedFrom n.span.stop b ns := by
  rw [WellNestedFrom]

theorem WellNestedFrom.of_mem {a b : Nat} {ns : List Node} (h : WellNestedFrom a b ns) {n : Node}
    (hn : n ∈ ns) : n.WellNested ∧ n.span.Inside ⟨a, b⟩ := by
  induction ns generalizing a with
  | nil => cases hn
  | cons m ms ih =>
    obtain ⟨h₁, h₂, hm, hms⟩ := wellNestedFrom_cons.mp h
    rcases List.mem_cons.mp hn with rfl | hn
    · exact ⟨hm, h₁, h₂⟩
    · obtain ⟨hw, hi⟩ := ih hms hn
      exact ⟨hw, h₁.trans (hm.start_le_stop.trans hi.1), hi.2⟩

theorem WellNestedFrom.pairwise {a b : Nat} {ns : List Node} (h : WellNestedFrom a b ns) :
    ns.Pairwise fun m n => m.span.Before n.span := by
  induction ns generalizing a with
  | nil => exact .nil
  | cons m ms ih =>
    obtain ⟨_, _, _, hms⟩ := wellNestedFrom_cons.mp h
    exact .cons (fun n hn => (hms.of_mem hn).2.1) (ih hms)

theorem mem_preorder_self (n : Node) : n ∈ n.preorder := by
  cases n
  simp [preorder]

theorem mem_preorderAll {m : Node} {ns : List Node} :
    m ∈ preorderAll ns ↔ ∃ n ∈ ns, m ∈ n.preorder := by
  induction ns with
  | nil => simp [preorderAll]
  | cons n ns ih => simp [preorderAll, ih]

theorem mem_preorder {m n : Node} : m ∈ n.preorder ↔ m = n ∨ ∃ c ∈ n.children, m ∈ c.preorder := by
  cases n
  rw [preorder, List.mem_cons, mem_preorderAll, children_mk]

mutual

theorem mem_preorder_trans {l m : Node} : (n : Node) → m ∈ n.preorder → l ∈ m.preorder →
    l ∈ n.preorder
  | mk kind span children, hm, hl => by
    rw [preorder] at hm ⊢
    rcases List.mem_cons.mp hm with rfl | hm
    · rwa [preorder] at hl
    · exact List.mem_cons_of_mem _ (mem_preorderAll_trans children hm hl)

theorem mem_preorderAll_trans {l m : Node} : (ns : List Node) → m ∈ preorderAll ns →
    l ∈ m.preorder → l ∈ preorderAll ns
  | [], hm, _ => by simp [preorderAll] at hm
  | n :: ns, hm, hl => by
    rw [preorderAll, List.mem_append] at hm ⊢
    rcases hm with hm | hm
    · exact .inl (mem_preorder_trans n hm hl)
    · exact .inr (mem_preorderAll_trans ns hm hl)

end

mutual

theorem WellNested.of_mem {m : Node} : (n : Node) → n.WellNested → m ∈ n.preorder →
    m.WellNested ∧ m.span.Inside n.span
  | mk kind span children, h, hm => by
    rw [preorder] at hm
    rcases List.mem_cons.mp hm with rfl | hm
    · exact ⟨h, .refl _⟩
    · exact WellNestedFrom.of_mem_preorderAll children h.children_from hm

theorem WellNestedFrom.of_mem_preorderAll {m : Node} {a b : Nat} : (ns : List Node) →
    WellNestedFrom a b ns → m ∈ preorderAll ns → m.WellNested ∧ m.span.Inside ⟨a, b⟩
  | [], _, hm => by simp [preorderAll] at hm
  | n :: ns, h, hm => by
    obtain ⟨h₁, h₂, hn, hns⟩ := wellNestedFrom_cons.mp h
    rw [preorderAll, List.mem_append] at hm
    rcases hm with hm | hm
    · obtain ⟨hw, hi⟩ := WellNested.of_mem n hn hm
      exact ⟨hw, hi.trans ⟨h₁, h₂⟩⟩
    · obtain ⟨hw, hi⟩ := WellNestedFrom.of_mem_preorderAll ns hns hm
      exact ⟨hw, h₁.trans (hn.start_le_stop.trans hi.1), hi.2⟩

end

mutual

/-- A node that comes later in the order of the source stands behind an earlier one, or below it. -/
theorem WellNested.preorder_pairwise : (n : Node) → n.WellNested →
    n.preorder.Pairwise fun a b => a.span.Before b.span ∨ b ∈ preorderAll a.children
  | mk kind span children, h => by
    rw [preorder]
    exact .cons (fun b hb => .inr hb) (WellNestedFrom.preorderAll_pairwise children h.children_from)

theorem WellNestedFrom.preorderAll_pairwise {a b : Nat} : (ns : List Node) →
    WellNestedFrom a b ns →
    (preorderAll ns).Pairwise fun a b => a.span.Before b.span ∨ b ∈ preorderAll a.children
  | [], _ => by simp [preorderAll]
  | n :: ns, h => by
    obtain ⟨_, _, hn, hns⟩ := wellNestedFrom_cons.mp h
    rw [preorderAll, List.pairwise_append]
    refine ⟨WellNested.preorder_pairwise n hn, WellNestedFrom.preorderAll_pairwise ns hns, ?_⟩
    intro l hl m hm
    exact .inl ((WellNested.of_mem n hn hl).2.2.trans (hns.of_mem_preorderAll ns hm).2.1)

end

/-- Two nodes of a tree lie apart, or one of them holds the other. -/
theorem WellNestedFrom.apart_or_mem {a b : Nat} {ns : List Node} (h : WellNestedFrom a b ns)
    {m n : Node} (hm : m ∈ preorderAll ns) (hn : n ∈ preorderAll ns) :
    m.span.Apart n.span ∨ m ∈ n.preorder ∨ n ∈ m.preorder := by
  have hsub {k l : Node} (hl : l ∈ preorderAll k.children) : l ∈ k.preorder := by
    cases k
    exact List.mem_cons_of_mem _ hl
  have hp : (preorderAll ns).Pairwise fun m n =>
      m.span.Apart n.span ∨ m ∈ n.preorder ∨ n ∈ m.preorder := by
    refine (h.preorderAll_pairwise ns).imp fun {k l} hkl => ?_
    rcases hkl with hkl | hkl
    · exact .inl (.inl hkl)
    · exact .inr (.inr (hsub hkl))
  have hsymm : Std.Symm fun m n : Node =>
      m.span.Apart n.span ∨ m ∈ n.preorder ∨ n ∈ m.preorder :=
    ⟨fun _ _ h => h.imp Span.Apart.symm Or.symm⟩
  by_cases heq : m = n
  · exact .inr (.inl (heq ▸ mem_preorder_self m))
  · exact hp.forall hm hn heq

/-- Nodes are well nested, and none of them is empty without a reason. -/
structure Formed (n : Node) : Prop where
  nested : n.WellNested
  solid : ∀ m ∈ n.preorder, m.kind.isSolid → m.span.start < m.span.stop

theorem Formed.of_mem {m n : Node} (h : n.Formed) (hm : m ∈ n.preorder) : m.Formed :=
  ⟨(WellNested.of_mem n h.nested hm).1, fun l hl => h.solid l (mem_preorder_trans n hm hl)⟩

theorem mem_preorder_child {m n : Node} (hm : m ∈ n.children) : m ∈ n.preorder :=
  mem_preorder.mpr (.inr ⟨m, hm, mem_preorder_self m⟩)

theorem mem_preorder_argument {m n : Node} (hm : m ∈ n.arguments) : m ∈ n.preorder :=
  mem_preorder_child (List.mem_of_mem_tail (List.mem_filter.mp hm).1)

theorem Formed.child {m n : Node} (h : n.Formed) (hm : m ∈ n.children) : m.Formed :=
  h.of_mem (mem_preorder_child hm)

theorem Formed.inside {m n : Node} (h : n.Formed) (hm : m ∈ n.children) : m.span.Inside n.span :=
  (h.nested.children_from.of_mem hm).2

theorem sizeOf_lt_of_child {m n : Node} (hm : m ∈ n.children) : sizeOf m < sizeOf n := by
  cases n with
  | mk kind span children =>
    have hsmall := List.sizeOf_lt_of_mem hm
    rw [children_mk] at hsmall
    simp only [mk.sizeOf_spec]
    omega

theorem sizeOf_le_of_mem_preorder {m : Node} (n : Node) (hm : m ∈ n.preorder) :
    sizeOf m ≤ sizeOf n := by
  rcases mem_preorder.mp hm with rfl | ⟨c, hc, hmc⟩
  · exact le_rfl
  · have hlt := sizeOf_lt_of_child hc
    exact (sizeOf_le_of_mem_preorder c hmc).trans hlt.le
termination_by sizeOf n

theorem child_index_unique {p c n : Node} (hp : p.Formed) (hn : n.kind.isSolid) {i j : Nat}
    (hi : p.children[i]? = some c) (hj : p.children[j]? = some n) (hc : n ∈ c.preorder) :
    i = j := by
  have hsolid := hp.solid n (mem_preorder_child (List.mem_of_getElem? hj)) hn
  have hinside := (WellNested.of_mem c (hp.child (List.mem_of_getElem? hi)).nested hc).2
  have hpair := List.pairwise_iff_getElem.mp hp.nested.children_from.pairwise
  obtain ⟨hil, rfl⟩ := List.getElem?_eq_some_iff.mp hi
  obtain ⟨hjl, rfl⟩ := List.getElem?_eq_some_iff.mp hj
  simp only [Span.Inside] at hinside
  rcases Nat.lt_trichotomy i j with hij | hij | hij
  · have hbefore := hpair i j hil hjl hij
    simp only [Span.Before] at hbefore
    omega
  · exact hij
  · have hbefore := hpair j i hjl hil hij
    simp only [Span.Before] at hbefore
    omega

private theorem parent_unique_of_mem {p q n : Node} (hq : q.Formed) (hp : p ∈ q.preorder)
    (hn : n.kind.isSolid) {i j : Nat} (hi : p.children[i]? = some n)
    (hj : q.children[j]? = some n) : p = q ∧ i = j := by
  have hchild := List.mem_of_getElem? hi
  rcases mem_preorder.mp hp with rfl | ⟨c, hc, hpc⟩
  · exact ⟨rfl, child_index_unique hq hn hi hj (mem_preorder_self n)⟩
  · obtain ⟨k, hk⟩ := List.getElem?_of_mem hc
    have hkj := child_index_unique hq hn hk hj
      (mem_preorder_trans c hpc (mem_preorder_child hchild))
    rw [hkj, hj, Option.some.injEq] at hk
    have hle := sizeOf_le_of_mem_preorder c hpc
    have hlt := sizeOf_lt_of_child hchild
    rw [hk] at hlt
    omega

/-- A node with a text has one parent, and one place among its children. -/
theorem parent_unique {script p q n : Node} (hs : script.Formed) (hp : p ∈ script.preorder)
    (hq : q ∈ script.preorder) (hn : n.kind.isSolid) {i j : Nat} (hi : p.children[i]? = some n)
    (hj : q.children[j]? = some n) : p = q ∧ i = j := by
  have hroot : WellNestedFrom script.span.start script.span.stop [script] :=
    wellNestedFrom_cons.mpr ⟨le_rfl, le_rfl, hs.nested, trivial⟩
  have hall : ∀ m ∈ script.preorder, m ∈ preorderAll [script] :=
    fun m hm => mem_preorderAll.mpr ⟨script, List.mem_singleton_self _, hm⟩
  rcases hroot.apart_or_mem (hall p hp) (hall q hq) with hapart | hmem | hmem
  · have hpn := (hs.of_mem hp).inside (List.mem_of_getElem? hi)
    have hqn := (hs.of_mem hq).inside (List.mem_of_getElem? hj)
    have hsolid := (hs.of_mem hp).solid n (mem_preorder_child (List.mem_of_getElem? hi)) hn
    exact absurd (hapart.mono hpn) (hqn.not_apart hsolid)
  · exact parent_unique_of_mem (hs.of_mem hq) hmem hn hi hj
  · obtain ⟨hqp, hji⟩ := parent_unique_of_mem (hs.of_mem hp) hmem hn hj hi
    exact ⟨hqp.symm, hji.symm⟩

/-- The tree describes the source: nodes start and end between characters, a node that has a text
starts with its first token, and imports hold no calls. -/
structure Faithful (source : List Char) (script : Node) : Prop where
  formed : script.Formed
  program : script.kind = .program
  boundaries : ∀ n ∈ script.preorder, n.span.OnBoundaries source
  starts : ∀ n ∈ script.preorder, n.kind.isSolid →
    (Text.dropBytes n.span.start source).head? ≠ some '\n'
  imports : ∀ n ∈ script.children, n.kind.isImport → ∀ m ∈ n.preorder, m.kind ≠ .call

mutual

private def decideWellNested : (n : Node) → Decidable n.WellNested
  | mk _ span children =>
    have := decideWellNestedFrom span.start span.stop children
    decidable_of_iff (span.start ≤ span.stop ∧ WellNestedFrom span.start span.stop children)
      (by rw [WellNested])

private def decideWellNestedFrom : (a b : Nat) → (ns : List Node) →
    Decidable (WellNestedFrom a b ns)
  | _, _, [] => isTrue trivial
  | a, b, n :: ns =>
    have := decideWellNested n
    have := decideWellNestedFrom n.span.stop b ns
    decidable_of_iff (a ≤ n.span.start ∧ n.span.stop ≤ b ∧ n.WellNested ∧
      WellNestedFrom n.span.stop b ns) wellNestedFrom_cons.symm

end

instance (n : Node) : Decidable n.WellNested := decideWellNested n

instance (n : Node) : Decidable n.Formed :=
  decidable_of_iff
    (n.WellNested ∧ ∀ m ∈ n.preorder, m.kind.isSolid → m.span.start < m.span.stop)
    ⟨fun h => ⟨h.1, h.2⟩, fun h => ⟨h.nested, h.solid⟩⟩

instance (source : List Char) (script : Node) : Decidable (script.Faithful source) :=
  decidable_of_iff
    (script.Formed ∧ script.kind = .program ∧
      (∀ n ∈ script.preorder, n.span.OnBoundaries source) ∧
      (∀ n ∈ script.preorder, n.kind.isSolid →
        (Text.dropBytes n.span.start source).head? ≠ some '\n') ∧
      ∀ n ∈ script.children, n.kind.isImport → ∀ m ∈ n.preorder, m.kind ≠ .call)
    ⟨fun ⟨h₁, h₂, h₃, h₄, h₅⟩ => ⟨h₁, h₂, h₃, h₄, h₅⟩,
      fun ⟨h₁, h₂, h₃, h₄, h₅⟩ => ⟨h₁, h₂, h₃, h₄, h₅⟩⟩

end Node

end EmberClasses.Script
