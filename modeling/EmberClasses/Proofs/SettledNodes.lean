import EmberClasses.Proofs.Nesting
import EmberClasses.Proofs.TokenBytes
import EmberClasses.Script.Grammar.Target

/-! What the grammar sees to in every node that it makes: that the node lies between characters,
starts with its first token and holds parts of the right kind. A row of such nodes, one behind the
other, is what a rule of the grammar has gathered at any time. -/

namespace EmberClasses.Script

open Text (IsBoundary dropBytes)

/-- The name is a token somewhere in the source. -/
def HasName (source : List Char) (name : String) : Prop :=
  ∃ before text escaped n rest, source = before ++ text ∧
    Lexer.scanToken text = some (.name name escaped, n, rest)

namespace Kind

/-- Statements and bodies. They start behind the first token of what they stand in. -/
def isLate : Kind → Bool
  | body => true
  | k => k.isStatement

def isPart (k : Kind) : Bool := k.isSolid && !k.isLate

def isTarget : Kind → Bool
  | identifier _ | arrayPattern | objectPattern => true
  | _ => false

/-- What the children of a node must be, besides nodes in order. The name of a member stands in the
source. -/
def Accepts (source : List Char) : Kind → List Node → Prop
  | quasi, ns => ns = []
  | member name, ns => HasName source name ∧ ∀ n ∈ ns, n.kind.isName → n.children = []
  | chain, ns => ∀ n ∈ ns, n.kind.isPart = true ∧ (n.kind.isName → n.children = [])
  | body, ns => ∀ n ∈ ns, n.kind.isStatement
  | importDeclaration _, ns => ∀ n ∈ ns, ∀ m ∈ n.preorder, m.kind ≠ .call
  | _, _ => True

@[reducible] def isPlain : Kind → Bool
  | program | quasi | member _ | chain | body | importDeclaration _ => false
  | _ => true

theorem isPart_iff {k : Kind} : k.isPart = true ↔ k.isSolid = true ∧ k.isLate = false := by
  simp [isPart]

theorem isPart_of_isTarget {k : Kind} (h : k.isTarget = true) : k.isPart = true := by
  cases k <;> first | rfl | cases h

theorem accepts_of_isTarget {k : Kind} (h : k.isTarget = true) (source : List Char)
    (ns : List Node) : k.Accepts source ns := by
  cases k <;> trivial

theorem isSolid_of_isPlain {k : Kind} (h : k.isPlain = true) : k.isSolid = true := by
  cases k <;> first | rfl | cases h

theorem accepts_of_isPlain {k : Kind} (h : k.isPlain = true) (source : List Char)
    (ns : List Node) : k.Accepts source ns := by
  cases k <;> trivial

theorem isLate_of_isStatement {k : Kind} (h : k.isStatement = true) : k.isLate = true := by
  cases k <;> try exact h
  rfl

theorem isSolid_of_isLate {k : Kind} (h : k.isLate = true) : k.isSolid = true := by
  cases k <;> first | rfl | cases h

end Kind

structure Begins (source : List Char) (start : Nat) : Prop where
  boundary : IsBoundary source start
  visible : (dropBytes start source).head? ≠ some '\n'

namespace Node

/-- A node is right in itself. -/
structure Settled (source : List Char) (n : Node) : Prop where
  boundaries : n.span.OnBoundaries source
  solid : n.kind.isSolid → n.span.start < n.span.stop ∧ Begins source n.span.start
  accepts : n.kind.Accepts source n.children
  late : ∀ m ∈ n.children, m.kind.isLate →
    n.kind = .program ∨ n.kind = .body ∨ n.span.start < m.span.start
  root : ∀ m ∈ n.children, m.kind ≠ .program

end Node

/-- Nodes between two offsets, one behind the other, that are right in themselves and below. -/
structure Row (source : List Char) (start stop : Nat) (ns : List Node) : Prop where
  nested : Node.WellNestedFrom start stop ns
  settled : ∀ m ∈ Node.preorderAll ns, m.Settled source
  root : ∀ n ∈ ns, n.kind ≠ .program

namespace Row

variable {source : List Char} {a b c d : Nat} {n : Node} {ns ms : List Node}

theorem nil (source : List Char) (a b : Nat) : Row source a b [] :=
  ⟨trivial, by simp [Node.preorderAll], by simp⟩

theorem cons_iff : Row source a b (n :: ns) ↔ a ≤ n.span.start ∧ n.span.stop ≤ b ∧ n.WellNested ∧
    (∀ m ∈ n.preorder, m.Settled source) ∧ n.kind ≠ .program ∧ Row source n.span.stop b ns := by
  constructor
  · intro h
    obtain ⟨h₁, h₂, hn, hns⟩ := Node.wellNestedFrom_cons.mp h.nested
    have hs := h.settled
    simp only [Node.preorderAll, List.mem_append] at hs
    exact ⟨h₁, h₂, hn, fun m hm => hs m (.inl hm), h.root n List.mem_cons_self, hns,
      fun m hm => hs m (.inr hm), fun m hm => h.root m (List.mem_cons_of_mem n hm)⟩
  · rintro ⟨h₁, h₂, hn, hs, hroot, hns⟩
    refine ⟨Node.wellNestedFrom_cons.mpr ⟨h₁, h₂, hn, hns.nested⟩, ?_,
      List.forall_mem_cons.mpr ⟨hroot, hns.root⟩⟩
    simp only [Node.preorderAll, List.mem_append]
    rintro m (hm | hm)
    · exact hs m hm
    · exact hns.settled m hm

theorem start_le (h : Row source a b ns) (hca : c ≤ a) : Row source c b ns := by
  cases ns with
  | nil => exact nil source c b
  | cons n ns =>
    obtain ⟨h₁, hrest⟩ := cons_iff.mp h
    exact cons_iff.mpr ⟨hca.trans h₁, hrest⟩

theorem le_stop (h : Row source a b ns) (hbd : b ≤ d) : Row source a d ns := by
  induction ns generalizing a with
  | nil => exact nil source a d
  | cons n ns ih =>
    obtain ⟨h₁, h₂, hn, hs, hroot, hns⟩ := cons_iff.mp h
    exact cons_iff.mpr ⟨h₁, h₂.trans hbd, hn, hs, hroot, ih hns⟩

theorem append (h : Row source a b ns) (h' : Row source c d ms) (hac : a ≤ c) (hbc : b ≤ c)
    (hbd : b ≤ d) : Row source a d (ns ++ ms) := by
  induction ns generalizing a with
  | nil => exact h'.start_le hac
  | cons n ns ih =>
    obtain ⟨h₁, h₂, hn, hs, hroot, hns⟩ := cons_iff.mp h
    exact cons_iff.mpr ⟨h₁, h₂.trans hbd, hn, hs, hroot, ih hns (h₂.trans hbc)⟩

theorem sublist (h : Row source a b ns) (hms : ms.Sublist ns) : Row source a b ms := by
  induction hms generalizing a with
  | slnil => exact h
  | cons n _ ih =>
    obtain ⟨h₁, -, hn, -, -, hns⟩ := cons_iff.mp h
    exact ih (hns.start_le (h₁.trans hn.start_le_stop))
  | cons_cons n _ ih =>
    obtain ⟨h₁, h₂, hn, hs, hroot, hns⟩ := cons_iff.mp h
    exact cons_iff.mpr ⟨h₁, h₂, hn, hs, hroot, ih hns⟩

/-- What is in a row is right, and lies between the offsets. -/
theorem of_mem (h : Row source a b ns) (hn : n ∈ ns) :
    n.WellNested ∧ (∀ m ∈ n.preorder, m.Settled source) ∧ a ≤ n.span.start ∧ n.span.stop ≤ b := by
  obtain ⟨hw, hi⟩ := h.nested.of_mem hn
  exact ⟨hw, fun m hm => h.settled m (Node.mem_preorderAll.mpr ⟨n, hn, hm⟩), hi.1, hi.2⟩

/-- The children of a node take its place in a row. -/
theorem children (h : Row source a b [n]) : Row source a b n.children := by
  obtain ⟨h₁, h₂, hn, hs, -, -⟩ := cons_iff.mp h
  have hrow : Row source n.span.start n.span.stop n.children := by
    refine ⟨hn.children_from, fun m hm => ?_, (hs n (Node.mem_preorder_self n)).root⟩
    obtain ⟨k, hk, hm⟩ := Node.mem_preorderAll.mp hm
    exact hs m (Node.mem_preorder_trans n (Node.mem_preorder_child hk) hm)
  exact (hrow.start_le h₁).le_stop h₂

theorem node {k : Kind} (h : Row source a b ns) (hk : k.isSolid = true) (ha : Begins source a)
    (hb : IsBoundary source b) (hab : a < b) (haccepts : k.Accepts source ns)
    (hlate : ∀ m ∈ ns, m.kind.isLate → k = .body ∨ a < m.span.start) :
    Row source a b [⟨k, ⟨a, b⟩, ns⟩] := by
  refine cons_iff.mpr ⟨le_rfl, le_rfl, ?_, fun m hm => ?_, ?_, nil source b b⟩
  · rw [Node.WellNested]
    exact ⟨hab.le, h.nested⟩
  · rw [Node.preorder] at hm
    rcases List.mem_cons.mp hm with rfl | hm
    · exact ⟨⟨ha.boundary, hb⟩, fun _ => ⟨hab, ha⟩, haccepts,
        fun m hm hl => .inr (hlate m hm hl), h.root⟩
    · exact h.settled m hm
  · rintro rfl
    cases hk

/-- A node alone makes a row from its start to its end. -/
theorem single (h : Row source a b [n]) : Row source n.span.start n.span.stop [n] := by
  obtain ⟨-, -, hn, hs, hroot, -⟩ := cons_iff.mp h
  exact cons_iff.mpr ⟨le_rfl, le_rfl, hn, hs, hroot, nil source _ _⟩

/-- In the place of a node stands another one of its span. -/
theorem rebuild {k : Kind} (h : Row source a b [n]) (hn : n.kind.isSolid = true)
    (hms : Row source n.span.start n.span.stop ms) (hk : k.isSolid = true)
    (haccepts : k.Accepts source ms)
    (hlate : ∀ m ∈ ms, m.kind.isLate → k = .body ∨ n.span.start < m.span.start) :
    Row source a b [⟨k, n.span, ms⟩] := by
  obtain ⟨h₁, h₂, -, hs, -, -⟩ := cons_iff.mp h
  have hself := hs n (Node.mem_preorder_self n)
  obtain ⟨hlt, hbegins⟩ := hself.solid hn
  exact ((hms.node hk hbegins hself.boundaries.2 hlt haccepts hlate).start_le h₁).le_stop h₂

/-- What a node says of each of its children that comes late. -/
theorem late_of_child (h : Row source a b [n]) (hn : n.kind.isPart = true) {m : Node}
    (hm : m ∈ n.children) (hl : m.kind.isLate = true) :
    n.span.start < m.span.start := by
  obtain ⟨-, -, -, hs, hroot, -⟩ := cons_iff.mp h
  rcases (hs n (Node.mem_preorder_self n)).late m hm hl with hprogram | hbody | hlt
  · exact absurd hprogram hroot
  · rw [hbody] at hn
    cases hn
  · exact hlt

theorem withKind {k : Kind} (h : Row source a b [n]) (hn : n.kind.isPart = true)
    (hk : k.isSolid = true) (haccepts : k.Accepts source n.children) :
    Row source a b [n.withKind k] := by
  refine h.rebuild (Kind.isPart_iff.mp hn).1 h.single.children hk haccepts fun m hm hl => ?_
  exact .inr (h.late_of_child hn hm hl)

theorem wrap {k : Kind} (h : Row source a b [n]) (hn : n.kind.isSolid = true)
    (hk : k.isSolid = true) (haccepts : k.Accepts source [n])
    (hlate : n.kind.isLate = true → k = .body) :
    Row source a b [⟨k, n.span, [n]⟩] :=
  h.rebuild hn h.single hk haccepts fun _ hm hl =>
    .inl (hlate (List.mem_singleton.mp hm ▸ hl))

theorem stretch (h : Row source a b [n]) (hn : n.kind.isSolid = true) (hbd : b ≤ d)
    (hd : IsBoundary source d) : Row source a d [⟨n.kind, ⟨n.span.start, d⟩, n.children⟩] := by
  obtain ⟨hstart, hstop, -, hs, hroot, -⟩ := cons_iff.mp h
  have hself := hs n (Node.mem_preorder_self n)
  obtain ⟨hlt, hbegins⟩ := hself.solid hn
  have hle := hstop.trans hbd
  refine ((h.single.children.le_stop hle).node hn hbegins hd (hlt.trans_le hle) hself.accepts
    fun m hm hl => ?_).start_le hstart
  rcases hself.late m hm hl with hprogram | hbody | hlt
  · exact absurd hprogram hroot
  · exact .inl hbody
  · exact .inr hlt

/-- The first node of a row gives way to another one of its span, and the others to others. -/
theorem replace {m : Node} (h : Row source a b (n :: ns)) (hspan : m.span = n.span)
    (hm : Row source n.span.start n.span.stop [n] → Row source n.span.start n.span.stop [m])
    (hms : ∀ a, Row source a b ns → Row source a b ms) : Row source a b (m :: ms) := by
  obtain ⟨h₁, h₂, hn, hs, hroot, hns⟩ := cons_iff.mp h
  have hone := hm (cons_iff.mpr ⟨le_rfl, le_rfl, hn, hs, hroot, nil source _ _⟩)
  obtain ⟨-, -, hn', hs', hroot', -⟩ := cons_iff.mp hone
  exact cons_iff.mpr ⟨hspan ▸ h₁, hspan ▸ h₂, hn', hs', hroot', hspan ▸ hms _ hns⟩

theorem asLabel (h : Row source a b [n]) : Row source a b [n.asLabel] := by
  unfold Node.asLabel
  split
  · rename_i name hk
    exact h.withKind (by rw [hk]; rfl) rfl trivial
  · exact h

end Row

namespace Node

@[simp] theorem span_asLabel (n : Node) : n.asLabel.span = n.span := by
  unfold asLabel
  split <;> rfl

@[simp] theorem isLate_asLabel (n : Node) : n.asLabel.kind.isLate = n.kind.isLate := by
  unfold asLabel
  split
  · rename_i name hk
    rw [hk]
    rfl
  · rfl

end Node

theorem Row.relabel {source : List Char} {a b : Nat} {n : Node} {ns ms : List Node}
    (h : Row source a b (ns ++ n :: ms)) : Row source a b (ns ++ n.asLabel :: ms) := by
  induction ns generalizing a with
  | nil => exact h.replace (Node.span_asLabel n) Row.asLabel fun _ => id
  | cons m ns ih =>
    obtain ⟨h₁, h₂, hm, hs, hroot, hns⟩ := cons_iff.mp h
    exact cons_iff.mpr ⟨h₁, h₂, hm, hs, hroot, ih hns⟩

namespace Node

structure Becomes (n m : Node) : Prop where
  span : m.span = n.span
  part : m.kind.isPart = true
  row : ∀ {source a b}, Row source a b [n] → Row source a b [m]

theorem isPart_of_isPlace {n : Node} (h : n.isPlace = true) : n.kind.isPart = true := by
  unfold isPlace at h
  split at h <;> first | rfl | cases h

theorem Becomes.place {n : Node} (h : n.isPlace = true) : n.Becomes n :=
  ⟨rfl, isPart_of_isPlace h, id⟩

theorem Becomes.parts {k k' : Kind} {span : Span} {ns ms : List Node}
    (hk : k.isSolid = true) (hk' : k'.isPart = true) (haccepts : ∀ source, k'.Accepts source ms)
    (hms : ∀ {source a b}, Row source a b ns → Row source a b ms)
    (hparts : ∀ m ∈ ms, m.kind.isPart = true) :
    Becomes ⟨k, span, ns⟩ ⟨k', span, ms⟩ := by
  refine ⟨rfl, hk', fun h => ?_⟩
  refine h.rebuild hk (hms h.single.children) (Kind.isPart_iff.mp hk').1 (haccepts _)
    fun m hm hl => ?_
  rw [(Kind.isPart_iff.mp (hparts m hm)).2] at hl
  cases hl

/-- Rows whose nodes become parts of a pattern, one by one. -/
theorem row_of_forall₂ {ns ms : List Node} (h : List.Forall₂ Becomes ns ms)
    {source : List Char} {a b : Nat} (hrow : Row source a b ns) : Row source a b ms := by
  induction h generalizing a with
  | nil => exact hrow
  | cons hnm _ ih => exact hrow.replace hnm.span hnm.row fun _ hns => ih hns

theorem parts_of_forall₂ {ns ms : List Node} (h : List.Forall₂ Becomes ns ms) :
    ∀ m ∈ ms, m.kind.isPart = true := by
  induction h with
  | nil => simp
  | cons hnm _ ih => exact List.forall_mem_cons.mpr ⟨hnm.part, ih⟩

theorem Becomes.pattern {k k' : Kind} {span : Span} {ns ms : List Node} (hk : k.isSolid = true)
    (hk' : k'.isPart = true) (haccepts : ∀ source, k'.Accepts source ms)
    (h : List.Forall₂ Becomes ns ms) :
    Becomes ⟨k, span, ns⟩ ⟨k', span, ms⟩ :=
  .parts hk hk' haccepts (row_of_forall₂ h) (parts_of_forall₂ h)

theorem Becomes.withKind {n : Node} {k : Kind} (hn : n.kind.isPart = true) (hk : k.isPart = true)
    (haccepts : ∀ source, k.Accepts source n.children) : n.Becomes (n.withKind k) :=
  ⟨rfl, hk, fun h => h.withKind hn (Kind.isPart_iff.mp hk).1 (haccepts _)⟩

/-- The property of a pattern: the key stays, perhaps as a fixed one. -/
theorem Becomes.keyed {form : PropertyForm} {span : Span} {key value n : Node}
    (h : value.Becomes n) : Becomes ⟨.property form, span, [key, value]⟩
      ⟨.patternProperty, span, [if form.computed then key else key.asLabel, n]⟩ := by
  refine ⟨rfl, rfl, fun hrow => ?_⟩
  refine hrow.rebuild rfl (hrow.single.children.replace ?_ ?_ fun a ha => ?_) rfl trivial ?_
  · split <;> simp
  · split
    · exact id
    · exact Row.asLabel
  · exact ha.replace h.span h.row fun _ => id
  · intro m hm hl
    rcases List.mem_cons.mp hm with rfl | hm
    · have hkey : key.kind.isLate = true := by
        revert hl
        split <;> simp
      have hlt := hrow.late_of_child rfl List.mem_cons_self hkey
      refine .inr ?_
      split <;> simpa using hlt
    · rw [List.mem_singleton.mp hm, (Kind.isPart_iff.mp h.part).2] at hl
      cases hl

mutual

theorem becomes_toTarget : (n : Node) → ∀ m, n.toTarget = some m → n.Becomes m
  | ⟨k, span, ns⟩, m, h => by
    unfold toTarget at h
    split at h
    · rename_i heq
      cases heq
      obtain ⟨ms, hms, rfl⟩ := Option.map_eq_some_iff.mp h
      exact .pattern rfl rfl (fun _ => trivial) (becomes_toTargets ns ms hms)
    · rename_i heq
      cases heq
      split at h
      · obtain ⟨ms, hms, rfl⟩ := Option.map_eq_some_iff.mp h
        exact .pattern rfl rfl (fun _ => trivial) (becomes_toTargets ns ms hms)
      · cases h
    · split at h
      · rename_i hplace
        cases h
        exact .place hplace
      · cases h
termination_by n => sizeOf n
decreasing_by all_goals simp only [mk.sizeOf_spec]; omega

theorem becomes_toPart : (n : Node) → ∀ m, n.toPart = some m → n.Becomes m
  | ⟨k, span, ns⟩, m, h => by
    unfold toPart at h
    split at h
    · rename_i heq
      cases heq
      cases h
      exact .withKind rfl rfl fun _ => trivial
    · rename_i inner heq
      cases heq
      obtain ⟨n, hn, rfl⟩ := Option.map_eq_some_iff.mp h
      exact .pattern rfl rfl (fun _ => trivial) (.cons (becomes_toTarget inner n hn) .nil)
    · rename_i heq
      cases heq
      cases h
      have hrenamed : Becomes ⟨.coverProperty, span, ns⟩ ⟨.defaulted, span, ns⟩ :=
        .withKind rfl rfl fun _ => trivial
      exact ⟨rfl, rfl, fun h =>
        (hrenamed.row h).wrap rfl rfl trivial
        (absurd · Bool.false_ne_true)⟩
    · rename_i name heq
      cases heq
      split at h
      · rename_i hplace
        cases h
        exact .pattern rfl rfl (fun _ => trivial) (.cons (.place hplace) .nil)
      · cases h
    · rename_i form key value heq
      cases heq
      split at h
      · cases h
      · obtain ⟨n, hn, rfl⟩ := Option.map_eq_some_iff.mp h
        exact .keyed (becomes_toPart value n hn)
    · rename_i heq
      cases heq
      obtain ⟨ms, hms, rfl⟩ := Option.map_eq_some_iff.mp h
      exact .pattern rfl rfl (fun _ => trivial) (becomes_toTargets ns ms hms)
    · rename_i heq
      cases heq
      split at h
      · obtain ⟨ms, hms, rfl⟩ := Option.map_eq_some_iff.mp h
        exact .pattern rfl rfl (fun _ => trivial) (becomes_toTargets ns ms hms)
      · cases h
    · split at h
      · rename_i hplace
        cases h
        exact .place hplace
      · cases h
termination_by n => sizeOf n
decreasing_by all_goals subst_vars; simp only [mk.sizeOf_spec, List.cons.sizeOf_spec]; omega

theorem becomes_toTargets : (ns : List Node) → ∀ ms, Node.toTargets ns = some ms →
    List.Forall₂ Becomes ns ms
  | [], ms, h => by
    rw [toTargets] at h
    cases h
    exact .nil
  | n :: ns, ms, h => by
    rw [toTargets] at h
    split at h
    · cases h
    · split at h
      · rename_i m ms' hm hms
        cases h
        exact .cons (becomes_toPart n m hm) (becomes_toTargets ns ms' hms)
      · cases h
termination_by ns => sizeOf ns
decreasing_by all_goals simp only [List.cons.sizeOf_spec]; omega

end

end Node

end EmberClasses.Script
