import EmberClasses.Proofs.CutSpans
import EmberClasses.Proofs.GapComments
import EmberClasses.Proofs.ParsedTrees
import EmberClasses.Proofs.SplicedText
import EmberClasses.Proofs.ThisBinders

/-! What the rewriting of its super calls makes of the body of a function. Whole calls are replaced,
or only the `this._super` in each; in an action a note stands before each statement that is the
innermost one around a super call. Everything else is left as it was. -/

namespace EmberClasses

open Script (Node Kind)

namespace Script.Node

/-- How statements are written: the bodies of functions are made of them, and no statement starts
where one inside it does. -/
structure Phrased (n : Node) : Prop where
  bodies : ∀ m ∈ n.preorder, m.kind = .body → ∀ s ∈ m.children, s.kind.isStatement
  starts : ∀ s ∈ n.preorder, s.kind.isStatement → ∀ t ∈ preorderAll s.children,
    t.kind.isStatement → s.span.start < t.span.start

instance (n : Node) : Decidable n.Phrased :=
  decidable_of_iff
    ((∀ m ∈ n.preorder, m.kind = .body → ∀ s ∈ m.children, s.kind.isStatement) ∧
      ∀ s ∈ n.preorder, s.kind.isStatement → ∀ t ∈ preorderAll s.children,
        t.kind.isStatement → s.span.start < t.span.start)
    ⟨fun h => ⟨h.1, h.2⟩, fun h => ⟨h.bodies, h.starts⟩⟩

/-- The innermost statement around a node. -/
structure Innermost (s n : Node) : Prop where
  statement : s.kind.isStatement
  around : n ∈ s.preorder
  least : ∀ t ∈ preorderAll s.children, t.kind.isStatement → n ∉ t.preorder

theorem not_mem_preorder_of_mem_preorderAll {m n : Node} (h : m ∈ preorderAll n.children) :
    n ∉ m.preorder := by
  intro hn
  obtain ⟨c, hc, hm⟩ := mem_preorderAll.mp h
  have hle := sizeOf_le_of_mem_preorder m hn
  have hle' := sizeOf_le_of_mem_preorder c hm
  have hlt := sizeOf_lt_of_child hc
  omega

theorem mem_preorder_iff {m n : Node} : m ∈ n.preorder ↔ m = n ∨ m ∈ preorderAll n.children := by
  rw [mem_preorder, mem_preorderAll]

theorem Phrased.of_mem {m n : Node} (h : n.Phrased) (hm : m ∈ n.preorder) : m.Phrased where
  bodies k hk := h.bodies k (mem_preorder_trans n hm hk)
  starts s hs := h.starts s (mem_preorder_trans n hm hs)

/-- What comes late in a node starts behind it, however far below it stands. -/
theorem start_lt_of_late {source : List Char} {t : Node} : (n : Node) → n.WellNested →
    (∀ m ∈ n.preorder, m.Settled source) → t ∈ preorderAll n.children → t.kind.isLate = true →
    n.kind = .program ∨ n.kind = .body ∨ n.span.start < t.span.start := by
  intro n hw hs ht hl
  have hself := hs n n.mem_preorder_self
  obtain ⟨c, hc, ht⟩ := mem_preorderAll.mp ht
  rcases mem_preorder_iff.mp ht with rfl | hbelow
  · exact hself.late _ hc hl
  · obtain ⟨hwc, hinside⟩ := hw.children_from.of_mem hc
    have hafter := (WellNested.of_mem c hwc ht).2.1
    have hsize := sizeOf_lt_of_child hc
    rcases start_lt_of_late c hwc
      (fun m hm => hs m (mem_preorder_trans n (mem_preorder_child hc) hm)) hbelow hl with
      hprogram | hbody | hlt
    · exact absurd hprogram (hself.root c hc)
    · exact (hself.late c hc (by rw [hbody]; rfl)).imp_right
        (Or.imp_right fun h => h.trans_le hafter)
    · exact .inr (.inr (hinside.1.trans_lt hlt))
termination_by n => sizeOf n

/-- Bodies are made of statements, and a statement starts before those inside it. -/
theorem phrased_of_parse {dialect : Dialect} {source : List Char} {script : Node}
    (h : parse dialect source = .ok script) : script.Phrased := by
  refine ⟨fun n hn hkind s hmem => ?_, fun s hs hk t ht hkt => ?_⟩
  · rcases settled_of_parse h hn with rfl | ⟨hsettled, -⟩
    · obtain ⟨stop, items, rfl, -, -⟩ := row_of_parse h
      cases hkind
    · have haccepts := hsettled.accepts
      rw [hkind] at haccepts
      exact haccepts s hmem
  · rcases settled_of_parse h hs with rfl | ⟨-, hsettled⟩
    · obtain ⟨stop, items, rfl, -, -⟩ := row_of_parse h
      cases hk
    · have hw := (formed_of_parse h).of_mem hs
      rcases start_lt_of_late s hw.nested hsettled ht (Kind.isLate_of_isStatement hkt) with
        hprogram | hbody | hlt
      · rw [hprogram] at hk
        cases hk
      · rw [hbody] at hk
        cases hk
      · exact hlt

/-- A node with a text has one innermost statement around it. -/
theorem Innermost.unique {a b : Nat} {ns : List Node} (hw : WellNestedFrom a b ns) {s t n : Node}
    (hs : s ∈ preorderAll ns) (ht : t ∈ preorderAll ns) (hn : n.span.start < n.span.stop)
    (h : s.Innermost n) (h' : t.Innermost n) : s = t := by
  have hin := (WellNested.of_mem s (hw.of_mem_preorderAll ns hs).1 h.around).2
  have hin' := (WellNested.of_mem t (hw.of_mem_preorderAll ns ht).1 h'.around).2
  rcases hw.apart_or_mem hs ht with hap | hmem | hmem
  · exact absurd (hap.mono hin) (hin'.not_apart hn)
  · rcases mem_preorder_iff.mp hmem with heq | hmem
    · exact heq
    · exact absurd h.around (h'.least s hmem h.statement)
  · rcases mem_preorder_iff.mp hmem with heq | hmem
    · exact heq.symm
    · exact absurd h'.around (h.least t hmem h'.statement)

theorem statements_ascending {n body : Node} (hn : n.Formed) (hp : n.Phrased)
    (hbody : body ∈ n.preorder) :
    ((preorderAll body.children).filter fun m => m.kind.isStatement).Pairwise
      fun s t => s.span.start < t.span.start := by
  have hfrom := (hn.of_mem hbody).nested.children_from
  refine (hfrom.preorderAll_pairwise.filter _).imp_of_mem fun {s t} hs ht hst => ?_
  obtain ⟨hs, hskind⟩ := List.mem_filter.mp hs
  obtain ⟨-, htkind⟩ := List.mem_filter.mp ht
  have hmem := mem_preorder_trans n hbody (mem_preorder_iff.mpr (.inr hs))
  rcases hst with hbefore | hbelow
  · have hsolid := hn.solid s hmem
      (by revert hskind; cases s.kind <;> simp [Kind.isStatement, Kind.isSolid])
    exact hsolid.trans_le hbefore
  · exact hp.starts s hmem hskind t hbelow htkind

theorem statement_eq_of_start {n body s t : Node} (hn : n.Formed) (hp : n.Phrased)
    (hbody : body ∈ n.preorder) (hs : s ∈ preorderAll body.children)
    (ht : t ∈ preorderAll body.children) (hskind : s.kind.isStatement)
    (htkind : t.kind.isStatement) (h : s.span.start = t.span.start) : s = t := by
  have hnodup := List.pairwise_map.mpr
    ((statements_ascending hn hp hbody).imp fun h => Nat.ne_of_lt h)
  exact List.inj_on_of_nodup_map hnodup (List.mem_filter.mpr ⟨hs, hskind⟩)
    (List.mem_filter.mpr ⟨ht, htkind⟩) h

end Script.Node

namespace SuperUse

/-- Where the super call of a node is recorded from: `outer` is the innermost statement around the
nodes `ns`, and `n` is one of them. -/
def Recorded (outer : Option Node) (ns : List Node) (c : SuperCall) (n : Node) : Prop :=
  (superCall? (outer.map fun s => s.span.start) n = some c ∧
    ∀ s ∈ ns, s.kind.isStatement → n ∉ s.preorder) ∨
  ∃ s ∈ ns, superCall? (some s.span.start) n = some c ∧ s.Innermost n

mutual

/-- A super call is recorded with the start of the innermost statement around it. -/
theorem below_recorded {c : SuperCall} : (n : Node) → ∀ {nested : Bool} {outer : Option Node}
    {claimed : Option Span}, n.Formed →
    c ∈ (below nested (outer.map fun s => s.span.start) claimed n).filterMap call? →
    ∃ m ∈ n.preorder, Recorded outer n.preorder c m
  | ⟨kind, span, children⟩, nested, outer, claimed, hn, hc => by
    have hinner : innermost (outer.map fun s => s.span.start) ⟨kind, span, children⟩ =
        (if kind.isStatement then some ⟨kind, span, children⟩ else outer).map
          fun s => s.span.start := by
      cases hk : kind.isStatement <;> simp [innermost, hk]
    rw [below_eq, hinner, List.filterMap_append, filterMap_own, List.mem_append] at hc
    rcases hc with hc | hc
    · -- A call is no statement, and stands in none below itself.
      have hcall : superCall? ((if kind.isStatement then some ⟨kind, span, children⟩ else
          outer).map fun s => s.span.start) ⟨kind, span, children⟩ = some c := by
        split at hc
        · cases hc
        · simpa using hc
      obtain ⟨rfl, -⟩ := superCall?_eq_some hcall
      refine ⟨_, Node.mem_preorder_self _, .inl ⟨hcall, fun s hs hk hmem => ?_⟩⟩
      rcases Node.mem_preorder_iff.mp hs with rfl | hs
      · cases hk
      · exact Node.not_mem_preorder_of_mem_preorderAll hs hmem
    · obtain ⟨m, hm, hrec⟩ := belowAll_recorded children hn.nested.children_from
        (fun l hl => hn.solid l (Node.mem_preorder_iff.mpr (.inr hl))) hc
      refine ⟨m, Node.mem_preorder_iff.mpr (.inr hm), ?_⟩
      rcases hrec with ⟨hcall, hbare⟩ | ⟨s, hs, hcall, hs'⟩
      · by_cases hk : kind.isStatement
        · rw [if_pos hk] at hcall
          exact .inr ⟨_, Node.mem_preorder_self _, hcall,
            ⟨hk, Node.mem_preorder_iff.mpr (.inr hm), hbare⟩⟩
        · rw [if_neg hk] at hcall
          refine .inl ⟨hcall, fun s hs hks => ?_⟩
          rcases Node.mem_preorder_iff.mp hs with rfl | hs
          · exact absurd hks hk
          · exact hbare s hs hks
      · exact .inr ⟨s, Node.mem_preorder_iff.mpr (.inr hs), hcall, hs'⟩

theorem belowAll_recorded {c : SuperCall} : (ns : List Node) → ∀ {a b : Nat} {nested : Bool}
    {outer : Option Node} {claimed : Option Span}, Node.WellNestedFrom a b ns →
    (∀ m ∈ Node.preorderAll ns, m.kind.isSolid → m.span.start < m.span.stop) →
    c ∈ (belowAll nested (outer.map fun s => s.span.start) claimed ns).filterMap call? →
    ∃ m ∈ Node.preorderAll ns, Recorded outer (Node.preorderAll ns) c m
  | [], _, _, _, _, _, _, _, hc => by simp [belowAll] at hc
  | n :: ns, a, b, nested, outer, claimed, hw, hsolid, hc => by
    obtain ⟨-, -, hn, hrest⟩ := Node.wellNestedFrom_cons.mp hw
    rw [Node.preorderAll] at hsolid ⊢
    rw [belowAll, List.filterMap_append, List.mem_append] at hc
    -- No node with a text stands both in the first of them and in another.
    have hapart {m : Node} (hm : m.kind = .call) (hfirst : m ∈ n.preorder) :
        m ∉ Node.preorderAll ns := by
      intro hother
      have hin := (Node.WellNested.of_mem n hn hfirst).2
      have hin' := (hrest.of_mem_preorderAll ns hother).2
      have hlt := hsolid m (List.mem_append_left _ hfirst) (by simp [hm, Kind.isSolid])
      simp only [Span.Inside] at hin hin'
      omega
    rcases hc with hc | hc
    · obtain ⟨m, hm, hrec⟩ := below_recorded n
        ⟨hn, fun l hl => hsolid l (List.mem_append_left _ hl)⟩ hc
      refine ⟨m, List.mem_append_left _ hm, ?_⟩
      rcases hrec with ⟨hcall, hbare⟩ | ⟨s, hs, hrec⟩
      · refine .inl ⟨hcall, fun s hs hk hmem => ?_⟩
        rcases List.mem_append.mp hs with hs | hs
        · exact hbare s hs hk hmem
        · exact hapart (superCall?_eq_some hcall).1 hm (Node.mem_preorderAll_trans ns hs hmem)
      · exact .inr ⟨s, List.mem_append_left _ hs, hrec⟩
    · obtain ⟨m, hm, hrec⟩ := belowAll_recorded ns hrest
        (fun l hl => hsolid l (List.mem_append_right _ hl)) hc
      refine ⟨m, List.mem_append_right _ hm, ?_⟩
      rcases hrec with ⟨hcall, hbare⟩ | ⟨s, hs, hrec⟩
      · refine .inl ⟨hcall, fun s hs hk hmem => ?_⟩
        rcases List.mem_append.mp hs with hs | hs
        · exact hapart (superCall?_eq_some hcall).1 (Node.mem_preorder_trans n hs hmem) hm
        · exact hbare s hs hk hmem
      · exact .inr ⟨s, List.mem_append_right _ hs, hrec⟩

end

end SuperUse

namespace Comment

open Text

theorem scan_pad {source pad : List Char} (h : ∀ c ∈ pad, isIndent c = true) (n : Nat)
    (cs : List Char) :
    scan source .between n (pad ++ cs) = scan source .between (n + byteLength pad) cs := by
  induction pad generalizing n with
  | nil => rfl
  | cons c pad ih =>
    obtain ⟨hc, hpad⟩ := List.forall_mem_cons.mp h
    have hfiller : (Part.filler c).Proper := by
      simp only [isIndent, Bool.or_eq_true, beq_iff_eq] at hc
      rcases hc with rfl | rfl <;> decide
    rw [List.cons_append, scan_filler hfiller, ih hpad, byteLength_cons, Nat.add_assoc]

/-- Line comments, each with a line feed and the indentation of the next line behind it, are read
without anything of what follows. -/
theorem scan_lines {source pad : List Char} (hpad : ∀ c ∈ pad, isIndent c = true)
    {lines : List String}
    (h : ∀ line ∈ lines, ['/', '/'] <+: line.toList ∧ '\n' ∉ line.toList ∧
      trimEnd line.toList = line.toList) (n : Nat) (cs : List Char) :
    let text := lines.flatMap fun line => line.toList ++ '\n' :: pad
    scan source .between n (text ++ cs) =
      lines.map String.toList ++ scan source .between (n + byteLength text) cs := by
  induction lines generalizing n with
  | nil => rfl
  | cons line lines ih =>
    obtain ⟨⟨⟨body, hbody⟩, hfeed, htrim⟩, hlines⟩ := List.forall_mem_cons.mp h
    have hproper : (Part.line body).Proper := by
      rw [← hbody] at hfeed
      intro hmem
      exact hfeed (List.mem_append_right _ hmem)
    have hread (rest : List Char) : scan source .between n (line.toList ++ '\n' :: (pad ++ rest)) =
        line.toList ::
          scan source .between (n + byteLength (line.toList ++ '\n' :: pad)) rest := by
      have hnot : ¬ ['/', '*', '/'] <+: (Part.line body).text := by simp [Part.text]
      have htext : (Part.line body).text = line.toList := hbody
      have hends : (Part.line body).EndsBefore ('\n' :: (pad ++ rest)) := Or.inr rfl
      have hpart := @scan_part source _ _ hproper hends hnot n
      rw [htext, Part.comment?, htext, htrim, Option.toList_some, List.singleton_append] at hpart
      have hfeed : (Part.filler '\n').Proper := by decide
      rw [hpart, scan_filler hfeed, scan_pad hpad, byteLength_append, byteLength_cons]
      simp only [Nat.add_assoc]
    dsimp only at ih ⊢
    rw [List.flatMap_cons, List.append_assoc, List.append_assoc, List.cons_append, hread, ih hlines]
    simp only [List.map_cons, List.cons_append, byteLength_append, Nat.add_assoc]

end Comment

namespace Callable

variable {n : Node} {f : Callable}

/-- Two super calls in the body of a function with the same span are the same node. -/
theorem superCall_node_unique (hn : n.Formed) {body k l : Node} (hbody : body? n = some body)
    (hk : k ∈ Node.preorderAll body.children) (hl : l ∈ Node.preorderAll body.children)
    (hkcall : SuperUse.isSuperCall k) (hlcall : SuperUse.isSuperCall l) (h : k.span = l.span) :
    k = l := by
  have hsite {m : Node} (hm : m ∈ Node.preorderAll body.children)
      (hcall : SuperUse.isSuperCall m) : ∃ binders, (m, binders) ∈ superSites n := by
    have hmap : (ThisBinder.withinAll .body false [] body.children).map Prod.fst =
        Node.preorderAll body.children := ThisBinder.map_fst_withinAll body.children
    rw [← hmap] at hm
    obtain ⟨site, hsite, rfl⟩ := List.mem_map.mp hm
    refine ⟨site.2, ?_⟩
    rw [superSites, hbody]
    exact List.mem_filter.mpr ⟨hsite, hcall⟩
  obtain ⟨_, hk⟩ := hsite hk hkcall
  obtain ⟨_, hl⟩ := hsite hl hlcall
  exact congrArg Prod.fst (List.inj_on_of_nodup_map (superSites_nodup hn) hk hl h)

theorem isSuperCall_of_superCall? {statement : Option Nat} {k : Node} {c : SuperCall}
    (h : SuperUse.superCall? statement k = some c) : SuperUse.isSuperCall k = true := by
  have hmap := SuperUse.map_call_superCall? statement k
  by_contra hno
  rw [h, if_neg hno] at hmap
  cases hmap

/-- Each super call of a function has its node in the body, and an innermost statement around it. -/
theorem recorded_of_superCall {body : Node} (hn : n.Formed) (hp : n.Phrased)
    (hbody : body? n = some body)
    (hcalls : f.superCalls =
      (SuperUse.belowAll false none none body.children).filterMap SuperUse.call?) :
    ∀ c ∈ f.superCalls, ∃ k ∈ Node.preorderAll body.children,
      ∃ s ∈ Node.preorderAll body.children,
        SuperUse.superCall? (some s.span.start) k = some c ∧ s.Innermost k := by
  intro c hc
  have hchild : body ∈ n.children := List.mem_of_find?_eq_some hbody
  have hkind : body.kind = .body := by simpa using List.find?_some hbody
  have hformed := hn.child hchild
  rw [hcalls] at hc
  obtain ⟨k, hk, hrec⟩ := @SuperUse.belowAll_recorded c body.children _ _ _ none _
    hformed.nested.children_from
    (fun m hm => hformed.solid m (Node.mem_preorder_iff.mpr (.inr hm))) hc
  rcases hrec with ⟨-, hbare⟩ | ⟨s, hs, hcall, hs'⟩
  · obtain ⟨s, hs, hks⟩ := Node.mem_preorderAll.mp hk
    have hstatement := hp.bodies body (Node.mem_preorder_child hchild) hkind s hs
    exact absurd hks
      (hbare s (Node.mem_preorderAll.mpr ⟨s, hs, Node.mem_preorder_self s⟩) hstatement)
  · exact ⟨k, hk, s, hs, hcall, hs'⟩

/-- The start that a super call is recorded with tells the innermost statement around it. -/
theorem innermost_iff_start {body : Node} (hn : n.Formed) (hp : n.Phrased)
    (hbody : body? n = some body)
    (hcalls : f.superCalls =
      (SuperUse.belowAll false none none body.children).filterMap SuperUse.call?)
    {c : SuperCall} (hc : c ∈ f.superCalls) {s : Node} (hs : s ∈ Node.preorderAll body.children) :
    (∃ k ∈ Node.preorderAll body.children, SuperUse.isSuperCall k ∧ k.span = c.call ∧
      s.Innermost k) ↔ s.kind.isStatement ∧ s.span.start = c.statement := by
  have hchild := List.mem_of_find?_eq_some hbody
  obtain ⟨k, hk, t, ht, hcall, hinner⟩ := recorded_of_superCall hn hp hbody hcalls c hc
  obtain ⟨hkind, hspan, hstart, -⟩ := SuperUse.superCall?_eq_some hcall
  have hkcall := isSuperCall_of_superCall? hcall
  constructor
  · rintro ⟨l, hl, hlcall, hlspan, hinner'⟩
    obtain rfl : l = k :=
      superCall_node_unique hn hbody hl hk hlcall hkcall (hlspan.trans hspan.symm)
    have hsolid := (hn.child hchild).solid l (Node.mem_preorder_iff.mpr (.inr hl))
      (by simp [hkind, Kind.isSolid])
    obtain rfl := hinner'.unique (hn.child hchild).nested.children_from hs ht hsolid hinner
    exact ⟨hinner'.statement, hstart.symm⟩
  · rintro ⟨hskind, hsstart⟩
    obtain rfl : s = t := Node.statement_eq_of_start hn hp (Node.mem_preorder_child hchild) hs ht
      hskind hinner.statement (hsstart.trans hstart)
    exact ⟨k, hk, hkcall, hspan, hinner⟩

end Callable

namespace Member

/-- Makes a super call one of the method `name` of the parent class. -/
def calleeEdit (name : String) (c : SuperCall) : Edit := ⟨c.callee, ("super." ++ name).toList⟩

theorem superEdits_eq_map (source : List Char) (name : String) (noted : List Nat)
    (calls : List SuperCall) :
    superEdits source name false noted calls = calls.map (calleeEdit name) := by
  induction calls generalizing noted with
  | nil => rfl
  | cons c cs ih => exact congrArg (calleeEdit name c :: ·) (ih noted)

/-- In an action there is one note for each statement that none has been put before. -/
theorem superEdits_perm (source : List Char) (name : String) (noted : List Nat)
    (calls : List SuperCall) :
    ∃ starts : List Nat, starts.Nodup ∧
      (∀ n, n ∈ starts ↔ n ∉ noted ∧ n ∈ calls.map SuperCall.statement) ∧
      (superEdits source name true noted calls).Perm
        (calls.map (calleeEdit name) ++ starts.map (noteEdit source)) := by
  induction calls generalizing noted with
  | nil => exact ⟨[], .nil, by simp, .nil⟩
  | cons c cs ih =>
    by_cases hnoted : c.statement ∈ noted
    · obtain ⟨starts, hnodup, hmem, hperm⟩ := ih noted
      refine ⟨starts, hnodup, fun n => ?_, ?_⟩
      · rw [hmem, List.map_cons, List.mem_cons]
        constructor
        · rintro ⟨hn, hc⟩
          exact ⟨hn, .inr hc⟩
        · rintro ⟨hn, rfl | hc⟩
          · exact absurd hnoted hn
          · exact ⟨hn, hc⟩
      · rw [superEdits, if_neg (by simpa using hnoted)]
        exact hperm.cons (calleeEdit name c)
    · obtain ⟨starts, hnodup, hmem, hperm⟩ := ih (noted ++ [c.statement])
      have hfresh : c.statement ∉ starts := by simp [hmem]
      refine ⟨c.statement :: starts, List.nodup_cons.mpr ⟨hfresh, hnodup⟩, fun n => ?_, ?_⟩
      · rw [List.mem_cons, hmem, List.map_cons, List.mem_cons]
        by_cases hn : n = c.statement
        · simp [hn, hnoted]
        · simp [hn]
      · rw [superEdits, if_pos (by simpa using hnoted)]
        exact (List.Perm.cons _ ((hperm.cons _).trans List.perm_middle.symm))

theorem noteEdit_scan (source : List Char) (offset n : Nat) (cs : List Char) :
    Comment.scan source .between n ((noteEdit source offset).text ++ cs) =
      actionNote.map String.toList ++
        Comment.scan source .between (n + Text.byteLength (noteEdit source offset).text) cs := by
  apply Comment.scan_lines
  · intro c hc
    exact List.mem_takeWhile_imp hc
  · decide

/-- The notes of an action stand before the innermost statements around its super calls, one before
each. -/
theorem superEdits_statements {n body : Node} {f : Callable} (hn : n.Formed) (hp : n.Phrased)
    (hbody : Callable.body? n = some body)
    (hcalls : f.superCalls =
      (SuperUse.belowAll false none none body.children).filterMap SuperUse.call?)
    (source : List Char) (name : String) :
    ∃ statements : List Node,
      statements.Pairwise (fun s t => s.span.start < t.span.start) ∧
      (∀ s, s ∈ statements ↔ s ∈ Node.preorderAll body.children ∧
        ∃ k ∈ Node.preorderAll body.children, SuperUse.isSuperCall k ∧
          k.span ∈ f.superCalls.map SuperCall.call ∧ s.Innermost k) ∧
      (superEdits source name true [] f.superCalls).Perm
        (f.superCalls.map (calleeEdit name) ++
          statements.map fun s => noteEdit source s.span.start) := by
  have hrecorded := Callable.recorded_of_superCall hn hp hbody hcalls
  have hinner {c : SuperCall} (hc : c ∈ f.superCalls) {s : Node}
      (hs : s ∈ Node.preorderAll body.children) :=
    Callable.innermost_iff_start hn hp hbody hcalls hc hs
  obtain ⟨starts, hnodup, hstarts, hperm⟩ := superEdits_perm source name [] f.superCalls
  let statements := ((Node.preorderAll body.children).filter fun s => s.kind.isStatement).filter
    fun s => decide (s.span.start ∈ starts)
  have hstatements (s : Node) : s ∈ statements ↔
      (s ∈ Node.preorderAll body.children ∧ s.kind.isStatement) ∧
        ∃ c ∈ f.superCalls, c.statement = s.span.start := by
    simp only [statements, List.mem_filter, decide_eq_true_eq, hstarts, List.mem_map,
      List.not_mem_nil, not_false_eq_true, true_and]
  have hascending : statements.Pairwise fun s t => s.span.start < t.span.start :=
    (Node.statements_ascending hn hp
      (Node.mem_preorder_child (List.mem_of_find?_eq_some hbody))).filter _
  refine ⟨statements, hascending, fun s => ?_, hperm.trans (List.Perm.append_left _ ?_)⟩
  · rw [hstatements]
    constructor
    · rintro ⟨⟨hs, hkind⟩, c, hc, hstart⟩
      obtain ⟨k, hk, hcall, hspan, hkinner⟩ := (hinner hc hs).mpr ⟨hkind, hstart.symm⟩
      exact ⟨hs, k, hk, hcall, List.mem_map.mpr ⟨c, hc, hspan.symm⟩, hkinner⟩
    · rintro ⟨hs, k, hk, hcall, hspan, hkinner⟩
      obtain ⟨c, hc, hspan⟩ := List.mem_map.mp hspan
      obtain ⟨hkind, hstart⟩ := (hinner hc hs).mp ⟨k, hk, hcall, hspan.symm, hkinner⟩
      exact ⟨⟨hs, hkind⟩, c, hc, hstart.symm⟩
  · have hsame : starts.Perm (statements.map fun s => s.span.start) := by
      rw [List.perm_ext_iff_of_nodup hnodup
        (List.pairwise_map.mpr (hascending.imp fun h => Nat.ne_of_lt h))]
      intro n
      rw [hstarts, List.mem_map, List.mem_map]
      constructor
      · rintro ⟨-, c, hc, rfl⟩
        obtain ⟨k, hk, s, hs, hcall, hkinner⟩ := hrecorded c hc
        have hstart : c.statement = s.span.start := (SuperUse.superCall?_eq_some hcall).2.2.1
        exact ⟨s, (hstatements s).mpr ⟨⟨hs, hkinner.statement⟩, c, hc, hstart⟩, hstart.symm⟩
      · rintro ⟨s, hs, rfl⟩
        exact ⟨List.not_mem_nil, ((hstatements s).mp hs).2⟩
    have hnotes := hsame.map (noteEdit source)
    rwa [List.map_map] at hnotes

/-- The edits of an action can be listed by what they do: all replacements, then all notes. -/
theorem spliced_superEdits {f : Callable} (hf : f.Orderly) {source : List Char} {name : String}
    {statements : List Node}
    (hstatements : statements.Pairwise fun s t => s.span.start < t.span.start)
    (hperm : (superEdits source name true [] f.superCalls).Perm
      (f.superCalls.map (calleeEdit name) ++
        statements.map fun s => noteEdit source s.span.start)) (n : Nat) (cs : List Char) :
    Edit.spliced (bodyEdits source name (.parent true) f) n cs =
      Edit.spliced (f.superCalls.map (calleeEdit name) ++
        statements.map fun s => noteEdit source s.span.start) n cs := by
  have hdistinct : (f.superCalls.map (calleeEdit name) ++
      statements.map fun s => noteEdit source s.span.start).Pairwise
        fun a b => a.span ≠ b.span := by
    rw [List.pairwise_append, List.pairwise_map, List.pairwise_map]
    refine ⟨?_, ?_, fun a ha b hb => ?_⟩
    · refine hf.callee_ordered.imp_of_mem fun {c d} hc _ hcd heq => ?_
      have hsolid := hf.solid c hc
      rw [Span.Before, ← show c.callee = d.callee from heq] at hcd
      omega
    · refine hstatements.imp fun {s t} hst heq => ?_
      exact Nat.ne_of_lt hst (Span.mk.inj heq).1
    · obtain ⟨c, hc, rfl⟩ := List.mem_map.mp ha
      obtain ⟨s, -, rfl⟩ := List.mem_map.mp hb
      intro heq
      have hsolid := hf.solid c hc
      rw [show c.callee = .point s.span.start from heq] at hsolid
      exact Nat.lt_irrefl _ hsolid
  exact Edit.spliced_perm hperm (bodyEdits_apart hf source name (.parent true))
    ((hperm.pairwise_iff Ne.symm).mpr hdistinct) n cs

/-- What stands behind the `this._super` of a super call. -/
theorem superCall_parts {k : Node} (hk : k.Formed) {statement : Option Nat} {c : SuperCall}
    (h : SuperUse.superCall? statement k = some c) :
    ∃ callee args, k.children = callee :: args ∧ SuperUse.callee? callee = some c.callee ∧
      ∀ a ∈ args, c.callee.Before a.span := by
  obtain ⟨-, -, -, callee, args, hchildren, hcallee⟩ := SuperUse.superCall?_eq_some h
  refine ⟨callee, args, hchildren, hcallee, fun a ha => ?_⟩
  have hfrom := hk.nested.children_from
  rw [hchildren] at hfrom
  obtain ⟨-, -, hwell, hrest⟩ := Node.wellNestedFrom_cons.mp hfrom
  obtain ⟨⟨m, hm, -, hspan⟩, -⟩ := SuperUse.callee?_eq_some hcallee
  rw [← hspan]
  exact (Node.WellNested.of_mem callee hwell hm).2.2.trans (hrest.of_mem ha).2.1

/-- The body of a function can always be rewritten, and nothing but its super calls changes. Where
they come to nothing, `undefined` takes the place of each outermost one, which are apart and hold
all others. Where they call the parent class, `super.name` takes the place of each `this._super`. In
an action a note is put in as well, at the start of each statement that is the innermost one around
a super call; it ends with its line, so no code becomes part of it. -/
theorem body_rewritten (c : Copy) {n : Node} {f : Callable} (hn : n.Formed) (hp : n.Phrased)
    (hsource : ∀ m ∈ n.preorder, m.span.OnBoundaries c.source)
    (hf : Callable.ofFunction? n = some f) (columns : Nat) (name : String) :
    let gives (rule : SuperRule) (edits : List Edit) : Prop :=
      ∃ out, classBody c columns name rule f = .ok out ∧
        out.text = Fragment.dedentLines columns out.isVerbatim
          (Edit.spliced edits f.body.start (Text.slice c.source f.body))
    let callees := f.superCalls.map fun s => ⟨s.callee, ("super." ++ name).toList⟩
    ∃ body, Callable.body? n = some body ∧ f.body = body.span ∧ ∃ statements : List Node,
      let nodes := Node.preorderAll body.children
      let notes := statements.map fun s => noteEdit c.source s.span.start
      (gives .undefined (f.outermost.map fun s => ⟨s.call, "undefined".toList⟩) ∧
        f.outermost.Pairwise (fun s t => s.call.Apart t.call) ∧
        ∀ s ∈ f.superCalls, ∃ o ∈ f.outermost, s.call.Inside o.call) ∧
      (gives (.parent false) callees ∧
        ∀ s ∈ f.superCalls, ∃ k ∈ nodes, k.span = s.call ∧ ∃ callee args,
          k.children = callee :: args ∧ SuperUse.callee? callee = some s.callee ∧
            ∀ a ∈ args, s.callee.Before a.span) ∧
      gives (.parent true) (callees ++ notes) ∧ statements.Nodup ∧
      (∀ s, s ∈ statements ↔ s ∈ nodes ∧ ∃ k ∈ nodes, SuperUse.isSuperCall k ∧
        k.span ∈ f.superCalls.map SuperCall.call ∧ s.Innermost k) ∧
      ∀ note ∈ notes, ∀ offset rest,
        Comment.scan c.source .between offset (note.text ++ rest) =
          actionNote.map String.toList ++
            Comment.scan c.source .between (offset + Text.byteLength note.text) rest := by
  intro gives callees
  obtain ⟨body, hbody, hspan, hcalls, -⟩ := Callable.body?_of_ofFunction? hf
  have hchild : body ∈ n.children := List.mem_of_find?_eq_some hbody
  have hbodyMem := Node.mem_preorder_child hchild
  have horderly := Callable.orderly_of_ofFunction? hn hf
  have hread : f.ReadFrom n := ⟨n, Node.mem_preorder_self n, hf⟩
  have hgives (rule : SuperRule) : gives rule (bodyEdits c.source name rule f) := by
    obtain ⟨out, hout⟩ := classBody_ok c columns name rule horderly
    have hle := (hn.child hchild).nested.start_le_stop
    have hbounds := hsource body hbodyMem
    rw [← hspan] at hle hbounds
    refine ⟨out, hout, Fragment.text_of_cut hle hbounds.1 (fun e he => ?_)
      (Copy.edited_eq_ok hout)⟩
    exact ⟨(bodyEdits_inside horderly c.source name rule e he).1,
      hread.bodyEdits_on_boundaries hsource name rule e he⟩
  obtain ⟨statements, hascending, hmem, hperm⟩ :=
    superEdits_statements hn hp hbody hcalls c.source name
  have hkept : bodyEdits c.source name (.parent false) f = callees :=
    superEdits_eq_map c.source name [] f.superCalls
  refine ⟨body, hbody, hspan, statements, ?_, ?_, ?_, ?_, hmem, ?_⟩
  · exact ⟨hgives .undefined, horderly.outermost_apart, fun s hs => horderly.inside_outermost hs⟩
  · refine ⟨hkept ▸ hgives (.parent false), fun s hs => ?_⟩
    obtain ⟨k, hk, t, -, hcall, -⟩ := Callable.recorded_of_superCall hn hp hbody hcalls s hs
    have hformed := (hn.child hchild).of_mem (Node.mem_preorder_iff.mpr (.inr hk))
    exact ⟨k, hk, (SuperUse.superCall?_eq_some hcall).2.1, superCall_parts hformed hcall⟩
  · obtain ⟨out, hout, htext⟩ := hgives (.parent true)
    rw [spliced_superEdits horderly hascending hperm] at htext
    exact ⟨out, hout, htext⟩
  · exact hascending.imp fun h heq => by rw [heq] at h; exact Nat.lt_irrefl _ h
  · intro note hnote offset rest
    obtain ⟨s, -, rfl⟩ := List.mem_map.mp hnote
    exact noteEdit_scan c.source s.span.start offset rest

/-- A function with a super call in an arrow function, in the arguments of another one, and with a
super call that goes through `apply`. -/
def arrowSuperText : List Char :=
  "function b() \x7b this._super(() => this._super(1)); this._super.apply(this); \x7d".toList

theorem body_rewritten_around_arrow :
    let c : Copy := ⟨arrowSuperText, [], .single⟩
    ∃ n f, n.Formed ∧ n.Phrased ∧ (∀ m ∈ n.preorder, m.span.OnBoundaries c.source) ∧
      Callable.ofFunction? n = some f ∧
      (∃ out, classBody c 0 "b" .undefined f = .ok out ∧
        out.text = "\x7b undefined; undefined; \x7d".toList) ∧
      (∃ out, classBody c 0 "b" (.parent false) f = .ok out ∧
        out.text = "\x7b super.b(() => super.b(1)); super.b.apply(this); \x7d".toList) ∧
      ∃ out, classBody c 0 "b" (.parent true) f = .ok out := by
  intro c
  have h : ((Script.parse ⟨false⟩ arrowSuperText).toOption.any fun script =>
      script.children.any fun n => (Callable.ofFunction? n).any fun f =>
        Edit.spliced (f.outermost.map fun s => ⟨s.call, "undefined".toList⟩) f.body.start
            (Text.slice c.source f.body) == "\x7b undefined; undefined; \x7d".toList &&
          Edit.spliced (f.superCalls.map fun s => ⟨s.callee, ("super." ++ "b").toList⟩) f.body.start
              (Text.slice c.source f.body) ==
            "\x7b super.b(() => super.b(1)); super.b.apply(this); \x7d".toList) = true := by
    decide +kernel
  simp only [Option.any_eq_true, Except.toOption_eq_some_iff, Bool.and_eq_true, beq_iff_eq,
    List.any_eq_true] at h
  obtain ⟨script, hparse, n, hchild, f, hf, hundefined, hkept⟩ := h
  have hmem := Node.mem_preorder_child hchild
  have hn := (Script.formed_of_parse hparse).of_mem hmem
  have hp := (Script.Node.phrased_of_parse hparse).of_mem hmem
  have hsource : ∀ m ∈ n.preorder, m.span.OnBoundaries c.source := fun m hm =>
    (Script.faithful_of_parse hparse).boundaries m (Node.mem_preorder_trans script hmem hm)
  obtain
    ⟨-, -, -, -, ⟨⟨out, hout, htext⟩, -, -⟩, ⟨⟨out', hout', htext'⟩, -⟩, ⟨out'', hout'', -⟩, -⟩ :=
    body_rewritten c hn hp hsource hf 0 "b"
  rw [Fragment.dedentLines_zero] at htext htext'
  exact ⟨n, f, hn, hp, hsource, hf, ⟨out, hout, htext.trans hundefined⟩,
    ⟨out', hout', htext'.trans hkept⟩, out'', hout''⟩

end Member

end EmberClasses
