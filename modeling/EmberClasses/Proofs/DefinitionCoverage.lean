import EmberClasses.Proofs.ClassBuild
import EmberClasses.Proofs.DefinitionWalk
import EmberClasses.Script.Parse

/-! Which definitions a walk hands out: all calls of the right form that no class extends, except
those inside a definition that was replaced, in the order of the source and up to the first failure.
The walk is described by a record that the one who decides keeps of the questions asked. -/

namespace EmberClasses.Definition

open Script (Node Kind)

/-- A definition that was handed out and the answer, which is missing where the walk failed. -/
abbrev Handed := Definition × Option Bool

def recorded {σ ε : Type} (decide : Definition → σ → Except ε (Bool × σ)) (d : Definition) :
    σ × List Handed → Except (ε × List Handed) (Bool × (σ × List Handed))
  | (s, log) =>
    match decide d s with
    | .error e => .error (e, log ++ [(d, none)])
    | .ok (b, t) => .ok (b, t, log ++ [(d, some b)])

abbrev Recording (σ ε : Type) := σ × List Handed → Except (ε × List Handed) (σ × List Handed)

inductive Logs : List Entry → List Handed → Prop where
  | done : Logs [] []
  | stop {site n d agenda} : at? site n = some d → Logs ((site, n) :: agenda) [(d, none)]
  | pass {site n agenda log} : at? site n = none →
      Logs (below site n ++ agenda) log → Logs ((site, n) :: agenda) log
  | replace {site n d agenda log} : at? site n = some d →
      Logs agenda log → Logs ((site, n) :: agenda) ((d, some true) :: log)
  | keep {site n d agenda log} : at? site n = some d →
      Logs (below site n ++ agenda) log → Logs ((site, n) :: agenda) ((d, some false) :: log)

section Record

variable {σ ε : Type} {decide : Definition → σ → Except ε (Bool × σ)}

structure Through (front : List Entry) (s t : σ) (log : List Handed) (run : Recording σ ε) :
    Prop where
  answered : ∀ a ∈ log, a.2.isSome
  runs : ∀ before, run (s, before) = .ok (t, before ++ log)
  logs : ∀ agenda rest, Logs agenda rest → Logs (front ++ agenda) (log ++ rest)

/-- A walk over the front of an agenda that fails at a definition. -/
structure Stopped (decide : Definition → σ → Except ε (Bool × σ)) (front : List Entry) (s : σ)
    (e : ε) (log : List Handed) (run : Recording σ ε) : Prop where
  failed : ∃ answered d u, log = answered ++ [(d, none)] ∧ (∀ a ∈ answered, a.2.isSome) ∧
    decide d u = .error e
  runs : ∀ before, run (s, before) = .error (e, before ++ log)
  logs : ∀ agenda, Logs (front ++ agenda) log

def Outcome (decide : Definition → σ → Except ε (Bool × σ)) (front : List Entry) (s : σ)
    (run : Recording σ ε) : Except ε σ → Prop
  | .ok t => ∃ log, Through front s t log run
  | .error e => ∃ log, Stopped decide front s e log run

/-- A walk goes on where one that left `log` has ended. -/
theorem Outcome.after {front front' : List Entry} {s t : σ} {result : Except ε σ}
    {run run' : Recording σ ε} (h : Outcome decide front t run result) (log : List Handed)
    (hanswered : ∀ a ∈ log, a.2.isSome)
    (hruns : ∀ before, run' (s, before) = run (t, before ++ log))
    (hlogs : ∀ agenda rest, Logs (front ++ agenda) rest → Logs (front' ++ agenda) (log ++ rest)) :
    Outcome decide front' s run' result := by
  cases result with
  | ok u =>
    obtain ⟨later, hlater⟩ := h
    refine ⟨log ++ later, fun a ha => ?_, fun before => ?_, fun agenda rest hrest => ?_⟩
    · exact (List.mem_append.mp ha).elim (hanswered a) (hlater.answered a)
    · rw [hruns, hlater.runs, List.append_assoc]
    · rw [List.append_assoc]
      exact hlogs agenda _ (hlater.logs agenda rest hrest)
  | error e =>
    obtain ⟨later, hlater⟩ := h
    obtain ⟨answered, d, u, rfl, hsome, hd⟩ := hlater.failed
    refine ⟨log ++ (answered ++ [(d, none)]), ⟨log ++ answered, d, u, ?_, fun a ha => ?_, hd⟩,
      fun before => ?_, fun agenda => hlogs agenda _ (hlater.logs agenda)⟩
    · rw [List.append_assoc]
    · exact (List.mem_append.mp ha).elim (hanswered a) (hsome a)
    · rw [hruns, hlater.runs, List.append_assoc]

mutual

theorem visit_outcome : (n : Node) → ∀ (site : Site) (s : σ),
    Outcome decide [(site, n)] s (visit (recorded decide) site n) (visit decide site n s)
  | ⟨kind, span, children⟩, site, s => by
    have hbelow := visitAll_outcome children (childSite site ⟨kind, span, children⟩) 0
    rw [visit]
    dsimp only
    cases hd : at? site ⟨kind, span, children⟩ with
    | none =>
      refine (hbelow s).after [] (by simp) (fun before => ?_)
        (fun agenda rest hrest => .pass hd hrest)
      rw [visit]
      simp only [hd, List.append_nil]
    | some d =>
      dsimp only
      cases hs : decide d s with
      | error e =>
        refine ⟨[(d, none)], ⟨[], d, s, rfl, by simp, hs⟩, fun before => ?_, fun agenda => .stop hd⟩
        rw [visit]
        simp only [hd, recorded, hs]
      | ok r =>
        obtain ⟨b, t⟩ := r
        cases b with
        | true =>
          refine ⟨[(d, some true)], by simp, fun before => ?_,
            fun agenda rest hrest => .replace hd hrest⟩
          rw [visit]
          simp only [hd, recorded, hs]
        | false =>
          refine (hbelow t).after [(d, some false)] (by simp) (fun before => ?_)
            (fun agenda rest hrest => .keep hd hrest)
          rw [visit]
          simp only [hd, recorded, hs]

theorem visitAll_outcome : (ns : List Node) → ∀ (siteOf : Nat → Site) (i : Nat) (s : σ),
    Outcome decide (entries siteOf i ns) s (visitAll (recorded decide) siteOf i ns)
      (visitAll decide siteOf i ns s)
  | [], siteOf, i, s => by
    rw [visitAll]
    refine ⟨[], by simp, fun before => ?_, fun agenda rest hrest => hrest⟩
    rw [visitAll, List.append_nil]
  | n :: ns, siteOf, i, s => by
    have hfirst := visit_outcome n (siteOf i) s
    rw [visitAll]
    cases hn : visit decide (siteOf i) n s with
    | error e =>
      rw [hn] at hfirst
      obtain ⟨log, hlog⟩ := hfirst
      refine ⟨log, hlog.failed, fun before => ?_, fun agenda => hlog.logs _⟩
      rw [visitAll, hlog.runs]
    | ok t =>
      rw [hn] at hfirst
      obtain ⟨log, hlog⟩ := hfirst
      refine (visitAll_outcome ns siteOf (i + 1) t).after log hlog.answered (fun before => ?_)
        (fun agenda rest hrest => hlog.logs _ rest hrest)
      rw [visitAll, hlog.runs]

end

end Record

/-- The second entry is the first one, or it is met below it. -/
inductive Reaches : Entry → Entry → Prop where
  | here (e : Entry) : Reaches e e
  | deeper {e c f : Entry} : c ∈ below e.1 e.2 → Reaches c f → Reaches e f

theorem mem_below {site : Site} {n : Node} {c : Entry} (h : c ∈ below site n) :
    ∃ k, n.children[k]? = some c.2 ∧ c.1 = childSite site n k := by
  obtain ⟨k, hk⟩ := List.getElem?_of_mem h
  exact ⟨k, getElem?_below hk⟩

theorem mem_children_of_below {site : Site} {n : Node} {c : Entry} (h : c ∈ below site n) :
    c.2 ∈ n.children := by
  obtain ⟨k, hk, -⟩ := mem_below h
  exact List.mem_of_getElem? hk

theorem Reaches.mem_preorder {e f : Entry} (h : Reaches e f) : f.2 ∈ e.2.preorder := by
  induction h with
  | here e => exact Node.mem_preorder_self e.2
  | deeper hc _ ih => exact Node.mem_preorder.mpr (.inr ⟨_, mem_children_of_below hc, ih⟩)

theorem exists_reaches {m : Node} (n : Node) (hm : m ∈ n.preorder) (site : Site) :
    ∃ site', Reaches (site, n) (site', m) := by
  rcases Node.mem_preorder.mp hm with rfl | ⟨c, hc, hmc⟩
  · exact ⟨site, .here _⟩
  · obtain ⟨k, hk⟩ := List.getElem?_of_mem hc
    have hlt := Node.sizeOf_lt_of_child hc
    obtain ⟨site', hreach⟩ := exists_reaches c hmc (childSite site n k)
    have hentry : (below site n)[k]? = some (childSite site n k, c) := by
      rw [below, getElem?_entries, hk, Nat.zero_add]
      rfl
    exact ⟨site', .deeper (List.mem_of_getElem? hentry) hreach⟩
termination_by sizeOf n

def Meets (agenda : List Entry) (f : Entry) : Prop := ∃ e ∈ agenda, Reaches e f

theorem meets_cons {e f : Entry} {agenda : List Entry} :
    Meets (e :: agenda) f ↔ f = e ∨ Meets (below e.1 e.2 ++ agenda) f := by
  constructor
  · rintro ⟨g, hg, hf⟩
    rcases List.mem_cons.mp hg with rfl | hg
    · cases hf with
      | here => exact .inl rfl
      | deeper hc hf => exact .inr ⟨_, List.mem_append_left _ hc, hf⟩
    · exact .inr ⟨g, List.mem_append_right _ hg, hf⟩
  · rintro (rfl | ⟨g, hg, hf⟩)
    · exact ⟨f, List.mem_cons_self, .here f⟩
    · rcases List.mem_append.mp hg with hg | hg
      · exact ⟨e, List.mem_cons_self, .deeper hg hf⟩
      · exact ⟨g, List.mem_cons_of_mem e hg, hf⟩

theorem meets_append {f : Entry} {agenda agenda' : List Entry} :
    Meets (agenda ++ agenda') f ↔ Meets agenda f ∨ Meets agenda' f := by
  simp only [Meets, List.mem_append, or_and_right, exists_or]

/-- The node is a call `base.extend(…)`, where `base` is a name with a capital letter. -/
structure IsExtend (n : Node) (base : String) : Prop where
  call : n.kind = .call
  callee : ∃ span span' below rest,
    n.children = ⟨.member "extend", span, [⟨.identifier base, span', below⟩]⟩ :: rest
  upper : ∃ c ∈ base.toList.head?, Text.isUpper c

/-- The node is what a class of the script extends. -/
def IsSuperclass (script n : Node) : Prop :=
  ∃ h ∈ script.preorder, h.kind = .heritage ∧ h.children.head? = some n

/-- A name whose member `extend` is accessed has no parts. -/
def PlainNames (script : Node) : Prop :=
  ∀ n ∈ script.preorder, n.kind = .member "extend" → ∀ c ∈ n.children, c.kind.isName →
    c.children = []

instance (script : Node) : Decidable (PlainNames script) :=
  inferInstanceAs (Decidable (∀ n ∈ script.preorder, _ → ∀ c ∈ n.children, _ → _))

theorem superclass?_eq_some {n : Node} {base : String} (hn : n.kind = .call) :
    superclass? n.children = some base ↔ IsExtend n base := by
  have hupper : Name.startsUpper base = true ↔ ∃ c ∈ base.toList.head?, Text.isUpper c := by
    unfold Name.startsUpper
    cases base.toList <;> simp
  constructor
  · intro h
    unfold superclass? at h
    split at h
    · rename_i span name span' cs rest heq
      split at h
      · rename_i hu
        cases h
        exact ⟨hn, ⟨span, span', cs, rest, heq⟩, hupper.mp hu⟩
      · cases h
    · cases h
  · rintro ⟨-, ⟨span, span', cs, rest, heq⟩, hu⟩
    rw [heq, superclass?, if_pos (hupper.mpr hu)]

/-- A definition is a call of the right form that no class extends. -/
theorem at?_eq_some_iff {site : Site} {n : Node} {base : String} :
    (∃ d, at? site n = some d ∧ d.superclass = base) ↔ IsExtend n base ∧ site ≠ .heritage := by
  unfold at?
  constructor
  · rintro ⟨d, hd, rfl⟩
    split at hd
    · cases hd
    · rename_i hk
      rw [not_or, not_not] at hk
      obtain ⟨base, hbase, rfl⟩ := Option.map_eq_some_iff.mp hd
      exact ⟨(superclass?_eq_some hk.1).mp hbase, hk.2⟩
  · rintro ⟨hn, hsite⟩
    have hk : ¬ (n.kind ≠ .call ∨ site = .heritage) := by simp [hn.call, hsite]
    rw [if_neg hk, (superclass?_eq_some hn.call).mpr hn]
    exact ⟨_, rfl, rfl⟩

/-- A call inside another one of the right form starts behind its name. -/
theorem IsExtend.start_lt {m n : Node} {base : String} (h : IsExtend n base) (hf : n.Formed)
    (hp : PlainNames n) (hm : m.kind = .call) (hmem : m ∈ Node.preorderAll n.children) :
    n.span.start < m.span.start := by
  obtain ⟨span, span', cs, rest, heq⟩ := h.callee
  have hcallee : ⟨.member "extend", span, [⟨.identifier base, span', cs⟩]⟩ ∈ n.children := by
    simp [heq]
  have hcs : cs = [] :=
    hp _ (Node.mem_preorder_child hcallee) rfl ⟨.identifier base, span', cs⟩ (by simp) rfl
  rw [heq, Node.preorderAll, List.mem_append] at hmem
  -- the callee holds no call, as the name in it has no parts, and the arguments follow it
  rcases hmem with hmem | hmem
  · simp only [Node.preorder, Node.preorderAll, hcs, List.mem_cons, List.append_nil,
      List.not_mem_nil, or_false] at hmem
    rcases hmem with rfl | rfl
    · cases hm
    · cases hm
  · have hfrom := hf.nested.children_from
    rw [heq, Node.wellNestedFrom_cons] at hfrom
    obtain ⟨hstart, -, -, hrest⟩ := hfrom
    have hsolid := hf.solid _ (Node.mem_preorder_child hcallee) rfl
    have hinside := (hrest.of_mem_preorderAll rest hmem).2.1
    simp only [Node.span] at *
    omega

theorem PlainNames.of_mem {m n : Node} (h : PlainNames n) (hm : m ∈ n.preorder) : PlainNames m :=
  fun k hk => h k (Node.mem_preorder_trans n hm hk)

theorem Entry.Ahead.before {e f : Entry} (h : e.Ahead f) (he : e.Ok) (hf : f.Ok) :
    e.2.span.Before f.2.span := by
  have hstop := he.inside.2
  rcases h with h | ⟨s, -, -, h⟩
  · exact hstop.trans (Nat.le_trans h hf.inside.1)
  · exact hstop.trans h

/-- An agenda in the order of the source, in a tree with plain names. -/
structure Tidy (agenda : List Entry) : Prop where
  order : InOrder agenda
  names : ∀ e ∈ agenda, PlainNames e.2

section Tidy

variable {site : Site} {n : Node} {agenda : List Entry} {log : List Handed} {d : Definition}

theorem Tidy.tail {e : Entry} (h : Tidy (e :: agenda)) : Tidy agenda :=
  ⟨h.order.tail, fun f hf => h.names f (List.mem_cons_of_mem e hf)⟩

theorem Tidy.expand (h : Tidy ((site, n) :: agenda)) : Tidy (below site n ++ agenda) := by
  refine ⟨h.order.expand, fun e he => ?_⟩
  rcases List.mem_append.mp he with he | he
  · exact (h.names _ List.mem_cons_self).of_mem
      (Node.mem_preorder_child (mem_children_of_below he))
  · exact h.tail.names e he

/-- What is met in the rest of an agenda stands behind the first definition. -/
theorem Tidy.behind (h : Tidy ((site, n) :: agenda)) (hd : at? site n = some d) {f : Entry}
    (hf : Meets agenda f) : d.span.start < f.2.span.start ∧ d.span.Before f.2.span := by
  obtain ⟨e, he, hf⟩ := hf
  obtain ⟨hcall, hspan, -⟩ := at?_eq_some hd
  have hn := h.order.ok _ List.mem_cons_self
  have hok := h.order.tail.ok e he
  have hbefore : n.span.Before e.2.span :=
    ((List.pairwise_cons.mp h.order.ahead).1 e he).before hn hok
  have hinside := (Node.WellNested.of_mem e.2 hok.formed.nested hf.mem_preorder).2
  have hbehind : n.span.Before f.2.span := Nat.le_trans hbefore hinside.1
  have hsolid := hn.formed.solid n (Node.mem_preorder_self n) (by rw [hcall]; rfl)
  rw [hspan]
  exact ⟨Nat.lt_of_lt_of_le hsolid hbehind, hbehind⟩

/-- A definition that is met below the first one stands inside it, behind its name. -/
theorem Tidy.within (h : Tidy ((site, n) :: agenda)) (hd : at? site n = some d) {f : Entry}
    (hf : Meets (below site n) f) {d' : Definition} (hd' : at? f.1 f.2 = some d') :
    d.span.start < f.2.span.start ∧ f.2.span.Inside d.span := by
  obtain ⟨c, hc, hf⟩ := hf
  have hn := (h.order.ok _ List.mem_cons_self).formed
  have hmem : f.2 ∈ Node.preorderAll n.children :=
    Node.mem_preorderAll.mpr ⟨c.2, mem_children_of_below hc, hf.mem_preorder⟩
  obtain ⟨hextend, -⟩ := at?_eq_some_iff.mp ⟨d, hd, rfl⟩
  rw [(at?_eq_some hd).2.1]
  exact ⟨hextend.start_lt hn (h.names _ List.mem_cons_self) (at?_eq_some hd').1 hmem,
    (hn.nested.children_from.of_mem_preorderAll _ hmem).2⟩

end Tidy

/-- Of two definitions in a record the second one stands later, and outside the first one if that
was replaced. Nothing follows a failure. -/
structure Follows (a b : Handed) : Prop where
  answered : a.2.isSome
  later : a.1.span.start < b.1.span.start
  outside : a.2 = some true → a.1.span.Before b.1.span

section Run

variable {agenda : List Entry} {log : List Handed}

/-- The answers of a walk are a record without a failure. -/
theorem Visits.logs {answers : List (Definition × Bool)} (h : Visits agenda answers) :
    Logs agenda (answers.map fun a => (a.1, some a.2)) := by
  induction h with
  | done => exact .done
  | pass hd _ ih => exact .pass hd ih
  | replace hd _ ih => exact .replace hd ih
  | keep hd _ ih => exact .keep hd ih

theorem Logs.sound (h : Logs agenda log) :
    ∀ a ∈ log, ∃ f, Meets agenda f ∧ at? f.1 f.2 = some a.1 := by
  induction h with
  | done => simp
  | @stop site n d agenda hd =>
    intro a ha
    rw [List.mem_singleton.mp ha]
    exact ⟨(site, n), meets_cons.mpr (.inl rfl), hd⟩
  | pass hd _ ih =>
    intro a ha
    obtain ⟨f, hf, hfd⟩ := ih a ha
    exact ⟨f, meets_cons.mpr (.inr hf), hfd⟩
  | @replace site n d agenda log hd _ ih =>
    intro a ha
    rcases List.mem_cons.mp ha with rfl | ha
    · exact ⟨(site, n), meets_cons.mpr (.inl rfl), hd⟩
    · obtain ⟨f, hf, hfd⟩ := ih a ha
      exact ⟨f, meets_cons.mpr (.inr (meets_append.mpr (.inr hf))), hfd⟩
  | @keep site n d agenda log hd _ ih =>
    intro a ha
    rcases List.mem_cons.mp ha with rfl | ha
    · exact ⟨(site, n), meets_cons.mpr (.inl rfl), hd⟩
    · obtain ⟨f, hf, hfd⟩ := ih a ha
      exact ⟨f, meets_cons.mpr (.inr hf), hfd⟩

/-- What was replaced was met by the walk. -/
theorem Visits.reaches_of_replaced {script : Node} {answers : List (Definition × Bool)}
    (h : Visits [(.plain, script)] answers) {d : Definition} (hd : d ∈ replaced answers) :
    ∃ site n, Reaches (.plain, script) (site, n) ∧ at? site n = some d := by
  have hlog : (d, some true) ∈ answers.map fun a => (a.1, some a.2) :=
    List.mem_map.mpr ⟨(d, true), mem_replaced.mp hd, rfl⟩
  obtain ⟨⟨site, n⟩, ⟨e, he, hreach⟩, hat⟩ := h.logs.sound _ hlog
  rw [List.mem_singleton.mp he] at hreach
  exact ⟨site, n, hreach, hat⟩

theorem Visits.at_of_replaced {script : Node} {answers : List (Definition × Bool)}
    (h : Visits [(.plain, script)] answers) {d : Definition} (hd : d ∈ replaced answers) :
    ∃ site n, n ∈ script.preorder ∧ at? site n = some d := by
  obtain ⟨site, n, hreach, hat⟩ := h.reaches_of_replaced hd
  exact ⟨site, n, hreach.mem_preorder, hat⟩

theorem Logs.ordered (h : Logs agenda log) (ht : Tidy agenda) : log.Pairwise Follows := by
  induction h with
  | done => exact .nil
  | stop _ => exact List.pairwise_singleton _ _
  | pass _ _ ih => exact ih ht.expand
  | replace hd hl ih =>
    refine .cons (fun b hb => ?_) (ih ht.tail)
    obtain ⟨f, hf, hfd⟩ := hl.sound b hb
    have hspan := (at?_eq_some hfd).2.1
    obtain ⟨hlater, hbefore⟩ := ht.behind hd hf
    rw [← hspan] at hlater hbefore
    exact ⟨rfl, hlater, fun _ => hbefore⟩
  | keep hd hl ih =>
    refine .cons (fun b hb => ?_) (ih ht.expand)
    obtain ⟨f, hf, hfd⟩ := hl.sound b hb
    have hspan := (at?_eq_some hfd).2.1
    refine ⟨rfl, ?_, fun h => by cases h⟩
    rw [hspan]
    rcases meets_append.mp hf with hf | hf
    · exact (ht.within hd hf hfd).1
    · exact (ht.behind hd hf).1

/-- The definition `d` at `f` is in the record, or one around it was replaced, or the walk failed
before it. -/
inductive Accounted (log : List Handed) (f : Entry) (d : Definition) : Prop where
  | handed {b : Option Bool} : (d, b) ∈ log → Accounted log f d
  | covered {a : Handed} : a ∈ log → a.2 = some true → f.2.span.Inside a.1.span →
      a.1.span ≠ f.2.span → Accounted log f d
  | unseen {a : Handed} : a ∈ log → a.2 = none → a.1.span.start < f.2.span.start →
      Accounted log f d

theorem Accounted.cons {f : Entry} {d : Definition} (h : Accounted log f d) (a : Handed) :
    Accounted (a :: log) f d := by
  cases h with
  | handed hb => exact .handed (List.mem_cons_of_mem a hb)
  | covered hb ht hin hne => exact .covered (List.mem_cons_of_mem a hb) ht hin hne
  | unseen hb hn hlt => exact .unseen (List.mem_cons_of_mem a hb) hn hlt

theorem Logs.complete (h : Logs agenda log) (ht : Tidy agenda) {f : Entry} {d : Definition}
    (hf : Meets agenda f) (hd : at? f.1 f.2 = some d) : Accounted log f d := by
  induction h with
  | done =>
    obtain ⟨e, he, -⟩ := hf
    cases he
  | @stop _ _ d' _ hn =>
    rcases meets_cons.mp hf with rfl | hf
    · rw [hn, Option.some.injEq] at hd
      subst hd
      exact .handed (List.mem_singleton_self _)
    · have hlater : d'.span.start < f.2.span.start := by
        rcases meets_append.mp hf with hf | hf
        · exact (ht.within hn hf hd).1
        · exact (ht.behind hn hf).1
      exact .unseen (List.mem_singleton_self _) rfl hlater
  | pass hn _ ih =>
    rcases meets_cons.mp hf with rfl | hf
    · rw [hn] at hd
      cases hd
    · exact ih ht.expand hf
  | replace hn _ ih =>
    rcases meets_cons.mp hf with rfl | hf
    · rw [hn, Option.some.injEq] at hd
      subst hd
      exact .handed List.mem_cons_self
    · rcases meets_append.mp hf with hf | hf
      · obtain ⟨hlater, hinside⟩ := ht.within hn hf hd
        exact .covered List.mem_cons_self rfl hinside fun heq =>
          hlater.ne (congrArg Span.start heq)
      · exact (ih ht.tail hf).cons _
  | keep hn _ ih =>
    rcases meets_cons.mp hf with rfl | hf
    · rw [hn, Option.some.injEq] at hd
      subst hd
      exact .handed List.mem_cons_self
    · exact (ih ht.expand hf).cons _

end Run

theorem childSite_eq_heritage {site : Site} {n : Node} {i : Nat} :
    childSite site n i = .heritage ↔ n.kind = .heritage ∧ i = 0 := by
  unfold childSite
  split <;> simp_all
  all_goals split <;> simp

theorem parent_of_reaches {e f : Entry} (h : Reaches e f) :
    f = e ∨ ∃ p, Reaches e p ∧ f ∈ below p.1 p.2 := by
  induction h with
  | here e => exact .inl rfl
  | @deeper e c f hc _ ih =>
    rcases ih with rfl | ⟨p, hp, hf⟩
    · exact .inr ⟨e, .here e, hc⟩
    · exact .inr ⟨p, .deeper hc hp, hf⟩

theorem site_eq_heritage_iff {script n : Node} {site : Site} (hs : script.Formed)
    (hn : n.kind.isSolid) (h : Reaches (.plain, script) (site, n)) :
    site = .heritage ↔ IsSuperclass script n := by
  constructor
  · intro hsite
    rcases parent_of_reaches h with heq | ⟨p, hp, hbelow⟩
    · cases heq
      cases hsite
    · obtain ⟨k, hk, hchild⟩ := mem_below hbelow
      rw [hsite, eq_comm, childSite_eq_heritage] at hchild
      obtain ⟨hkind, rfl⟩ := hchild
      exact ⟨p.2, hp.mem_preorder, hkind, by rw [List.head?_eq_getElem?, hk]⟩
  · rintro ⟨q, hq, hkind, hhead⟩
    rw [List.head?_eq_getElem?] at hhead
    rcases parent_of_reaches h with heq | ⟨p, hp, hbelow⟩
    · cases heq
      have hle := Node.sizeOf_le_of_mem_preorder _ hq
      have hlt := Node.sizeOf_lt_of_child (List.mem_of_getElem? hhead)
      omega
    · obtain ⟨k, hk, hchild⟩ := mem_below hbelow
      obtain ⟨hpq, hk0⟩ := Node.parent_unique hs hp.mem_preorder hq hn hk hhead
      subst hpq
      exact hchild.trans (childSite_eq_heritage.mpr ⟨hkind, hk0⟩)

private theorem follows_or {log : List Handed} (h : log.Pairwise Follows) {a b : Handed}
    (ha : a ∈ log) (hb : b ∈ log) : a = b ∨ Follows a b ∨ Follows b a := by
  have hsymm : Std.Symm fun a b : Handed => Follows a b ∨ Follows b a := ⟨fun _ _ => Or.symm⟩
  by_cases heq : a = b
  · exact .inl heq
  · have heither : log.Pairwise fun a b => Follows a b ∨ Follows b a := h.imp .inl
    exact .inr (heither.forall ha hb heq)

structure Due (script : Node) (log : List Handed) (n : Node) (base : String) : Prop where
  mem : n ∈ script.preorder
  form : IsExtend n base
  free : ¬ IsSuperclass script n
  uncovered : ∀ a ∈ log, a.2 = some true → n.span.Inside a.1.span → a.1.span = n.span
  reached : ∀ a ∈ log, a.2 = none → n.span.start ≤ a.1.span.start

section Script

variable {script : Node} {log : List Handed}

theorem Logs.due (h : Logs [(.plain, script)] log) (hs : script.Formed)
    (hordered : log.Pairwise Follows) {a : Handed} (ha : a ∈ log) :
    ∃ n, n.span = a.1.span ∧ Due script log n a.1.superclass := by
  obtain ⟨⟨site, n⟩, ⟨e, he, hreach⟩, hd⟩ := h.sound a ha
  rw [List.mem_singleton.mp he] at hreach
  have hcall : n.kind = .call := (at?_eq_some hd).1
  have hspan : a.1.span = n.span := (at?_eq_some hd).2.1
  have hmem : n ∈ script.preorder := hreach.mem_preorder
  have hsolid : n.kind.isSolid := by rw [hcall]; rfl
  have hlt : n.span.start < n.span.stop := hs.solid n hmem hsolid
  obtain ⟨hform, hsite⟩ := at?_eq_some_iff.mp ⟨a.1, hd, rfl⟩
  have hfree : ¬ IsSuperclass script n := fun hsup =>
    hsite ((site_eq_heritage_iff hs hsolid hreach).mpr hsup)
  refine ⟨n, hspan.symm, hmem, hform, hfree, ?_, ?_⟩
  · intro b hb htrue hinside
    -- whichever of the two came first, only a definition itself lies inside one that was replaced
    rcases follows_or hordered ha hb with rfl | hab | hba
    · exact hspan
    · have hlater := hab.later
      rw [hspan] at hlater
      exact absurd hinside.1 (Nat.not_le.mpr hlater)
    · have hbefore : b.1.span.stop ≤ a.1.span.start := hba.outside htrue
      rw [hspan] at hbefore
      have hstop := hinside.2
      omega
  · intro b hb hnone
    rcases follows_or hordered ha hb with rfl | hab | hba
    · exact (congrArg Span.start hspan).ge
    · rw [← hspan]
      exact hab.later.le
    · have hsome := hba.answered
      rw [hnone] at hsome
      cases hsome

theorem Logs.handed (h : Logs [(.plain, script)] log) (hs : script.Formed)
    (ht : Tidy [(.plain, script)]) {n : Node} {base : String} (hn : Due script log n base) :
    ∃ a ∈ log, a.1.span = n.span ∧ a.1.superclass = base := by
  obtain ⟨site, hreach⟩ := exists_reaches script hn.mem .plain
  have hsolid : n.kind.isSolid := by rw [hn.form.call]; rfl
  have hsite : site ≠ .heritage := fun heq =>
    hn.free ((site_eq_heritage_iff hs hsolid hreach).mp heq)
  obtain ⟨d, hd, rfl⟩ := at?_eq_some_iff.mpr ⟨hn.form, hsite⟩
  cases h.complete ht (f := (site, n)) ⟨_, List.mem_singleton_self _, hreach⟩ hd with
  | @handed b hb => exact ⟨(d, b), hb, (at?_eq_some hd).2.1, rfl⟩
  | covered ha htrue hinside hne => exact absurd (hn.uncovered _ ha htrue hinside) hne
  | unseen ha hnone hlt => exact absurd (hn.reached _ ha hnone) (Nat.not_le.mpr hlt)

end Script

/-- A walk hands out exactly the calls of the right form that no class extends and that stand in no
other definition that was replaced; each of them once and in the order of the source. It ends with
the first failure, which is the result. -/
theorem walk_hands_out_definitions {σ ε : Type} {script : Node} (hs : script.Formed)
    (hn : PlainNames script) (decide : Definition → σ → Except ε (Bool × σ)) (s : σ) :
    ∃ log : List Handed,
      (∀ t, forEach script s decide = .ok t →
        forEach script (s, []) (recorded decide) = .ok (t, log) ∧ ∀ a ∈ log, a.2.isSome) ∧
      (∀ e, forEach script s decide = .error e →
        forEach script (s, []) (recorded decide) = .error (e, log) ∧
        ∃ answered d u, log = answered ++ [(d, none)] ∧ (∀ a ∈ answered, a.2.isSome) ∧
          decide d u = .error e) ∧
      log.Pairwise (fun a b => a.1.span.start < b.1.span.start) ∧
      ∀ span base, (∃ a ∈ log, a.1.span = span ∧ a.1.superclass = base) ↔
        ∃ n, n.span = span ∧ Due script log n base := by
  have hok : InOrder [(Site.plain, script)] := by
    refine ⟨fun e he => ?_, List.pairwise_singleton _ _⟩
    rw [List.mem_singleton.mp he]
    exact ⟨hs, .refl _⟩
  have ht : Tidy [(.plain, script)] :=
    ⟨hok, fun e he => by rw [List.mem_singleton.mp he]; exact hn⟩
  have hlog : ∀ log, Logs [(.plain, script)] log →
      log.Pairwise (fun a b => a.1.span.start < b.1.span.start) ∧
      ∀ span base, (∃ a ∈ log, a.1.span = span ∧ a.1.superclass = base) ↔
        ∃ n, n.span = span ∧ Due script log n base := by
    intro log h
    have hordered := h.ordered ht
    refine ⟨hordered.imp Follows.later, fun span base => ⟨?_, ?_⟩⟩
    · rintro ⟨a, ha, rfl, rfl⟩
      exact h.due hs hordered ha
    · rintro ⟨n, rfl, hdue⟩
      exact h.handed hs ht hdue
  have houtcome : Outcome decide [(.plain, script)] s _ _ := visit_outcome script .plain s
  cases hrun : forEach script s decide with
  | ok t =>
    rw [forEach] at hrun
    rw [hrun] at houtcome
    obtain ⟨log, hthrough⟩ := houtcome
    obtain ⟨hpairwise, hexact⟩ := hlog log (by simpa using hthrough.logs [] [] .done)
    refine ⟨log, ?_, by simp, hpairwise, hexact⟩
    rintro t' ⟨⟩
    exact ⟨hthrough.runs [], hthrough.answered⟩
  | error e =>
    rw [forEach] at hrun
    rw [hrun] at houtcome
    obtain ⟨log, hstopped⟩ := houtcome
    obtain ⟨hpairwise, hexact⟩ := hlog log (hstopped.logs [])
    refine ⟨log, by simp, ?_, hpairwise, hexact⟩
    rintro e' ⟨⟩
    exact ⟨hstopped.runs [], hstopped.failed⟩

/-- A definition in another one, one that a class extends, and one behind them. -/
def nestedDefinitionsText : List Char :=
  "A.extend(\x7b b: B.extend() \x7d); class C extends D.extend() \x7b\x7d E.extend();".toList

def replacesFirst (d : Definition) (_ : Unit) : Except Unit (Bool × Unit) :=
  if d.superclass = "E" then .error () else .ok (d.superclass = "A", ())

/-- The first definition is replaced and the walk fails at the last one; the two between are not
handed out. -/
theorem walk_hands_out_two_of_four :
    ∃ script log, Script.parse ⟨false⟩ nestedDefinitionsText = .ok script ∧ script.Formed ∧
      PlainNames script ∧
      forEach script ((), []) (recorded replacesFirst) = .error ((), log) ∧
      log.map (fun a => (a.1.superclass, a.2)) = [("A", some true), ("E", none)] ∧
      log.Pairwise (fun a b => a.1.span.start < b.1.span.start) ∧
      ∀ span base, (∃ a ∈ log, a.1.span = span ∧ a.1.superclass = base) ↔
        ∃ n, n.span = span ∧ Due script log n base := by
  have h : ((Script.parse ⟨false⟩ nestedDefinitionsText).toOption.any fun script =>
      decide (script.Formed ∧ PlainNames script) &&
      match forEach script ((), []) (recorded replacesFirst) with
      | .error (_, log) =>
        log.map (fun a => (a.1.superclass, a.2)) == [("A", some true), ("E", none)]
      | .ok _ => false) = true := by
    decide +kernel
  simp only [Option.any_eq_true, Except.toOption_eq_some_iff, Bool.and_eq_true,
    decide_eq_true_eq] at h
  obtain ⟨script, hparse, ⟨hs, hn⟩, hrun⟩ := h
  obtain ⟨log, hok, herror, hordered, hexact⟩ := walk_hands_out_definitions hs hn replacesFirst ()
  cases hplain : forEach script () replacesFirst with
  | ok t =>
    rw [(hok t hplain).1] at hrun
    cases hrun
  | error e =>
    have hrecorded := (herror e hplain).1
    rw [hrecorded] at hrun
    exact ⟨script, log, hparse, hs, hn, hrecorded, by simpa using hrun, hordered, hexact⟩

end EmberClasses.Definition
