import EmberClasses.Definition
import EmberClasses.Proofs.Nesting

/-! The walk over the definitions of a script, apart from what is decided about each of them. A walk
is described by its answers: the definitions in the order in which they were handed out, each with
whether it was replaced. Where two of them lie follows from the tree alone. -/

namespace EmberClasses.Definition

open Script (Node Kind)

abbrev Entry := Site × Node

def entries (siteOf : Nat → Site) : Nat → List Node → List Entry
  | _, [] => []
  | i, n :: ns => (siteOf i, n) :: entries siteOf (i + 1) ns

def below (site : Site) (n : Node) : List Entry := entries (childSite site n) 0 n.children

/-- The answers that a walk over an agenda may give. -/
inductive Visits : List Entry → List (Definition × Bool) → Prop where
  | done : Visits [] []
  | pass {site n agenda answers} : at? site n = none →
      Visits (below site n ++ agenda) answers → Visits ((site, n) :: agenda) answers
  | replace {site n d agenda answers} : at? site n = some d →
      Visits agenda answers → Visits ((site, n) :: agenda) ((d, true) :: answers)
  | keep {site n d agenda answers} : at? site n = some d →
      Visits (below site n ++ agenda) answers →
      Visits ((site, n) :: agenda) ((d, false) :: answers)

/-- The answers are those of `decide`, which takes the state from the first to the last. -/
def Answers {σ ε : Type} (decide : Definition → σ → Except ε (Bool × σ)) :
    List (Definition × Bool) → σ → σ → Prop
  | [], s, t => s = t
  | (d, b) :: rest, s, t => ∃ u, decide d s = .ok (b, u) ∧ Answers decide rest u t

theorem Answers.append {σ ε : Type} {decide : Definition → σ → Except ε (Bool × σ)}
    {l m : List (Definition × Bool)} {s t u : σ} (hl : Answers decide l s t)
    (hm : Answers decide m t u) : Answers decide (l ++ m) s u := by
  induction l generalizing s with
  | nil => cases hl; exact hm
  | cons a l ih =>
    obtain ⟨v, hv, hrest⟩ := hl
    exact ⟨v, hv, ih hrest⟩

section Walk

variable {σ ε : Type} {decide : Definition → σ → Except ε (Bool × σ)}

mutual

private theorem visit_answers : (n : Node) → ∀ {site : Site} {s t : σ},
    visit decide site n s = .ok t → ∃ answers, Answers decide answers s t ∧
      ∀ agenda rest, Visits agenda rest → Visits ((site, n) :: agenda) (answers ++ rest)
  | ⟨kind, span, children⟩, site, s, t, h => by
    rw [visit] at h
    cases hd : at? site ⟨kind, span, children⟩ with
    | none =>
      simp only [hd] at h
      obtain ⟨answers, ha, hv⟩ := visitAll_answers children h
      exact ⟨answers, ha, fun agenda rest hr => .pass hd (hv agenda rest hr)⟩
    | some d =>
      simp only [hd] at h
      cases hs : decide d s with
      | error e => simp only [hs] at h; cases h
      | ok r =>
        obtain ⟨b, u⟩ := r
        simp only [hs] at h
        cases b with
        | true =>
          cases h
          exact ⟨[(d, true)], ⟨_, hs, rfl⟩, fun agenda rest hr => .replace hd hr⟩
        | false =>
          obtain ⟨answers, ha, hv⟩ := visitAll_answers children h
          exact ⟨(d, false) :: answers, ⟨u, hs, ha⟩,
            fun agenda rest hr => .keep hd (hv agenda rest hr)⟩

private theorem visitAll_answers : (ns : List Node) → ∀ {siteOf : Nat → Site} {i : Nat} {s t : σ},
    visitAll decide siteOf i ns s = .ok t → ∃ answers, Answers decide answers s t ∧
      ∀ agenda rest, Visits agenda rest → Visits (entries siteOf i ns ++ agenda) (answers ++ rest)
  | [], siteOf, i, s, t, h => by
    rw [visitAll] at h
    cases h
    exact ⟨[], rfl, fun agenda rest hr => hr⟩
  | n :: ns, siteOf, i, s, t, h => by
    rw [visitAll] at h
    cases hn : visit decide (siteOf i) n s with
    | error e => simp only [hn] at h; cases h
    | ok u =>
      simp only [hn] at h
      obtain ⟨first, ha, hv⟩ := visit_answers n hn
      obtain ⟨others, hb, hw⟩ := visitAll_answers ns h
      refine ⟨first ++ others, ha.append hb, fun agenda rest hr => ?_⟩
      rw [List.append_assoc]
      exact hv _ _ (hw agenda rest hr)

end

/-- Every walk that ends gives answers that fit the tree. -/
theorem forEach_visits {script : Node} {s t : σ} (h : forEach script s decide = .ok t) :
    ∃ answers, Visits [(.plain, script)] answers ∧ Answers decide answers s t := by
  obtain ⟨answers, ha, hv⟩ := visit_answers script h
  exact ⟨answers, by simpa using hv [] [] .done, ha⟩

mutual

private theorem visit_ok : (n : Node) → (∀ m ∈ n.preorder, ∀ site d s, at? site m = some d →
    ∃ r, decide d s = .ok r) → ∀ (site : Site) (s : σ), ∃ t, visit decide site n s = .ok t
  | ⟨kind, span, children⟩, h, site, s => by
    have hbelow (s : σ) := visitAll_ok children
      (fun m hm => h m (by rw [Node.preorder]; exact List.mem_cons_of_mem _ hm))
      (childSite site ⟨kind, span, children⟩) 0 s
    rw [visit]
    dsimp only
    cases hd : at? site ⟨kind, span, children⟩ with
    | none => exact hbelow s
    | some d =>
      obtain ⟨⟨b, u⟩, hr⟩ := h _ (Node.mem_preorder_self _) site d s hd
      dsimp only
      rw [hr]
      cases b with
      | true => exact ⟨u, rfl⟩
      | false => exact hbelow u

private theorem visitAll_ok : (ns : List Node) → (∀ m ∈ Node.preorderAll ns, ∀ site d s,
    at? site m = some d → ∃ r, decide d s = .ok r) → ∀ (siteOf : Nat → Site) (i : Nat) (s : σ),
    ∃ t, visitAll decide siteOf i ns s = .ok t
  | [], _, siteOf, i, s => ⟨s, by rw [visitAll]⟩
  | n :: ns, h, siteOf, i, s => by
    rw [Node.preorderAll] at h
    obtain ⟨u, hu⟩ := visit_ok n (fun m hm => h m (List.mem_append_left _ hm)) (siteOf i) s
    obtain ⟨t, ht⟩ := visitAll_ok ns (fun m hm => h m (List.mem_append_right _ hm)) siteOf (i + 1) u
    exact ⟨t, by rw [visitAll, hu]; exact ht⟩

end

/-- A walk ends well if nothing goes wrong with any definition of the script. -/
theorem forEach_ok {script : Node} (h : ∀ m ∈ script.preorder, ∀ site d s, at? site m = some d →
    ∃ r, decide d s = .ok r) (s : σ) : ∃ t, forEach script s decide = .ok t :=
  visit_ok script h .plain s

end Walk

/-- The statement that a definition at a site, or below it, may take the place of. -/
def Site.frame? : Site → Option Span
  | .exported span => some span
  | .defaultExport span => some span
  | .declared statement => statement.map Prod.fst
  | .initial _ statement => statement.map Prod.fst
  | _ => none

/-- Everything that a definition at or below an entry may take the place of. -/
def Entry.region (e : Entry) : Span := e.1.frame?.getD e.2.span

theorem getElem?_entries (siteOf : Nat → Site) (i : Nat) (ns : List Node) (k : Nat) :
    (entries siteOf i ns)[k]? = ns[k]?.map fun n => (siteOf (i + k), n) := by
  induction ns generalizing i k with
  | nil => simp [entries]
  | cons n ns ih =>
    cases k with
    | zero => simp [entries]
    | succ k => simp [entries, ih, Nat.add_assoc, Nat.add_comm 1 k]

theorem getElem?_below {site : Site} {n : Node} {k : Nat} {e : Entry}
    (h : (below site n)[k]? = some e) : n.children[k]? = some e.2 ∧ e.1 = childSite site n k := by
  rw [below, getElem?_entries, Option.map_eq_some_iff] at h
  obtain ⟨m, hm, rfl⟩ := h
  exact ⟨hm, by simp⟩

/-- A frame is handed down to an only child, or to the initial value of a variable, which stands
behind the variable's name and type. -/
theorem childSite_frame {site : Site} {n : Node} {i : Nat} {s : Span}
    (h : (childSite site n i).frame? = some s) :
    (n.kind.isSolid ∧ n.kind ≠ .call) ∧ (s = n.span ∨ site.frame? = some s) ∧
      (n.children.length = 1 ∨ n.children.length = 2 ∧ i = 1) := by
  unfold childSite at h
  split at h
  · split at h <;> cases h
  · cases h
  · cases h
  · rename_i hk
    split at h
    · rename_i hl; cases h; exact ⟨by simp [hk, Kind.isSolid], .inl rfl, .inl hl⟩
    · cases h
  · rename_i hk
    split at h
    · rename_i hl; cases h; exact ⟨by simp [hk, Kind.isSolid], .inl rfl, .inl hl⟩
    · cases h
  · rename_i hk
    simp only [Site.frame?] at h
    by_cases hl : n.children.length = 1
    · rw [if_pos hl] at h
      refine ⟨by simp [hk, Kind.isSolid], ?_, .inl hl⟩
      split at h
      · cases h; exact .inr rfl
      · cases h; exact .inl rfl
    · rw [if_neg hl] at h; cases h
  · rename_i hk
    split at h
    · rename_i hc
      exact ⟨by simp [hk, Kind.isSolid], .inr h, .inr ⟨by simp [hc], rfl⟩⟩
    · cases h
  · split at h <;> cases h
  · cases h

/-- The tree below the entry is in order, and the node lies in the entry's region. -/
structure Entry.Ok (e : Entry) : Prop where
  formed : e.2.Formed
  inside : e.2.span.Inside e.region

/-- What stands at or below `a` comes before `b`, or inside the frame of `b` but before its node. -/
def Entry.Ahead (a b : Entry) : Prop :=
  a.region.Before b.region ∨
    ∃ s, b.1.frame? = some s ∧ s.start ≤ a.region.start ∧ a.region.stop ≤ b.2.span.start

theorem Entry.Ahead.mono {a b c : Entry} (h : a.Ahead b) (hc : c.region.Inside a.region) :
    c.Ahead b := by
  obtain ⟨hstart, hstop⟩ := hc
  rcases h with h | ⟨s, hs, h₁, h₂⟩
  · exact .inl (hstop.trans h)
  · exact .inr ⟨s, hs, h₁.trans hstart, hstop.trans h₂⟩

/-- Everything that a node below an entry may take the place of lies in the entry's region. -/
theorem region_below {e c : Entry} (he : e.Ok) (hc : c ∈ below e.1 e.2) :
    c.Ok ∧ c.region.Inside e.region := by
  obtain ⟨k, hk⟩ := List.getElem?_of_mem hc
  obtain ⟨hk, hsite⟩ := getElem?_below hk
  have hmem : c.2 ∈ e.2.children := List.mem_of_getElem? hk
  have hin : c.2.span.Inside e.2.span := he.formed.inside hmem
  cases hf : c.1.frame? with
  | none =>
    have hr : c.region = c.2.span := by simp [Entry.region, hf]
    exact ⟨⟨he.formed.child hmem, by rw [hr]; exact .refl _⟩, by rw [hr]; exact hin.trans he.inside⟩
  | some s =>
    have hr : c.region = s := by simp [Entry.region, hf]
    rw [hsite] at hf
    rcases (childSite_frame hf).2.1 with rfl | hs
    · exact ⟨⟨he.formed.child hmem, by rw [hr]; exact hin⟩, by rw [hr]; exact he.inside⟩
    · have hre : e.region = s := by simp [Entry.region, hs]
      rw [hr, hre]
      have := he.inside
      rw [hre] at this
      exact ⟨⟨he.formed.child hmem, by rw [hr]; exact hin.trans this⟩, .refl _⟩

/-- The frame of a node reaches from the start of its parent at the latest. -/
private theorem frame_start_le {e : Entry} (he : e.Ok) {k : Nat} {s : Span}
    (hs : (childSite e.1 e.2 k).frame? = some s) : s.start ≤ e.2.span.start := by
  rcases (childSite_frame hs).2.1 with rfl | hf
  · exact le_rfl
  · have := he.inside.1
    simpa [Entry.region, hf] using this

theorem below_ahead {e : Entry} (he : e.Ok) : (below e.1 e.2).Pairwise Entry.Ahead := by
  rw [List.pairwise_iff_getElem]
  intro i j hi hj hij
  obtain ⟨ha, hsa⟩ := getElem?_below (List.getElem?_eq_getElem hi)
  obtain ⟨hb, hsb⟩ := getElem?_below (List.getElem?_eq_getElem hj)
  generalize (below e.1 e.2)[i] = a at *
  generalize (below e.1 e.2)[j] = b at *
  have hlen : j < e.2.children.length := (List.getElem?_eq_some_iff.mp hb).1
  have hord : a.2.span.stop ≤ b.2.span.start := by
    have hp := List.pairwise_iff_getElem.mp he.formed.nested.children_from.pairwise
    obtain ⟨hi', hai⟩ := List.getElem?_eq_some_iff.mp ha
    obtain ⟨hj', hbj⟩ := List.getElem?_eq_some_iff.mp hb
    rw [← hai, ← hbj]
    exact hp i j hi' hj' hij
  have hra : a.region = a.2.span := by
    cases hf : a.1.frame? with
    | none => simp [Entry.region, hf]
    | some s =>
      rw [hsa] at hf
      have := (childSite_frame hf).2.2
      omega
  cases hf : b.1.frame? with
  | none =>
    have hrb : b.region = b.2.span := by simp [Entry.region, hf]
    exact .inl (by rw [hra, hrb]; exact hord)
  | some s =>
    refine .inr ⟨s, hf, ?_, by rw [hra]; exact hord⟩
    rw [hsb] at hf
    rw [hra]
    exact (frame_start_le he hf).trans (he.formed.inside (List.mem_of_getElem? ha)).1

structure InOrder (agenda : List Entry) : Prop where
  ok : ∀ e ∈ agenda, e.Ok
  ahead : agenda.Pairwise Entry.Ahead

theorem InOrder.tail {e : Entry} {agenda : List Entry} (h : InOrder (e :: agenda)) :
    InOrder agenda :=
  ⟨fun f hf => h.ok f (List.mem_cons_of_mem e hf), (List.pairwise_cons.mp h.ahead).2⟩

/-- An agenda stays in order when its first node gives way to its children. -/
theorem InOrder.expand {e : Entry} {agenda : List Entry} (h : InOrder (e :: agenda)) :
    InOrder (below e.1 e.2 ++ agenda) := by
  have he := h.ok e List.mem_cons_self
  refine ⟨fun f hf => ?_, List.pairwise_append.mpr ⟨below_ahead he, h.tail.ahead, ?_⟩⟩
  · rcases List.mem_append.mp hf with hf | hf
    · exact (region_below he hf).1
    · exact h.tail.ok f hf
  · intro c hc f hf
    exact ((List.pairwise_cons.mp h.ahead).1 f hf).mono (region_below he hc).2

/-- The definition comes from the entry: from its node or from one below it. -/
structure Entry.Yields (e : Entry) (d : Definition) : Prop where
  call : ∃ m ∈ e.2.preorder, m.kind = .call ∧ m.span = d.span
  target : (∃ m ∈ e.2.preorder, m.kind.isSolid ∧ m.span = d.target.span) ∨
    e.1.frame? = some d.target.span
  covers : d.span.Inside d.target.span

namespace Entry.Yields

variable {e : Entry} {d : Definition}

theorem span_inside (h : e.Yields d) (he : e.Ok) : d.span.Inside e.2.span := by
  obtain ⟨m, hm, -, hs⟩ := h.call
  rw [← hs]
  exact (Node.WellNested.of_mem e.2 he.formed.nested hm).2

theorem target_inside (h : e.Yields d) (he : e.Ok) :
    d.target.span.Inside e.2.span ∨ e.1.frame? = some d.target.span := by
  rcases h.target with ⟨m, hm, -, hs⟩ | hf
  · rw [← hs]
    exact .inl (Node.WellNested.of_mem e.2 he.formed.nested hm).2
  · exact .inr hf

theorem target_region (h : e.Yields d) (he : e.Ok) : d.target.span.Inside e.region := by
  rcases h.target_inside he with ht | hf
  · exact ht.trans he.inside
  · rw [Entry.region, hf]
    exact .refl _

theorem solid (h : e.Yields d) (he : e.Ok) : d.span.start < d.span.stop := by
  obtain ⟨m, hm, hk, hs⟩ := h.call
  rw [← hs]
  exact he.formed.solid m hm (by simp [hk, Kind.isSolid])

end Entry.Yields

theorem Site.target_span (site : Site) (span : Span) :
    (site.target span).span = span ∨ site.frame? = some (site.target span).span := by
  unfold Site.target
  split
  · exact .inr rfl
  · exact .inr rfl
  · exact .inl rfl
  · exact .inl rfl

theorem at?_eq_some {site : Site} {n : Node} {d : Definition} (h : at? site n = some d) :
    n.kind = .call ∧ d.span = n.span ∧ d.target = site.target n.span := by
  unfold at? at h
  split at h
  · cases h
  · rename_i hk
    obtain ⟨superclass, -, rfl⟩ := Option.map_eq_some_iff.mp h
    rw [not_or, not_not] at hk
    exact ⟨hk.1, rfl, rfl⟩

theorem properties_mem {site : Site} {n object : Node} {d : Definition} (h : at? site n = some d)
    (ho : d.properties = some object) : object ∈ n.preorder := by
  unfold at? at h
  split at h
  · cases h
  · obtain ⟨superclass, -, rfl⟩ := Option.map_eq_some_iff.mp h
    exact Node.mem_preorder_argument (List.mem_filter.mp (List.mem_of_getLast? ho)).1

theorem yields_of_at? {e : Entry} {d : Definition} (he : e.Ok) (h : at? e.1 e.2 = some d) :
    e.Yields d := by
  obtain ⟨hk, hs, ht⟩ := at?_eq_some h
  have hself := Node.mem_preorder_self e.2
  rcases Site.target_span e.1 e.2.span with hsp | hf
  · exact ⟨⟨e.2, hself, hk, hs.symm⟩,
      .inl ⟨e.2, hself, by simp [hk, Kind.isSolid], by rw [ht, hsp]⟩,
      by rw [ht, hsp, hs]; exact .refl _⟩
  · have hreg : e.region = (e.1.target e.2.span).span := by simp [Entry.region, hf]
    exact ⟨⟨e.2, hself, hk, hs.symm⟩, .inr (by rw [ht, hf]),
      by rw [ht, hs, ← hreg]; exact he.inside⟩

/-- What a child of an entry yields, the entry yields. Below a call no frame is left. -/
theorem Entry.Yields.of_below {e c : Entry} {d : Definition} (hc : c ∈ below e.1 e.2)
    (h : c.Yields d) :
    e.Yields d ∧ (e.2.kind = .call → ∃ m ∈ e.2.preorder, m.span = d.target.span) := by
  obtain ⟨k, hk⟩ := List.getElem?_of_mem hc
  obtain ⟨hk, hsite⟩ := getElem?_below hk
  have hsub : ∀ m ∈ c.2.preorder, m ∈ e.2.preorder := fun m hm =>
    Node.mem_preorder.mpr (.inr ⟨c.2, List.mem_of_getElem? hk, hm⟩)
  obtain ⟨m, hm, hcall⟩ := h.call
  rcases h.target with ⟨l, hl, hsolid, hs⟩ | hf
  · exact ⟨⟨⟨m, hsub m hm, hcall⟩, .inl ⟨l, hsub l hl, hsolid, hs⟩, h.covers⟩,
      fun _ => ⟨l, hsub l hl, hs⟩⟩
  · rw [hsite] at hf
    obtain ⟨⟨hsolid, hne⟩, hfr, -⟩ := childSite_frame hf
    refine ⟨⟨⟨m, hsub m hm, hcall⟩, ?_, h.covers⟩, fun hk => absurd hk hne⟩
    rcases hfr with hs | hs
    · exact .inl ⟨e.2, Node.mem_preorder_self _, hsolid, hs.symm⟩
    · exact .inr hs

/-- Every definition that a walk hands out comes from an entry of its agenda. -/
theorem Visits.yields {agenda : List Entry} {answers : List (Definition × Bool)}
    (h : Visits agenda answers) (hok : InOrder agenda) :
    ∀ a ∈ answers, ∃ e ∈ agenda, e.Yields a.1 := by
  induction h with
  | done => intro a ha; cases ha
  | @pass site n agenda answers _ _ ih =>
    intro a ha
    obtain ⟨e, he, hy⟩ := ih hok.expand a ha
    rcases List.mem_append.mp he with he | he
    · exact ⟨(site, n), List.mem_cons_self, (hy.of_below he).1⟩
    · exact ⟨e, List.mem_cons_of_mem _ he, hy⟩
  | @replace site n d agenda answers hd _ ih =>
    intro a ha
    rcases List.mem_cons.mp ha with rfl | ha
    · exact ⟨(site, n), List.mem_cons_self, yields_of_at? (hok.ok _ List.mem_cons_self) hd⟩
    · obtain ⟨e, he, hy⟩ := ih hok.tail a ha
      exact ⟨e, List.mem_cons_of_mem _ he, hy⟩
  | @keep site n d agenda answers hd _ ih =>
    intro a ha
    rcases List.mem_cons.mp ha with rfl | ha
    · exact ⟨(site, n), List.mem_cons_self, yields_of_at? (hok.ok _ List.mem_cons_self) hd⟩
    · obtain ⟨e, he, hy⟩ := ih hok.expand a ha
      rcases List.mem_append.mp he with he | he
      · exact ⟨(site, n), List.mem_cons_self, (hy.of_below he).1⟩
      · exact ⟨e, List.mem_cons_of_mem _ he, hy⟩

/-- Where a definition stands in relation to one that is handed out later: before it, around it
(then it was not replaced), or between the start of the later one's statement and its call. -/
def Placed (a b : Definition × Bool) : Prop :=
  a.1.target.span.Before b.1.target.span ∨
    (a.2 = false ∧ b.1.target.span.Inside a.1.span) ∨
    (b.1.target.span.start ≤ a.1.target.span.start ∧ a.1.target.span.stop ≤ b.1.span.start)

private theorem placed_of_ahead {e f : Entry} {a b : Definition × Bool} (he : e.Ok) (hf : f.Ok)
    (h : e.Ahead f) (ha : e.Yields a.1) (hb : f.Yields b.1) : Placed a b := by
  obtain ⟨ha₁, ha₂⟩ := ha.target_region he
  rcases h with h | ⟨s, hs, h₁, h₂⟩
  · exact .inl (ha₂.trans (h.trans (hb.target_region hf).1))
  · rcases hb.target_inside hf with hbt | hbt
    · exact .inl (ha₂.trans (h₂.trans hbt.1))
    · rw [hs, Option.some.injEq] at hbt
      subst hbt
      exact .inr (.inr ⟨h₁.trans ha₁, ha₂.trans (h₂.trans (hb.span_inside hf).1)⟩)

theorem Visits.placed {agenda : List Entry} {answers : List (Definition × Bool)}
    (h : Visits agenda answers) (hok : InOrder agenda) : answers.Pairwise Placed := by
  induction h with
  | done => exact .nil
  | pass _ _ ih => exact ih hok.expand
  | @replace site n d agenda answers hd hv ih =>
    have he := hok.ok (site, n) List.mem_cons_self
    refine .cons (fun b hb => ?_) (ih hok.tail)
    obtain ⟨f, hf, hy⟩ := hv.yields hok.tail b hb
    exact placed_of_ahead he (hok.tail.ok f hf) ((List.pairwise_cons.mp hok.ahead).1 f hf)
      (yields_of_at? he hd) hy
  | @keep site n d agenda answers hd hv ih =>
    have he := hok.ok (site, n) List.mem_cons_self
    refine .cons (fun b hb => ?_) (ih hok.expand)
    obtain ⟨f, hf, hy⟩ := hv.yields hok.expand b hb
    rcases List.mem_append.mp hf with hf | hf
    · obtain ⟨hk, hs, -⟩ := at?_eq_some hd
      obtain ⟨m, hm, hms⟩ := (Entry.Yields.of_below (e := (site, n)) hf hy).2 hk
      refine .inr (.inl ⟨rfl, ?_⟩)
      rw [hs, ← hms]
      exact (Node.WellNested.of_mem n he.formed.nested hm).2
    · exact placed_of_ahead he (hok.tail.ok f hf) ((List.pairwise_cons.mp hok.ahead).1 f hf)
        (yields_of_at? he hd) hy

/-- A walk over a script starts with its statements, and comes to a definition in one of them. -/
theorem Visits.of_script {source : List Char} {script : Node} {answers : List (Definition × Bool)}
    (hs : script.Faithful source) (h : Visits [(.plain, script)] answers) :
    answers.Pairwise Placed ∧ ∀ a ∈ answers,
      (a.1.span.Inside a.1.target.span ∧ a.1.span.start < a.1.span.stop) ∧
      ∃ c ∈ script.children, (∃ m ∈ c.preorder, m.kind = .call ∧ m.span = a.1.span) ∧
        ∃ m ∈ c.preorder, m.kind.isSolid ∧ m.span = a.1.target.span := by
  have hroot : InOrder [(.plain, script)] :=
    ⟨fun e he => by rw [List.mem_singleton.mp he]; exact ⟨hs.formed, .refl _⟩, by simp⟩
  have hbelow : Visits (Definition.below .plain script ++ []) answers := by
    cases h with
    | pass _ hb => exact hb
    | replace hd _ => exact absurd (at?_eq_some hd).1 (by simp [hs.program])
    | keep hd _ => exact absurd (at?_eq_some hd).1 (by simp [hs.program])
  refine ⟨h.placed hroot, fun a ha => ?_⟩
  obtain ⟨e, he, hy⟩ := hbelow.yields hroot.expand a ha
  have hok := hroot.expand.ok e he
  refine ⟨⟨hy.covers, hy.solid hok⟩, e.2, ?_, hy.call, ?_⟩
  all_goals
    rw [List.append_nil] at he
    obtain ⟨k, hk⟩ := List.getElem?_of_mem he
    obtain ⟨hk, hsite⟩ := getElem?_below hk
  · exact List.mem_of_getElem? hk
  · rcases hy.target with ht | hf
    · exact ht
    · rw [hsite] at hf
      simp [childSite, hs.program, Site.frame?] at hf

/-- The part of what a definition takes the place of that stands before its call: keywords, the
name of a variable and its type. -/
def head (d : Definition) : Span := ⟨d.target.span.start, d.span.start⟩

/-- No definition stands before the call of one that was replaced, inside its statement. -/
def Clear (answers : List (Definition × Bool)) : Prop :=
  ∀ b ∈ answers, b.2 = true → ∀ a ∈ answers, ¬ a.1.span.Inside b.1.head

instance (answers : List (Definition × Bool)) : Decidable (Clear answers) :=
  inferInstanceAs
    (Decidable (∀ b ∈ answers, b.2 = true → ∀ a ∈ answers, ¬ a.1.span.Inside b.1.head))

/-- A definition that was not replaced, nor any inside it. -/
structure Spared (answers : List (Definition × Bool)) (d : Definition) : Prop where
  kept : (d, false) ∈ answers
  alone : ∀ b ∈ answers, b.2 = true → ¬ b.1.span.Inside d.span

def replaced (answers : List (Definition × Bool)) : List Definition :=
  (answers.filter Prod.snd).map Prod.fst

theorem mem_replaced {answers : List (Definition × Bool)} {d : Definition} :
    d ∈ replaced answers ↔ (d, true) ∈ answers := by
  simp [replaced]

section Clear

variable {answers : List (Definition × Bool)}

theorem Clear.apart (h : Clear answers) (hp : answers.Pairwise Placed)
    (hc : ∀ a ∈ answers, a.1.span.Inside a.1.target.span) :
    (replaced answers).Pairwise fun a b => a.target.span.Apart b.target.span := by
  rw [replaced, List.pairwise_map]
  apply (hp.filter Prod.snd).imp_of_mem
  intro a b ha hb hab
  obtain ⟨ha, hta⟩ := List.mem_filter.mp ha
  obtain ⟨hb, htb⟩ := List.mem_filter.mp hb
  rcases hab with hab | ⟨hf, -⟩ | ⟨h₁, h₂⟩
  · exact .inl hab
  · rw [hf] at hta; cases hta
  · exact absurd ⟨h₁.trans (hc a ha).1, (hc a ha).2.trans h₂⟩ (h b hb htb a ha)

theorem Clear.spared (h : Clear answers) (hp : answers.Pairwise Placed)
    (hc : ∀ a ∈ answers, a.1.span.Inside a.1.target.span) {d e : Definition}
    (hd : Spared answers d) (he : e ∈ replaced answers) : d.span.Apart e.target.span := by
  rw [mem_replaced] at he
  obtain ⟨hstart, hstop⟩ := hc _ hd.kept
  have hne : (d, false) ≠ (e, true) := by simp
  have hor : Placed (d, false) (e, true) ∨ Placed (e, true) (d, false) := by
    have hsym : answers.Pairwise fun a b => Placed a b ∨ Placed b a := hp.imp .inl
    have : Std.Symm fun a b => Placed a b ∨ Placed b a := ⟨fun _ _ => Or.symm⟩
    exact hsym.forall hd.kept he hne
  rcases hor with (hb | ⟨-, hin⟩ | ⟨h₁, h₂⟩) | (hb | ⟨hf, -⟩ | ⟨-, h₂⟩)
  · exact .inl (hstop.trans hb)
  · exact absurd ((hc _ he).trans hin) (hd.alone _ he rfl)
  · exact absurd ⟨h₁.trans hstart, hstop.trans h₂⟩ (h _ he rfl _ hd.kept)
  · exact .inr (hb.trans hstart)
  · cases hf
  · exact .inr h₂

/-- What stands before the call of a definition is not apart from its statement. -/
private theorem not_apart_of_head {s : Span} {e : Definition} (hs : s.start < s.stop)
    (hc : e.span.Inside e.target.span) (he : e.span.start < e.span.stop) (hin : s.Inside e.head) :
    ¬ s.Apart e.target.span := by
  obtain ⟨h₁, h₂⟩ := hin
  obtain ⟨h₃, h₄⟩ := hc
  simp only [head] at h₁ h₂
  exact Span.Inside.not_apart ⟨h₁, by omega⟩ hs

/-- A walk is clear if no replacement overlaps another, or what it should not touch. -/
theorem clear_of_apart
    (hc : ∀ a ∈ answers, a.1.span.Inside a.1.target.span ∧ a.1.span.start < a.1.span.stop)
    (hap : (replaced answers).Pairwise fun a b => a.target.span.Apart b.target.span)
    (hsp : ∀ d, Spared answers d → ∀ e ∈ replaced answers, d.span.Apart e.target.span) :
    Clear answers := by
  have hsym : Std.Symm fun a b : Definition => a.target.span.Apart b.target.span :=
    ⟨fun _ _ => Span.Apart.symm⟩
  have hreplaced : ∀ d e, (d, true) ∈ answers → (e, true) ∈ answers → ¬ d.span.Inside e.head := by
    intro d e hd he hin
    have hne : d ≠ e := by
      rintro rfl
      exact absurd hin.2 (Nat.not_le.mpr (hc _ he).2)
    have hapart := hap.forall (mem_replaced.mpr hd) (mem_replaced.mpr he) hne
    exact not_apart_of_head (hc _ hd).2 (hc _ he).1 (hc _ he).2 hin (hapart.mono (hc _ hd).1)
  rintro ⟨e, te⟩ he rfl ⟨d, td⟩ hd hin
  cases td with
  | true => exact hreplaced d e hd he hin
  | false =>
    by_cases halone : ∀ b ∈ answers, b.2 = true → ¬ b.1.span.Inside d.span
    · exact not_apart_of_head (hc _ hd).2 (hc _ he).1 (hc _ he).2 hin
        (hsp d ⟨hd, halone⟩ e (mem_replaced.mpr he))
    · -- A replaced definition inside `d` stands in the statement of `e` as well.
      simp only [not_forall, not_not] at halone
      obtain ⟨⟨f, tf⟩, hf, rfl, hfd⟩ := halone
      exact hreplaced f e hf he (hfd.trans hin)

end Clear

end EmberClasses.Definition
