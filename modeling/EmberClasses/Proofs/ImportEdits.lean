import EmberClasses.Import.Plan
import EmberClasses.Proofs.Nesting
import Mathlib.Data.List.Nodup

/-! Edits of imports do not overlap each other, nor any statement that is no import. An import that
is deleted takes its line feed along, and new imports are put right after the last one, so the
places where edits may touch need care. -/

namespace EmberClasses.Import

open Script (Node Kind)

namespace Plan

def Distinct (changed : List (Nat × Declaration)) : Prop := (changed.map Prod.fst).Nodup

theorem mem_change {i k : Nat} {d : Declaration} {f : Declaration → Declaration}
    {changed : List (Nat × Declaration)} (h : k ∈ (change i d f changed).map Prod.fst) :
    k = i ∨ k ∈ changed.map Prod.fst := by
  induction changed with
  | nil => simpa [change] using h
  | cons entry rest ih =>
    obtain ⟨j, e⟩ := entry
    unfold change at h
    split at h
    · exact .inr h
    · rcases List.mem_cons.mp h with rfl | h
      · exact .inr List.mem_cons_self
      · exact (ih h).imp_right (List.mem_cons_of_mem _)

theorem Distinct.change {i : Nat} {d : Declaration} {f : Declaration → Declaration}
    {changed : List (Nat × Declaration)} (h : Distinct changed) :
    Distinct (change i d f changed) := by
  induction changed with
  | nil => simp [Distinct, Plan.change]
  | cons entry rest ih =>
    obtain ⟨j, e⟩ := entry
    unfold Plan.change
    split
    · exact h
    · rename_i hne
      obtain ⟨hj, hrest⟩ := List.nodup_cons.mp h
      refine List.nodup_cons.mpr ⟨fun hmem => ?_, ih hrest⟩
      rcases mem_change hmem with rfl | hmem
      · exact hne rfl
      · exact hj hmem

theorem Distinct.release (imports : List Declaration) {changed : List (Nat × Declaration)}
    (r : Requirement) (h : Distinct changed) : Distinct (release imports changed r) := by
  unfold Plan.release
  refine List.foldlRecOn (motive := Distinct) _ _ h fun c hc ⟨d, i⟩ _ => ?_
  dsimp only
  split
  · exact hc.change
  · exact hc

theorem Distinct.provide (imports : List Declaration) {plan : Plan} (module : String)
    (wanted : List Requirement) (h : Distinct plan.changed) :
    Distinct (plan.provide imports module wanted).changed := by
  have hreleased (missing : List Requirement) :
      Distinct (missing.foldl (Plan.release imports) plan.changed) :=
    List.foldlRecOn (motive := Distinct) _ _ h fun _ hc r _ => hc.release imports r
  unfold Plan.provide
  dsimp only
  split
  · exact h
  · split
    · exact (hreleased _).change
    · exact hreleased _

theorem make_distinct (imports : List Declaration) (wanted : List Builtin) :
    Distinct (make imports wanted).changed :=
  List.foldlRecOn (motive := fun plan : Plan => Distinct plan.changed) _ _ List.nodup_nil
    fun _ hplan group _ => hplan.provide imports group.1 group.2

/-- A declaration is written over, or deleted together with the line feed behind it. The last one
leaves its line feed, since new declarations may follow there. -/
theorem changeEdit_span (source : List Char) (imports : List Declaration) (quote : Quote)
    (before after : Declaration) :
    let e := changeEdit source imports quote before after
    e.span = before.span ∨ e.span = ⟨before.span.start, before.span.stop + 1⟩ ∧
      some before.span.stop ≠ lastEnd? imports ∧
      (Text.dropBytes before.span.stop source).head? = some '\n' := by
  dsimp only
  unfold changeEdit
  split
  · dsimp only
    split
    · rename_i h; exact .inr ⟨rfl, h⟩
    · exact .inl rfl
  · exact .inl rfl

/-- An edit of a declaration is apart from all that is apart from it, a line feed excepted. -/
theorem changeEdit_apart {source : List Char} {imports : List Declaration} {quote : Quote}
    {before after : Declaration} {s : Span} (h : s.Apart before.span)
    (hs : (Text.dropBytes s.start source).head? ≠ some '\n') :
    s.Apart (changeEdit source imports quote before after).span := by
  rcases changeEdit_span source imports quote before after with he | ⟨he, -, hnl⟩
  · rwa [he]
  · rw [he]
    rcases h with h | h
    · exact .inl h
    · have hne : before.span.stop ≠ s.start := by
        intro heq
        rw [heq] at hnl
        exact hs hnl
      exact .inr (Nat.lt_of_le_of_ne h hne)

end Plan

/-- Imports in the order of the source, each of them on boundaries and starting with a token. -/
structure Arranged (source : List Char) (imports : List Declaration) : Prop where
  ordered : imports.Pairwise fun a b => a.span.Before b.span
  solid : ∀ d ∈ imports, d.span.start < d.span.stop
  boundaries : ∀ d ∈ imports, d.span.OnBoundaries source
  starts : ∀ d ∈ imports, (Text.dropBytes d.span.start source).head? ≠ some '\n'

theorem Declaration.ofStatement?_eq_some {n : Node} {d : Declaration}
    (h : Declaration.ofStatement? n = some d) :
    d.span = n.span ∧ ∃ typeOnly, n.kind = .importDeclaration typeOnly := by
  unfold Declaration.ofStatement? at h
  split at h
  · rename_i typeOnly hk
    cases h
    refine ⟨?_, typeOnly, hk⟩
    refine List.foldlRecOn (motive := fun d : Declaration => d.span = n.span) _ _ rfl
      fun d hd part _ => ?_
    unfold Declaration.read
    split <;> exact hd
  · cases h

theorem mem_ofScript {script : Node} {d : Declaration} (h : d ∈ Declaration.ofScript script) :
    ∃ n ∈ script.children, n.span = d.span ∧ ∃ typeOnly, n.kind = .importDeclaration typeOnly := by
  obtain ⟨n, hn, hd⟩ := List.mem_filterMap.mp h
  obtain ⟨hs, hk⟩ := Declaration.ofStatement?_eq_some hd
  exact ⟨n, hn, hs.symm, hk⟩

theorem arranged_ofScript {source : List Char} {script : Node} (h : script.Faithful source) :
    Arranged source (Declaration.ofScript script) := by
  have hsolid {n : Node} {typeOnly : Bool} (hk : n.kind = .importDeclaration typeOnly) :
      n.kind.isSolid := by simp [hk, Kind.isSolid]
  refine ⟨?_, fun d hd => ?_, fun d hd => ?_, fun d hd => ?_⟩
  · rw [Declaration.ofScript, List.pairwise_filterMap]
    refine h.formed.nested.children_from.pairwise.imp fun {m n} hmn d hd e he => ?_
    rw [(Declaration.ofStatement?_eq_some hd).1, (Declaration.ofStatement?_eq_some he).1]
    exact hmn
  all_goals obtain ⟨n, hn, hs, typeOnly, hk⟩ := mem_ofScript hd
  all_goals have hmem := Node.mem_preorder_child hn
  · rw [← hs]; exact h.formed.solid n hmem (hsolid hk)
  · rw [← hs]; exact h.boundaries n hmem
  · rw [← hs]; exact h.starts n hmem (hsolid hk)

namespace Arranged

variable {source : List Char} {imports : List Declaration}

theorem before_of_lt (h : Arranged source imports) {i j : Nat} {a b : Declaration} (hij : i < j)
    (ha : imports[i]? = some a) (hb : imports[j]? = some b) : a.span.Before b.span := by
  obtain ⟨hi, rfl⟩ := List.getElem?_eq_some_iff.mp ha
  obtain ⟨hj, rfl⟩ := List.getElem?_eq_some_iff.mp hb
  exact List.pairwise_iff_getElem.mp h.ordered i j hi hj hij

/-- Edits of different declarations are apart: a line feed behind one comes before the next. -/
theorem changeEdit_apart (h : Arranged source imports) {quote : Quote} {i j : Nat}
    {a b a' b' : Declaration} (hij : i ≠ j) (ha : imports[i]? = some a)
    (hb : imports[j]? = some b) :
    (Plan.changeEdit source imports quote a a').span.Apart
      (Plan.changeEdit source imports quote b b').span := by
  have hlt : ∀ {i j : Nat} {a b a' b' : Declaration}, i < j → imports[i]? = some a →
      imports[j]? = some b → (Plan.changeEdit source imports quote b b').span.Apart
        (Plan.changeEdit source imports quote a a').span := by
    intro i j a b a' b' hij ha hb
    have hstart : (Plan.changeEdit source imports quote b b').span.start = b.span.start := by
      rcases Plan.changeEdit_span source imports quote b b' with he | ⟨he, -⟩ <;> rw [he]
    apply Plan.changeEdit_apart
    · refine .inr ?_
      rw [Span.Before, hstart]
      exact h.before_of_lt hij ha hb
    · rw [hstart]
      exact h.starts b (List.mem_of_getElem? hb)
  rcases Nat.lt_or_gt_of_ne hij with hij | hij
  · exact (hlt hij ha hb).symm
  · exact hlt hij hb ha

theorem stop_le_lastEnd (h : Arranged source imports) {d : Declaration} {last : Nat}
    (hd : d ∈ imports) (hlast : Plan.lastEnd? imports = some last) : d.span.stop ≤ last := by
  obtain ⟨l, hl, rfl⟩ := Option.map_eq_some_iff.mp hlast
  obtain ⟨init, rfl⟩ := List.getLast?_eq_some_iff.mp hl
  rcases List.mem_append.mp hd with hd | hd
  · have hbefore : d.span.stop ≤ l.span.start :=
      (List.pairwise_append.mp h.ordered).2.2 d hd l List.mem_cons_self
    exact hbefore.trans (h.solid l (List.mem_of_getLast? hl)).le
  · rw [List.mem_singleton.mp hd]

/-- No edit of a declaration reaches behind the last declaration. -/
theorem changeEdit_stop_le (h : Arranged source imports) {quote : Quote} {d d' : Declaration}
    {last : Nat} (hd : d ∈ imports) (hlast : Plan.lastEnd? imports = some last) :
    (Plan.changeEdit source imports quote d d').span.stop ≤ last := by
  have hle := h.stop_le_lastEnd hd hlast
  rcases Plan.changeEdit_span source imports quote d d' with he | ⟨he, hne, -⟩
  · rw [he]
    exact hle
  · have : d.span.stop ≠ last := fun heq => hne (by rw [hlast, heq])
    rw [he]
    dsimp only
    omega

end Arranged

theorem Plan.addEdit_span (imports : List Declaration) (quote : Quote) (added : List Declaration) :
    (Plan.addEdit imports quote added).span = .point ((Plan.lastEnd? imports).getD 0) := by
  unfold Plan.addEdit
  dsimp only
  split
  · rename_i hlast; rw [hlast]; rfl
  · rename_i hlast; rw [hlast]; rfl

section Edits

variable {source : List Char} {imports : List Declaration} {quote : Quote} {plan : Plan}

theorem Plan.mem_edits {e : Edit} (h : e ∈ plan.edits source imports quote) :
    (∃ c ∈ plan.changed, ∃ before, imports[c.1]? = some before ∧
        e = Plan.changeEdit source imports quote before c.2) ∨
      e = Plan.addEdit imports quote plan.added := by
  have hchange {e : Edit} (he : e ∈ plan.changed.filterMap fun c =>
      imports[c.1]?.map fun before => Plan.changeEdit source imports quote before c.2) :
      ∃ c ∈ plan.changed, ∃ before, imports[c.1]? = some before ∧
        e = Plan.changeEdit source imports quote before c.2 := by
    obtain ⟨c, hc, hsome⟩ := List.mem_filterMap.mp he
    obtain ⟨before, hb, rfl⟩ := Option.map_eq_some_iff.mp hsome
    exact ⟨c, hc, before, hb, rfl⟩
  unfold Plan.edits at h
  dsimp only at h
  split at h
  · exact .inl (hchange h)
  · rcases List.mem_append.mp h with h | h
    · exact .inl (hchange h)
    · exact .inr (List.mem_singleton.mp h)

/-- The edits of the imports of a file can be made together. -/
theorem Plan.edits_apart (h : Arranged source imports) (hplan : Plan.Distinct plan.changed) :
    (plan.edits source imports quote).Pairwise fun a b => a.span.Apart b.span := by
  have hchanges : (plan.changed.filterMap fun c =>
      imports[c.1]?.map fun before => Plan.changeEdit source imports quote before c.2).Pairwise
      fun a b => a.span.Apart b.span := by
    rw [List.pairwise_filterMap]
    refine (List.pairwise_map.mp hplan).imp fun {a b} hab e he f hf => ?_
    obtain ⟨c, hc, rfl⟩ := Option.map_eq_some_iff.mp he
    obtain ⟨d, hd, rfl⟩ := Option.map_eq_some_iff.mp hf
    exact h.changeEdit_apart hab hc hd
  unfold Plan.edits
  dsimp only
  split
  · exact hchanges
  · refine List.pairwise_append.mpr ⟨hchanges, by simp, fun e he f hf => ?_⟩
    obtain ⟨⟨i, after⟩, -, hsome⟩ := List.mem_filterMap.mp he
    obtain ⟨before, hb, rfl⟩ := Option.map_eq_some_iff.mp hsome
    have hmem := List.mem_of_getElem? hb
    rw [List.mem_singleton.mp hf, Plan.addEdit_span]
    cases hlast : Plan.lastEnd? imports with
    | none =>
      rw [Plan.lastEnd?, Option.map_eq_none_iff, List.getLast?_eq_none_iff] at hlast
      rw [hlast] at hmem
      cases hmem
    | some last => exact .inl (h.changeEdit_stop_le hmem hlast)

/-- What is apart from all imports, and starts with a token, is apart from their edits. -/
theorem Plan.apart_of_imports {s : Span} (hs : ∀ d ∈ imports, s.Apart d.span)
    (hstart : (Text.dropBytes s.start source).head? ≠ some '\n') (hsolid : Arranged source imports)
    {e : Edit} (he : e ∈ plan.edits source imports quote) : s.Apart e.span := by
  rcases Plan.mem_edits he with ⟨c, -, before, hb, rfl⟩ | rfl
  · exact Plan.changeEdit_apart (hs before (List.mem_of_getElem? hb)) hstart
  · rw [Plan.addEdit_span]
    cases hlast : Plan.lastEnd? imports with
    | none => exact .inr (Nat.zero_le _)
    | some last =>
      obtain ⟨l, hl, rfl⟩ := Option.map_eq_some_iff.mp hlast
      have hmem := List.mem_of_getLast? hl
      rcases hs l hmem with h | h
      · exact .inl (Nat.le_trans h (hsolid.solid l hmem).le)
      · exact .inr h

/-- Edits of imports cut the source between characters. -/
theorem Plan.edits_on_boundaries (h : Arranged source imports) {e : Edit}
    (he : e ∈ plan.edits source imports quote) :
    e.span.start ≤ e.span.stop ∧ e.span.OnBoundaries source := by
  rcases Plan.mem_edits he with ⟨c, -, before, hb, rfl⟩ | rfl
  · have hmem := List.mem_of_getElem? hb
    obtain ⟨hstart, hstop⟩ := h.boundaries before hmem
    have hle := (h.solid before hmem).le
    rcases Plan.changeEdit_span source imports quote before c.2 with hs | ⟨hs, -, hnl⟩
    · rw [hs]
      exact ⟨hle, hstart, hstop⟩
    · rw [hs]
      refine ⟨Nat.le_succ_of_le hle, hstart, (hstop.add_iff 1).mpr ?_⟩
      obtain ⟨rest, hrest⟩ := List.head?_eq_some_iff.mp hnl
      rw [hrest]
      exact Text.isBoundary_byteLength_append ['\n'] rest
  · rw [Plan.addEdit_span]
    refine ⟨le_rfl, ?_⟩
    cases hlast : Plan.lastEnd? imports with
    | none => exact ⟨Text.isBoundary_zero source, Text.isBoundary_zero source⟩
    | some last =>
      obtain ⟨l, hl, rfl⟩ := Option.map_eq_some_iff.mp hlast
      have hstop := (h.boundaries l (List.mem_of_getLast? hl)).2
      exact ⟨hstop, hstop⟩

end Edits

end EmberClasses.Import
