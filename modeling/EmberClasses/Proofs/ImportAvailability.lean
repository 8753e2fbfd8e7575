import EmberClasses.Proofs.ClassBuild
import EmberClasses.Proofs.ImportEdits
import EmberClasses.Proofs.SplicedText
import EmberClasses.Script.Parse
import Mathlib.Logic.Relation

/-! Whether the decorators that a file needs can be used in it once its imports have been edited. A
plan grows in steps: names are taken away from imports of other modules, and missing names are given
to an import of their module or to a new one. Only a name that the module's own imports bind to
something else is never made available. -/

namespace EmberClasses.Import

/-- What a decorator is imported as. A default export has the name `default`. -/
def Requirement.binding (r : Requirement) : Named := ⟨r.imported.getD "default", r.localName⟩

/-- No two decorators of the table have one local name. -/
theorem table_localName {r r' : Requirement} (hr : r ∈ table) (hr' : r' ∈ table)
    (h : r.localName = r'.localName) : r = r' := by
  have hall : ∀ r ∈ table, ∀ r' ∈ table, r.localName = r'.localName → r = r' := by decide
  exact hall r hr r' hr' h

/-- Only one decorator of the table is a default export. -/
theorem table_default {r r' : Requirement} (hr : r ∈ table) (hr' : r' ∈ table)
    (h : r.binding.imported = "default") (h' : r'.imported = none) : r = r' := by
  have hall : ∀ r ∈ table, ∀ r' ∈ table, r.binding.imported = "default" → r'.imported = none →
      r = r' := by
    decide
  exact hall r hr r' hr' h h'

namespace Declaration

/-- The exports of its module that a declaration names, and the names it gives them. -/
def bindings (d : Declaration) : List Named :=
  d.defaultName.toList.map (⟨"default", ·⟩) ++ d.named

/-- The declaration makes a decorator available under its local name. -/
def Provides (d : Declaration) (r : Requirement) : Prop :=
  d.typeOnly = false ∧ d.module = r.module ∧ r.binding ∈ d.bindings

instance (d : Declaration) (r : Requirement) : Decidable (d.Provides r) :=
  inferInstanceAs (Decidable (_ ∧ _ ∧ _))

theorem localName_mem {d : Declaration} {b : Named} (h : b ∈ d.bindings) :
    b.localName ∈ d.localNames := by
  rcases List.mem_append.mp h with h | h
  · obtain ⟨name, hname, rfl⟩ := List.mem_map.mp h
    exact List.mem_append_left _ (List.mem_append_left _ hname)
  · exact List.mem_append_right _ (List.mem_map_of_mem h)

theorem Provides.not_isEmpty {d : Declaration} {r : Requirement} (h : d.Provides r) :
    d.isEmpty = false := by
  unfold isEmpty
  rw [List.isEmpty_eq_false_iff_exists_mem]
  exact ⟨_, localName_mem h.2.2⟩

theorem bindings_remove (d : Declaration) (name : String) :
    (d.remove name).bindings = d.bindings.filter (·.localName ≠ name) := by
  cases hd : d.defaultName with
  | none => simp [bindings, remove, hd]
  | some given =>
    by_cases heq : given = name
    · simp [bindings, remove, hd, heq]
    · simp [bindings, remove, hd, heq, Option.filter]

theorem provides_remove {d : Declaration} {r : Requirement} {name : String} :
    (d.remove name).Provides r ↔ d.Provides r ∧ r.localName ≠ name := by
  unfold Provides
  rw [bindings_remove, List.mem_filter, decide_eq_true_eq]
  show d.typeOnly = false ∧ d.module = r.module ∧ _ ↔ _
  exact ⟨fun ⟨ht, hm, hb, hn⟩ => ⟨⟨ht, hm, hb⟩, hn⟩, fun ⟨⟨ht, hm, hb⟩, hn⟩ => ⟨ht, hm, hb, hn⟩⟩

@[simp] theorem add_module (d : Declaration) (r : Requirement) : (d.add r).module = d.module := by
  unfold add
  split <;> rfl

@[simp] theorem add_typeOnly (d : Declaration) (r : Requirement) :
    (d.add r).typeOnly = d.typeOnly := by
  unfold add
  split <;> rfl

@[simp] theorem addAll_module (d : Declaration) (rs : List Requirement) :
    (rs.foldl add d).module = d.module := by
  induction rs generalizing d with
  | nil => rfl
  | cons r rs ih => rw [List.foldl_cons, ih, add_module]

@[simp] theorem addAll_typeOnly (d : Declaration) (rs : List Requirement) :
    (rs.foldl add d).typeOnly = d.typeOnly := by
  induction rs generalizing d with
  | nil => rfl
  | cons r rs ih => rw [List.foldl_cons, ih, add_typeOnly]

theorem bindings_add_of_default {r : Requirement} (h : r.imported = none) (d : Declaration) :
    (d.add r).bindings = r.binding :: d.named := by
  simp [bindings, add, h, Requirement.binding]

theorem bindings_add_of_named {r : Requirement} {imported : String}
    (h : r.imported = some imported) (d : Declaration) :
    (d.add r).bindings = d.bindings ++ [r.binding] := by
  simp [bindings, add, h, Requirement.binding]

theorem binding_mem_add (d : Declaration) (r : Requirement) : r.binding ∈ (d.add r).bindings := by
  cases h : r.imported with
  | none => simp [bindings_add_of_default h]
  | some imported => simp [bindings_add_of_named h]

theorem mem_bindings_of_add {d : Declaration} {r : Requirement} {b : Named}
    (h : b ∈ (d.add r).bindings) : b ∈ d.bindings ∨ b = r.binding := by
  cases hr : r.imported with
  | none =>
    rw [bindings_add_of_default hr, List.mem_cons] at h
    exact h.symm.imp_left (List.mem_append_right _)
  | some imported =>
    rw [bindings_add_of_named hr, List.mem_append, List.mem_singleton] at h
    exact h

variable {d : Declaration} {r r' : Requirement} {rs : List Requirement}

theorem provides_of_add (hr : r ∈ table) (hr' : r' ∈ table) (h : (d.add r').Provides r) :
    d.Provides r ∨ r' = r := by
  obtain ⟨htype, hm, hmem⟩ := h
  rw [add_typeOnly] at htype
  rw [add_module] at hm
  rcases mem_bindings_of_add hmem with hmem | heq
  · exact .inl ⟨htype, hm, hmem⟩
  · exact .inr (table_localName hr' hr (congrArg Named.localName heq).symm)

/-- An added name takes nothing away: the default export that it might replace is itself. -/
theorem Provides.add (hr : r ∈ table) (hr' : r' ∈ table) (h : d.Provides r) :
    (d.add r').Provides r := by
  obtain ⟨htype, hm, hmem⟩ := h
  refine ⟨by simpa using htype, by simpa using hm, ?_⟩
  cases hi : r'.imported with
  | none =>
    rcases List.mem_append.mp hmem with hdefault | hnamed
    · obtain ⟨name, -, hname⟩ := List.mem_map.mp hdefault
      have heq := table_default hr hr' (congrArg Named.imported hname).symm hi
      subst heq
      exact binding_mem_add d r
    · rw [bindings_add_of_default hi]
      exact List.mem_cons_of_mem _ hnamed
  | some imported =>
    rw [bindings_add_of_named hi]
    exact List.mem_append_left _ hmem

theorem provides_of_addAll (hr : r ∈ table) (hrs : ∀ s ∈ rs, s ∈ table)
    (h : (rs.foldl Declaration.add d).Provides r) : d.Provides r ∨ r ∈ rs := by
  induction rs generalizing d with
  | nil => exact .inl h
  | cons s rs ih =>
    rcases ih (fun t ht => hrs t (List.mem_cons_of_mem s ht)) h with h | h
    · rcases provides_of_add hr (hrs s List.mem_cons_self) h with h | rfl
      · exact .inl h
      · exact .inr List.mem_cons_self
    · exact .inr (List.mem_cons_of_mem s h)

theorem Provides.addAll (hr : r ∈ table) (hrs : ∀ s ∈ rs, s ∈ table) (h : d.Provides r) :
    (rs.foldl Declaration.add d).Provides r := by
  induction rs generalizing d with
  | nil => exact h
  | cons s rs ih =>
    exact ih (fun t ht => hrs t (List.mem_cons_of_mem s ht)) (h.add hr (hrs s List.mem_cons_self))

theorem provides_addAll_of_mem (hrs : ∀ s ∈ rs, s ∈ table) (hmem : r ∈ rs)
    (hd : d.typeOnly = false) (hm : d.module = r.module) :
    (rs.foldl Declaration.add d).Provides r := by
  induction rs generalizing d with
  | nil => cases hmem
  | cons s rs ih =>
    have hrest : ∀ t ∈ rs, t ∈ table := fun t ht => hrs t (List.mem_cons_of_mem s ht)
    rcases List.mem_cons.mp hmem with rfl | hmem
    · have hself : (d.add r).Provides r :=
        ⟨by simpa using hd, by simpa using hm, binding_mem_add d r⟩
      show (rs.foldl Declaration.add (d.add r)).Provides r
      exact Provides.addAll (hrs r List.mem_cons_self) hrest hself
    · exact ih hrest hmem (by simpa using hd) (by simpa using hm)

end Declaration

namespace Plan

theorem lookup_change_self (i : Nat) (d : Declaration) (f : Declaration → Declaration)
    (changed : List (Nat × Declaration)) :
    (change i d f changed).lookup i = some (f ((changed.lookup i).getD d)) := by
  induction changed with
  | nil => simp [change]
  | cons entry rest ih =>
    obtain ⟨j, e⟩ := entry
    unfold change
    by_cases hj : j = i
    · simp [hj]
    · have hne : (i == j) = false := by simpa using Ne.symm hj
      rw [if_neg hj, List.lookup_cons, hne, List.lookup_cons, hne]
      exact ih

theorem lookup_change_ne {i j : Nat} (h : j ≠ i) (d : Declaration) (f : Declaration → Declaration)
    (changed : List (Nat × Declaration)) :
    (change i d f changed).lookup j = changed.lookup j := by
  induction changed with
  | nil =>
    have hne : (j == i) = false := by simpa using h
    simp [change, List.lookup_cons, hne]
  | cons entry rest ih =>
    obtain ⟨k, e⟩ := entry
    unfold change
    by_cases hk : k = i
    · have hne : (j == k) = false := by simpa [hk] using h
      rw [if_pos hk, List.lookup_cons, hne, List.lookup_cons, hne]
    · rw [if_neg hk, List.lookup_cons, List.lookup_cons, ih]

def version (plan : Plan) (i : Nat) (d : Declaration) : Declaration :=
  (plan.changed.lookup i).getD d

/-- The imports of a file after a plan: changed ones in their place, without those that lost all
their names, and the new ones. -/
def result (plan : Plan) (imports : List Declaration) : List Declaration :=
  (imports.zipIdx.filterMap fun (d, i) =>
    if (plan.version i d).isEmpty && !d.isEmpty then none else some (plan.version i d)) ++
    plan.added

theorem mem_result {plan : Plan} {imports : List Declaration} {e : Declaration} :
    e ∈ plan.result imports ↔
      (∃ i d, imports[i]? = some d ∧ plan.version i d = e ∧ (e.isEmpty → d.isEmpty)) ∨
        e ∈ plan.added := by
  unfold result
  rw [List.mem_append, List.mem_filterMap]
  refine or_congr_left ⟨?_, ?_⟩
  · rintro ⟨⟨d, i⟩, hmem, hsome⟩
    have hd := List.mem_zipIdx_iff_getElem?.mp hmem
    dsimp only at hsome
    split at hsome
    · cases hsome
    · rename_i hkept
      cases hsome
      refine ⟨i, d, hd, rfl, fun hempty => ?_⟩
      simpa [hempty] using hkept
  · rintro ⟨i, d, hd, rfl, hkept⟩
    refine ⟨(d, i), List.mem_zipIdx_iff_getElem?.mpr hd, if_neg fun hgone => ?_⟩
    rw [Bool.and_eq_true, Bool.not_eq_true'] at hgone
    rw [hkept hgone.1] at hgone
    exact Bool.noConfusion hgone.2

def changing (plan : Plan) (i : Nat) (d : Declaration) (f : Declaration → Declaration) : Plan :=
  { plan with changed := change i d f plan.changed }

theorem version_changing (plan : Plan) {imports : List Declaration} {i j : Nat}
    {d e : Declaration} (hd : imports[i]? = some d) (he : imports[j]? = some e)
    (f : Declaration → Declaration) :
    (plan.changing i d f).version j e =
      if j = i then f (plan.version j e) else plan.version j e := by
  by_cases hj : j = i
  · subst hj
    rw [hd, Option.some.injEq] at he
    subst he
    rw [if_pos rfl, version, changing, lookup_change_self, Option.getD_some, version]
  · rw [if_neg hj, version, changing, lookup_change_ne hj, version]

/-- Decorators of one module whose names no import of it binds. -/
def Missing (imports : List Declaration) (module : String) (rs : List Requirement) : Prop :=
  ∀ r ∈ rs, r ∈ table ∧ r.module = module ∧ isBound imports r = false

/-- Missing names are given to a declaration that accepts them, or to a new one. -/
inductive Supplies (imports : List Declaration) (rs : List Requirement) : Plan → Plan → Prop where
  | old {plan : Plan} {i : Nat} {d : Declaration} : imports[i]? = some d →
      accepts d.module rs d → Missing imports d.module rs →
      Supplies imports rs plan (plan.changing i d (rs.foldl Declaration.add))
  | new {plan : Plan} {module : String} : Missing imports module rs →
      Supplies imports rs plan
        { plan with
          added := plan.added ++ [rs.foldl Declaration.add { span := .point 0, module }] }

inductive Step (imports : List Declaration) : Plan → Plan → Prop where
  /-- A name is taken away from an import of another module. -/
  | release {plan : Plan} {i : Nat} {d : Declaration} {r : Requirement} : imports[i]? = some d →
      r ∈ table → d.module ≠ r.module →
      Step imports plan (plan.changing i d (·.remove r.localName))
  | supply {plan plan' : Plan} {rs : List Requirement} : Supplies imports rs plan plan' →
      Step imports plan plan'

abbrev Steps (imports : List Declaration) : Plan → Plan → Prop :=
  Relation.ReflTransGen (Step imports)

theorem steps_release {imports : List Declaration} {r : Requirement} (hr : r ∈ table)
    (plan : Plan) : Steps imports plan { plan with changed := release imports plan.changed r } := by
  unfold release
  refine List.foldlRecOn (motive := fun changed => Steps imports plan { plan with changed }) _ _
    .refl fun changed hsteps ⟨d, i⟩ hmem => ?_
  dsimp only
  split
  · rename_i hcond
    simp only [Bool.and_eq_true, decide_eq_true_eq] at hcond
    have hstep : Step imports { plan with changed }
        ({ plan with changed : Plan }.changing i d (·.remove r.localName)) :=
      .release (List.mem_zipIdx_iff_getElem?.mp hmem) hr hcond.1.1
    exact hsteps.tail hstep
  · exact hsteps

theorem steps_releases {imports : List Declaration} {rs : List Requirement}
    (hrs : ∀ r ∈ rs, r ∈ table) (plan : Plan) :
    Steps imports plan { plan with changed := rs.foldl (release imports) plan.changed } :=
  List.foldlRecOn (motive := fun changed => Steps imports plan { plan with changed }) _ _ .refl
    fun changed hsteps r hr => hsteps.trans (steps_release (hrs r hr) { plan with changed })

/-- To provide for a module is to release the missing names and then to supply them. -/
theorem steps_provide (imports : List Declaration) {module : String} {rs : List Requirement}
    (hrs : ∀ r ∈ rs, r ∈ table ∧ r.module = module) (plan : Plan) :
    let missing := rs.filter fun r => !isBound imports r
    (missing = [] ∧ plan.provide imports module rs = plan) ∨
      ∃ mid, Steps imports plan mid ∧
        Supplies imports missing mid (plan.provide imports module rs) := by
  intro missing
  have hmissing : Missing imports module missing := by
    intro r hr
    obtain ⟨hr, hbound⟩ := List.mem_filter.mp hr
    exact ⟨(hrs r hr).1, (hrs r hr).2, by simpa using hbound⟩
  unfold provide
  dsimp only
  by_cases hnone : missing = []
  · exact .inl ⟨hnone, if_pos (List.isEmpty_iff.mpr hnone)⟩
  · rw [if_neg fun hempty => hnone (List.isEmpty_iff.mp hempty)]
    refine .inr ⟨_, steps_releases (fun r hr => (hmissing r hr).1) plan, ?_⟩
    split
    · rename_i d i hfind
      have hd := List.mem_zipIdx_iff_getElem?.mp (List.mem_of_find?_eq_some hfind)
      have haccepts : accepts module missing d = true := by
        simpa using List.find?_some hfind
      have hm : d.module = module := by
        simp only [accepts, Bool.and_eq_true, decide_eq_true_eq] at haccepts
        exact haccepts.1.1.1
      subst hm
      exact .old hd haccepts hmissing
    · exact .new hmissing

end Plan

theorem mem_addToGroup {r s : Requirement} {groups : List (String × List Requirement)} :
    (∃ g ∈ addToGroup r groups, s ∈ g.2) ↔ s = r ∨ ∃ g ∈ groups, s ∈ g.2 := by
  induction groups with
  | nil => simp [addToGroup]
  | cons g groups ih =>
    obtain ⟨module, rs⟩ := g
    unfold addToGroup
    split
    · simp only [List.mem_cons, exists_eq_or_imp, List.mem_append, List.not_mem_nil, or_false]
      tauto
    · simp only [List.mem_cons, exists_eq_or_imp] at ih ⊢
      rw [ih]
      tauto

theorem module_of_addToGroup {r : Requirement} {groups : List (String × List Requirement)}
    (h : ∀ g ∈ groups, ∀ s ∈ g.2, s.module = g.1) :
    ∀ g ∈ addToGroup r groups, ∀ s ∈ g.2, s.module = g.1 := by
  induction groups with
  | nil => simp [addToGroup]
  | cons g groups ih =>
    obtain ⟨module, rs⟩ := g
    have hfirst := h (module, rs) List.mem_cons_self
    have hrest := fun g hg => h g (List.mem_cons_of_mem (module, rs) hg)
    unfold addToGroup
    split
    · rename_i hm
      intro g hg s hs
      rcases List.mem_cons.mp hg with rfl | hg
      · rcases List.mem_append.mp hs with hs | hs
        · exact hfirst s hs
        · rw [List.mem_singleton.mp hs]
          exact hm.symm
      · exact hrest g hg s hs
    · intro g hg s hs
      rcases List.mem_cons.mp hg with rfl | hg
      · exact hfirst s hs
      · exact ih hrest g hg s hs

/-- The groups hold what is required, each in the group of its module. -/
theorem mem_required {wanted : List Builtin} :
    (∀ s, (∃ g ∈ required wanted, s ∈ g.2) ↔ s ∈ table ∧ s.decorator ∈ wanted) ∧
      ∀ g ∈ required wanted, ∀ s ∈ g.2, s.module = g.1 := by
  have hgroup (rs : List Requirement) (groups : List (String × List Requirement))
      (h : ∀ g ∈ groups, ∀ s ∈ g.2, s.module = g.1) :
      (∀ s, (∃ g ∈ rs.foldl (fun groups r => addToGroup r groups) groups, s ∈ g.2) ↔
        s ∈ rs ∨ ∃ g ∈ groups, s ∈ g.2) ∧
      ∀ g ∈ rs.foldl (fun groups r => addToGroup r groups) groups, ∀ s ∈ g.2, s.module = g.1 := by
    induction rs generalizing groups with
    | nil => exact ⟨by simp, h⟩
    | cons r rs ih =>
      obtain ⟨hmem, hmodule⟩ := ih _ (module_of_addToGroup (r := r) h)
      refine ⟨fun s => ?_, hmodule⟩
      rw [List.foldl_cons, hmem, mem_addToGroup, List.mem_cons]
      tauto
  obtain ⟨hmem, hmodule⟩ := hgroup (table.filter fun r => wanted.contains r.decorator) [] (by simp)
  refine ⟨fun s => ?_, hmodule⟩
  unfold required group
  rw [hmem]
  simp [List.mem_filter]

namespace Plan

variable {imports : List Declaration} {wanted : List Builtin} {r : Requirement}

theorem steps_provides (imports : List Declaration) (groups : List (String × List Requirement))
    (hgroups : ∀ g ∈ groups, ∀ s ∈ g.2, s ∈ table ∧ s.module = g.1) (plan : Plan) :
    Steps imports plan (groups.foldl (fun plan g => plan.provide imports g.1 g.2) plan) := by
  refine List.foldlRecOn (motive := Steps imports plan) _ _ .refl fun mid hmid g hg => ?_
  rcases steps_provide imports (hgroups g hg) mid with ⟨-, hsame⟩ | ⟨_, hfirst, hlast⟩
  · rw [hsame]
    exact hmid
  · exact (hmid.trans hfirst).tail (.supply hlast)

private theorem required_ok (wanted : List Builtin) :
    ∀ g ∈ required wanted, ∀ s ∈ g.2, s ∈ table ∧ s.module = g.1 :=
  fun g hg s hs => ⟨((mem_required.1 s).mp ⟨g, hg, hs⟩).1, mem_required.2 g hg s hs⟩

theorem steps_make (imports : List Declaration) (wanted : List Builtin) :
    Steps imports {} (make imports wanted) :=
  steps_provides imports (required wanted) (required_ok wanted) {}

/-- A wanted name that is not bound is supplied in one of the steps. -/
theorem make_supplies (hr : r ∈ table) (hw : r.decorator ∈ wanted)
    (hbound : isBound imports r = false) :
    ∃ rs before after, r ∈ rs ∧ Steps imports {} before ∧ Supplies imports rs before after ∧
      Steps imports after (make imports wanted) := by
  obtain ⟨g, hg, hmem⟩ := (mem_required.1 r).mpr ⟨hr, hw⟩
  obtain ⟨earlier, later, hsplit⟩ := List.append_of_mem hg
  have hok : ∀ h ∈ earlier ++ g :: later, ∀ s ∈ h.2, s ∈ table ∧ s.module = h.1 :=
    hsplit ▸ required_ok wanted
  have hmissing : r ∈ g.2.filter fun r => !isBound imports r :=
    List.mem_filter.mpr ⟨hmem, by simp [hbound]⟩
  have hearlier := steps_provides imports earlier
    (fun h hh => hok h (List.mem_append_left _ hh)) {}
  rcases steps_provide imports (hok g (by simp)) (earlier.foldl
      (fun plan g => plan.provide imports g.1 g.2) {}) with ⟨hnone, -⟩ | ⟨mid, hmid, hsupplies⟩
  · rw [hnone] at hmissing
    cases hmissing
  · refine ⟨_, mid, _, hmissing, hearlier.trans hmid, hsupplies, ?_⟩
    have hlater := steps_provides imports later
      (fun h hh => hok h (by simp [hh])) (Plan.provide imports (earlier.foldl
        (fun plan g => plan.provide imports g.1 g.2) {}) g.1 g.2)
    have hmake : make imports wanted = later.foldl (fun plan g => plan.provide imports g.1 g.2)
        (Plan.provide imports (earlier.foldl (fun plan g => plan.provide imports g.1 g.2) {})
          g.1 g.2) := by
      rw [make, hsplit, List.foldl_append, List.foldl_cons]
    rw [hmake]
    exact hlater

/-- What a plan has made of the imports: names come only from the imports themselves or from the
decorators that no import binds. -/
structure Sound (imports : List Declaration) (plan : Plan) : Prop where
  same : ∀ i d, imports[i]? = some d →
    (plan.version i d).typeOnly = d.typeOnly ∧ (plan.version i d).module = d.module
  old : ∀ i d, imports[i]? = some d → ∀ r ∈ table, (plan.version i d).Provides r →
    d.Provides r ∨ isBound imports r = false
  new : ∀ e ∈ plan.added, ∀ r ∈ table, e.Provides r → isBound imports r = false

theorem Sound.changing {plan : Plan} (h : Sound imports plan) {i : Nat} {d : Declaration}
    (hd : imports[i]? = some d) {f : Declaration → Declaration}
    (htype : ∀ e, (f e).typeOnly = e.typeOnly) (hmodule : ∀ e, (f e).module = e.module)
    (hf : ∀ e, ∀ r ∈ table, (f e).Provides r → e.Provides r ∨ isBound imports r = false) :
    Sound imports (plan.changing i d f) := by
  refine ⟨fun j e he => ?_, fun j e he r hr hp => ?_, h.new⟩
  · rw [version_changing plan hd he]
    split
    · rw [htype, hmodule]
      exact h.same j e he
    · exact h.same j e he
  · rw [version_changing plan hd he] at hp
    split at hp
    · rcases hf _ r hr hp with hp | hbound
      · exact h.old j e he r hr hp
      · exact .inr hbound
    · exact h.old j e he r hr hp

theorem Sound.step {plan plan' : Plan} (h : Sound imports plan) (hstep : Step imports plan plan') :
    Sound imports plan' := by
  cases hstep with
  | release hd hr hm =>
    exact h.changing hd (fun _ => rfl) (fun _ => rfl)
      fun e r _ hp => .inl (Declaration.provides_remove.mp hp).1
  | supply hsupplies =>
    cases hsupplies with
    | @old i d hd haccepts hmissing =>
      refine h.changing hd (by simp) (by simp) fun e r hr hp => ?_
      rcases Declaration.provides_of_addAll hr (fun s hs => (hmissing s hs).1) hp with hp | hmem
      · exact .inl hp
      · exact .inr (hmissing r hmem).2.2
    | @new module hmissing =>
      refine ⟨h.same, h.old, fun e he r hr hp => ?_⟩
      rcases List.mem_append.mp he with he | he
      · exact h.new e he r hr hp
      · rw [List.mem_singleton.mp he] at hp
        rcases Declaration.provides_of_addAll hr (fun s hs => (hmissing s hs).1) hp with hp | hmem
        · exact absurd hp.not_isEmpty (by simp [Declaration.isEmpty, Declaration.localNames])
        · exact (hmissing r hmem).2.2

theorem Sound.steps {plan plan' : Plan} (h : Sound imports plan)
    (hsteps : Steps imports plan plan') : Sound imports plan' := by
  induction hsteps with
  | refl => exact h
  | tail _ hstep ih => exact ih.step hstep

theorem sound_empty (imports : List Declaration) : Sound imports {} where
  same i d _ := ⟨rfl, rfl⟩
  old i d _ r _ hp := .inl hp
  new e he := by cases he

/-- The decorator can be used after the plan. -/
def Available (imports : List Declaration) (r : Requirement) (plan : Plan) : Prop :=
  ∃ e ∈ plan.result imports, e.Provides r

theorem available_iff {plan : Plan} : Available imports r plan ↔
    (∃ i d, imports[i]? = some d ∧ (plan.version i d).Provides r) ∨
      ∃ e ∈ plan.added, e.Provides r := by
  unfold Available
  constructor
  · rintro ⟨e, he, hp⟩
    rcases mem_result.mp he with ⟨i, d, hd, rfl, -⟩ | he
    · exact .inl ⟨i, d, hd, hp⟩
    · exact .inr ⟨e, he, hp⟩
  · rintro (⟨i, d, hd, hp⟩ | ⟨e, he, hp⟩)
    · refine ⟨_, mem_result.mpr (.inl ⟨i, d, hd, rfl, fun hempty => ?_⟩), hp⟩
      rw [hp.not_isEmpty] at hempty
      cases hempty
    · exact ⟨e, mem_result.mpr (.inr he), hp⟩

theorem Available.changing {plan : Plan} (h : Available imports r plan) {i : Nat}
    {d : Declaration} (hd : imports[i]? = some d) {f : Declaration → Declaration}
    (hf : (plan.version i d).Provides r → (f (plan.version i d)).Provides r) :
    Available imports r (plan.changing i d f) := by
  rw [available_iff] at h ⊢
  rcases h with ⟨j, e, he, hp⟩ | h
  · refine .inl ⟨j, e, he, ?_⟩
    rw [version_changing plan hd he]
    split
    · rename_i hj
      subst hj
      rw [hd, Option.some.injEq] at he
      subst he
      exact hf hp
    · exact hp
  · exact .inr h

/-- What is available stays so: a name is released only where its own module does not provide it. -/
theorem Available.step {plan plan' : Plan} (hr : r ∈ table) (hs : Sound imports plan)
    (h : Available imports r plan) (hstep : Step imports plan plan') :
    Available imports r plan' := by
  cases hstep with
  | @release i d s hd hstable hm =>
    refine h.changing hd fun hp => Declaration.provides_remove.mpr ⟨hp, fun hlocal => ?_⟩
    have heq := table_localName hr hstable hlocal
    subst heq
    exact hm ((hs.same i d hd).2.symm.trans hp.2.1)
  | supply hsupplies =>
    cases hsupplies with
    | old hd haccepts hmissing =>
      exact h.changing hd fun hp => hp.addAll hr fun s hs => (hmissing s hs).1
    | new hmissing =>
      rw [available_iff] at h ⊢
      refine h.imp_right ?_
      rintro ⟨e, he, hp⟩
      exact ⟨e, List.mem_append_left _ he, hp⟩

theorem Available.steps {plan plan' : Plan} (hr : r ∈ table) (hs : Sound imports plan)
    (h : Available imports r plan) (hsteps : Steps imports plan plan') :
    Available imports r plan' := by
  induction hsteps with
  | refl => exact h
  | tail hearlier hstep ih => exact ih.step hr (hs.steps hearlier) hstep

theorem Supplies.available {rs : List Requirement} {plan plan' : Plan}
    (h : Supplies imports rs plan plan') (hs : Sound imports plan) (hr : r ∈ rs) :
    Available imports r plan' := by
  rw [available_iff]
  cases h with
  | @old i d hd haccepts hmissing =>
    refine .inl ⟨i, d, hd, ?_⟩
    rw [version_changing plan hd hd, if_pos rfl]
    simp only [accepts, Bool.and_eq_true, Bool.not_eq_true'] at haccepts
    obtain ⟨htype, hmodule⟩ := hs.same i d hd
    exact Declaration.provides_addAll_of_mem (fun s hs => (hmissing s hs).1) hr
      (htype.trans haccepts.1.1.2) (hmodule.trans (hmissing r hr).2.1.symm)
  | @new module hmissing =>
    exact .inr ⟨_, List.mem_append_right _ (List.mem_singleton_self _),
      Declaration.provides_addAll_of_mem (fun s hs => (hmissing s hs).1) hr rfl
        (hmissing r hr).2.1.symm⟩

end Plan

/-- Imports of the module of a decorator bind its local name, but none of them to the decorator. -/
def Shadowed (imports : List Declaration) (r : Requirement) : Prop :=
  (∃ d ∈ imports, d.typeOnly = false ∧ d.module = r.module ∧ r.localName ∈ d.localNames) ∧
    ∀ d ∈ imports, ¬ d.Provides r

instance (imports : List Declaration) (r : Requirement) : Decidable (Shadowed imports r) :=
  inferInstanceAs (Decidable ((∃ d ∈ imports, _ ∧ _ ∧ _) ∧ ∀ d ∈ imports, ¬ _))

theorem isBound_iff {imports : List Declaration} {r : Requirement} :
    Plan.isBound imports r = true ↔
      ∃ d ∈ imports, d.typeOnly = false ∧ d.module = r.module ∧ r.localName ∈ d.localNames := by
  simp [Plan.isBound, Declaration.binds, and_assoc]

/-- A plan makes exactly those decorators available that are not shadowed. -/
theorem Plan.available_make_iff {imports : List Declaration} {wanted : List Builtin}
    {r : Requirement} (hr : r ∈ table) (hw : r.decorator ∈ wanted) :
    Available imports r (make imports wanted) ↔ ¬ Shadowed imports r := by
  constructor
  · rintro h ⟨hbound, hnone⟩
    have hsound := (sound_empty imports).steps (steps_make imports wanted)
    rw [← isBound_iff] at hbound
    rcases available_iff.mp h with ⟨i, d, hd, hp⟩ | ⟨e, he, hp⟩
    · rcases hsound.old i d hd r hr hp with hp | hfree
      · exact hnone d (List.mem_of_getElem? hd) hp
      · rw [hbound] at hfree
        cases hfree
    · have hfree := hsound.new e he r hr hp
      rw [hbound] at hfree
      cases hfree
  · intro h
    cases hbound : isBound imports r with
    | true =>
      have hprovided : ∃ d ∈ imports, d.Provides r := by
        by_contra hnone
        exact h ⟨isBound_iff.mp hbound, fun d hd hp => hnone ⟨d, hd, hp⟩⟩
      obtain ⟨d, hd, hp⟩ := hprovided
      obtain ⟨i, hi⟩ := List.getElem?_of_mem hd
      have hfirst : Available imports r {} := available_iff.mpr (.inl ⟨i, d, hi, hp⟩)
      exact hfirst.steps hr (sound_empty imports) (steps_make imports wanted)
    | false =>
      obtain ⟨rs, before, after, hmem, hbefore, hsupplies, hafter⟩ := make_supplies hr hw hbound
      have hsound := (sound_empty imports).steps hbefore
      exact (hsupplies.available hsound hmem).steps hr (hsound.step (.supply hsupplies)) hafter

/-- Where a declaration stands after edits: where it stood, in the place of an import, or in a row
of new ones. -/
inductive Declaration.StandsIn (e : Declaration) (imports : List Declaration) (quote : Quote)
    (edits : List Edit) : Prop where
  | kept (hmem : e ∈ imports) (hapart : ∀ edit ∈ edits, e.span.Apart edit.span)
  | rewritten {d : Declaration} (hmem : d ∈ imports)
      (hedit : ⟨d.span, (e.render quote).toList⟩ ∈ edits)
  | added {ds : List Declaration} (hmem : e ∈ ds) (hedit : Plan.addEdit imports quote ds ∈ edits)

section Text

variable {source : List Char} {imports : List Declaration} {quote : Quote} {plan : Plan}

theorem Plan.changeEdit_mem {i : Nat} {before after : Declaration}
    (hbefore : imports[i]? = some before) (hafter : plan.changed.lookup i = some after) :
    changeEdit source imports quote before after ∈ plan.edits source imports quote := by
  obtain ⟨earlier, later, hsplit, -⟩ := List.lookup_eq_some_iff.mp hafter
  have hmem : changeEdit source imports quote before after ∈ plan.changed.filterMap fun c =>
      imports[c.1]?.map fun before => changeEdit source imports quote before c.2 :=
    List.mem_filterMap.mpr ⟨(i, after), by simp [hsplit], by simp [hbefore]⟩
  unfold edits
  dsimp only
  split
  · exact hmem
  · exact List.mem_append_left _ hmem

/-- An import that is not changed is left alone by all edits. -/
theorem Arranged.apart_of_unchanged (h : Arranged source imports) {i : Nat} {d : Declaration}
    (hd : imports[i]? = some d) (hsame : plan.changed.lookup i = none) {e : Edit}
    (he : e ∈ plan.edits source imports quote) : d.span.Apart e.span := by
  have hmem := List.mem_of_getElem? hd
  rcases Plan.mem_edits he with ⟨c, hc, before, hbefore, rfl⟩ | rfl
  · have hne : i ≠ c.1 := by simpa using List.lookup_eq_none_iff.mp hsame c hc
    refine Plan.changeEdit_apart ?_ (h.starts d hmem)
    rcases Nat.lt_or_gt_of_ne hne with hlt | hlt
    · exact .inl (h.before_of_lt hlt hd hbefore)
    · exact .inr (h.before_of_lt hlt hbefore hd)
  · rw [Plan.addEdit_span]
    cases hlast : Plan.lastEnd? imports with
    | none =>
      rw [Plan.lastEnd?, Option.map_eq_none_iff, List.getLast?_eq_none_iff] at hlast
      rw [hlast] at hmem
      cases hmem
    | some last => exact .inl (h.stop_le_lastEnd hmem hlast)

/-- Every declaration of a plan has its place among the edits. -/
theorem Plan.standsIn_edits (h : Arranged source imports) {e : Declaration}
    (he : e ∈ plan.result imports) :
    e.StandsIn imports quote (plan.edits source imports quote) := by
  rcases mem_result.mp he with ⟨i, d, hd, rfl, hkept⟩ | he
  · cases hlookup : plan.changed.lookup i with
    | none =>
      rw [version, hlookup, Option.getD_none]
      exact .kept (List.mem_of_getElem? hd) fun edit hedit =>
        h.apart_of_unchanged hd hlookup hedit
    | some after =>
      rw [version, hlookup, Option.getD_some] at hkept ⊢
      have hnotgone : ¬ (after.isEmpty && !d.isEmpty) = true := by
        rw [Bool.and_eq_true, Bool.not_eq_true']
        rintro ⟨hafter, hbefore⟩
        rw [hkept hafter] at hbefore
        cases hbefore
      have hedit : changeEdit source imports quote d after =
          ⟨d.span, (after.render quote).toList⟩ := by
        rw [changeEdit, if_neg hnotgone]
      exact .rewritten (List.mem_of_getElem? hd) (hedit ▸ changeEdit_mem hd hlookup)
  · refine .added he ?_
    have hne : ¬ plan.added.isEmpty = true := by
      rw [List.isEmpty_iff]
      exact List.ne_nil_of_mem he
    unfold edits
    dsimp only
    rw [if_neg hne]
    exact List.mem_append_right _ (List.mem_singleton_self _)

theorem Declaration.StandsIn.append {e : Declaration} {edits : List Edit}
    (h : e.StandsIn imports quote edits) {others : List Edit}
    (hothers : e ∈ imports → ∀ edit ∈ others, e.span.Apart edit.span) :
    e.StandsIn imports quote (others ++ edits) := by
  cases h with
  | kept hmem hapart =>
    refine .kept hmem fun edit hedit => ?_
    rcases List.mem_append.mp hedit with hedit | hedit
    · exact hothers hmem edit hedit
    · exact hapart edit hedit
  | rewritten hmem hedit => exact .rewritten hmem (List.mem_append_right _ hedit)
  | added hmem hedit => exact .added hmem (List.mem_append_right _ hedit)

theorem infix_addEdit {e : Declaration} {ds : List Declaration} (h : e ∈ ds) :
    (e.render quote).toList <:+: (Plan.addEdit imports quote ds).text := by
  have hmem : (e.render quote).toList ∈ (ds.map (·.render quote)).map String.toList :=
    List.mem_map_of_mem (List.mem_map_of_mem (f := (·.render quote)) h)
  have htext : (e.render quote).toList <:+:
      (String.intercalate "\n" (ds.map (·.render quote))).toList := by
    rw [String.toList_intercalate]
    exact infix_intercalate _ hmem
  unfold Plan.addEdit
  dsimp only
  split
  · simp only [Edit.insert, String.toList_append]
    exact htext.trans (List.suffix_append _ _).isInfix
  · simp only [Edit.insert, String.toList_append]
    exact htext.trans (List.prefix_append _ _).isInfix

/-- What has a place among the edits is found in the text that they leave. -/
theorem Declaration.StandsIn.infix_of_splices {e : Declaration} {edits : List Edit}
    {out : List Char} (h : e.StandsIn imports quote edits) (himports : Arranged source imports)
    (hsplices : Edit.Splices 0 source (Edit.sorted edits) out) :
    (e ∈ imports ∧ Text.slice source e.span <:+: out) ∨ (e.render quote).toList <:+: out := by
  have hmem {edit : Edit} : edit ∈ Edit.sorted edits ↔ edit ∈ edits := (Edit.sorted_perm _).mem_iff
  cases h with
  | kept he hapart =>
    refine .inl ⟨he, hsplices.slice_infix (himports.boundaries e he) (himports.solid e he).le ?_⟩
    exact fun edit hedit => hapart edit (hmem.mp hedit)
  | rewritten _ hedit => exact .inr (hsplices.text_infix (hmem.mpr hedit))
  | added he hedit => exact .inr ((infix_addEdit he).trans (hsplices.text_infix (hmem.mpr hedit)))

/-- The edits of a plan can be made, and all its declarations are in the text afterwards: as they
stood, or written anew. -/
theorem Plan.apply_edits (h : Arranged source imports) (hplan : Distinct plan.changed) :
    let edits := plan.edits source imports quote
    ∃ out, Edit.apply source edits = .ok out ∧ out = Edit.spliced edits 0 source ∧
      ∀ d ∈ plan.result imports, d.StandsIn imports quote edits ∧
        ((d ∈ imports ∧ Text.slice source d.span <:+: out) ∨
          (d.render quote).toList <:+: out) := by
  have hon : ∀ e ∈ plan.edits source imports quote, _ := fun e he => edits_on_boundaries h he
  obtain ⟨out, hout⟩ := Edit.apply_ok (edits_apart h hplan) hon
  refine ⟨out, hout, Edit.eq_spliced_of_apply hon hout, fun d hd => ?_⟩
  have hstands : d.StandsIn imports quote (plan.edits source imports quote) :=
    standsIn_edits h hd
  exact ⟨hstands, hstands.infix_of_splices h (Edit.splices_of_apply hon hout)⟩

end Text

/-- Once the imports of a file have been edited, a decorator that is needed can be used in it unless
imports of its own module bind its name to something else. -/
theorem available_after_edits_iff (source : List Char) (imports : List Declaration)
    (wanted : List Builtin) (quote : Quote) :
    let after := (Plan.make imports wanted).result imports
    (∀ r ∈ table, r.decorator ∈ wanted →
      ((∃ d ∈ after, d.Provides r) ↔ ¬ Shadowed imports r)) ∧
    (Arranged source imports →
      let edits := edits source imports wanted quote
      ∃ out, Edit.apply source edits = .ok out ∧ out = Edit.spliced edits 0 source ∧
        ∀ d ∈ after, d.StandsIn imports quote edits ∧
          ((d ∈ imports ∧ Text.slice source d.span <:+: out) ∨
            (d.render quote).toList <:+: out)) :=
  ⟨fun _ hr hw => Plan.available_make_iff hr hw,
    fun h => Plan.apply_edits h (Plan.make_distinct imports wanted)⟩

/-- One decorator is there already, one goes into an import that is there, and one takes its name
away from another module. -/
theorem available_after_edits_of_three :
    ∃ (script : Script.Node) (out : List Char),
      let source := ("import classic from 'ember-classic-decorator';\n" ++
        "import \x7b on, tagName \x7d from 'a';\n" ++
        "import \x7b computed \x7d from '@ember/object';\n").toList
      let imports := Declaration.ofScript script
      let wanted := [Builtin.classic, .tagName, .action]
      Script.parse ⟨false⟩ source = .ok script ∧
      Edit.apply source (edits source imports wanted .single) = .ok out ∧
      ∀ r ∈ table, r.decorator ∈ wanted → ∃ d ∈ (Plan.make imports wanted).result imports,
        d.Provides r ∧ ((d ∈ imports ∧ Text.slice source d.span <:+: out) ∨
          (d.render .single).toList <:+: out) := by
  generalize hsource : String.toList _ = source
  have h : ((Script.parse ⟨false⟩ source).toOption.any fun script =>
      decide (script.Faithful source) && decide (∀ r ∈ table,
        ¬ Shadowed (Declaration.ofScript script) r)) = true := by
    subst hsource
    decide +kernel
  simp only [Option.any_eq_true, Except.toOption_eq_some_iff, Bool.and_eq_true,
    decide_eq_true_eq] at h
  obtain ⟨script, hparse, hfaithful, hfree⟩ := h
  obtain ⟨havailable, htext⟩ := available_after_edits_iff source (Declaration.ofScript script)
    [.classic, .tagName, .action] .single
  obtain ⟨out, hout, -, hshown⟩ := htext (arranged_ofScript hfaithful)
  refine ⟨script, out, hparse, hout, fun r hr hw => ?_⟩
  obtain ⟨d, hd, hprovides⟩ := (havailable r hr hw).mpr (hfree r hr)
  exact ⟨d, hd, hprovides, (hshown d hd).2⟩

/-- A name that its own module already gives to another export is taken for the decorator. -/
theorem aliased_export_passes_for_decorator :
    ∃ script : Script.Node,
      let source := "import \x7b computed as action \x7d from '@ember/object';\n".toList
      let imports := Declaration.ofScript script
      Script.parse ⟨false⟩ source = .ok script ∧
      edits source imports [.action] .single = [] ∧
      ∃ r ∈ table, r.decorator = .action ∧ ¬ ∃ d ∈ imports, d.Provides r := by
  generalize hsource : String.toList _ = source
  have h : ((Script.parse ⟨false⟩ source).toOption.any fun script =>
      let imports := Declaration.ofScript script
      decide (edits source imports [.action] .single = []) && decide (∃ r ∈ table,
        r.decorator = .action ∧ ¬ ∃ d ∈ imports, d.Provides r)) = true := by
    subst hsource
    decide +kernel
  simp only [Option.any_eq_true, Except.toOption_eq_some_iff, Bool.and_eq_true,
    decide_eq_true_eq] at h
  obtain ⟨script, hparse, hnone, hmissing⟩ := h
  exact ⟨script, hparse, hnone, hmissing⟩

end EmberClasses.Import
