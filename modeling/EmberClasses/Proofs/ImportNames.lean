import EmberClasses.Proofs.ImportRevision

/-! The names that the imports of a file bind. A lacking decorator takes its name away from default
and named imports of other modules, so names stay distinct; but a namespace keeps its name, and then
the file binds it twice. -/

namespace EmberClasses.Import

def boundNames (imports : List Declaration) : List String :=
  (imports.filter (!·.typeOnly)).flatMap Declaration.localNames

theorem table_nodup : table.Nodup := by
  have hnames : (table.map (·.localName)).Nodup := by decide
  exact hnames.of_map

section Names

variable {imports : List Declaration} {wanted : List Builtin} {module : String}

theorem lackingOf_subset : lackingOf imports wanted module ⊆ table := by
  intro r hr
  exact (mem_lacking.mp (mem_lackingOf.mp hr).1).1

theorem lackingOf_nodup : (lackingOf imports wanted module).Nodup :=
  (table_nodup.filter _).filter _

theorem localNames_nodup_of_subset {rs : List Requirement} (hrs : rs ⊆ table) (h : rs.Nodup) :
    (rs.map (·.localName)).Nodup := by
  apply List.Nodup.map_on ?_ h
  intro r hr s hs heq
  exact table_localName (hrs hr) (hrs hs) heq

/-- The names of a declaration are old ones, which no lacking decorator has, and those of some
lacking decorators. -/
structure Composed (imports : List Declaration) (wanted : List Builtin) (d : Declaration)
    (old : List String) (new : List Requirement) : Prop where
  perm : d.localNames.Perm (old ++ new.map (·.localName))
  fresh : ∀ name ∈ old, ∀ r ∈ lacking imports wanted, r.localName ≠ name
  subset : new ⊆ lacking imports wanted

namespace Composed

variable {d e : Declaration} {old old' : List String} {new new' : List Requirement}

theorem mem_iff (h : Composed imports wanted d old new) {name : String} :
    name ∈ d.localNames ↔ name ∈ old ∨ ∃ r ∈ new, r.localName = name := by
  rw [h.perm.mem_iff, List.mem_append, List.mem_map]

theorem new_of_eq (h : Composed imports wanted d old new) (hnew' : new' ⊆ lacking imports wanted)
    {r s : Requirement} (hr : r ∈ new) (hs : s ∈ new') (heq : r.localName = s.localName) :
    r = s :=
  table_localName (mem_lacking.mp (h.subset hr)).1 (mem_lacking.mp (hnew' hs)).1 heq

theorem disjoint (h : Composed imports wanted d old new) (h' : Composed imports wanted e old' new')
    (hold : old.Disjoint old') (hnew : new.Disjoint new') :
    d.localNames.Disjoint e.localNames := by
  intro name hd he
  rcases h.mem_iff.mp hd with hd | ⟨r, hr, rfl⟩
  · rcases h'.mem_iff.mp he with he | ⟨s, hs, rfl⟩
    · exact hold hd he
    · exact h.fresh _ hd s (h'.subset hs) rfl
  · rcases h'.mem_iff.mp he with he | ⟨s, hs, heq⟩
    · exact h'.fresh _ he r (h.subset hr) rfl
    · have hrs := h.new_of_eq h'.subset hr hs heq.symm
      rw [hrs] at hr
      exact hnew hr hs

theorem nodup (h : Composed imports wanted d old new) (hold : old.Nodup) (hnew : new.Nodup) :
    d.localNames.Nodup := by
  rw [h.perm.nodup_iff, List.nodup_append]
  have hsub : new ⊆ table := fun r hr => (mem_lacking.mp (h.subset hr)).1
  refine ⟨hold, localNames_nodup_of_subset hsub hnew, ?_⟩
  intro name hname other hother heq
  obtain ⟨r, hr, hlocal⟩ := List.mem_map.mp hother
  exact h.fresh name hname r (h.subset hr) (hlocal.trans heq.symm)

end Composed

end Names

/-- No namespace of the file has the name of a lacking decorator. -/
def Unopposed (imports : List Declaration) (wanted : List Builtin) : Prop :=
  ∀ r ∈ lacking imports wanted, ∀ d ∈ imports, d.typeOnly = false →
    d.namespaceName ≠ some r.localName

instance (imports : List Declaration) (wanted : List Builtin) :
    Decidable (Unopposed imports wanted) :=
  inferInstanceAs (Decidable (∀ r ∈ lacking imports wanted, ∀ d ∈ imports, _ → _))

namespace Plan

variable {imports : List Declaration} {wanted : List Builtin} {i j : Nat} {d e : Declaration}

theorem taken_subset : taken imports wanted i d ⊆ lackingOf imports wanted d.module := by
  intro r hr
  exact mem_takenFrom hr

theorem taken_subset_table : taken imports wanted i d ⊆ table := by
  intro r hr
  exact lackingOf_subset (taken_subset hr)

theorem taken_nodup : (taken imports wanted i d).Nodup := by
  unfold taken takenFrom
  split
  · exact lackingOf_nodup
  · exact List.nodup_nil

/-- A default name is taken only by a declaration that has none. -/
theorem default_of_taken (hd : imports[i]? = some d) {r : Requirement}
    (hr : r ∈ taken imports wanted i d) (hnone : r.imported = none) : d.defaultName = none := by
  obtain ⟨-, haccepts, -⟩ := module_of_takenFrom hd (List.ne_nil_of_mem hr)
  simp only [accepts, Bool.and_eq_true, Bool.or_eq_true, Option.isNone_iff_eq_none,
    List.all_eq_true] at haccepts
  rcases haccepts.2 with hdefault | hall
  · exact hdefault
  · have hsome := hall r (taken_subset hr)
    rw [hnone] at hsome
    cases hsome

theorem composed_version (h : Unopposed imports wanted) (hd : imports[i]? = some d)
    (htype : d.typeOnly = false) :
    Composed imports wanted ((make imports wanted).version i d)
      (d.without (lost imports wanted d)).localNames (taken imports wanted i d) := by
  have hmem := List.mem_of_getElem? hd
  refine ⟨?_, ?_, fun r hr => (mem_lackingOf.mp (taken_subset hr)).1⟩
  · rw [version_make hd]
    apply Declaration.localNames_addAll taken_subset_table taken_nodup
    intro r hr hnone
    simp [Declaration.without, default_of_taken hd hr hnone]
  · intro name hname r hr heq
    rcases Declaration.mem_localNames_without.mp hname with ⟨hlocal, hlost⟩ | hspace
    · exact hlost (mem_lost.mpr ⟨htype, hlocal, r, hr, heq⟩)
    · exact h r hr d hmem htype (heq ▸ hspace)

theorem added?_eq_some {module : String} (h : added? imports wanted module = some e) :
    taker? imports wanted module = none ∧ e.typeOnly = false ∧
      Composed imports wanted e [] (lackingOf imports wanted module) := by
  unfold added? at h
  split at h
  · cases h
  · rename_i hno
    rw [not_or, Bool.not_eq_true, Option.isSome_eq_false_iff, Option.isNone_iff_eq_none] at hno
    cases h
    refine ⟨hno.2, by simp, ?_, by simp, fun r hr => (mem_lackingOf.mp hr).1⟩
    have hsubset : lackingOf imports wanted module ⊆ table := lackingOf_subset
    have hperm := Declaration.localNames_addAll (d := { span := .point 0, module }) hsubset
      lackingOf_nodup fun _ _ _ => rfl
    simpa [Declaration.localNames] using hperm

theorem taken_disjoint (hd : imports[i]? = some d) (he : imports[j]? = some e) (hij : i ≠ j) :
    (taken imports wanted i d).Disjoint (taken imports wanted j e) := by
  intro r hr hs
  have hm : d.module = e.module :=
    (mem_lackingOf.mp (taken_subset hr)).2.symm.trans (mem_lackingOf.mp (taken_subset hs)).2
  obtain ⟨hi, -⟩ := module_of_takenFrom hd (List.ne_nil_of_mem hr)
  obtain ⟨hj, -⟩ := module_of_takenFrom he (List.ne_nil_of_mem hs)
  rw [hm, hj, Option.some.injEq] at hi
  exact hij hi.symm

theorem taken_disjoint_added (hd : imports[i]? = some d) {module : String}
    (h : taker? imports wanted module = none) :
    (taken imports wanted i d).Disjoint (lackingOf imports wanted module) := by
  intro r hr hs
  have hm := (mem_lackingOf.mp (taken_subset hr)).2.symm.trans (mem_lackingOf.mp hs).2
  obtain ⟨hi, -⟩ := module_of_takenFrom hd (List.ne_nil_of_mem hr)
  rw [hm, h] at hi
  cases hi

theorem boundNames_nodup_iff {ds : List Declaration} : (boundNames ds).Nodup ↔
    (∀ d ∈ ds, d.typeOnly = false → d.localNames.Nodup) ∧
      ds.Pairwise fun d e => d.typeOnly = false → e.typeOnly = false →
        d.localNames.Disjoint e.localNames := by
  unfold boundNames
  rw [List.nodup_flatMap, List.pairwise_filter]
  simp only [List.mem_filter, Bool.not_eq_true', and_imp, Function.onFun]

/-- Different places, and names that were distinct before. -/
theorem pairwise_zipIdx (h : (boundNames imports).Nodup) :
    imports.zipIdx.Pairwise fun x y => x.2 ≠ y.2 ∧ (x.1.typeOnly = false → y.1.typeOnly = false →
      x.1.localNames.Disjoint y.1.localNames) := by
  have hplaces : imports.zipIdx.Pairwise fun x y => x.2 ≠ y.2 := by
    rw [← List.pairwise_map (f := Prod.snd)]
    rw [List.zipIdx_map_snd]
    exact List.nodup_iff_pairwise_ne.mp List.nodup_range'
  have hnames := (boundNames_nodup_iff.mp h).2
  rw [← List.zipIdx_map_fst 0 imports, List.pairwise_map] at hnames
  exact hplaces.and hnames

/-- The names of the versions of two declarations are apart. -/
theorem version_disjoint (h : Unopposed imports wanted) (hd : imports[i]? = some d)
    (he : imports[j]? = some e) (hij : i ≠ j) (hdt : d.typeOnly = false) (het : e.typeOnly = false)
    (hold : d.localNames.Disjoint e.localNames) :
    ((make imports wanted).version i d).localNames.Disjoint
      ((make imports wanted).version j e).localNames := by
  apply (composed_version h hd hdt).disjoint (composed_version h he het)
  · intro name hname hname'
    exact hold ((Declaration.localNames_without_sublist _ _).subset hname)
      ((Declaration.localNames_without_sublist _ _).subset hname')
  · exact taken_disjoint hd he hij

theorem boundNames_result_nodup (hnames : (boundNames imports).Nodup)
    (h : Unopposed imports wanted) :
    (boundNames ((make imports wanted).result imports)).Nodup := by
  have hsame := (boundNames_nodup_iff.mp hnames).1
  rw [boundNames_nodup_iff]
  constructor
  · intro e he htype
    rcases mem_result.mp he with ⟨i, d, hd, rfl, -⟩ | he
    · rw [version_typeOnly hd] at htype
      apply (composed_version h hd htype).nodup _ taken_nodup
      exact (hsame d (List.mem_of_getElem? hd) htype).sublist
        (Declaration.localNames_without_sublist _ _)
    · rw [added_make] at he
      obtain ⟨module, -, hadded⟩ := List.mem_filterMap.mp he
      exact (added?_eq_some hadded).2.2.nodup .nil lackingOf_nodup
  · unfold result
    rw [List.pairwise_append, List.pairwise_filterMap, added_make, List.pairwise_filterMap]
    refine ⟨?_, ?_, ?_⟩
    · apply (pairwise_zipIdx hnames).imp_of_mem
      rintro ⟨d, i⟩ ⟨e, j⟩ hd he ⟨hij, hold⟩ d' hd' e' he' hdt het
      have hd := List.mem_zipIdx_iff_getElem?.mp hd
      have he := List.mem_zipIdx_iff_getElem?.mp he
      dsimp only at hd' he'
      split at hd'
      · cases hd'
      · split at he'
        · cases he'
        · cases hd'
          cases he'
          rw [version_typeOnly hd] at hdt
          rw [version_typeOnly he] at het
          exact version_disjoint h hd he hij hdt het (hold hdt het)
    · apply (List.nodup_iff_pairwise_ne.mp (modulesOf_nodup wanted)).imp
      intro m n hmn d hd e he _ _
      obtain ⟨-, -, hdc⟩ := added?_eq_some hd
      obtain ⟨-, -, hec⟩ := added?_eq_some he
      apply hdc.disjoint hec (List.disjoint_nil_left _)
      intro r hr hs
      exact hmn ((mem_lackingOf.mp hr).2.symm.trans (mem_lackingOf.mp hs).2)
    · intro d' hd' e he hdt _
      obtain ⟨⟨d, i⟩, hmem, hd'⟩ := List.mem_filterMap.mp hd'
      have hd := List.mem_zipIdx_iff_getElem?.mp hmem
      obtain ⟨module, -, hadded⟩ := List.mem_filterMap.mp he
      obtain ⟨hnone, -, hec⟩ := added?_eq_some hadded
      dsimp only at hd'
      split at hd'
      · cases hd'
      · cases hd'
        rw [version_typeOnly hd] at hdt
        exact (composed_version h hd hdt).disjoint hec (List.disjoint_nil_right _)
          (taken_disjoint_added hd hnone)

/-- A namespace with the name of a lacking decorator leads to two imports of that name. -/
theorem unopposed_of_nodup (hnames : (boundNames ((make imports wanted).result imports)).Nodup) :
    Unopposed imports wanted := by
  intro r hr d hd htype hspace
  obtain ⟨htable, hwanted, hfree⟩ := mem_lacking.mp hr
  have hlocal : r.localName ∈ d.localNames := by simp [Declaration.localNames, hspace]
  have hne := module_ne_of_lacking hr hd htype hlocal
  have hshadowed : ¬ Shadowed imports r := by
    rintro ⟨hbound, -⟩
    rw [← isBound_iff, hfree] at hbound
    cases hbound
  obtain ⟨e, he, hetype, hemodule, hebinding⟩ :=
    (available_make_iff htable hwanted).mpr hshadowed
  obtain ⟨i, hi⟩ := List.getElem?_of_mem hd
  have hkept : r.localName ∈ ((make imports wanted).version i d).localNames := by
    simp [Declaration.localNames, version_namespaceName hi, hspace]
  have hmem : (make imports wanted).version i d ∈ (make imports wanted).result imports := by
    refine mem_result.mpr (.inl ⟨i, d, hi, rfl, fun hempty => ?_⟩)
    rw [Declaration.isEmpty, List.isEmpty_iff] at hempty
    rw [hempty] at hkept
    cases hkept
  have hdiff : (make imports wanted).version i d ≠ e := by
    rintro rfl
    exact hne ((version_module hi).symm.trans hemodule)
  have hsymm : Std.Symm fun a b : Declaration => a.typeOnly = false → b.typeOnly = false →
      a.localNames.Disjoint b.localNames := ⟨fun _ _ h ha hb _ hx hy => h hb ha hy hx⟩
  have hdisjoint := (boundNames_nodup_iff.mp hnames).2.forall hmem he hdiff
    ((version_typeOnly hi).trans htype) hetype
  exact hdisjoint hkept (Declaration.localName_mem hebinding)

end Plan

/-- If the imports of a file bind different names, they still do so after the edits; unless a
namespace has the name of a decorator that is lacking, and only then. -/
theorem names_distinct_after_edits_iff (source : List Char) (imports : List Declaration)
    (wanted : List Builtin) (quote : Quote) (h : (boundNames imports).Nodup) :
    let after := (Plan.make imports wanted).result imports
    ((boundNames after).Nodup ↔ Unopposed imports wanted) ∧
    (Arranged source imports →
      let edits := edits source imports wanted quote
      ∃ out, Edit.apply source edits = .ok out ∧ out = Edit.spliced edits 0 source ∧
        ∀ d ∈ after, d.StandsIn imports quote edits ∧
          ((d ∈ imports ∧ Text.slice source d.span <:+: out) ∨
            (d.render quote).toList <:+: out)) := by
  refine ⟨⟨Plan.unopposed_of_nodup, Plan.boundNames_result_nodup h⟩, fun harranged => ?_⟩
  exact Plan.apply_edits harranged (Plan.make_distinct imports wanted)

/-- A default and a named import lose their names to decorators, one of which goes into an import
that another name is taken from. -/
theorem names_distinct_after_edits_of_conflicts :
    ∃ script : Script.Node,
      let source := ("import on, \x7b tagName as b \x7d from 'a';\n" ++
        "import * as c from 'c';\nimport \x7b off, computed \x7d from '@ember/object';\n").toList
      let imports := Declaration.ofScript script
      let wanted := [Builtin.on, .off, .tagName, .action]
      Script.parse ⟨false⟩ source = .ok script ∧ (boundNames imports).Nodup ∧
      boundNames ((Plan.make imports wanted).result imports) =
        ["b", "c", "computed", "action", "tagName", "off", "on"] ∧
      (boundNames ((Plan.make imports wanted).result imports)).Nodup := by
  generalize hsource : String.toList _ = source
  have h : ((Script.parse ⟨false⟩ source).toOption.any fun script =>
      let imports := Declaration.ofScript script
      let wanted := [Builtin.on, .off, .tagName, .action]
      decide ((boundNames imports).Nodup ∧ Unopposed imports wanted ∧
        boundNames ((Plan.make imports wanted).result imports) =
          ["b", "c", "computed", "action", "tagName", "off", "on"])) = true := by
    subst hsource
    decide +kernel
  simp only [Option.any_eq_true, Except.toOption_eq_some_iff, decide_eq_true_eq] at h
  obtain ⟨script, hparse, hnodup, hunopposed, hnames⟩ := h
  have hiff := (names_distinct_after_edits_iff source _ [.on, .off, .tagName, .action] .single
    hnodup).1
  exact ⟨script, hparse, hnodup, hnames, hiff.mpr hunopposed⟩

/-- A namespace keeps its name beside the decorator. -/
theorem namespace_name_is_bound_twice :
    ∃ script : Script.Node,
      let source := "import * as on from 'a';\n".toList
      let imports := Declaration.ofScript script
      Script.parse ⟨false⟩ source = .ok script ∧ (boundNames imports).Nodup ∧
      Edit.apply source (edits source imports [.on] .single) = .ok
        ("import * as on from 'a';\n" ++
          "import \x7b on \x7d from '@ember-decorators/object';\n").toList ∧
      boundNames ((Plan.make imports [.on]).result imports) = ["on", "on"] := by
  have h : ((Script.parse ⟨false⟩ "import * as on from 'a';\n".toList).toOption.any fun script =>
      Declaration.ofScript script == [⟨⟨0, 24⟩, "a", none, some "on", [], false⟩]) = true := by
    decide +kernel
  simp only [Option.any_eq_true, Except.toOption_eq_some_iff, beq_iff_eq] at h
  obtain ⟨script, hparse, himports⟩ := h
  refine ⟨script, hparse, ?_⟩
  rw [himports]
  refine ⟨by decide, ?_, by decide⟩
  unfold Edit.apply Edit.applyIn Edit.pieces
  rw [Edit.sorted_of_pairwise (by decide +kernel)]
  decide +kernel

end EmberClasses.Import
