import EmberClasses.Proofs.ImportNames

/-! Editing the imports of a file settles them. Each import is edited at most once and new ones come
in with one insertion; afterwards no decorator is lacking, so there is nothing left to edit. -/

namespace EmberClasses.Import

namespace Plan

variable {imports : List Declaration} {wanted : List Builtin}

/-- An import of the module of a decorator keeps the decorator's name: a name is lost to lacking
decorators only, and what a declaration takes goes beside the names that it has. -/
theorem localName_mem_version {i : Nat} {d : Declaration} (hd : imports[i]? = some d)
    (htype : d.typeOnly = false) {r : Requirement} (hr : r ∈ table) (hm : d.module = r.module)
    (hname : r.localName ∈ d.localNames) :
    r.localName ∈ ((make imports wanted).version i d).localNames := by
  have hkept : r.localName ∈ (d.without (lost imports wanted d)).localNames := by
    refine Declaration.mem_localNames_without.mpr (.inl ⟨hname, fun hlost => ?_⟩)
    obtain ⟨-, -, s, hs, heq⟩ := mem_lost.mp hlost
    obtain rfl := table_localName (mem_lacking.mp hs).1 hr heq
    exact module_ne_of_lacking hs (List.mem_of_getElem? hd) htype hname hm
  have hfree : ∀ s ∈ taken imports wanted i d, s.imported = none →
      (d.without (lost imports wanted d)).defaultName = none := by
    intro s hs hnone
    simp [Declaration.without, default_of_taken hd hs hnone]
  have hperm := Declaration.localNames_addAll taken_subset_table taken_nodup hfree
  rw [version_make hd, hperm.mem_iff]
  exact List.mem_append_left _ hkept

/-- Every wanted decorator has its name bound by an import of its module after the plan. -/
theorem isBound_result {r : Requirement} (hr : r ∈ table) (hw : r.decorator ∈ wanted) :
    isBound ((make imports wanted).result imports) r = true := by
  rw [isBound_iff]
  cases hbound : isBound imports r with
  | true =>
    obtain ⟨d, hd, htype, hm, hname⟩ := isBound_iff.mp hbound
    obtain ⟨i, hi⟩ := List.getElem?_of_mem hd
    have hkept : r.localName ∈ ((make imports wanted).version i d).localNames :=
      localName_mem_version hi htype hr hm hname
    have hfull : ((make imports wanted).version i d).isEmpty = false := by
      rw [Declaration.isEmpty, List.isEmpty_eq_false_iff_exists_mem]
      exact ⟨_, hkept⟩
    refine ⟨_, mem_result.mpr (.inl ⟨i, d, hi, rfl, fun hempty => ?_⟩),
      (version_typeOnly hi).trans htype, (version_module hi).trans hm, hkept⟩
    rw [hfull] at hempty
    cases hempty
  | false =>
    have hfree : ¬ Shadowed imports r := by
      rintro ⟨hshadowed, -⟩
      rw [← isBound_iff, hbound] at hshadowed
      cases hshadowed
    obtain ⟨e, he, htype, hm, hbinding⟩ := (available_make_iff hr hw).mpr hfree
    exact ⟨e, he, htype, hm, Declaration.localName_mem hbinding⟩

theorem lacking_result (imports : List Declaration) (wanted : List Builtin) :
    lacking ((make imports wanted).result imports) wanted = [] := by
  rw [List.eq_nil_iff_forall_not_mem]
  intro r hr
  obtain ⟨hr, hw, hfree⟩ := mem_lacking.mp hr
  rw [isBound_result hr hw] at hfree
  cases hfree

/-- Where nothing is lacking there is nothing to do. -/
theorem make_eq_empty (h : lacking imports wanted = []) : make imports wanted = {} := by
  refine List.foldlRecOn (motive := (· = ({} : Plan))) _ _ rfl fun plan hplan g hg => ?_
  have hmissing : (g.2.filter fun r => !isBound imports r) = [] := by
    rw [missing_eq hg, lackingOf, h, List.filter_nil]
  unfold provide
  dsimp only
  rw [hmissing]
  exact hplan

theorem lt_of_mem_changed {c : Nat × Declaration} (h : c ∈ (make imports wanted).changed) :
    c.1 < imports.length := by
  have hsteps := steps_make imports wanted
  generalize make imports wanted = plan at h hsteps
  have hchanging {plan : Plan} {i : Nat} {d : Declaration} {f : Declaration → Declaration}
      (hall : ∀ k ∈ plan.changed.map Prod.fst, k < imports.length) (hd : imports[i]? = some d) :
      ∀ k ∈ (plan.changing i d f).changed.map Prod.fst, k < imports.length := by
    intro k hk
    rcases mem_change hk with rfl | hk
    · exact (List.getElem?_eq_some_iff.mp hd).1
    · exact hall k hk
  suffices hall : ∀ k ∈ plan.changed.map Prod.fst, k < imports.length from
    hall c.1 (List.mem_map_of_mem h)
  clear h
  induction hsteps with
  | refl => simp
  | tail _ hstep ih =>
    cases hstep with
    | release hd => exact hchanging ih hd
    | supply hsupplies =>
      cases hsupplies with
      | old hd => exact hchanging ih hd
      | new => exact ih

theorem version_of_mem_changed {plan : Plan} (hplan : Distinct plan.changed) {i : Nat}
    {d after : Declaration} (h : (i, after) ∈ plan.changed) : plan.version i d = after := by
  rw [version, lookup_of_mem hplan h, Option.getD_some]

theorem version_of_not_changed {plan : Plan} {i : Nat} (d : Declaration)
    (h : i ∉ plan.changed.map Prod.fst) : plan.version i d = d := by
  have hnone : plan.changed.lookup i = none := by
    rw [List.lookup_eq_none_iff]
    intro c hc
    have hne : i ≠ c.1 := fun heq => h (heq ▸ List.mem_map_of_mem hc)
    simpa using hne
  rw [version, hnone, Option.getD_none]

/-- The edit turns the declaration at a place into what the plan makes of it. -/
def EditsAt (plan : Plan) (source : List Char) (imports : List Declaration) (quote : Quote)
    (i : Nat) (e : Edit) : Prop :=
  ∃ d, imports[i]? = some d ∧ e = changeEdit source imports quote d (plan.version i d)

theorem forall₂_editsAt {plan : Plan} (source : List Char) (quote : Quote)
    (hplan : Distinct plan.changed) (hall : ∀ c ∈ plan.changed, c.1 < imports.length) :
    List.Forall₂ (plan.EditsAt source imports quote) (plan.changed.map Prod.fst)
      (plan.changed.filterMap fun (i, after) =>
        imports[i]?.map fun before => changeEdit source imports quote before after) := by
  have hpart (changed : List (Nat × Declaration)) (hsub : changed ⊆ plan.changed) :
      List.Forall₂ (plan.EditsAt source imports quote) (changed.map Prod.fst)
        (changed.filterMap fun (i, after) =>
          imports[i]?.map fun before => changeEdit source imports quote before after) := by
    induction changed with
    | nil => exact .nil
    | cons c changed ih =>
      obtain ⟨i, after⟩ := c
      have hmem : (i, after) ∈ plan.changed := hsub List.mem_cons_self
      obtain ⟨d, hd⟩ : ∃ d, imports[i]? = some d := ⟨_, List.getElem?_eq_getElem (hall _ hmem)⟩
      rw [List.map_cons, List.filterMap_cons]
      dsimp only
      rw [hd]
      refine .cons ⟨d, hd, ?_⟩ (ih fun x hx => hsub (List.mem_cons_of_mem _ hx))
      rw [version_of_mem_changed hplan hmem]
  exact hpart plan.changed fun _ hc => hc

end Plan

/-- The edits of the imports of a file are one for each declaration that is changed, and at most one
more for all new ones; the declarations that result from them need no edit, in whatever text they
stand. -/
theorem edits_settle (source : List Char) (imports : List Declaration) (wanted : List Builtin)
    (quote : Quote) :
    let plan := Plan.make imports wanted
    (∀ source' quote', edits source' (plan.result imports) wanted quote' = []) ∧
    ∃ (places : List Nat) (changes insertion : List Edit),
      edits source imports wanted quote = changes ++ insertion ∧
      places.Nodup ∧ (∀ i ∈ places, i < imports.length) ∧
      List.Forall₂ (plan.EditsAt source imports quote) places changes ∧
      (∀ i d, imports[i]? = some d → i ∉ places → plan.version i d = d) ∧
      insertion = if plan.added = [] then [] else [Plan.addEdit imports quote plan.added] := by
  intro plan
  have hdistinct : Plan.Distinct plan.changed := Plan.make_distinct imports wanted
  have hplaces : ∀ c ∈ plan.changed, c.1 < imports.length := fun _ => Plan.lt_of_mem_changed
  refine ⟨fun source' quote' => ?_, plan.changed.map Prod.fst, _, _, ?_, hdistinct, ?_,
    Plan.forall₂_editsAt source quote hdistinct hplaces,
    fun i d _ hi => Plan.version_of_not_changed d hi, rfl⟩
  · rw [edits, Plan.make_eq_empty (Plan.lacking_result imports wanted)]
    rfl
  · rw [edits, Plan.edits]
    dsimp only
    split
    · rename_i hnone
      rw [if_pos (List.isEmpty_iff.mp hnone), List.append_nil]
    · rename_i hsome
      rw [if_neg fun hnil => hsome (List.isEmpty_iff.mpr hnil)]
  · intro i hi
    obtain ⟨c, hc, rfl⟩ := List.mem_map.mp hi
    exact hplaces c hc

end EmberClasses.Import
