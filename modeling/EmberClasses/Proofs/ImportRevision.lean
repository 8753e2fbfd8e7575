import EmberClasses.Proofs.ImportAvailability

/-! What a plan makes of the imports of a file, said at once and not step by step: each declaration
loses the names of the decorators that are lacking, and one declaration of each module takes the
lacking decorators of that module, or else a new one does. -/

namespace EmberClasses.Import

/-- The wanted decorators whose names no import of their module binds. -/
def lacking (imports : List Declaration) (wanted : List Builtin) : List Requirement :=
  table.filter fun r => wanted.contains r.decorator && !Plan.isBound imports r

def lackingOf (imports : List Declaration) (wanted : List Builtin) (module : String) :
    List Requirement :=
  (lacking imports wanted).filter (·.module = module)

theorem mem_lacking {imports : List Declaration} {wanted : List Builtin} {r : Requirement} :
    r ∈ lacking imports wanted ↔
      r ∈ table ∧ r.decorator ∈ wanted ∧ Plan.isBound imports r = false := by
  simp [lacking]

theorem mem_lackingOf {imports : List Declaration} {wanted : List Builtin} {module : String}
    {r : Requirement} :
    r ∈ lackingOf imports wanted module ↔ r ∈ lacking imports wanted ∧ r.module = module := by
  simp [lackingOf]

theorem fst_mem_of_addToGroup {r : Requirement} {groups : List (String × List Requirement)}
    {module : String} (h : module ∈ (addToGroup r groups).map Prod.fst) :
    module = r.module ∨ module ∈ groups.map Prod.fst := by
  induction groups with
  | nil => simpa [addToGroup] using h
  | cons g groups ih =>
    obtain ⟨m, rs⟩ := g
    unfold addToGroup at h
    split at h
    · exact .inr h
    · rcases List.mem_cons.mp h with rfl | h
      · exact .inr List.mem_cons_self
      · exact (ih h).imp_right (List.mem_cons_of_mem m)

theorem keys_addToGroup {r : Requirement} {groups : List (String × List Requirement)}
    (h : (groups.map Prod.fst).Nodup) : ((addToGroup r groups).map Prod.fst).Nodup := by
  induction groups with
  | nil => simp [addToGroup]
  | cons g groups ih =>
    obtain ⟨m, rs⟩ := g
    obtain ⟨hm, hrest⟩ := List.nodup_cons.mp h
    unfold addToGroup
    split
    · exact h
    · rename_i hne
      refine List.nodup_cons.mpr ⟨fun hmem => ?_, ih hrest⟩
      exact (fst_mem_of_addToGroup hmem).elim hne hm

theorem lookup_addToGroup (r : Requirement) (groups : List (String × List Requirement))
    (module : String) : ((addToGroup r groups).lookup module).getD [] =
      (groups.lookup module).getD [] ++ [r].filter (·.module = module) := by
  induction groups with
  | nil =>
    by_cases hm : r.module = module
    · simp [addToGroup, hm]
    · have hne : (module == r.module) = false := by simpa using Ne.symm hm
      simp [addToGroup, hm, List.lookup_cons, hne]
  | cons g groups ih =>
    obtain ⟨m, rs⟩ := g
    unfold addToGroup
    by_cases heq : module = m
    · subst heq
      by_cases hm : module = r.module
      · simp [hm]
      · simp [hm, Ne.symm hm]
    · have hne : (module == m) = false := by simpa using heq
      split
      · rename_i hm
        have hr : ¬ r.module = module := fun h => heq (h.symm.trans hm.symm)
        simp [List.lookup_cons, hne, hr]
      · simpa [List.lookup_cons, hne] using ih

theorem lookup_of_mem {κ α : Type} [BEq κ] [LawfulBEq κ] {groups : List (κ × α)} {g : κ × α}
    (hkeys : (groups.map Prod.fst).Nodup) (hg : g ∈ groups) : groups.lookup g.1 = some g.2 := by
  obtain ⟨before, after, rfl⟩ := List.append_of_mem hg
  refine List.lookup_eq_some_iff.mpr ⟨before, after, rfl, fun h hh => ?_⟩
  rw [List.map_append, List.nodup_append] at hkeys
  have hne := hkeys.2.2 h.1 (List.mem_map_of_mem hh) g.1 (by simp)
  simpa using Ne.symm hne

/-- No module has two groups, and each group has all of its module. -/
theorem group_spec (rs : List Requirement) :
    ((group rs).map Prod.fst).Nodup ∧ ∀ g ∈ group rs, g.2 = rs.filter (·.module = g.1) := by
  have hfold (rs : List Requirement) (groups : List (String × List Requirement))
      (h : (groups.map Prod.fst).Nodup) :
      let after := rs.foldl (fun groups r => addToGroup r groups) groups
      (after.map Prod.fst).Nodup ∧ ∀ module, (after.lookup module).getD [] =
        (groups.lookup module).getD [] ++ rs.filter (·.module = module) := by
    induction rs generalizing groups with
    | nil => exact ⟨h, by simp⟩
    | cons r rs ih =>
      obtain ⟨hkeys, hlookup⟩ := ih _ (keys_addToGroup (r := r) h)
      refine ⟨hkeys, fun module => ?_⟩
      rw [List.foldl_cons, hlookup, lookup_addToGroup, List.append_assoc,
        ← List.filter_append, List.singleton_append]
  obtain ⟨hkeys, hlookup⟩ := hfold rs [] .nil
  refine ⟨hkeys, fun g hg => ?_⟩
  have hfound := hlookup g.1
  rw [lookup_of_mem hkeys hg] at hfound
  simpa using hfound

def modulesOf (wanted : List Builtin) : List String := (required wanted).map Prod.fst

theorem modulesOf_nodup (wanted : List Builtin) : (modulesOf wanted).Nodup := (group_spec _).1

/-- A group of a module, without what is bound already, is what the module lacks. -/
theorem missing_eq {imports : List Declaration} {wanted : List Builtin}
    {g : String × List Requirement} (hg : g ∈ required wanted) :
    (g.2.filter fun r => !Plan.isBound imports r) = lackingOf imports wanted g.1 := by
  rw [(group_spec _).2 g hg, lackingOf, lacking, List.filter_filter, List.filter_filter,
    List.filter_filter]
  apply List.filter_congr
  intro r _
  cases wanted.contains r.decorator <;> cases Plan.isBound imports r <;> simp

theorem module_mem_of_lacking {imports : List Declaration} {wanted : List Builtin}
    {r : Requirement} (h : r ∈ lacking imports wanted) : r.module ∈ modulesOf wanted := by
  obtain ⟨hr, hw, -⟩ := mem_lacking.mp h
  obtain ⟨g, hg, hmem⟩ := (mem_required.1 r).mpr ⟨hr, hw⟩
  rw [mem_required.2 g hg r hmem]
  exact List.mem_map_of_mem hg

namespace Declaration

def without (d : Declaration) (names : List String) : Declaration :=
  { d with
    defaultName := d.defaultName.filter (!names.contains ·)
    named := d.named.filter (!names.contains ·.localName) }

theorem remove_eq_without (d : Declaration) (name : String) : d.remove name = d.without [name] := by
  simp [remove, without]

theorem without_without (d : Declaration) (xs ys : List String) :
    (d.without xs).without ys = d.without (xs ++ ys) := by
  unfold without
  congr 1
  · cases d.defaultName with
    | none => rfl
    | some name => by_cases hx : name ∈ xs <;> by_cases hy : name ∈ ys <;>
        simp [Option.filter, hx, hy]
  · rw [List.filter_filter]
    apply List.filter_congr
    intro n _
    by_cases hx : n.localName ∈ xs <;> by_cases hy : n.localName ∈ ys <;> simp [hx, hy]

theorem without_congr {d : Declaration} {xs ys : List String}
    (h : ∀ name ∈ d.localNames, name ∈ xs ↔ name ∈ ys) : d.without xs = d.without ys := by
  unfold without
  congr 1
  · cases hd : d.defaultName with
    | none => rfl
    | some name =>
      have hname := h name (by simp [localNames, hd])
      simp [Option.filter, hname]
  · apply List.filter_congr
    intro n hn
    have hname := h n.localName (List.mem_append_right _ (List.mem_map_of_mem hn))
    simp [hname]

@[simp] theorem without_nil (d : Declaration) : d.without [] = d := by
  obtain ⟨span, module, defaultName, namespaceName, named, typeOnly⟩ := d
  cases defaultName <;> simp [without, Option.filter]

@[simp] theorem add_namespaceName (d : Declaration) (r : Requirement) :
    (d.add r).namespaceName = d.namespaceName := by
  unfold add
  split <;> rfl

@[simp] theorem addAll_namespaceName (d : Declaration) (rs : List Requirement) :
    (rs.foldl add d).namespaceName = d.namespaceName := by
  induction rs generalizing d with
  | nil => rfl
  | cons r rs ih => rw [List.foldl_cons, ih, add_namespaceName]

theorem without_add {d : Declaration} {r : Requirement} {names : List String}
    (h : r.localName ∉ names) : (d.add r).without names = (d.without names).add r := by
  unfold add
  cases r.imported with
  | none => simp [without, h]
  | some imported => simp [without, h]

theorem localNames_add {d : Declaration} {r : Requirement}
    (h : r.imported = none → d.defaultName = none) :
    (d.add r).localNames.Perm (d.localNames ++ [r.localName]) := by
  unfold add localNames
  cases hr : r.imported with
  | none =>
    rw [h hr]
    exact @List.perm_append_comm _ [r.localName] _
  | some imported => simp

/-- Names that are added go beside the old ones, if there is no default name in their way. -/
theorem localNames_addAll {d : Declaration} {rs : List Requirement} (hrs : rs ⊆ table)
    (hnodup : rs.Nodup) (h : ∀ r ∈ rs, r.imported = none → d.defaultName = none) :
    (rs.foldl add d).localNames.Perm (d.localNames ++ rs.map (·.localName)) := by
  induction rs generalizing d with
  | nil => simp
  | cons r rs ih =>
    obtain ⟨hr, hnodup⟩ := List.nodup_cons.mp hnodup
    have htable : r ∈ table := hrs List.mem_cons_self
    have hrest : ∀ s ∈ rs, s.imported = none → (d.add r).defaultName = none := by
      intro s hs hsnone
      unfold add
      cases himported : r.imported with
      | none =>
        have heq := table_default htable (hrs (List.mem_cons_of_mem r hs))
          (by simp [Requirement.binding, himported]) hsnone
        rw [heq] at hr
        exact absurd hs hr
      | some imported => exact h s (List.mem_cons_of_mem r hs) hsnone
    have hfirst := localNames_add (h r List.mem_cons_self)
    have hlater := ih (fun s hs => hrs (List.mem_cons_of_mem r hs)) hnodup hrest
    rw [List.foldl_cons, List.map_cons]
    exact hlater.trans (by simpa using hfirst.append_right (rs.map (·.localName)))

theorem localNames_without_sublist (d : Declaration) (names : List String) :
    (d.without names).localNames.Sublist d.localNames := by
  refine List.Sublist.append (List.Sublist.append ?_ (List.Sublist.refl _)) ?_
  · cases hd : d.defaultName with
    | none => simp [without, hd]
    | some name => by_cases hmem : name ∈ names <;> simp [without, hd, Option.filter, hmem]
  · exact List.filter_sublist.map _

theorem mem_localNames_without {d : Declaration} {names : List String} {name : String} :
    name ∈ (d.without names).localNames ↔
      name ∈ d.localNames ∧ name ∉ names ∨ d.namespaceName = some name := by
  simp only [localNames, without, List.mem_append, Option.mem_toList,
    Option.filter_eq_some_iff, List.mem_map, List.mem_filter, Bool.not_eq_true',
    List.contains_eq_mem, decide_eq_false_iff_not]
  grind

/-- Names can be taken away before or after others are added. -/
theorem without_addAll {d : Declaration} {rs : List Requirement} {names : List String}
    (h : ∀ r ∈ rs, r.localName ∉ names) :
    (rs.foldl add d).without names = rs.foldl add (d.without names) := by
  induction rs generalizing d with
  | nil => rfl
  | cons r rs ih =>
    rw [List.foldl_cons, List.foldl_cons, ih fun s hs => h s (List.mem_cons_of_mem r hs),
      without_add (h r List.mem_cons_self)]

end Declaration

namespace Plan

variable {imports : List Declaration} {wanted : List Builtin} {i : Nat} {d : Declaration}

private theorem lookup_changes (p : Declaration → Bool) (f : Declaration → Declaration)
    (l : List Declaration) (k : Nat) (changed : List (Nat × Declaration)) (i : Nat)
    (d : Declaration) (hd : l[i]? = some d) :
    (((l.zipIdx k).foldl (fun changed (d, i) => if p d then change i d f changed else changed)
      changed).lookup (k + i)).getD d =
        if p d then f ((changed.lookup (k + i)).getD d) else (changed.lookup (k + i)).getD d := by
  have hlater (l : List Declaration) (k j : Nat) (hj : j < k)
      (changed : List (Nat × Declaration)) :
      ((l.zipIdx k).foldl (fun changed (d, i) => if p d then change i d f changed else changed)
        changed).lookup j = changed.lookup j := by
    refine List.foldlRecOn (motive := fun after : List (Nat × Declaration) =>
      after.lookup j = changed.lookup j) _ _ rfl fun after hafter ⟨e, m⟩ hmem => ?_
    dsimp only
    split
    · rw [lookup_change_ne (Nat.ne_of_lt (hj.trans_le (List.le_snd_of_mem_zipIdx hmem)))]
      exact hafter
    · exact hafter
  induction l generalizing k changed i with
  | nil => cases hd
  | cons e l ih =>
    rw [List.zipIdx_cons, List.foldl_cons]
    dsimp only
    cases i with
    | zero =>
      cases hd
      rw [hlater l (k + 1) (k + 0) (Nat.lt_succ_self k)]
      split
      · rw [Nat.add_zero, lookup_change_self, Option.getD_some]
      · rfl
    | succ i =>
      have hne : k + (i + 1) ≠ k := by omega
      have hsame : (if p e then change k e f changed else changed).lookup (k + (i + 1)) =
          changed.lookup (k + (i + 1)) := by
        split
        · exact lookup_change_ne hne e f changed
        · rfl
      have hrest := ih (k + 1) (if p e then change k e f changed else changed) i hd
      rw [show k + 1 + i = k + (i + 1) by omega, hsame] at hrest
      exact hrest

/-- To take the name of a requirement away from the imports of other modules does so with each. -/
theorem version_release (plan : Plan) (r : Requirement) (hd : imports[i]? = some d) :
    ({ plan with changed := release imports plan.changed r } : Plan).version i d =
      if d.module ≠ r.module && !d.typeOnly && d.binds r.localName then
        (plan.version i d).remove r.localName
      else plan.version i d := by
  have h := lookup_changes (fun d => d.module ≠ r.module && !d.typeOnly && d.binds r.localName)
    (·.remove r.localName) imports 0 plan.changed i d hd
  rw [Nat.zero_add] at h
  exact h

/-- The names that a declaration loses to the lacking decorators of a module. -/
def lostTo (imports : List Declaration) (wanted : List Builtin) (d : Declaration)
    (module : String) : List String :=
  if d.typeOnly || d.module = module then []
  else ((lackingOf imports wanted module).map (·.localName)).filter d.binds

/-- The place of the declaration that takes the lacking decorators of a module. -/
def taker? (imports : List Declaration) (wanted : List Builtin) (module : String) : Option Nat :=
  (imports.zipIdx.find? fun (d, _) =>
    accepts module (lackingOf imports wanted module) d).map Prod.snd

/-- The decorators of a module that the declaration at place `i` takes. -/
def takenFrom (imports : List Declaration) (wanted : List Builtin) (i : Nat) (module : String) :
    List Requirement :=
  if taker? imports wanted module = some i then lackingOf imports wanted module else []

theorem version_releases (plan : Plan) {rs : List Requirement} {module : String}
    (hrs : ∀ r ∈ rs, r.module = module) (hd : imports[i]? = some d) :
    ({ plan with changed := rs.foldl (release imports) plan.changed } : Plan).version i d =
      (plan.version i d).without (if d.typeOnly || d.module = module then []
        else (rs.map (·.localName)).filter d.binds) := by
  induction rs generalizing plan with
  | nil => simp [version]
  | cons r rs ih =>
    have hrest := ih { plan with changed := release imports plan.changed r }
      fun s hs => hrs s (List.mem_cons_of_mem r hs)
    rw [List.foldl_cons]
    refine hrest.trans ?_
    rw [version_release plan r hd, hrs r List.mem_cons_self]
    by_cases hsame : (d.typeOnly || decide (d.module = module)) = true
    · rw [if_pos hsame, if_pos hsame, if_neg]
      rw [Bool.or_eq_true, decide_eq_true_eq] at hsame
      rcases hsame with htype | hmodule
      · simp [htype]
      · simp [hmodule]
    · rw [if_neg hsame, if_neg hsame, List.map_cons, List.filter_cons]
      simp only [Bool.or_eq_true, decide_eq_true_eq, not_or, Bool.not_eq_true] at hsame
      by_cases hbinds : d.binds r.localName = true
      · rw [if_pos (by simp [hsame, hbinds]), if_pos hbinds, Declaration.remove_eq_without,
          Declaration.without_without, List.singleton_append]
      · rw [if_neg (by simp [hbinds]), if_neg hbinds]

/-- What providing for a module does to a declaration, and which declaration it adds. -/
theorem provide_spec (plan : Plan) {g : String × List Requirement} (hg : g ∈ required wanted) :
    (∀ i d, imports[i]? = some d → (plan.provide imports g.1 g.2).version i d =
      (takenFrom imports wanted i g.1).foldl Declaration.add
        ((plan.version i d).without (lostTo imports wanted d g.1))) ∧
    (plan.provide imports g.1 g.2).added = plan.added ++
      if lackingOf imports wanted g.1 = [] ∨ (taker? imports wanted g.1).isSome then []
      else [(lackingOf imports wanted g.1).foldl Declaration.add
        { span := .point 0, module := g.1 }] := by
  unfold provide
  dsimp only
  rw [missing_eq hg]
  by_cases hnone : lackingOf imports wanted g.1 = []
  · rw [if_pos (List.isEmpty_iff.mpr hnone)]
    refine ⟨fun i d _ => ?_, by simp [hnone]⟩
    simp [takenFrom, lostTo, hnone]
  · rw [if_neg fun hempty => hnone (List.isEmpty_iff.mp hempty)]
    have hsame : ∀ r ∈ lackingOf imports wanted g.1, r.module = g.1 :=
      fun r hr => (mem_lackingOf.mp hr).2
    have hreleased (i : Nat) (d : Declaration) (hd : imports[i]? = some d) :=
      version_releases plan hsame hd
    cases hfind : imports.zipIdx.find? fun (d, _) =>
        accepts g.1 (lackingOf imports wanted g.1) d with
    | none =>
      have htaker : taker? imports wanted g.1 = none := by rw [taker?, hfind, Option.map_none]
      refine ⟨fun i d hd => ?_, by simp [htaker, hnone]⟩
      rw [takenFrom, htaker, if_neg (by simp)]
      exact hreleased i d hd
    | some found =>
      obtain ⟨e, j⟩ := found
      have he := List.mem_zipIdx_iff_getElem?.mp (List.mem_of_find?_eq_some hfind)
      have htaker : taker? imports wanted g.1 = some j := by rw [taker?, hfind, Option.map_some]
      refine ⟨fun i d hd => ?_, by simp [htaker]⟩
      refine (version_changing { plan with changed := _ } he hd _).trans ?_
      rw [hreleased i d hd, takenFrom, htaker]
      by_cases hij : i = j
      · rw [if_pos hij, if_pos (show some j = some i by rw [hij]), lostTo]
      · rw [if_neg hij, if_neg fun heq => hij (Option.some.inj heq).symm, lostTo]
        rfl

theorem mem_lostTo {module name : String} (h : name ∈ lostTo imports wanted d module) :
    ∃ r ∈ lackingOf imports wanted module, r.localName = name := by
  unfold lostTo at h
  split at h
  · cases h
  · exact List.mem_map.mp (List.mem_of_mem_filter h)

theorem mem_takenFrom {module : String} {r : Requirement}
    (h : r ∈ takenFrom imports wanted i module) : r ∈ lackingOf imports wanted module := by
  unfold takenFrom at h
  split at h
  · exact h
  · cases h

/-- Taken all together, the modules take away names and give names to a declaration. -/
theorem version_provides (groups : List (String × List Requirement))
    (hgroups : ∀ g ∈ groups, g ∈ required wanted) (hkeys : (groups.map Prod.fst).Nodup)
    (plan : Plan) (hd : imports[i]? = some d) :
    (groups.foldl (fun plan g => plan.provide imports g.1 g.2) plan).version i d =
      (groups.flatMap fun g => takenFrom imports wanted i g.1).foldl Declaration.add
        ((plan.version i d).without (groups.flatMap fun g => lostTo imports wanted d g.1)) := by
  induction groups generalizing plan with
  | nil => simp
  | cons g groups ih =>
    obtain ⟨hg, hrest⟩ := List.nodup_cons.mp hkeys
    have hapart : ∀ r ∈ takenFrom imports wanted i g.1,
        r.localName ∉ groups.flatMap fun g => lostTo imports wanted d g.1 := by
      intro r hr hmem
      obtain ⟨g', hg', hmem⟩ := List.mem_flatMap.mp hmem
      obtain ⟨r', hr', heq⟩ := mem_lostTo hmem
      obtain ⟨hr, hm⟩ := mem_lackingOf.mp (mem_takenFrom hr)
      obtain ⟨hr', hm'⟩ := mem_lackingOf.mp hr'
      have hsame := table_localName (mem_lacking.mp hr').1 (mem_lacking.mp hr).1 heq
      apply hg
      rw [← hm, ← hsame, hm']
      exact List.mem_map_of_mem hg'
    rw [List.foldl_cons, ih (fun g hg => hgroups g (List.mem_cons_of_mem _ hg)) hrest,
      (provide_spec plan (hgroups g List.mem_cons_self)).1 i d hd,
      Declaration.without_addAll hapart, Declaration.without_without, List.flatMap_cons,
      List.flatMap_cons, List.foldl_append]

def lost (imports : List Declaration) (wanted : List Builtin) (d : Declaration) : List String :=
  if d.typeOnly then [] else ((lacking imports wanted).map (·.localName)).filter d.binds

theorem mem_lost {name : String} : name ∈ lost imports wanted d ↔
    d.typeOnly = false ∧ name ∈ d.localNames ∧
      ∃ r ∈ lacking imports wanted, r.localName = name := by
  unfold lost
  cases d.typeOnly with
  | true => simp
  | false => simp [Declaration.binds, and_comm]

/-- A declaration that binds the name of a lacking decorator is one of another module. -/
theorem module_ne_of_lacking {r : Requirement} (hr : r ∈ lacking imports wanted) (hd : d ∈ imports)
    (htype : d.typeOnly = false) (hname : r.localName ∈ d.localNames) : d.module ≠ r.module := by
  intro hm
  have hbound := isBound_iff.mpr ⟨d, hd, htype, hm, hname⟩
  rw [(mem_lacking.mp hr).2.2] at hbound
  cases hbound

theorem mem_lostTo_iff (hd : d ∈ imports) {name : String} :
    (∃ g ∈ required wanted, name ∈ lostTo imports wanted d g.1) ↔ name ∈ lost imports wanted d := by
  rw [mem_lost]
  constructor
  · rintro ⟨g, hg, hmem⟩
    obtain ⟨r, hr, rfl⟩ := mem_lostTo hmem
    unfold lostTo at hmem
    split at hmem
    · cases hmem
    · rename_i hother
      rw [Bool.or_eq_true, not_or, Bool.not_eq_true] at hother
      have hbinds := List.of_mem_filter hmem
      exact ⟨hother.1, by simpa [Declaration.binds] using hbinds, r, (mem_lackingOf.mp hr).1, rfl⟩
  · rintro ⟨htype, hname, r, hr, rfl⟩
    obtain ⟨g, hg, hm⟩ := List.mem_map.mp (module_mem_of_lacking hr)
    have hne := module_ne_of_lacking hr hd htype hname
    refine ⟨g, hg, ?_⟩
    rw [lostTo, hm, if_neg (by simp [htype, hne])]
    refine List.mem_filter.mpr ⟨List.mem_map_of_mem (mem_lackingOf.mpr ⟨hr, rfl⟩), ?_⟩
    simpa [Declaration.binds] using hname

/-- Only imports of a module take decorators of it. -/
theorem module_of_takenFrom (hd : imports[i]? = some d) {module : String}
    (h : takenFrom imports wanted i module ≠ []) :
    taker? imports wanted module = some i ∧
      accepts module (lackingOf imports wanted module) d ∧ d.module = module := by
  unfold takenFrom at h
  split at h
  · rename_i htaker
    refine ⟨htaker, ?_⟩
    obtain ⟨⟨e, j⟩, hfind, hj⟩ := Option.map_eq_some_iff.mp htaker
    have he := List.mem_zipIdx_iff_getElem?.mp (List.mem_of_find?_eq_some hfind)
    dsimp only at hj he
    rw [hj, hd, Option.some.injEq] at he
    have haccepts : accepts module (lackingOf imports wanted module) e = true := by
      simpa using List.find?_some hfind
    rw [← he] at haccepts
    refine ⟨haccepts, ?_⟩
    simp only [accepts, Bool.and_eq_true, decide_eq_true_eq] at haccepts
    exact haccepts.1.1.1
  · exact absurd rfl h

/-- The decorators that the declaration `d` at place `i` takes. -/
def taken (imports : List Declaration) (wanted : List Builtin) (i : Nat) (d : Declaration) :
    List Requirement :=
  takenFrom imports wanted i d.module

/-- Of all modules only its own gives decorators to a declaration. -/
theorem flatMap_takenFrom (hd : imports[i]? = some d) :
    ((required wanted).flatMap fun g => takenFrom imports wanted i g.1) =
      taken imports wanted i d := by
  have hother {gs : List (String × List Requirement)} (hgs : d.module ∉ gs.map Prod.fst) :
      (gs.flatMap fun g => takenFrom imports wanted i g.1) = [] := by
    rw [List.flatMap_eq_nil_iff]
    intro g hg
    by_contra htaken
    rw [(module_of_takenFrom hd htaken).2.2] at hgs
    exact hgs (List.mem_map_of_mem hg)
  by_cases hkey : d.module ∈ modulesOf wanted
  · obtain ⟨g, hg, hm⟩ := List.mem_map.mp hkey
    obtain ⟨before, after, hsplit⟩ := List.append_of_mem hg
    have hkeys := modulesOf_nodup wanted
    rw [modulesOf, hsplit, List.map_append, List.map_cons, List.nodup_append, List.nodup_cons]
      at hkeys
    obtain ⟨-, ⟨hafter, -⟩, hbefore⟩ := hkeys
    have hbefore : d.module ∉ before.map Prod.fst := fun hmem =>
      hbefore d.module hmem g.1 List.mem_cons_self hm.symm
    rw [hm] at hafter
    rw [hsplit, List.flatMap_append, List.flatMap_cons, hother hbefore, hother hafter, hm,
      List.nil_append, List.append_nil, taken]
  · rw [hother hkey, taken, takenFrom]
    split
    · refine (List.eq_nil_iff_forall_not_mem.mpr fun r hr => hkey ?_).symm
      obtain ⟨hr, hm⟩ := mem_lackingOf.mp hr
      rw [← hm]
      exact module_mem_of_lacking hr
    · rfl

theorem version_make (hd : imports[i]? = some d) :
    (make imports wanted).version i d =
      (taken imports wanted i d).foldl Declaration.add (d.without (lost imports wanted d)) := by
  have hmem := List.mem_of_getElem? hd
  rw [make, version_provides (required wanted) (fun _ hg => hg) (modulesOf_nodup wanted) {} hd,
    flatMap_takenFrom hd]
  congr 1
  refine Declaration.without_congr fun name _ => ?_
  rw [List.mem_flatMap, mem_lostTo_iff hmem]

theorem version_namespaceName (hd : imports[i]? = some d) :
    ((make imports wanted).version i d).namespaceName = d.namespaceName := by
  rw [version_make hd, Declaration.addAll_namespaceName]
  rfl

theorem version_typeOnly (hd : imports[i]? = some d) :
    ((make imports wanted).version i d).typeOnly = d.typeOnly := by
  rw [version_make hd, Declaration.addAll_typeOnly]
  rfl

theorem version_module (hd : imports[i]? = some d) :
    ((make imports wanted).version i d).module = d.module := by
  rw [version_make hd, Declaration.addAll_module]
  rfl

/-- The declaration that a module gets if no import of it takes what is lacking. -/
def added? (imports : List Declaration) (wanted : List Builtin) (module : String) :
    Option Declaration :=
  if lackingOf imports wanted module = [] ∨ (taker? imports wanted module).isSome then none
  else some ((lackingOf imports wanted module).foldl Declaration.add { span := .point 0, module })

theorem added_make (imports : List Declaration) (wanted : List Builtin) :
    (make imports wanted).added = (modulesOf wanted).filterMap (added? imports wanted) := by
  have hfold (groups : List (String × List Requirement))
      (hgroups : ∀ g ∈ groups, g ∈ required wanted) (plan : Plan) :
      (groups.foldl (fun plan g => plan.provide imports g.1 g.2) plan).added =
        plan.added ++ (groups.map Prod.fst).filterMap (added? imports wanted) := by
    induction groups generalizing plan with
    | nil => simp
    | cons g groups ih =>
      rw [List.foldl_cons, ih fun g hg => hgroups g (List.mem_cons_of_mem _ hg),
        (provide_spec plan (hgroups g List.mem_cons_self)).2, List.append_assoc, List.map_cons,
        List.filterMap_cons, added?]
      split <;> rfl
  exact (hfold (required wanted) (fun _ hg => hg) {}).trans (List.nil_append _)

end Plan

end EmberClasses.Import
