import EmberClasses.Proofs.ImportReadBack
import EmberClasses.Proofs.ImportNames

/-! Imports that are written anew because a name was taken away from them or given to them. What was
read from the file and is written again can be read as before only if a declaration keeps all of it,
and if all of it can be written without an escape. -/

namespace EmberClasses.Import

open Script (Node Dialect)
open Script.Lexer

/-- Declarations and contents are read off the same statements. -/
theorem Content.exists_pairs (script : Node) : ∃ pairs : List (Span × Content),
    Declaration.ofScript script = pairs.map (fun p => p.2.declaration p.1) ∧
      ofScript script = pairs.map Prod.snd := by
  refine ⟨script.children.filterMap fun n => (ofStatement? n).map fun x => (n.span, x), ?_, ?_⟩
  · rw [List.map_filterMap, Declaration.ofScript]
    congr 1
    funext n
    rw [ofStatement?_declaration, Option.map_map]
    rfl
  · rw [List.map_filterMap, ofScript]
    congr 1
    funext n
    rw [Option.map_map]
    exact Option.map_id'.symm

theorem Content.getElem?_ofScript {script : Node} {i : Nat} {before : Declaration}
    (h : (Declaration.ofScript script)[i]? = some before) :
    ∃ x, (ofScript script)[i]? = some x ∧ x.declaration before.span = before := by
  obtain ⟨pairs, hdeclarations, hcontents⟩ := exists_pairs script
  rw [hdeclarations, List.getElem?_map] at h
  obtain ⟨⟨span, x⟩, hpair, rfl⟩ := Option.map_eq_some_iff.mp h
  exact ⟨x, by rw [hcontents, List.getElem?_map, hpair]; rfl, rfl⟩

namespace Declaration

theorem add_not_isEmpty (d : Declaration) (r : Requirement) : (d.add r).isEmpty = false := by
  unfold add
  cases r.imported <;> simp [isEmpty, localNames]

theorem addAll_not_isEmpty {rs : List Requirement} (hrs : rs ≠ []) (d : Declaration) :
    (rs.foldl add d).isEmpty = false := by
  induction rs generalizing d with
  | nil => exact absurd rfl hrs
  | cons r rs ih =>
    cases rs with
    | nil => exact add_not_isEmpty d r
    | cons s rs => exact ih (List.cons_ne_nil s rs) (d.add r)

theorem Usual.without {d : Declaration} (h : d.Usual) (names : List String) :
    (d.without names).Usual := by
  constructor
  · intro name hname
    exact h.names name ((localNames_without_sublist d names).subset hname)
  · refine h.alone.imp_right fun hnone => ?_
    simp [Declaration.without, hnone]

theorem Usual.addAll {d : Declaration} {rs : List Requirement} (h : d.Usual) (hrs : rs ⊆ table)
    (hspace : d.namespaceName = none) : (rs.foldl add d).Usual := by
  have htable : ∀ r ∈ table, IsLocal r.localName := by decide
  constructor
  · refine List.foldlRecOn (motive := fun e : Declaration => ∀ name ∈ e.localNames, IsLocal name)
      rs _ h.names fun e he r hr name hname => ?_
    have hnew : name ∈ e.localNames ∨ name = r.localName := by
      unfold add localNames at hname
      unfold localNames
      cases himported : r.imported with
      | none =>
        simp only [himported, List.mem_append, Option.mem_toList, Option.some.injEq] at hname ⊢
        tauto
      | some imported =>
        simp only [himported, List.mem_append, Option.mem_toList, List.map_append, List.map_cons,
          List.map_nil, List.mem_singleton] at hname ⊢
        tauto
    rcases hnew with hold | rfl
    · exact he name hold
    · exact htable r (hrs hr)
  · exact .inl ((addAll_namespaceName d rs).trans hspace)

end Declaration

namespace Plan

variable {imports : List Declaration} {wanted : List Builtin} {i : Nat} {d : Declaration}

/-- The places of some declarations, all of which bind a name or are given one. -/
def Touched (imports : List Declaration) (wanted : List Builtin)
    (changed : List (Nat × Declaration)) : Prop :=
  ∀ i ∈ changed.map Prod.fst, ∀ d, imports[i]? = some d →
    d.typeOnly = false ∧ (d.isEmpty = false ∨ taken imports wanted i d ≠ [])

theorem Touched.change {changed : List (Nat × Declaration)} (h : Touched imports wanted changed)
    (hd : imports[i]? = some d) (htype : d.typeOnly = false)
    (hname : d.isEmpty = false ∨ taken imports wanted i d ≠ []) (f : Declaration → Declaration) :
    Touched imports wanted (change i d f changed) := by
  intro k hk e he
  rcases mem_change hk with rfl | hk
  · rw [hd, Option.some.injEq] at he
    rw [← he]
    exact ⟨htype, hname⟩
  · exact h k hk e he

theorem Touched.release {changed : List (Nat × Declaration)} (h : Touched imports wanted changed)
    (r : Requirement) : Touched imports wanted (release imports changed r) := by
  unfold Plan.release
  refine List.foldlRecOn (motive := Touched imports wanted) _ _ h fun changed hchanged e he => ?_
  obtain ⟨d, i⟩ := e
  dsimp only
  split
  · rename_i hcond
    simp only [Bool.and_eq_true, Bool.not_eq_true'] at hcond
    refine hchanged.change (List.mem_zipIdx_iff_getElem?.mp he) hcond.1.2 (.inl ?_) _
    rw [Declaration.isEmpty, List.isEmpty_eq_false_iff]
    exact List.ne_nil_of_mem (List.contains_iff_mem.mp hcond.2)
  · exact hchanged

theorem Touched.provide {plan : Plan} (h : Touched imports wanted plan.changed)
    {g : String × List Requirement} (hg : g ∈ required wanted) :
    Touched imports wanted (plan.provide imports g.1 g.2).changed := by
  unfold Plan.provide
  dsimp only
  rw [missing_eq hg]
  have hreleased : Touched imports wanted
      ((lackingOf imports wanted g.1).foldl (Plan.release imports) plan.changed) :=
    List.foldlRecOn (motive := Touched imports wanted) _ _ h fun _ hc r _ => hc.release r
  split
  · exact h
  · rename_i hlacking
    split
    · rename_i d i hfind
      have hd := List.mem_zipIdx_iff_getElem?.mp (List.mem_of_find?_eq_some hfind)
      have haccepts := List.find?_some hfind
      simp only [accepts, Bool.and_eq_true, Bool.not_eq_true', decide_eq_true_eq] at haccepts
      refine hreleased.change hd haccepts.1.1.2 (.inr ?_) _
      have htaker : taker? imports wanted g.1 = some i := by rw [taker?, hfind, Option.map_some]
      rw [taken, haccepts.1.1.1, takenFrom, if_pos htaker]
      exact fun hnil => hlacking (List.isEmpty_iff.mpr hnil)
    · exact hreleased

theorem touched_make (imports : List Declaration) (wanted : List Builtin) :
    Touched imports wanted (make imports wanted).changed := by
  refine List.foldlRecOn (motive := fun plan : Plan => Touched imports wanted plan.changed) _ _ ?_
    fun plan hplan g hg => hplan.provide hg
  intro i hi
  cases hi

theorem fst_mem_of_lookup {changed : List (Nat × Declaration)} {after : Declaration}
    (h : changed.lookup i = some after) : i ∈ changed.map Prod.fst := by
  obtain ⟨earlier, later, hsplit, -⟩ := List.lookup_eq_some_iff.mp h
  simp [hsplit]

/-- A declaration that is changed and not deleted still binds a name. -/
theorem version_not_isEmpty (hd : imports[i]? = some d)
    (hchanged : i ∈ (make imports wanted).changed.map Prod.fst)
    (hkept : ((make imports wanted).version i d).isEmpty → d.isEmpty) :
    ((make imports wanted).version i d).isEmpty = false := by
  cases hempty : ((make imports wanted).version i d).isEmpty with
  | false => rfl
  | true =>
    rcases (touched_make imports wanted i hchanged d hd).2 with hfull | htaken
    · rw [hkept hempty] at hfull
      cases hfull
    · rw [version_make hd, Declaration.addAll_not_isEmpty htaken] at hempty
      cases hempty

theorem usual_version (hd : imports[i]? = some d) (h : d.Usual) :
    ((make imports wanted).version i d).Usual := by
  rw [version_make hd]
  by_cases htaken : taken imports wanted i d = []
  · rw [htaken]
    exact h.without _
  · obtain ⟨-, haccepts, -⟩ := module_of_takenFrom hd htaken
    simp only [accepts, Bool.and_eq_true, Option.isNone_iff_eq_none] at haccepts
    exact (h.without _).addAll taken_subset_table haccepts.1.2

end Plan

namespace Content

/-- What an import says after names were taken away and decorators added. -/
def revised (x : Content) (lost : List String) (taken : List Requirement) : Content :=
  taken.foldl add (x.without lost)

theorem declaration_revised (x : Content) (span : Span) (lost : List String)
    (taken : List Requirement) : (x.revised lost taken).declaration span =
      taken.foldl Declaration.add ((x.declaration span).without lost) := by
  rw [revised, declaration_addAll, declaration_without]

theorem addAll_frame (x : Content) (rs : List Requirement) :
    (rs.foldl add x).module = x.module ∧ (rs.foldl add x).attributes = x.attributes ∧
      (rs.foldl add x).typeOnly = x.typeOnly := by
  induction rs generalizing x with
  | nil => exact ⟨rfl, rfl, rfl⟩
  | cons r rs ih =>
    obtain ⟨hmodule, hattributes, htype⟩ := ih (x.add r)
    rw [List.foldl_cons, hmodule, hattributes, htype]
    unfold add
    cases r.imported <;> exact ⟨rfl, rfl, rfl⟩

theorem specifiers_addAll (x : Content) (rs : List Requirement) :
    (rs.foldl add x).specifiers = x.specifiers ++ rs.filterMap fun r =>
      r.imported.map fun imported => ⟨⟨imported, r.localName⟩, false⟩ := by
  induction rs generalizing x with
  | nil => simp
  | cons r rs ih =>
    rw [List.foldl_cons, ih, List.filterMap_cons, add]
    cases r.imported <;> simp

/-- The names of decorators need no string literals. -/
theorem writable_revised_iff {x : Content} {lost : List String} {taken : List Requirement}
    (htaken : taken ⊆ table) :
    (∀ s ∈ (x.revised lost taken).specifiers, s.typeOnly = false ∧ s.toNamed.Worded) ↔
      ∀ s ∈ x.specifiers, s.localName ∉ lost → s.typeOnly = false ∧ s.toNamed.Worded := by
  have htable : ∀ r ∈ table, ∀ imported, r.imported = some imported →
      isName imported.toList = true := by decide
  rw [revised, specifiers_addAll]
  constructor
  · intro h s hs hlost
    refine h s (List.mem_append_left _ (List.mem_filter.mpr ⟨hs, ?_⟩))
    simpa using hlost
  · intro h s hs
    rcases List.mem_append.mp hs with hs | hs
    · obtain ⟨hs, hlost⟩ := List.mem_filter.mp hs
      exact h s hs (by simpa using hlost)
    · obtain ⟨r, hr, hs⟩ := List.mem_filterMap.mp hs
      obtain ⟨imported, himported, rfl⟩ := Option.map_eq_some_iff.mp hs
      exact ⟨rfl, .inr (htable r (htaken hr) imported himported)⟩

end Content

/-- An import that is changed and not deleted is written anew, and its text is read as the import
was, less the names taken away and with the decorators added, just if the import has no attributes,
the names it keeps are words without `type` before them, and its module needs no escapes. -/
theorem rewritten_import_read_back_iff {dialect : Dialect} {source : List Char} {script : Node}
    (hparse : Script.parse dialect source = .ok script) (wanted : List Builtin) (quote : Quote)
    {i : Nat} {content : Content} {before after : Declaration}
    (hcontent : (Content.ofScript script)[i]? = some content)
    (hbefore : (Declaration.ofScript script)[i]? = some before)
    (hafter : (Plan.make (Declaration.ofScript script) wanted).changed.lookup i = some after)
    (hkept : after.isEmpty → before.isEmpty) :
    let imports := Declaration.ofScript script
    let lost := Plan.lost imports wanted before
    let revised := content.revised lost (Plan.taken imports wanted i before)
    ⟨before.span, (after.render quote).toList⟩ ∈ edits source imports wanted quote ∧
    ((∃ script', Script.parse dialect (after.render quote).toList = .ok script' ∧
        Content.ofScript script' = [revised]) ↔
      content.attributes = [] ∧
      (∀ s ∈ content.specifiers, s.localName ∉ lost → s.typeOnly = false ∧ s.toNamed.Worded) ∧
      ∀ c ∈ content.module.toList, IsPlain quote.char c) := by
  intro imports lost revised
  obtain ⟨x, hx, hdeclaration⟩ := Content.getElem?_ofScript hbefore
  rw [hcontent, Option.some.injEq] at hx
  subst hx
  have hversion : (Plan.make imports wanted).version i before = after := by
    rw [Plan.version, hafter, Option.getD_some]
  have hchanged := Plan.fst_mem_of_lookup hafter
  have hrevised : revised.declaration before.span = after := by
    rw [Content.declaration_revised, hdeclaration, ← Plan.version_make hbefore, hversion]
  have husual : after.Usual := by
    rw [← hversion]
    exact Plan.usual_version hbefore (usual_of_parse hparse (List.mem_of_getElem? hbefore))
  have hne : after.isEmpty = false := by
    rw [← hversion] at hkept ⊢
    exact Plan.version_not_isEmpty hbefore hchanged hkept
  obtain ⟨hmodule, hattributes, htype⟩ :=
    Content.addAll_frame (content.without lost) (Plan.taken imports wanted i before)
  have hvalue : revised.typeOnly = false := by
    have hbeforeType := (Plan.touched_make imports wanted i hchanged before hbefore).1
    rw [← hdeclaration] at hbeforeType
    exact htype.trans hbeforeType
  constructor
  · have hmem : Plan.changeEdit source imports quote before after ∈
        edits source imports wanted quote := Plan.changeEdit_mem hbefore hafter
    rwa [Plan.changeEdit, if_neg (by simp [hne])] at hmem
  · have hiff := parse_render_iff dialect quote (hrevised ▸ husual) (hrevised ▸ hne) hvalue
    rw [hrevised, Content.writable_revised_iff Plan.taken_subset_table] at hiff
    rwa [show revised.attributes = content.attributes from hattributes,
      show revised.module = content.module from hmodule] at hiff

/-- An import loses its default name and keeps a quote in its module. -/
theorem rewritten_import_read_back_of_quote :
    ∃ script script' : Node,
      let source := ("import on, \x7b tagName as b, x \x7d from \"it's\";\n" ++
        "import \x7b computed \x7d from '@ember/object';\n").toList
      let imports := Declaration.ofScript script
      let text := "import \x7b tagName as b, x \x7d from \"it's\";".toList
      Script.parse ⟨false⟩ source = .ok script ∧
      (⟨⟨0, 43⟩, text⟩ : Edit) ∈ edits source imports [.on, .action] .double ∧
      Script.parse ⟨false⟩ text = .ok script' ∧
      Content.ofScript script' =
        [{ module := "it's", specifiers := [⟨⟨"tagName", "b"⟩, false⟩, ⟨⟨"x", "x"⟩, false⟩] }] := by
  generalize hsource : String.toList _ = source
  let content : Content :=
    { module := "it's", defaultName := some "on",
      specifiers := [⟨⟨"tagName", "b"⟩, false⟩, ⟨⟨"x", "x"⟩, false⟩] }
  let before : Declaration := content.declaration ⟨0, 43⟩
  let other : Declaration :=
    { span := ⟨44, 85⟩, module := "@ember/object", named := [⟨"computed", "computed"⟩] }
  have h : ((Script.parse ⟨false⟩ source).toOption.any fun script =>
      decide ((Content.ofScript script)[0]? = some content ∧
        Declaration.ofScript script = [before, other])) = true := by
    subst hsource
    decide +kernel
  simp only [Option.any_eq_true, Except.toOption_eq_some_iff, decide_eq_true_eq] at h
  obtain ⟨script, hparse, hcontent, himports⟩ := h
  let after : Declaration := { before with defaultName := none }
  have hbefore : (Declaration.ofScript script)[0]? = some before := by
    rw [himports]
    rfl
  have hafter : (Plan.make (Declaration.ofScript script) [.on, .action]).changed.lookup 0 =
      some after := by
    rw [himports]
    decide +kernel
  obtain ⟨hedit, hiff⟩ := rewritten_import_read_back_iff hparse [.on, .action] .double hcontent
    hbefore hafter (by decide)
  have hspecifiers : ∀ s ∈ content.specifiers,
      s.localName ∉ Plan.lost (Declaration.ofScript script) [.on, .action] before →
        s.typeOnly = false ∧ s.toNamed.Worded := by
    rw [himports]
    decide +kernel
  -- `decide` on the quantifier may go through all characters there are.
  have hplain : (content.module.toList.all fun c => decide (IsPlain Quote.double.char c)) = true :=
    by decide +kernel
  obtain ⟨script', hparse', hread⟩ := hiff.mpr ⟨rfl, hspecifiers, by simpa using hplain⟩
  have htext : (after.render .double).toList =
      "import \x7b tagName as b, x \x7d from \"it's\";".toList := by decide +kernel
  rw [htext] at hedit hparse'
  refine ⟨script, script', hparse, hedit, hparse', ?_⟩
  rw [hread, himports]
  decide +kernel

/-- The attributes of an import that is given a decorator are gone. -/
theorem import_attributes_are_lost :
    ∃ script script' : Node,
      let source :=
        "import \x7b computed \x7d from '@ember/object' with \x7b type: 'x' \x7d;\n".toList
      let text := "import \x7b computed, action \x7d from '@ember/object';".toList
      Script.parse ⟨false⟩ source = .ok script ∧
      (Content.ofScript script).map (·.attributes) = [[("type", "x")]] ∧
      edits source (Declaration.ofScript script) [.action] .single = [⟨⟨0, 60⟩, text⟩] ∧
      Script.parse ⟨false⟩ text = .ok script' ∧
      (Content.ofScript script').map (·.attributes) = [[]] := by
  generalize hsource : String.toList _ = source
  generalize htext : String.toList _ = text
  have h : ((Script.parse ⟨false⟩ source).toOption.any fun script =>
      decide ((Content.ofScript script).map (·.attributes) = [[("type", "x")]] ∧
        edits source (Declaration.ofScript script) [.action] .single = [⟨⟨0, 60⟩, text⟩])) =
      true := by
    subst hsource htext
    decide +kernel
  have h' : ((Script.parse ⟨false⟩ text).toOption.any fun script =>
      decide ((Content.ofScript script).map (·.attributes) = [[]])) = true := by
    subst htext
    decide +kernel
  simp only [Option.any_eq_true, Except.toOption_eq_some_iff, decide_eq_true_eq] at h h'
  obtain ⟨script, hparse, hattributes, hedits⟩ := h
  obtain ⟨script', hparse', hattributes'⟩ := h'
  exact ⟨script, script', hparse, hattributes, hedits, hparse', hattributes'⟩

end EmberClasses.Import
