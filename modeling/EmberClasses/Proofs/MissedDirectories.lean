import EmberClasses.Proofs.DirectorySearch

/-! Directories whose files are missed. A search goes from name to name, and each name is one that
the pattern for its part matches. So the files below a directory are found only where all the names
on the way to it match themselves. -/

namespace EmberClasses

open EmberClasses.Path (IsName splitSlashes)
open Disk (pathOf)

namespace Glob

/-- A part of a path that is a name and does not begin with a dot, read as a pattern. -/
structure PlainAs (part : List Char) (p : Pattern) : Prop extends ParsedAs part p where
  name : IsName part
  undotted : part.head? ≠ some '.'

theorem Reads.head?_eq {last : Option Char} {cs : List Char} {ts : List Token}
    (h : Reads last cs ts) {c : Char} (hc : ts.head? = some (.char c)) : cs.head? = some c := by
  cases h with
  | char => simpa using hc
  | set hset => exact absurd (Option.some.inj hc) ((charSet_eq_some hset).2.2.1 c)
  | _ => cases hc

variable {d : Disk}

theorem resolve_joinFrom_name {path : Path} {place : List String} {name : String}
    (hplace : d.resolve path = .ok place) (hname : IsName name.toList) :
    d.resolve (joinFrom path name) = d.step place name.toList := by
  have hstarts : Starts path [name.toList] :=
    starts_of_isName (Disk.text_ne_of_resolve hplace) (by simpa using hname)
  rw [← String.ofList_toList (s := name), resolve_joinFrom d hstarts hname.1, hplace,
    String.ofList_toList]
  rfl

theorem resolve_entry (hd : d.Named) {path : Path} {place : List String} {name : String}
    (hplace : d.resolve path = .ok place) (h : (d.node? (place ++ [name])).isSome) :
    d.resolve (joinFrom path name) = .ok (place ++ [name]) := by
  obtain ⟨t, ht⟩ := Option.isSome_iff_exists.mp h
  have hname := hd.of_node? ht name (by simp)
  rw [resolve_joinFrom_name hplace hname]
  exact (Disk.step_name_eq_ok hname).mpr ⟨h, rfl⟩

/-- The entries of a directory that match a part which begins with no dot have names that match. -/
theorem exists_name_of_mem_matchingEntries {part : List Char} {p : Pattern} (h : PlainAs part p)
    {path found : Path} {place : List String} (hplace : d.resolve path = .ok place)
    (hfound : found ∈ matchingEntries d path p) : ∃ name, p.matches name = true ∧
      (d.node? (place ++ [name])).isSome ∧ found = joinFrom path name := by
  unfold matchingEntries at hfound
  split at hfound
  · rename_i es hes
    rw [Disk.find?, hplace] at hes
    rcases List.mem_append.mp hfound with hfound | hfound
    · obtain ⟨⟨name, t⟩, hmem, rfl⟩ := List.mem_map.mp hfound
      obtain ⟨hmem, hmatches⟩ := List.mem_filter.mp hmem
      refine ⟨name, hmatches, ?_, rfl⟩
      rw [Disk.node?_eq_at?, Tree.at?_append_singleton, ← Disk.node?_eq_at?]
      simp only [hes, Option.bind_some]
      exact List.lookup_isSome_iff.mpr ⟨_, hmem, by simp⟩
    · split at hfound
      · -- Only a pattern that begins with a dot adds the directory and the one above.
        rename_i hdot
        have hhead := (reads_of_parse h.parsed h.flat).head?_eq hdot
        rw [String.toList_ofList] at hhead
        exact absurd hhead h.undotted
      · cases hfound
  · cases hfound

/-- A part that begins with no dot leads to an entry of the directory, one that it matches. -/
theorem exists_name_of_mem_follow (hd : d.Named) {part : List Char} {p : Pattern}
    (h : PlainAs part p) {path found : Path} {place : List String}
    (hplace : d.resolve path = .ok place) (hfound : found ∈ follow d p path) :
    ∃ name, p.matches name = true ∧ d.resolve found = .ok (place ++ [name]) := by
  unfold follow at hfound
  cases hliteral : p.literal? with
  | some name =>
    obtain rfl := literal?_eq_some h.parsed h.flat hliteral
    have hname : IsName (String.ofList part).toList := by simpa using h.name
    have hdot : String.ofList part ≠ "." := fun hdot => h.name.2.2.1 (String.ofList_eq.mp hdot)
    have hdots : String.ofList part ≠ ".." := fun hdots =>
      h.name.2.2.2 (String.ofList_eq.mp hdots)
    rw [hliteral] at hfound
    simp only [hdot, hdots, decide_false, Bool.or_self, Bool.false_and, Bool.not_false,
      Bool.true_and, Bool.false_or] at hfound
    split at hfound
    · rename_i hexists
      rw [List.mem_singleton.mp hfound]
      refine ⟨String.ofList part, ?_, resolve_entry hd hplace ?_⟩
      · rw [Pattern.matches, tokens_of_literal? hliteral]
        exact matchTokens_chars _
      · rw [pathExists, Disk.find?, resolve_joinFrom_name hplace hname] at hexists
        cases hstep : d.step place (String.ofList part).toList with
        | error e =>
          rw [hstep] at hexists
          cases hexists
        | ok place' => exact ((Disk.step_name_eq_ok hname).mp hstep).1
    · cases hfound
  | none =>
    rw [hliteral] at hfound
    obtain ⟨name, hmatches, hsome, rfl⟩ := exists_name_of_mem_matchingEntries h hplace hfound
    exact ⟨name, hmatches, resolve_entry hd hplace hsome⟩

/-- A search along such parts has come to a place that their patterns match name by name. -/
theorem exists_names_of_mem_expand (hd : d.Named) {parts : List (List Char)} {ps : List Pattern}
    (h : List.Forall₂ PlainAs parts ps) {rest : List Pattern} {path found : Path}
    {place : List String} (hplace : d.resolve path = .ok place)
    (hfound : found ∈ expand d (ps ++ rest) path) : ∃ names reached,
      List.Forall₂ (fun name p => p.matches name = true) names ps ∧
        d.resolve reached = .ok (place ++ names) ∧ found ∈ expand d rest reached := by
  induction h generalizing path place with
  | nil => exact ⟨[], path, .nil, by simpa using hplace, hfound⟩
  | cons hfirst _ ih =>
    rw [List.cons_append, expand_cons hfirst.flat] at hfound
    obtain ⟨next, hnext, hfound⟩ := List.mem_flatMap.mp hfound
    obtain ⟨name, hmatches, hplace⟩ := exists_name_of_mem_follow hd hfirst hplace hnext
    obtain ⟨names, reached, hnames, hreached, hfound⟩ := ih hplace hfound
    exact ⟨name :: names, reached, .cons hmatches hnames,
      by rw [hreached, List.append_assoc, List.singleton_append], hfound⟩

/-- What is found anywhere below a place has a place that goes on from there. -/
theorem exists_names_of_mem_below (hd : d.Named) {q : Pattern} {path found : Path}
    {place place' : List String} (hplace : d.resolve path = .ok place)
    (hfound : found ∈ expand d [anywhere, q] path) (hplace' : d.resolve found = .ok place') :
    ∃ names, place' = place ++ names := by
  obtain ⟨t, names, u, ht, hu, -, rfl⟩ := mem_expand_anywhere.mp hfound
  rw [Disk.find?, hplace] at ht
  have hnames : ∀ name ∈ names, IsName name.toList := fun name hname =>
    hd _ (Tree.mem_contents_of_mem ht hu) name (List.mem_append_right _ hname)
  have hparts : ∀ part ∈ names.map String.toList, IsName part := by simpa using hnames
  rw [resolve_walked d (starts_of_isName (Disk.text_ne_of_resolve hplace) hparts)
    fun part hpart => (hparts part hpart).1, hplace] at hplace'
  exact ⟨names, Disk.eq_of_foldlM_step_names hnames hplace'⟩

end Glob

namespace Discovery

open Glob

variable {d : Disk} {place : List String}

theorem text_pathOf_ne (place : List String) : (pathOf place).text ≠ "" := by
  rw [ne_eq, ← String.toList_inj, Disk.toList_pathOf]
  exact List.cons_ne_nil _ _

/-- A search for a place goes through the names of the place. -/
theorem directoryParts_pathOf (hplace : ∀ name ∈ place, IsName name.toList) :
    directoryParts (pathOf place).text = place.map String.toList := by
  have habsolute : (pathOf place).text.toList.head? = some '/' := by rw [Disk.toList_pathOf]; rfl
  cases hcase : place with
  | nil => decide +kernel
  | cons first rest =>
    have hparts : splitSlashes (pathOf place).text.toList = [] :: place.map String.toList := by
      rw [Disk.splitSlashes_pathOf (by simp [hcase]), Disk.flatMap_splitSlashes_names hplace]
    have hstem := splitSlashes_directory (text_pathOf_ne place) habsolute
    rw [← hcase]
    rcases Path.splitSlashes_stem (pathOf place) with hsplit | hsplit
    · rw [hparts, hstem, List.cons.injEq] at hsplit
      exact hsplit.2.symm
    · rw [hparts, hcase, List.map_cons] at hsplit
      have hlast := congrArg List.getLast? hsplit
      rw [List.getLast?_cons_cons, List.getLast?_concat, ← List.map_cons, ← hcase] at hlast
      obtain ⟨name, hname, hempty⟩ := List.mem_map.mp (List.mem_of_getLast? hlast)
      exact absurd hempty (hplace name hname).2.1

theorem resolve_pathOf (hplace : ∀ name ∈ place, IsName name.toList) {es : List (String × Tree)}
    (hdir : d.node? place = some (.dir es)) : d.resolve (pathOf place) = .ok place := by
  have hwalk : (place.map String.toList).foldlM d.step [] = .ok place :=
    Disk.foldlM_step_names hplace hdir
  have hstart : d.startOf (pathOf place) = [] := by
    rw [Disk.startOf, Disk.toList_pathOf]
    exact if_pos rfl
  rw [Disk.resolve, if_neg (text_pathOf_ne place), hstart]
  cases hcase : place with
  | nil =>
    have hroot : d.step [] [] = .ok [] := by
      rw [hcase] at hdir
      simp [Disk.step, hdir]
    change ([[]] ++ [[]] : List (List Char)).foldlM d.step [] = .ok []
    rw [Disk.foldlM_step_concat, List.foldlM_cons, hroot]
    exact hroot
  | cons first rest =>
    rw [← hcase, Disk.splitSlashes_pathOf (by simp [hcase]), Disk.flatMap_splitSlashes_names hplace,
      List.foldlM_cons]
    have hroot : d.step [] [] = .ok [] := by
      rw [hcase, List.map_cons, List.foldlM_cons] at hwalk
      obtain ⟨next, hnext, -⟩ := Except.bind_eq_ok hwalk
      obtain ⟨es, hroot⟩ := Disk.isDir_of_step hnext
      simp [Disk.step, hroot]
    rw [hroot]
    exact hwalk

theorem mem_splitSlashes_pathOf (hplace : ∀ name ∈ place, IsName name.toList) {part : List Char}
    (h : part ∈ splitSlashes (pathOf place).text.toList) :
    part = [] ∨ ∃ name ∈ place, part = name.toList := by
  by_cases hnil : place = []
  · subst hnil
    have hparts : splitSlashes (pathOf []).text.toList = [[], []] := by decide +kernel
    simpa [hparts] using h
  · rw [Disk.splitSlashes_pathOf hnil, Disk.flatMap_splitSlashes_names hplace, List.mem_cons,
      List.mem_map] at h
    exact h.imp_right fun ⟨name, hname, hpart⟩ => ⟨name, hname, hpart.symm⟩

theorem legible_pathOf (hplace : ∀ name ∈ place, IsName name.toList)
    (hreads : ∀ name ∈ place, ∃ p, ReadAs name.toList p) (hkept : "node_modules" ∉ place) :
    Legible (pathOf place).text where
  reads part hpart := by
    rcases mem_splitSlashes_pathOf hplace hpart with rfl | ⟨name, hname, rfl⟩
    · decide +kernel
    · exact hreads name hname
  kept hpart := by
    rcases mem_splitSlashes_pathOf hplace hpart with hpart | ⟨name, hname, hpart⟩
    · exact absurd hpart (by decide)
    · exact hkept (String.toList_inj.mp hpart ▸ hname)
  starts hrelative := by
    rw [Disk.toList_pathOf] at hrelative
    exact absurd rfl hrelative

theorem exists_of_mapM_eq_some {α β : Type} {f : α → Option β} {l : List α} {bs : List β}
    (h : l.mapM f = some bs) {a : α} (ha : a ∈ l) : ∃ b, f a = some b := by
  induction l generalizing bs with
  | nil => cases ha
  | cons first rest ih =>
    rw [List.mapM_cons] at h
    obtain ⟨b, hb, h⟩ := Option.bind_eq_some_iff.mp h
    obtain ⟨bs', hbs, -⟩ := Option.bind_eq_some_iff.mp h
    rcases List.mem_cons.mp ha with rfl | ha
    · exact ⟨b, hb⟩
    · exact ih hbs ha

/-- A pattern that is searched for has parts that can be read. -/
theorem exists_parse_of_searchParts {dir last : String} (hne : dir ≠ "") {q : Pattern}
    (hlast : EndsIn last q) {parts : List Pattern} (h : searchParts (below dir last) = some parts) :
    ∀ part ∈ directoryParts dir, ∃ p, Pattern.parse (String.ofList part) = some p := by
  unfold searchParts at h
  obtain ⟨-, -, h⟩ := Option.bind_eq_some_iff.mp h
  obtain ⟨read, hread, -⟩ := Option.bind_eq_some_iff.mp h
  rw [partsOf_searchText hne hlast] at hread
  exact fun part hpart => exists_of_mapM_eq_some hread (List.mem_append_left _ hpart)

section Place

variable (hd : d.Named) (hplace : ∀ name ∈ place, IsName name.toList)
  (hundotted : ∀ name ∈ place, name.toList.head? ≠ some '.') (hstars : "**" ∉ place)

include hplace hundotted hstars

/-- The search through a place reads its names as patterns for names. -/
theorem exists_plainAs {ext : String} (hext : ext ∈ [".js", ".ts"]) {found : List Path}
    (h : glob d (below (pathOf place).text ("*" ++ ext)) = some found) :
    ∃ ps, List.Forall₂ PlainAs (place.map String.toList) ps := by
  rw [glob_eq, Option.map_eq_some_iff] at h
  obtain ⟨parts, hparts, -⟩ := h
  have hparse :=
    exists_parse_of_searchParts (text_pathOf_ne place) (endsIn_extension ext hext) hparts
  rw [directoryParts_pathOf hplace] at hparse
  refine exists_forall₂ fun part hpart => ?_
  obtain ⟨p, hp⟩ := hparse part hpart
  obtain ⟨name, hname, rfl⟩ := List.mem_map.mp hpart
  rw [String.ofList_toList] at hp
  have hflat := not_recursive_of_parse hp (hplace name hname).1 fun htext => hstars (htext ▸ hname)
  exact ⟨p, ⟨by rwa [String.ofList_toList], hflat⟩, hplace name hname, hundotted name hname⟩

include hd

/-- The names of a place match themselves if something below the place is found. -/
theorem exists_readAs_of_finds {es : List (String × Tree)} (hdir : d.node? place = some (.dir es))
    {ext : String} (hext : ext ∈ [".js", ".ts"]) {path : Path} {names : List String}
    (hfinds : Finds d (below (pathOf place).text ("*" ++ ext)) path (pathOf (place ++ names)))
    (hnames : ∀ name ∈ place ++ names, IsName name.toList) :
    ∀ name ∈ place, ∃ p, ReadAs name.toList p := by
  obtain ⟨found, hglob, hpath⟩ := hfinds.reached
  obtain ⟨ps, hps⟩ := exists_plainAs hplace hundotted hstars hext hglob
  have hparsed : List.Forall₂ ParsedAs (directoryParts (pathOf place).text) ps := by
    rw [directoryParts_pathOf hplace]
    exact hps.imp fun _ _ h => h.toParsedAs
  rw [glob_below (text_pathOf_ne place) hext hparsed, Option.some.injEq] at hglob
  subst hglob
  obtain ⟨start, hstart, hwalk⟩ :=
    exists_start ("*" ++ ext) (text_pathOf_ne place) (resolve_pathOf hplace hdir)
  rw [directoryParts_pathOf hplace] at hwalk
  obtain rfl : start = [] := by
    simpa using Disk.eq_of_foldlM_step_names hplace hwalk
  obtain ⟨come, reached, hmatches, hreached, hfound⟩ :=
    exists_names_of_mem_expand hd hps hstart hpath
  obtain ⟨place', hplace', hcanonical⟩ := Disk.canonical?_eq_some.mp hfinds.canonical
  obtain ⟨more, rfl⟩ := exists_names_of_mem_below hd hreached hfound hplace'
  obtain ⟨t, ht⟩ : ∃ t, d.node? ([] ++ come ++ more) = some t := by
    obtain ⟨place', hfile, hnode⟩ := Disk.exists_place_of_isFile hfinds.isFile
    rw [hplace', Except.ok.injEq] at hfile
    rwa [← hfile] at hnode
  have hsame := Disk.pathOf_injective hnames (hd.of_node? ht) (congrArg Path.components hcanonical)
  have hlength : place.length = come.length := by
    rw [hmatches.length_eq, ← hps.length_eq, List.length_map]
  obtain ⟨rfl, -⟩ := List.append_inj (hsame.trans (by rw [List.nil_append])) hlength
  have hreads : List.Forall₂ (fun name p => ReadAs name.toList p) place ps :=
    List.Forall₂.mp
      (fun name p hplain hmatched => ⟨hplain.toParsedAs, by rwa [String.ofList_toList]⟩)
      (List.forall₂_map_left_iff.mp hps) hmatches
  intro name hname
  obtain ⟨p, -, hp⟩ := exists_of_mem_forall₂ hreads.flip hname
  exact ⟨p, hp⟩

end Place

theorem exists_entries_of_file_below {names : List String} {name : String} {content : ByteArray}
    {access : Access} (hfile : d.node? (place ++ names) = some (.file content access))
    (hname : names.getLast? = some name) : ∃ es, d.node? place = some (.dir es) := by
  have hne : names ≠ [] := by
    rintro rfl
    cases hname
  obtain ⟨first, rest, rfl⟩ := List.exists_cons_of_ne_nil hne
  rw [Disk.node?_eq_at?, Tree.at?_append] at hfile
  obtain ⟨t, ht, hrest⟩ := Option.bind_eq_some_iff.mp hfile
  cases t with
  | dir es => exact ⟨es, ht⟩
  | file content access =>
    rw [Tree.at?_file_cons] at hrest
    cases hrest

/-- A file below a place is found exactly if all the names of the place match themselves, provided
that none of these names begins with a dot or is `**`. -/
theorem found_below_iff (hd : d.Named) (hundotted : ∀ name ∈ place, name.toList.head? ≠ some '.')
    (hstars : "**" ∉ place) {names : List String} {name : String} {content : ByteArray}
    {access : Access} (hfile : d.node? (place ++ names) = some (.file content access))
    (hname : names.getLast? = some name) (hsource : IsSource name)
    (hkept : "node_modules" ∉ place ++ names) :
    (∃ ps, files d [(pathOf place).text] = .ok ps ∧ pathOf (place ++ names) ∈ ps) ↔
      ∀ name ∈ place, ∃ p, ReadAs name.toList p := by
  have hnames := hd.of_node? hfile
  have hplace : ∀ name ∈ place, IsName name.toList := fun name hname =>
    hnames name (List.mem_append_left _ hname)
  obtain ⟨es, hdir⟩ := exists_entries_of_file_below hfile hname
  have hresolve := resolve_pathOf hplace hdir
  have hisDir : d.isDir (pathOf place) = true := by
    rw [Disk.isDir, Disk.find?, hresolve]
    simp [hdir, Tree.isDir]
  constructor
  · rintro ⟨ps, hps, hmem⟩
    obtain ⟨found, hfound, hcollects⟩ := files_eq_ok hps
    obtain ⟨qs, hqs, hmem⟩ := List.mem_flatten.mp (hcollects.sound hmem)
    obtain ⟨input, hinput, hread⟩ := Except.exists_of_mem_mapM hfound hqs
    rw [List.mem_singleton.mp hinput] at hread
    rcases mem_of_ofInput hread hmem with ⟨hisFile, -⟩ | ⟨-, pattern, hpattern, path, hfinds⟩
    · exact absurd ((isFile_eq_false_of_isDir hisDir).symm.trans hisFile) Bool.false_ne_true
    · obtain ⟨ext, hext, rfl⟩ := (mem_patternsOf_iff hisDir).mp hpattern
      exact exists_readAs_of_finds hd hplace hundotted hstars hdir hext hfinds hnames
  · intro hreads
    have hlegible := legible_pathOf hplace hreads fun hmem => hkept (List.mem_append_left _ hmem)
    have hsearched : ∀ pattern ∈ patternsOf d (pathOf place).text,
        (searchParts pattern).isSome := fun pattern hpattern =>
      hlegible.searchParts_isSome (text_pathOf_ne place) hisDir hpattern
    obtain ⟨ps, hps⟩ : ∃ ps, files d [(pathOf place).text] = .ok ps :=
      exists_files fun input hinput _ => by rwa [List.mem_singleton.mp hinput]
    exact ⟨ps, hps, hlegible.mem_files hd hps (List.mem_singleton_self _) hisDir hresolve hfile
      hname hsource fun hmem => hkept (List.mem_append_right _ hmem)⟩

end Discovery

end EmberClasses
