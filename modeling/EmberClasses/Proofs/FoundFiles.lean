import EmberClasses.Discovery
import EmberClasses.Proofs.ClassOutline
import EmberClasses.Proofs.GlobSearch

/-! The files that a command is about, in order. What the inputs name is put into a list that stays
sorted and without doubles. Installed packages are left out of what is searched for, judged by the
path that was searched; a file that is named as such is taken wherever it stands. All of this is
about disks without symbolic links: through a link, a path outside of packages could lead into one,
and two paths to one file. -/

namespace EmberClasses

open EmberClasses.Path (Before)

theorem Except.exists_mem_of_mapM {α β ε : Type} {f : α → Except ε β} {l : List α} {bs : List β}
    (h : l.mapM f = .ok bs) {a : α} (ha : a ∈ l) : ∃ b ∈ bs, f a = .ok b :=
  exists_of_mem_forall₂ (Except.forall₂_of_mapM (fun _ _ h => h) h).flip ha

namespace Disk

variable {d : Disk}

/-- Following one part keeps the names of the place, leaves the last one out, or adds one. -/
theorem mem_of_step {place place' : List String} {part : List Char}
    (h : d.step place part = .ok place') {name : String} (hname : name ∈ place') :
    name ∈ place ∨ name.toList = part := by
  unfold step at h
  split at h
  · cases h
  · cases h
  · split at h
    · cases h
      exact .inl hname
    · split at h
      · cases h
        exact .inl (List.mem_of_mem_dropLast hname)
      · split at h
        · cases h
          rcases List.mem_append.mp hname with hname | hname
          · exact .inl hname
          · rw [List.mem_singleton.mp hname, String.toList_ofList]
            exact .inr rfl
        · cases h

/-- The names of a place come from where its path starts, and from the parts of the path. -/
theorem mem_of_resolve {path : Path} {place : List String} (h : d.resolve path = .ok place)
    {name : String} (hname : name ∈ place) :
    name ∈ d.startOf path ∨ name.toList ∈ Path.splitSlashes path.text.toList := by
  unfold resolve at h
  split at h
  · cases h
  have hrun := Except.foldlM_inv
    (fun parts place => ∀ name ∈ place, name ∈ d.startOf path ∨ name.toList ∈ parts)
    (fun parts place part place' hplace hstep name hname => by
      rcases mem_of_step hstep hname with hname | hname
      · exact (hplace name hname).imp_right (List.mem_append_left _)
      · exact .inr (List.mem_append_right _ (List.mem_singleton.mpr hname)))
    [] (fun name hname => .inl hname) h
  simpa using hrun name hname

theorem canonical?_eq_some {path p : Path} :
    d.canonical? path = some p ↔ ∃ place, d.resolve path = .ok place ∧ p = pathOf place := by
  unfold canonical?
  cases d.resolve path <;> simp [eq_comm]

theorem find?_eq_some {path : Path} {t : Tree} :
    d.find? path = some t ↔ ∃ place, d.resolve path = .ok place ∧ d.node? place = some t := by
  unfold find?
  cases d.resolve path <;> simp

theorem exists_place_of_isFile {path : Path} (h : d.isFile path = true) :
    ∃ place, d.resolve path = .ok place ∧ ∃ t, d.node? place = some t := by
  obtain ⟨t, ht, -⟩ := (Option.any_eq_true _ _).mp h
  obtain ⟨place, hplace, ht⟩ := find?_eq_some.mp ht
  exact ⟨place, hplace, t, ht⟩

theorem exists_place_of_isDir {path : Path} (h : d.isDir path = true) :
    ∃ place, d.resolve path = .ok place ∧ ∃ es, d.node? place = some (.dir es) := by
  obtain ⟨t, ht, hdir⟩ := (Option.any_eq_true _ _).mp h
  obtain ⟨place, hplace, ht⟩ := find?_eq_some.mp ht
  cases t with
  | file content access => cases hdir
  | dir es => exact ⟨place, hplace, es, ht⟩

end Disk

namespace Discovery

open Disk (pathOf)

structure Collects (found ps : List Path) : Prop where
  sorted : ps.Pairwise Before
  sound : ps ⊆ found
  complete : ∀ p ∈ found, ∃ q ∈ ps, q.components = p.components

theorem mem_of_mem_insertSorted {p q : Path} {ps : List Path} (h : q ∈ insertSorted p ps) :
    q = p ∨ q ∈ ps := by
  induction ps with
  | nil => exact .inl (List.mem_singleton.mp h)
  | cons first rest ih =>
    rw [insertSorted] at h
    split at h
    · exact .inr h
    · split at h
      · exact List.mem_cons.mp h
      · rcases List.mem_cons.mp h with rfl | h
        · exact .inr List.mem_cons_self
        · exact (ih h).imp_right (List.mem_cons_of_mem first)

theorem subset_insertSorted (p : Path) (ps : List Path) : ps ⊆ insertSorted p ps := by
  induction ps with
  | nil => exact List.nil_subset _
  | cons first rest ih =>
    rw [insertSorted]
    split
    · exact List.Subset.refl _
    · split
      · exact List.subset_cons_self _ _
      · exact List.cons_subset_cons first ih

theorem exists_mem_insertSorted (p : Path) (ps : List Path) :
    ∃ q ∈ insertSorted p ps, q.components = p.components := by
  induction ps with
  | nil => exact ⟨p, List.mem_singleton_self p, rfl⟩
  | cons first rest ih =>
    rw [insertSorted]
    split
    · rename_i hsame
      exact ⟨first, List.mem_cons_self, (beq_iff_eq.mp hsame).symm⟩
    · split
      · exact ⟨p, List.mem_cons_self, rfl⟩
      · obtain ⟨q, hq, hcomponents⟩ := ih
        exact ⟨q, List.mem_cons_of_mem first hq, hcomponents⟩

/-- Putting a path into a sorted list keeps it sorted, as any two paths can be compared. -/
theorem pairwise_insertSorted (p : Path) {ps : List Path} (h : ps.Pairwise Before) :
    (insertSorted p ps).Pairwise Before := by
  induction ps with
  | nil => exact List.pairwise_singleton _ p
  | cons first rest ih =>
    obtain ⟨hfirst, hrest⟩ := List.pairwise_cons.mp h
    rw [insertSorted]
    split
    · exact h
    rename_i hsame
    split
    · rename_i hbefore
      refine List.pairwise_cons.mpr ⟨fun q hq => ?_, h⟩
      rcases List.mem_cons.mp hq with rfl | hq
      · exact hbefore
      · exact Path.Before.trans hbefore (hfirst q hq)
    · rename_i hbefore
      refine List.pairwise_cons.mpr ⟨fun q hq => ?_, ih hrest⟩
      rcases mem_of_mem_insertSorted hq with rfl | hq
      · exact Path.before_of_not hsame hbefore
      · exact hfirst q hq

theorem Collects.insert {found ps : List Path} (h : Collects found ps) (p : Path) :
    Collects (found ++ [p]) (insertSorted p ps) where
  sorted := pairwise_insertSorted p h.sorted
  sound q hq := by
    rcases mem_of_mem_insertSorted hq with rfl | hq
    · exact List.mem_append_right _ (List.mem_singleton_self q)
    · exact List.mem_append_left _ (h.sound hq)
  complete q hq := by
    rcases List.mem_append.mp hq with hq | hq
    · obtain ⟨q', hq', hcomponents⟩ := h.complete q hq
      exact ⟨q', subset_insertSorted p ps hq', hcomponents⟩
    · rw [List.mem_singleton.mp hq]
      exact exists_mem_insertSorted p ps

theorem collects_foldl (rest : List Path) {found ps : List Path} (h : Collects found ps) :
    Collects (found ++ rest) (rest.foldl (fun ps p => insertSorted p ps) ps) := by
  induction rest generalizing found ps with
  | nil => simpa using h
  | cons p rest ih => simpa using ih (h.insert p)

theorem collects_nil : Collects [] [] := ⟨.nil, List.Subset.refl _, by simp⟩

theorem files_eq_ok {d : Disk} {inputs : List String} {ps : List Path}
    (h : files d inputs = .ok ps) :
    ∃ found, inputs.mapM (ofInput d) = .ok found ∧ Collects found.flatten ps := by
  unfold files at h
  cases hfound : inputs.mapM (ofInput d) with
  | error e => rw [hfound] at h; cases h
  | ok found =>
    rw [hfound] at h
    cases h
    exact ⟨found, rfl, by simpa using collects_foldl found.flatten collects_nil⟩

def patternsOf (d : Disk) (input : String) : List String :=
  if d.isDir ⟨input⟩ then sourcePatterns.map fun p => (Path.join ⟨input⟩ p).text else [input]

theorem ofInput_eq (d : Disk) (input : String) : ofInput d input =
    if d.isFile ⟨input⟩ then (canonical d ⟨input⟩).map ([·])
    else ((patternsOf d input).mapM (matching d)).map List.flatten := by
  unfold ofInput patternsOf
  dsimp only
  split
  · rfl
  · split
    · rw [List.mapM_map]
      rfl
    · rw [List.mapM_cons, List.mapM_nil]
      cases matching d input with
      | error e => rfl
      | ok ps => simp [Except.map, bind, Except.bind, pure, Except.pure]

theorem canonical_eq_ok {d : Disk} {path p : Path} :
    canonical d path = .ok p ↔ d.canonical? path = some p := by
  unfold canonical
  cases d.canonical? path <;> simp

/-- A path that a search for a pattern finds, and that stands for the file `p`. -/
structure Finds (d : Disk) (pattern : String) (path p : Path) : Prop where
  reached : ∃ found, Glob.glob d pattern = some found ∧ path ∈ found
  isFile : d.isFile path = true
  kept : isExcluded path = false
  canonical : d.canonical? path = some p

theorem mem_of_matching {d : Disk} {pattern : String} {ps : List Path}
    (h : matching d pattern = .ok ps) {p : Path} (hp : p ∈ ps) :
    ∃ path, Finds d pattern path p := by
  unfold matching at h
  split at h
  · cases h
  · rename_i found hfound
    obtain ⟨path, hpath, hcanonical⟩ := Except.exists_of_mem_mapM h hp
    obtain ⟨hpath, hkept⟩ := List.mem_filter.mp hpath
    rw [Bool.and_eq_true, Bool.not_eq_true'] at hkept
    exact ⟨path, ⟨found, hfound, hpath⟩, hkept.1, hkept.2, canonical_eq_ok.mp hcanonical⟩

theorem mem_matching_of_finds {d : Disk} {pattern : String} {ps : List Path}
    (h : matching d pattern = .ok ps) {path p : Path} (hfinds : Finds d pattern path p) :
    p ∈ ps := by
  obtain ⟨found, hfound, hpath⟩ := hfinds.reached
  rw [matching, hfound] at h
  have hkept : path ∈ found.filter fun p => d.isFile p && !isExcluded p :=
    List.mem_filter.mpr ⟨hpath, by simp [hfinds.isFile, hfinds.kept]⟩
  obtain ⟨p', hp', hcanonical⟩ := Except.exists_mem_of_mapM h hkept
  rw [canonical_eq_ok.mpr hfinds.canonical] at hcanonical
  cases hcanonical
  exact hp'

/-- A search for a well-formed pattern has a result. -/
theorem exists_matching {d : Disk} {pattern : String} (h : (Glob.searchParts pattern).isSome) :
    ∃ ps, matching d pattern = .ok ps := by
  obtain ⟨parts, hparts⟩ := Option.isSome_iff_exists.mp h
  obtain ⟨found, hfound⟩ : ∃ found, Glob.glob d pattern = some found := by
    rw [Glob.glob_eq, hparts]
    exact ⟨_, rfl⟩
  have hkept : ∀ path ∈ found.filter fun p => d.isFile p && !isExcluded p,
      ∃ p, canonical d path = .ok p := by
    intro path hpath
    obtain ⟨-, hpath⟩ := List.mem_filter.mp hpath
    rw [Bool.and_eq_true] at hpath
    obtain ⟨place, hplace, -⟩ := Disk.exists_place_of_isFile hpath.1
    exact ⟨pathOf place, canonical_eq_ok.mpr (Disk.canonical?_eq_some.mpr ⟨place, hplace, rfl⟩)⟩
  rw [matching, hfound]
  exact Except.mapM_ok hkept

/-- What an input names: a file, or files that are found. -/
theorem mem_of_ofInput {d : Disk} {input : String} {ps : List Path} (h : ofInput d input = .ok ps)
    {p : Path} (hp : p ∈ ps) :
    (d.isFile ⟨input⟩ = true ∧ d.canonical? ⟨input⟩ = some p) ∨
      (d.isFile ⟨input⟩ = false ∧
        ∃ pattern ∈ patternsOf d input, ∃ path, Finds d pattern path p) := by
  rw [ofInput_eq] at h
  split at h
  · rename_i hfile
    refine .inl ⟨hfile, ?_⟩
    cases hcanonical : canonical d ⟨input⟩ with
    | error e => rw [hcanonical] at h; cases h
    | ok q =>
      rw [hcanonical] at h
      cases h
      rw [List.mem_singleton.mp hp]
      exact canonical_eq_ok.mp hcanonical
  · rename_i hfile
    refine .inr ⟨by simpa using hfile, ?_⟩
    cases hfound : (patternsOf d input).mapM (matching d) with
    | error e => rw [hfound] at h; cases h
    | ok found =>
      rw [hfound] at h
      cases h
      obtain ⟨qs, hqs, hp⟩ := List.mem_flatten.mp hp
      obtain ⟨pattern, hpattern, hmatching⟩ := Except.exists_of_mem_mapM hfound hqs
      exact ⟨pattern, hpattern, mem_of_matching hmatching hp⟩

/-- An input that is no file gives all that is found for it. -/
theorem mem_ofInput_of_finds {d : Disk} {input : String} {ps : List Path}
    (h : ofInput d input = .ok ps) (hfile : d.isFile ⟨input⟩ = false) {pattern : String}
    (hpattern : pattern ∈ patternsOf d input) {path p : Path} (hfinds : Finds d pattern path p) :
    p ∈ ps := by
  rw [ofInput_eq, if_neg (by simp [hfile])] at h
  cases hfound : (patternsOf d input).mapM (matching d) with
  | error e => rw [hfound] at h; cases h
  | ok found =>
    rw [hfound] at h
    cases h
    obtain ⟨qs, hqs, hmatching⟩ := Except.exists_mem_of_mapM hfound hpattern
    exact List.mem_flatten.mpr ⟨qs, hqs, mem_matching_of_finds hmatching hfinds⟩

/-- An input is read if it names a file, or what is searched for it is well formed. -/
theorem exists_ofInput {d : Disk} {input : String} (h : d.isFile ⟨input⟩ = false →
    ∀ pattern ∈ patternsOf d input, (Glob.searchParts pattern).isSome) :
    ∃ ps, ofInput d input = .ok ps := by
  rw [ofInput_eq]
  cases hfile : d.isFile ⟨input⟩ with
  | true =>
    obtain ⟨place, hplace, -⟩ := Disk.exists_place_of_isFile hfile
    rw [if_pos rfl, canonical_eq_ok.mpr (Disk.canonical?_eq_some.mpr ⟨place, hplace, rfl⟩)]
    exact ⟨_, rfl⟩
  | false =>
    obtain ⟨found, hfound⟩ := Except.mapM_ok fun pattern hpattern =>
      exists_matching (d := d) (h hfile pattern hpattern)
    rw [if_neg (by simp), hfound]
    exact ⟨_, rfl⟩

theorem exists_files {d : Disk} {inputs : List String}
    (h : ∀ input ∈ inputs, d.isFile ⟨input⟩ = false → ∀ pattern ∈ patternsOf d input,
      (Glob.searchParts pattern).isSome) : ∃ ps, files d inputs = .ok ps := by
  obtain ⟨found, hfound⟩ := Except.mapM_ok fun input hinput => exists_ofInput (h input hinput)
  rw [files, hfound]
  exact ⟨_, rfl⟩

theorem exists_mem_files_of_finds {d : Disk} {inputs : List String} {ps : List Path}
    (h : files d inputs = .ok ps) {input : String} (hinput : input ∈ inputs)
    (hfile : d.isFile ⟨input⟩ = false) {pattern : String} (hpattern : pattern ∈ patternsOf d input)
    {path p : Path} (hfinds : Finds d pattern path p) : ∃ q ∈ ps, q.components = p.components := by
  obtain ⟨found, hfound, hcollects⟩ := files_eq_ok h
  obtain ⟨qs, hqs, hread⟩ := Except.exists_mem_of_mapM hfound hinput
  exact hcollects.complete p
    (List.mem_flatten.mpr ⟨qs, hqs, mem_ofInput_of_finds hread hfile hpattern hfinds⟩)

/-- The result has canonical paths of what is on the disk. -/
theorem exists_place_of_mem_files {d : Disk} {inputs : List String} {ps : List Path}
    (h : files d inputs = .ok ps) {p : Path} (hp : p ∈ ps) :
    ∃ place, p = pathOf place ∧ ∃ t, d.node? place = some t := by
  obtain ⟨found, hfound, hcollects⟩ := files_eq_ok h
  obtain ⟨qs, hqs, hp⟩ := List.mem_flatten.mp (hcollects.sound hp)
  obtain ⟨input, -, hread⟩ := Except.exists_of_mem_mapM hfound hqs
  have hplace {path : Path} (hfile : d.isFile path = true)
      (hcanonical : d.canonical? path = some p) :
      ∃ place, p = pathOf place ∧ ∃ t, d.node? place = some t := by
    obtain ⟨place, hresolve, rfl⟩ := Disk.canonical?_eq_some.mp hcanonical
    obtain ⟨place', hplace', hnode⟩ := Disk.exists_place_of_isFile hfile
    obtain rfl : place = place' := by simpa [hresolve] using hplace'
    exact ⟨place, rfl, hnode⟩
  rcases mem_of_ofInput hread hp with ⟨hfile, hcanonical⟩ | ⟨-, pattern, -, path, hfinds⟩
  · exact hplace hfile hcanonical
  · exact hplace hfinds.isFile hfinds.canonical

theorem isExcluded_eq_true (path : Path) : isExcluded path = true ↔
    "node_modules".toList ∈ Path.splitSlashes path.text.toList := by
  rw [isExcluded, List.contains_iff_mem, Path.normal_mem_components_iff (by decide)]

theorem isExcluded_pathOf (place : List String) : isExcluded (pathOf place) = true ↔
    ∃ name ∈ place, "node_modules".toList ∈ Path.splitSlashes name.toList := by
  rw [isExcluded_eq_true]
  by_cases hplace : place = []
  · rw [hplace]
    simp only [List.not_mem_nil, false_and, exists_false, iff_false]
    decide
  · rw [Disk.splitSlashes_pathOf hplace, List.mem_cons, List.mem_flatMap]
    simp

/-- A file that is found stands in an installed package only if its path starts in one. -/
theorem Finds.current_excluded {d : Disk} {pattern : String} {path p : Path}
    (h : Finds d pattern path p) (hp : isExcluded p = true) :
    isExcluded (pathOf d.current) = true ∧ pattern.toList.head? ≠ some '/' := by
  obtain ⟨place, hplace, rfl⟩ := Disk.canonical?_eq_some.mp h.canonical
  obtain ⟨name, hname, hpart⟩ := (isExcluded_pathOf place).mp hp
  obtain ⟨found, hglob, hpath⟩ := h.reached
  rcases Disk.mem_of_resolve hplace hname with hstart | hwritten
  · unfold Disk.startOf at hstart
    split at hstart
    · cases hstart
    · rename_i hrelative
      exact ⟨(isExcluded_pathOf _).mpr ⟨name, hstart, hpart⟩,
        fun habsolute => hrelative (Glob.isAbsolute_of_glob hglob habsolute hpath)⟩
  · rw [Path.splitSlashes_of_not_mem (Path.not_mem_of_mem_splitSlashes hwritten),
      List.mem_singleton] at hpart
    have hkept := h.kept
    rw [Bool.eq_false_iff, ne_eq, isExcluded_eq_true, hpart] at hkept
    exact absurd hwritten hkept

theorem isAbsolute_of_mem_patternsOf {d : Disk} {input pattern : String}
    (h : input.toList.head? = some '/') (hpattern : pattern ∈ patternsOf d input) :
    pattern.toList.head? = some '/' := by
  unfold patternsOf at hpattern
  split at hpattern
  · obtain ⟨p, -, rfl⟩ := List.mem_map.mp hpattern
    exact Glob.isAbsolute_join h p
  · rwa [List.mem_singleton.mp hpattern]

/-- On a disk without links, the files that are found are in strict order and each is there once.
None stands in an installed package, exactly if no input names a file of one; for this, no search
may start in one. -/
theorem found_outside_packages_iff {d : Disk} {inputs : List String} {ps : List Path}
    (h : files d inputs = .ok ps) :
    ps.Pairwise (fun p q => Path.componentsLt p.components q.components = true) ∧
    (ps.map Path.components).Nodup ∧
    ((isExcluded (pathOf d.current) = true → ∀ input ∈ inputs, d.isFile ⟨input⟩ = false →
        input.toList.head? = some '/') →
      ((∀ p ∈ ps, Path.Component.normal "node_modules" ∉ p.components) ↔
        ∀ input ∈ inputs, d.isFile ⟨input⟩ = true → ∀ place, d.resolve ⟨input⟩ = .ok place →
          Path.Component.normal "node_modules" ∉ (pathOf place).components)) := by
  obtain ⟨found, hfound, hcollects⟩ := files_eq_ok h
  have hexcluded (p : Path) : Path.Component.normal "node_modules" ∉ p.components ↔
      isExcluded p = false := by
    rw [Bool.eq_false_iff, ne_eq, isExcluded, List.contains_iff_mem]
  refine ⟨hcollects.sorted, List.pairwise_map.mpr (hcollects.sorted.imp Path.Before.ne),
    fun hstart => ⟨fun hnone input hinput hfile place hplace => ?_, fun hnone p hp => ?_⟩⟩
  · obtain ⟨ps', hps', hinput⟩ := Except.exists_mem_of_mapM hfound hinput
    have hcanonical : canonical d ⟨input⟩ = .ok (pathOf place) :=
      canonical_eq_ok.mpr (Disk.canonical?_eq_some.mpr ⟨place, hplace, rfl⟩)
    rw [ofInput_eq, if_pos hfile, hcanonical] at hinput
    cases hinput
    obtain ⟨q, hq, hcomponents⟩ := hcollects.complete (pathOf place)
      (List.mem_flatten.mpr ⟨_, hps', List.mem_singleton_self _⟩)
    exact hcomponents ▸ hnone q hq
  · obtain ⟨ps', hps', hp⟩ := List.mem_flatten.mp (hcollects.sound hp)
    obtain ⟨input, hinput, hof⟩ := Except.exists_of_mem_mapM hfound hps'
    rcases mem_of_ofInput hof hp with ⟨hfile, hcanonical⟩ | ⟨hfile, pattern, hpattern, path, hfinds⟩
    · obtain ⟨place, hplace, rfl⟩ := Disk.canonical?_eq_some.mp hcanonical
      exact hnone input hinput hfile place hplace
    · rw [hexcluded, Bool.eq_false_iff]
      intro hinside
      obtain ⟨hcurrent, hrelative⟩ := hfinds.current_excluded hinside
      exact hrelative (isAbsolute_of_mem_patternsOf (hstart hcurrent input hinput hfile) hpattern)

/-- A file of an application and one of a package that is installed in it. -/
def onePackage : Disk where
  root := .dir [("node_modules", .dir [("i.js", .file .empty)]), ("a.js", .file .empty)]
  current := []

theorem found_outside_packages_of_one_package :
    ∃ ps, files onePackage ["/", "a.js"] = .ok ps ∧ ps.map Path.text = ["/a.js"] ∧
      (ps.map Path.components).Nodup ∧
      ∀ p ∈ ps, Path.Component.normal "node_modules" ∉ p.components := by
  have hfiles : files onePackage ["/", "a.js"] = .ok [⟨"/a.js"⟩] := by decide +kernel
  have hinputs : ∀ input ∈ ["/", "a.js"], onePackage.isFile ⟨input⟩ = true → ∀ place,
      onePackage.resolve ⟨input⟩ = .ok place →
        Path.Component.normal "node_modules" ∉ (pathOf place).components := by
    have hplaces : ∀ input ∈ ["/", "a.js"], onePackage.isFile ⟨input⟩ = true →
        onePackage.resolve ⟨input⟩ = .ok ["a.js"] := by decide +kernel
    intro input hinput hfile place hplace
    rw [hplaces input hinput hfile] at hplace
    cases hplace
    decide
  obtain ⟨-, hnodup, hiff⟩ := found_outside_packages_iff hfiles
  exact ⟨_, hfiles, rfl, hnodup, (hiff fun hcurrent => by revert hcurrent; decide).mpr hinputs⟩

theorem named_file_of_package_is_found :
    ∃ ps, files onePackage ["/node_modules/i.js"] = .ok ps ∧
      ∃ p ∈ ps, Path.Component.normal "node_modules" ∈ p.components :=
  ⟨[⟨"/node_modules/i.js"⟩], by decide +kernel, _, List.mem_singleton_self _, by decide +kernel⟩

/-- So are the files below a package, when the search starts there. -/
theorem files_below_package_are_found :
    ∃ ps, files { onePackage with current := ["node_modules"] } ["."] = .ok ps ∧
      ∃ p ∈ ps, Path.Component.normal "node_modules" ∈ p.components :=
  ⟨[⟨"/node_modules/i.js"⟩], by decide +kernel, _, List.mem_singleton_self _, by decide +kernel⟩

end Discovery

end EmberClasses
