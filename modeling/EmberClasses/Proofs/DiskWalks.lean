import EmberClasses.Glob.Walk
import EmberClasses.Proofs.ClassCuts
import EmberClasses.Proofs.DiskItems
import EmberClasses.Proofs.PathComponents

/-! Walks through a disk. A path that is put together part by part leads to where its parts lead one
after the other, and everything below a directory is listed with the names that lead to it. -/

namespace EmberClasses

open EmberClasses.Path (IsName splitSlashes)

namespace Tree

theorem mem_of_child? {t u : Tree} {name : String} (h : t.child? name = some u) :
    (name, u) ∈ t.entries := by
  obtain ⟨before, after, hentries, -⟩ := List.lookup_eq_some_iff.mp h
  rw [hentries]
  exact List.mem_append_right _ List.mem_cons_self

theorem contents_eq (t : Tree) : t.contents = contentsAll t.entries := by
  cases t <;> rfl

theorem mem_contentsAll {es : List (String × Tree)} {name : String} {t u : Tree}
    {names : List String} (ht : (name, t) ∈ es)
    (hu : names = [name] ∧ u = t ∨ ∃ rest, names = name :: rest ∧ (rest, u) ∈ t.contents) :
    (names, u) ∈ contentsAll es := by
  induction es with
  | nil => cases ht
  | cons e es ih =>
    obtain ⟨other, v⟩ := e
    rw [contentsAll]
    rcases List.mem_cons.mp ht with he | ht
    · cases he
      rcases hu with ⟨rfl, rfl⟩ | ⟨rest, rfl, hu⟩
      · exact List.mem_cons_self
      · exact List.mem_cons_of_mem _ (List.mem_append_left _ (List.mem_map.mpr ⟨_, hu, rfl⟩))
    · exact List.mem_cons_of_mem _ (List.mem_append_right _ (ih ht))

/-- What stands at a place below a tree is among its contents. -/
theorem mem_contents_of_at? {t u : Tree} {names : List String} (hne : names ≠ [])
    (h : t.at? names = some u) : (names, u) ∈ t.contents := by
  induction names generalizing t with
  | nil => exact absurd rfl hne
  | cons name rest ih =>
    rw [at?_cons] at h
    obtain ⟨v, hv, hrest⟩ := Option.bind_eq_some_iff.mp h
    rw [contents_eq]
    cases rest with
    | nil =>
      cases hrest
      exact mem_contentsAll (mem_of_child? hv) (.inl ⟨rfl, rfl⟩)
    | cons next rest =>
      exact mem_contentsAll (mem_of_child? hv) (.inr ⟨_, rfl, ih (by simp) hrest⟩)

/-- The contents of a tree below another one are among the contents of that one. -/
theorem mem_contents_of_mem {t u v : Tree} {place names : List String} (h : t.at? place = some u)
    (hv : (names, v) ∈ u.contents) : (place ++ names, v) ∈ t.contents := by
  induction place generalizing t with
  | nil =>
    cases h
    exact hv
  | cons name rest ih =>
    rw [at?_cons] at h
    obtain ⟨w, hw, hrest⟩ := Option.bind_eq_some_iff.mp h
    rw [contents_eq]
    exact mem_contentsAll (mem_of_child? hw) (.inr ⟨_, rfl, ih hrest⟩)

theorem at?_append (t : Tree) (place names : List String) :
    t.at? (place ++ names) = (t.at? place).bind fun u => u.at? names := by
  induction place generalizing t with
  | nil => rfl
  | cons name rest ih =>
    rw [List.cons_append, at?_cons, at?_cons]
    cases t.child? name with
    | none => rfl
    | some u => exact ih u

end Tree

namespace Disk

def Named (d : Disk) : Prop := ∀ e ∈ d.root.contents, ∀ name ∈ e.1, IsName name.toList

instance (d : Disk) : Decidable d.Named :=
  inferInstanceAs (Decidable (∀ e ∈ d.root.contents, ∀ name ∈ e.1, IsName name.toList))

variable {d : Disk}

theorem Named.of_node? (h : d.Named) {place : List String} {t : Tree}
    (hplace : d.node? place = some t) : ∀ name ∈ place, IsName name.toList := by
  intro name hname
  exact h _ (Tree.mem_contents_of_at? (List.ne_nil_of_mem hname) hplace) name hname

/-- An empty part and a dot ask for a directory, and so does whatever follows. -/
theorem step_bind (place : List String) {blank : List Char} (h : blank = [] ∨ blank = ['.'])
    (part : List Char) :
    ((d.step place blank).bind fun place => d.step place part) = d.step place part := by
  cases hplace : d.node? place with
  | none => simp [step, hplace, Except.bind]
  | some t =>
    cases t with
    | file content access => simp [step, hplace, Except.bind]
    | dir es =>
      have hstay : d.step place blank = .ok place := by simp [step, hplace, h]
      rw [hstay]
      rfl

theorem eq_of_step_nil {place place' : List String} (h : d.step place [] = .ok place') :
    place' = place := by
  unfold step at h
  split at h
  · cases h
  · cases h
  · cases h
    rfl

theorem step_name_eq_ok {name : String} (h : IsName name.toList) {place place' : List String} :
    d.step place name.toList = .ok place' ↔
      (d.node? (place ++ [name])).isSome ∧ place' = place ++ [name] := by
  obtain ⟨-, hempty, hdot, hdots⟩ := h
  rw [node?_eq_at?, Tree.at?_append_singleton, ← node?_eq_at?]
  unfold step
  cases d.node? place with
  | none => simp
  | some t =>
    cases t with
    | file content access => simp [Tree.child?, Tree.entries]
    | dir es =>
      simp only [hempty, hdot, hdots, or_self, if_false, String.ofList_toList, Option.bind_some,
        Tree.child?, Tree.entries]
      by_cases hname : (es.lookup name).isSome = true
      · rw [if_pos hname, Except.ok.injEq]
        exact ⟨fun h => ⟨hname, h.symm⟩, fun h => h.2.symm⟩
      · rw [if_neg hname]
        constructor
        · intro h
          cases h
        · exact fun h => absurd h.1 hname

theorem isDir_of_step {place place' : List String} {part : List Char}
    (h : d.step place part = .ok place') : ∃ es, d.node? place = some (.dir es) := by
  unfold step at h
  split at h
  · cases h
  · cases h
  · exact ⟨_, ‹_›⟩

theorem node?_of_step {place place' : List String} {part : List Char}
    (h : d.step place part = .ok place') (hpart : part ≠ ['.', '.']) :
    (d.node? place').isSome := by
  obtain ⟨es, hdir⟩ := isDir_of_step h
  simp only [step, hdir, hpart, if_false] at h
  split at h
  · cases h
    rw [hdir]
    rfl
  · split at h
    · cases h
      rw [node?_eq_at?, Tree.at?_append_singleton, ← node?_eq_at?, hdir]
      assumption
    · cases h

theorem foldlM_step_names {place names : List String} (hnames : ∀ name ∈ names, IsName name.toList)
    {u : Tree} (h : d.node? (place ++ names) = some u) :
    (names.map String.toList).foldlM d.step place = .ok (place ++ names) := by
  induction names generalizing place with
  | nil => simp [pure, Except.pure]
  | cons name rest ih =>
    rw [List.append_cons] at h ⊢
    have hfirst : d.step place name.toList = .ok (place ++ [name]) := by
      rw [node?_eq_at?, Tree.at?_append] at h
      obtain ⟨v, hv, -⟩ := Option.bind_eq_some_iff.mp h
      exact (step_name_eq_ok (hnames name List.mem_cons_self)).mpr
        ⟨Option.isSome_iff_exists.mpr ⟨v, hv⟩, rfl⟩
    rw [List.map_cons, List.foldlM_cons, hfirst]
    exact ih (fun name hname => hnames name (List.mem_cons_of_mem _ hname)) h

theorem eq_of_foldlM_step_names {place place' names : List String}
    (hnames : ∀ name ∈ names, IsName name.toList)
    (h : (names.map String.toList).foldlM d.step place = .ok place') : place' = place ++ names := by
  induction names generalizing place with
  | nil =>
    cases h
    simp
  | cons name rest ih =>
    rw [List.map_cons, List.foldlM_cons] at h
    obtain ⟨next, hnext, hrest⟩ := Except.bind_eq_ok h
    obtain ⟨-, rfl⟩ := (step_name_eq_ok (hnames name List.mem_cons_self)).mp hnext
    rw [ih (fun name hname => hnames name (List.mem_cons_of_mem _ hname)) hrest,
      List.append_assoc, List.singleton_append]

end Disk

namespace Path

def stem (p : Path) : List Char :=
  if p.text.toList.getLast? = some '/' then p.text.toList.dropLast else p.text.toList

theorem splitSlashes_stem (p : Path) : splitSlashes p.text.toList = splitSlashes p.stem ∨
    splitSlashes p.text.toList = splitSlashes p.stem ++ [[]] := by
  unfold stem
  split
  · rename_i hlast
    right
    conv_lhs => rw [← List.dropLast_append_getLast? _ hlast, splitSlashes_append]
    rfl
  · exact .inl rfl

theorem toList_join {p : Path} (hne : p.text ≠ "") {rest : String}
    (hrest : rest.toList.head? ≠ some '/') :
    (p.join rest).text.toList = p.stem ++ '/' :: rest.toList := by
  unfold join stem
  rw [if_neg hrest, if_neg hne]
  split
  · rename_i hlast
    conv_lhs => rw [String.toList_append, ← List.dropLast_append_getLast? _ hlast]
    rw [List.append_assoc, List.singleton_append]
  · simp

theorem head?_ne_slash {part : List Char} (h : '/' ∉ part) :
    (String.ofList part).toList.head? ≠ some '/' := by
  rw [String.toList_ofList]
  exact fun hhead => h (List.mem_of_mem_head? hhead)

/-- A part that is added to a path is added to its parts. -/
theorem splitSlashes_join {p : Path} (hne : p.text ≠ "") {part : List Char} (h : '/' ∉ part) :
    splitSlashes (p.join (String.ofList part)).text.toList = splitSlashes p.stem ++ [part] := by
  rw [toList_join hne (head?_ne_slash h), splitSlashes_append, String.toList_ofList,
    splitSlashes_of_not_mem h]

theorem isAbsolute_stem {p : Path} (hne : p.text ≠ "") (rest : List Char) :
    (p.stem ++ '/' :: rest).head? = p.text.toList.head? := by
  have hlist : p.text.toList ≠ [] := by simpa using hne
  unfold stem
  split
  · rename_i hlast
    conv_rhs => rw [← List.dropLast_append_getLast? _ hlast]
    cases p.text.toList.dropLast <;> rfl
  · cases hcs : p.text.toList with
    | nil => exact absurd hcs hlist
    | cons c cs => rfl

end Path

namespace Disk

variable {d : Disk}

theorem foldlM_step_concat (d : Disk) (place : List String) (parts : List (List Char))
    (part : List Char) : (parts ++ [part]).foldlM d.step place =
      (parts.foldlM d.step place).bind fun place => d.step place part := by
  rw [List.foldlM_append]
  simp only [List.foldlM_cons, List.foldlM_nil, bind_pure]
  rfl

theorem text_ne_of_resolve {path : Path} {place : List String} (h : d.resolve path = .ok place) :
    path.text ≠ "" := by
  intro hempty
  rw [resolve, if_pos hempty] at h
  cases h

/-- Where the text of a path leads before the slash at its end. -/
theorem resolve_eq_stem {path : Path} (hne : path.text ≠ "") :
    d.resolve path = (splitSlashes path.stem).foldlM d.step (d.startOf path) ∨
    d.resolve path = ((splitSlashes path.stem).foldlM d.step (d.startOf path)).bind
      fun place => d.step place [] := by
  rw [resolve, if_neg hne]
  rcases path.splitSlashes_stem with hsplit | hsplit
  · exact .inl (by rw [hsplit])
  · exact .inr (by rw [hsplit, foldlM_step_concat])

theorem foldlM_stem_of_resolve {path : Path} (hne : path.text ≠ "") {place : List String}
    (h : d.resolve path = .ok place) :
    (splitSlashes path.stem).foldlM d.step (d.startOf path) = .ok place := by
  rcases resolve_eq_stem (d := d) hne with hstem | hstem
  · rw [← hstem, h]
  · rw [hstem] at h
    obtain ⟨before, hbefore, hlast⟩ := Except.bind_eq_ok h
    rw [hbefore, eq_of_step_nil hlast]

/-- A part that is added to a path is followed from where the path leads. -/
theorem resolve_join (d : Disk) {path : Path} (hne : path.text ≠ "") {part : List Char}
    (hpart : '/' ∉ part) : d.resolve (path.join (String.ofList part)) =
      (d.resolve path).bind fun place => d.step place part := by
  have htext := Path.toList_join hne (Path.head?_ne_slash hpart)
  have hwhole : d.resolve (path.join (String.ofList part)) =
      ((splitSlashes path.stem).foldlM d.step (d.startOf path)).bind
        fun place => d.step place part := by
    have hnonempty : (path.join (String.ofList part)).text ≠ "" := by
      rw [ne_eq, ← String.toList_inj, htext]
      simp
    rw [resolve, if_neg hnonempty, Path.splitSlashes_join hne hpart, foldlM_step_concat, startOf,
      htext, Path.isAbsolute_stem hne, startOf]
  rw [hwhole]
  rcases resolve_eq_stem (d := d) hne with h | h
  · rw [h]
  · rw [h]
    cases (splitSlashes path.stem).foldlM d.step (d.startOf path) with
    | error e => rfl
    | ok place => exact (step_bind place (.inl rfl) part).symm

end Disk

namespace Glob

open Disk

variable {d : Disk}

def walked (path : Path) (parts : List (List Char)) : Path :=
  parts.foldl (fun path part => joinFrom path (String.ofList part)) path

/-- A search that is still at its start can not follow an empty part. -/
def Starts (path : Path) (parts : List (List Char)) : Prop :=
  path.text ≠ "" ∧ (path.text = "." → (parts.dropWhile (· = ['.'])).head? ≠ some [])

theorem resolve_joinFrom (d : Disk) {path : Path} {part : List Char} {parts : List (List Char)}
    (hstarts : Starts path (part :: parts)) (hpart : '/' ∉ part) :
    d.resolve (joinFrom path (String.ofList part)) =
      (d.resolve path).bind fun place => d.step place part := by
  unfold joinFrom
  split
  · rename_i hdot
    have hne : part ≠ [] := by
      rintro rfl
      exact hstarts.2 hdot rfl
    have hstart : d.startOf ⟨String.ofList part⟩ = d.current := by
      rw [startOf, if_neg (Path.head?_ne_slash hpart)]
    have hcurrent : d.resolve path = d.step d.current ['.'] := by
      rw [resolve, if_neg hstarts.1, startOf, hdot]
      exact foldlM_step_concat d d.current [] ['.']
    rw [hcurrent, step_bind _ (.inr rfl), resolve, if_neg (by simpa using hne), hstart,
      String.toList_ofList, Path.splitSlashes_of_not_mem hpart]
    exact foldlM_step_concat d d.current [] part
  · exact resolve_join d hstarts.1 hpart

theorem Starts.tail {path : Path} {part : List Char} {parts : List (List Char)}
    (h : Starts path (part :: parts)) (hpart : '/' ∉ part) :
    Starts (joinFrom path (String.ofList part)) parts := by
  unfold joinFrom
  split
  · rename_i hdot
    have hhead := h.2 hdot
    refine ⟨fun hempty => ?_, fun hagain => ?_⟩
    · rw [String.ofList_eq_empty_iff.mp hempty] at hhead
      exact hhead rfl
    · rw [String.ofList_eq.mp hagain] at hhead
      exact hhead
  · have hslash : '/' ∈ (path.join (String.ofList part)).text.toList := by
      rw [Path.toList_join h.1 (Path.head?_ne_slash hpart)]
      simp
    constructor
    · intro hempty
      rw [hempty] at hslash
      cases hslash
    · intro hagain
      rw [hagain] at hslash
      exact absurd hslash (by decide)

/-- What is written part by part leads to where the parts lead. -/
theorem resolve_walked (d : Disk) {path : Path} {parts : List (List Char)} (h : Starts path parts)
    (hparts : ∀ part ∈ parts, '/' ∉ part) :
    d.resolve (walked path parts) =
      (d.resolve path).bind fun place => parts.foldlM d.step place := by
  induction parts generalizing path with
  | nil => 
    cases hpath : d.resolve path <;> simp [walked, hpath, Except.bind, pure, Except.pure]
  | cons part parts ih =>
    obtain ⟨hpart, hparts⟩ := List.forall_mem_cons.mp hparts
    have hrest := ih (h.tail hpart) hparts
    rw [resolve_joinFrom d h hpart] at hrest
    rw [walked, List.foldl_cons]
    refine hrest.trans ?_
    cases d.resolve path <;> rfl

theorem mem_splitSlashes_joinFrom {path : Path} (hne : path.text ≠ "") {part : List Char}
    (hpart : '/' ∉ part) {q : List Char}
    (hq : q ∈ splitSlashes (joinFrom path (String.ofList part)).text.toList) :
    q ∈ splitSlashes path.text.toList ∨ q = part := by
  unfold joinFrom at hq
  split at hq
  · rw [String.toList_ofList, Path.splitSlashes_of_not_mem hpart, List.mem_singleton] at hq
    exact .inr hq
  · rw [Path.splitSlashes_join hne hpart, List.mem_append, List.mem_singleton] at hq
    refine hq.imp_left fun hq => ?_
    rcases path.splitSlashes_stem with hsplit | hsplit
    · rwa [hsplit]
    · rw [hsplit]
      exact List.mem_append_left _ hq

/-- The parts of what is written come from where it starts, or are those that were added. -/
theorem mem_splitSlashes_walked {path : Path} {parts : List (List Char)} (h : Starts path parts)
    (hparts : ∀ part ∈ parts, '/' ∉ part) {q : List Char}
    (hq : q ∈ splitSlashes (walked path parts).text.toList) :
    q ∈ splitSlashes path.text.toList ∨ q ∈ parts := by
  induction parts generalizing path with
  | nil => exact .inl hq
  | cons part parts ih =>
    obtain ⟨hpart, hparts⟩ := List.forall_mem_cons.mp hparts
    rcases ih (h.tail hpart) hparts hq with hq | hq
    · rcases mem_splitSlashes_joinFrom h.1 hpart hq with hq | rfl
      · exact .inl hq
      · exact .inr List.mem_cons_self
    · exact .inr (List.mem_cons_of_mem _ hq)

theorem starts_of_isName {path : Path} (hne : path.text ≠ "") {parts : List (List Char)}
    (h : ∀ part ∈ parts, IsName part) : Starts path parts := by
  refine ⟨hne, fun _ hempty => ?_⟩
  have hmem := (List.dropWhile_sublist _).subset (List.mem_of_mem_head? hempty)
  exact (h [] hmem).2.1 rfl

end Glob

end EmberClasses
