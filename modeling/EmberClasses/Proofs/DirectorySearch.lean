import EmberClasses.Proofs.DiskWalks
import EmberClasses.Proofs.FoundFiles
import EmberClasses.Proofs.PatternTexts

/-! The search through a directory. The directory becomes the first part of a pattern, so that what
stands in its own path is read as a pattern too. Where every part of this path matches itself, all
the files below the directory are found. -/

namespace EmberClasses

open EmberClasses.Path (IsName splitSlashes)
open Disk (pathOf)

namespace Glob

structure ParsedAs (part : List Char) (p : Pattern) : Prop where
  parsed : Pattern.parse (String.ofList part) = some p
  flat : p.recursive = false

structure ReadAs (part : List Char) (p : Pattern) : Prop extends ParsedAs part p where
  matched : p.matches (String.ofList part) = true

theorem exists_readAs_iff (part : List Char) : (∃ p, ReadAs part p) ↔
    (Pattern.parse (String.ofList part)).any
      (fun p => !p.recursive && p.matches (String.ofList part)) = true := by
  rw [Option.any_eq_true]
  refine exists_congr fun p => ⟨fun h => ⟨h.parsed, by simp [h.flat, h.matched]⟩, fun ⟨hp, h⟩ => ?_⟩
  rw [Bool.and_eq_true, Bool.not_eq_true'] at h
  exact ⟨⟨hp, h.1⟩, h.2⟩

instance (part : List Char) : Decidable (∃ p, ReadAs part p) :=
  decidable_of_iff _ (exists_readAs_iff part).symm

variable {d : Disk}

theorem isName_of_wildcards {part : List Char} {p : Pattern} (h : ReadAs part p)
    (hwild : p.literal? = none) (hpart : '/' ∉ part) : IsName part := by
  have hplain : ∀ part ∈ [[], ['.'], ['.', '.']],
      (Pattern.parse (String.ofList part)).all fun p => p.literal?.isSome := by
    decide +kernel
  have hnot : part ∉ [[], ['.'], ['.', '.']] := fun hmem => by
    have hsome := hplain part hmem
    rw [h.parsed, Option.all_some, hwild] at hsome
    cases hsome
  simp only [List.mem_cons, List.not_mem_nil, or_false, not_or] at hnot
  exact ⟨hpart, hnot⟩

def anywhere : Pattern := ⟨[.anyComponents], true⟩

def withExtension (ext : String) : Pattern := ⟨.anySequence :: ext.toList.map .char, false⟩

/-- A part that matches itself leads the search on, wherever it would lead. -/
theorem mem_follow {part : List Char} {parts : List (List Char)} {p : Pattern}
    (h : ReadAs part p) (hpart : '/' ∉ part) {path : Path} (hstarts : Starts path (part :: parts))
    {place place' : List String} (hplace : d.resolve path = .ok place)
    (hstep : d.step place part = .ok place') :
    joinFrom path (String.ofList part) ∈ follow d p path := by
  obtain ⟨es, hdir⟩ := Disk.isDir_of_step hstep
  have hfind : d.find? path = some (.dir es) := by
    rw [Disk.find?, hplace]
    exact hdir
  unfold follow
  cases hliteral : p.literal? with
  | some name =>
    obtain rfl := literal?_eq_some h.parsed h.flat hliteral
    have hgoes : ((decide (String.ofList part = ".") || decide (String.ofList part = "..")) &&
        d.isDir path ||
        !(decide (String.ofList part = ".") || decide (String.ofList part = "..")) &&
        pathExists d (joinFrom path (String.ofList part))) = true := by
      by_cases hspecial : String.ofList part = "." ∨ String.ofList part = ".."
      · have hisDir : d.isDir path = true := by rw [Disk.isDir, hfind]; rfl
        simp [hspecial, hisDir]
      · have hexists : pathExists d (joinFrom path (String.ofList part)) = true := by
          rw [pathExists, Disk.find?, resolve_joinFrom d hstarts hpart, hplace]
          simp only [Except.bind, hstep]
          exact Disk.node?_of_step hstep fun hdots => hspecial (.inr (by rw [hdots]))
        simp [not_or.mp hspecial, hexists]
    dsimp only
    rw [if_pos hgoes]
    exact List.mem_singleton_self _
  | none =>
    have hname := isName_of_wildcards h hliteral hpart
    rw [← String.toList_ofList (l := part)] at hstep hname
    obtain ⟨hsome, -⟩ := (Disk.step_name_eq_ok hname).mp hstep
    rw [Disk.node?_eq_at?, Tree.at?_append_singleton, ← Disk.node?_eq_at?, hdir] at hsome
    obtain ⟨t, ht⟩ := Option.isSome_iff_exists.mp hsome
    have hmem : (String.ofList part, t) ∈ es := Tree.mem_of_child? ht
    dsimp only
    unfold matchingEntries
    rw [hfind]
    exact List.mem_append_left _ (List.mem_map.mpr ⟨_, List.mem_filter.mpr ⟨hmem, h.matched⟩, rfl⟩)

/-- Parts that match themselves lead a search along. -/
theorem expand_walked_subset {parts : List (List Char)} {ps : List Pattern}
    (h : List.Forall₂ ReadAs parts ps) (hparts : ∀ part ∈ parts, '/' ∉ part) {path : Path}
    (hstarts : Starts path parts) {place place' : List String}
    (hplace : d.resolve path = .ok place) (hwalk : parts.foldlM d.step place = .ok place')
    (rest : List Pattern) : expand d rest (walked path parts) ⊆ expand d (ps ++ rest) path := by
  induction h generalizing path place with
  | nil => exact List.Subset.refl _
  | @cons part p parts ps hread _ ih =>
    obtain ⟨hpart, hparts⟩ := List.forall_mem_cons.mp hparts
    rw [List.foldlM_cons] at hwalk
    obtain ⟨next, hstep, hwalk⟩ := Except.bind_eq_ok hwalk
    have hnext : d.resolve (joinFrom path (String.ofList part)) = .ok next := by
      rw [resolve_joinFrom d hstarts hpart, hplace]
      exact hstep
    intro found hfound
    rw [List.cons_append, expand_cons hread.flat]
    exact List.mem_flatMap.mpr ⟨_, mem_follow hread hpart hstarts hplace hstep,
      ih hparts (hstarts.tail hpart) hnext hwalk hfound⟩

/-! What stands below a directory. -/

theorem matchTokens_char_cons (c : Char) (cs : List Char) (ts : List Token) :
    matchTokens (.char c :: ts) (c :: cs) = matchTokens ts cs := by
  have htakes : (Token.char c).takes c = true := beq_self_eq_true c
  rw [matchTokens, htakes, Bool.true_and] <;> exact nofun

theorem matchTokens_chars (cs : List Char) : matchTokens (cs.map .char) cs = true := by
  induction cs with
  | nil => rfl
  | cons c cs ih => rw [List.map_cons, matchTokens_char_cons, ih]

theorem afterSome_append {tail : List Char → Bool} {rest : List Char} (h : tail rest = true)
    (before : List Char) (c : Char) :
    afterSome tail (fun _ => true) (before ++ c :: rest) = true := by
  induction before with
  | nil => simp [afterSome, h]
  | cons b before ih => simp [afterSome, ih]

theorem matchTokens_anySequence {ts : List Token} {rest : List Char}
    (h : matchTokens ts rest = true) (before : List Char) :
    matchTokens (.anySequence :: ts) (before ++ rest) = true := by
  rw [matchTokens, Bool.or_eq_true]
  induction before using List.reverseRecOn with
  | nil => exact .inl h
  | append_singleton before c =>
    rw [List.append_assoc]
    exact .inr (afterSome_append h before c)

theorem mergeRecursive_of_flat {ps : List Pattern} (h : ∀ p ∈ ps, p.recursive = false) {q : Pattern}
    (hq : q.recursive = false) (r : Pattern) : mergeRecursive (ps ++ [r, q]) = ps ++ [r, q] := by
  induction ps with
  | nil => simp [mergeRecursive, hq]
  | cons p ps ih =>
    obtain ⟨hp, hps⟩ := List.forall_mem_cons.mp h
    obtain ⟨next, rest, hnext⟩ := List.exists_cons_of_ne_nil (l := ps ++ [r, q]) (by simp)
    rw [List.cons_append, hnext, mergeRecursive, hp, ← hnext, ih hps]
    rfl

theorem exists_forall₂ {α β : Type} {R : α → β → Prop} {l : List α} (h : ∀ a ∈ l, ∃ b, R a b) :
    ∃ bs, List.Forall₂ R l bs := by
  induction l with
  | nil => exact ⟨[], .nil⟩
  | cons a l ih =>
    obtain ⟨⟨b, hb⟩, hrest⟩ := List.forall_mem_cons.mp h
    obtain ⟨bs, hbs⟩ := ih hrest
    exact ⟨b :: bs, .cons hb hbs⟩

theorem mapM_eq_some_of_forall₂ {α β : Type} {f : α → Option β} {l : List α} {bs : List β}
    (h : List.Forall₂ (fun a b => f a = some b) l bs) : l.mapM f = some bs := by
  induction h with
  | nil => rfl
  | cons hfirst _ ih =>
    rw [List.mapM_cons, hfirst, ih]
    rfl

def directoryParts (dir : String) : List (List Char) :=
  if dir.toList.head? = some '/' then (splitSlashes (Path.stem ⟨dir⟩)).tail
  else splitSlashes (Path.stem ⟨dir⟩)

theorem splitSlashes_directory {dir : String} (hne : dir ≠ "")
    (h : dir.toList.head? = some '/') :
    splitSlashes (Path.stem ⟨dir⟩) = [] :: directoryParts dir := by
  have hhead := Path.isAbsolute_stem (p := ⟨dir⟩) hne []
  rw [h] at hhead
  rw [directoryParts, if_pos h]
  cases hstem : Path.stem ⟨dir⟩ with
  | nil => rfl
  | cons c cs =>
    rw [hstem] at hhead
    cases hhead
    rfl

/-- The pattern that looks for files anywhere below a directory. -/
def below (dir last : String) : String := (Path.join ⟨dir⟩ ("**/" ++ last)).text

theorem toList_below {dir : String} (hne : dir ≠ "") (last : String) :
    (below dir last).toList = Path.stem ⟨dir⟩ ++ '/' :: ("**/" ++ last).toList := by
  refine Path.toList_join hne ?_
  rw [String.toList_append]
  exact fun h => by cases h

theorem splitSlashes_below {dir last : String} (hne : dir ≠ "") (hlast : '/' ∉ last.toList) :
    splitSlashes (below dir last).toList =
      splitSlashes (Path.stem ⟨dir⟩) ++ [['*', '*'], last.toList] := by
  have htext : ("**/" ++ last).toList = ['*', '*'] ++ '/' :: last.toList := by
    rw [String.toList_append]
    rfl
  have hstars : splitSlashes ("**/" ++ last).toList = [['*', '*'], last.toList] := by
    rw [htext, Path.splitSlashes_append, Path.splitSlashes_of_not_mem hlast]
    rfl
  rw [toList_below hne, Path.splitSlashes_append, hstars]

theorem head?_below {dir : String} (hne : dir ≠ "") (last : String) :
    (below dir last).toList.head? = dir.toList.head? := by
  rw [toList_below hne, Path.isAbsolute_stem hne]

/-- The last part of a pattern, which matches the names of files. -/
structure EndsIn (last : String) (q : Pattern) : Prop where
  proper : '/' ∉ last.toList
  nonempty : last ≠ ""
  parsed : Pattern.parse last = some q
  flat : q.recursive = false

theorem getLast?_below {dir last : String} {q : Pattern} (hne : dir ≠ "") (hlast : EndsIn last q) :
    (below dir last).toList.getLast? ≠ some '/' := by
  have hlist : last.toList ≠ [] := by simpa using hlast.nonempty
  rw [toList_below hne, String.toList_append, List.append_cons, ← List.append_assoc,
    List.getLast?_append_of_ne_nil _ hlist]
  exact fun h => hlast.proper (List.mem_of_getLast? h)

theorem splitSlashes_searchText {dir last : String} (hne : dir ≠ "") (hlast : '/' ∉ last.toList) :
    splitSlashes (searchText (below dir last)) =
      directoryParts dir ++ [['*', '*'], last.toList] := by
  have hwhole := splitSlashes_below hne hlast
  unfold searchText
  by_cases habsolute : dir.toList.head? = some '/'
  · obtain ⟨cs, hcs⟩ := List.head?_eq_some_iff.mp ((head?_below hne last).trans habsolute)
    rw [hcs, splitSlashes_directory hne habsolute, splitSlashes, if_pos rfl, List.cons_append,
      List.cons.injEq] at hwhole
    simp only [hcs, List.head?_cons, if_true, List.tail_cons]
    exact hwhole.2
  · simp only [head?_below hne last, if_neg habsolute, hwhole, directoryParts]

theorem partsOf_searchText {dir last : String} (hne : dir ≠ "") {q : Pattern}
    (hlast : EndsIn last q) : partsOf (searchText (below dir last)) =
      directoryParts dir ++ [['*', '*'], last.toList] := by
  rw [partsOf, splitSlashes_searchText hne hlast.proper]
  simp [hlast.nonempty]

/-- The search below a directory goes through the parts of its path. -/
theorem searchParts_below {dir last : String} (hne : dir ≠ "") {q : Pattern} (hlast : EndsIn last q)
    {ps : List Pattern} (h : List.Forall₂ ParsedAs (directoryParts dir) ps) :
    searchParts (below dir last) = some (ps ++ [anywhere, q]) := by
  have hread : (partsOf (searchText (below dir last))).mapM
      (fun part => Pattern.parse (String.ofList part)) = some (ps ++ [anywhere, q]) := by
    rw [partsOf_searchText hne hlast]
    refine mapM_eq_some_of_forall₂ (List.rel_append (h.imp fun _ _ h => h.parsed) ?_)
    refine .cons (by decide +kernel) (.cons ?_ .nil)
    rw [String.ofList_toList, hlast.parsed]
  have hreadable : ∀ part ∈ directoryParts dir, (Pattern.parse (String.ofList part)).isSome := by
    intro part hpart
    obtain ⟨p, -, hp⟩ := exists_of_mem_forall₂ h.flip hpart
    rw [hp.parsed]
    rfl
  obtain ⟨whole, hwhole⟩ : ∃ whole, Pattern.parse (below dir last) = some whole := by
    refine Option.isSome_iff_exists.mp (parse_isSome_of_parts fun part hpart => ?_)
    rw [splitSlashes_below hne hlast.proper] at hpart
    rcases List.mem_append.mp hpart with hpart | hpart
    · by_cases habsolute : dir.toList.head? = some '/'
      · rw [splitSlashes_directory hne habsolute] at hpart
        rcases List.mem_cons.mp hpart with rfl | hpart
        · decide +kernel
        · exact hreadable part hpart
      · rw [directoryParts, if_neg habsolute] at hreadable
        exact hreadable part hpart
    · simp only [List.mem_cons, List.not_mem_nil, or_false] at hpart
      rcases hpart with rfl | rfl
      · decide +kernel
      · rw [String.ofList_toList, hlast.parsed]
        rfl
  have hsome : (searchText (below dir last)).isEmpty = false := by
    rw [List.isEmpty_eq_false_iff]
    intro hempty
    have hlength := congrArg List.length (splitSlashes_searchText hne hlast.proper)
    rw [hempty] at hlength
    simp [splitSlashes] at hlength
  have hflat : ∀ p ∈ ps, p.recursive = false := forall_of_forall₂ h fun _ _ hp => hp.flat
  rw [searchParts, hwhole, hread, hsome]
  exact congrArg some (mergeRecursive_of_flat hflat hlast.flat anywhere)

/-- From where the search starts, the parts of a directory lead to its place. -/
theorem exists_start (last : String) {dir : String} (hne : dir ≠ "") {place : List String}
    (h : d.resolve ⟨dir⟩ = .ok place) :
    ∃ start, d.resolve (searchStart (below dir last)) = .ok start ∧
      (directoryParts dir).foldlM d.step start = .ok place := by
  have hwalk := Disk.foldlM_stem_of_resolve hne h
  rw [searchStart, head?_below hne]
  by_cases habsolute : dir.toList.head? = some '/'
  · rw [splitSlashes_directory hne habsolute, Disk.startOf, if_pos habsolute, List.foldlM_cons]
      at hwalk
    obtain ⟨root, hroot, hwalk⟩ := Except.bind_eq_ok hwalk
    obtain rfl := Disk.eq_of_step_nil hroot
    refine ⟨[], ?_, hwalk⟩
    rw [if_pos habsolute, Disk.resolve, if_neg (by decide)]
    change ([[]] ++ [[]] : List (List Char)).foldlM d.step [] = .ok []
    rw [Disk.foldlM_step_concat, List.foldlM_cons, hroot]
    exact hroot
  · rw [Disk.startOf, if_neg habsolute] at hwalk
    rw [if_neg habsolute, directoryParts, if_neg habsolute]
    refine ⟨d.current, ?_, hwalk⟩
    obtain ⟨part, parts, hparts⟩ :=
      List.exists_cons_of_ne_nil (Path.splitSlashes_ne_nil (Path.stem ⟨dir⟩))
    rw [hparts, List.foldlM_cons] at hwalk
    obtain ⟨next, hnext, -⟩ := Except.bind_eq_ok hwalk
    obtain ⟨es, hdir⟩ := Disk.isDir_of_step hnext
    have hdot : d.step d.current ['.'] = .ok d.current := by simp [Disk.step, hdir]
    rw [Disk.resolve, if_neg (by decide)]
    change ([] ++ [['.']] : List (List Char)).foldlM d.step d.current = .ok d.current
    rw [Disk.foldlM_step_concat]
    exact hdot

/-- Anything below a path is found if the last part matches its name. -/
theorem mem_expand_anywhere {path found : Path} {q : Pattern} :
    found ∈ expand d [anywhere, q] path ↔ ∃ t names u, d.find? path = some t ∧
      (names, u) ∈ t.contents ∧ q.matches (names.getLast?.getD "") = true ∧
        found = walked path (names.map String.toList) := by
  have hexpand : expand d [anywhere, q] path =
      ((descendants d path).filter fun e => q.matches e.2.1).flatMap fun e => [e.1] := by
    rw [expand.eq_def]
    rfl
  have hwritten (names : List String) :
      names.foldl joinFrom path = walked path (names.map String.toList) := by
    simp [walked, List.foldl_map]
  rw [hexpand, descendants]
  cases d.find? path with
  | none => simp
  | some t =>
    simp only [List.mem_flatMap, List.mem_filter, List.mem_map, Prod.exists, List.mem_singleton,
      Option.some.injEq, hwritten]
    constructor
    · rintro ⟨next, name, isDir, ⟨⟨names, u, hmem, he⟩, hq⟩, rfl⟩
      cases he
      exact ⟨t, names, u, rfl, hmem, hq, rfl⟩
    · rintro ⟨t', names, u, rfl, hmem, hq, rfl⟩
      exact ⟨_, _, _, ⟨⟨names, u, hmem, rfl⟩, hq⟩, rfl⟩

/-- What stands below the place that a search has come to is found by the last part. -/
theorem mem_expand_below {path : Path} {place : List String} (hplace : d.resolve path = .ok place)
    {t u : Tree} (ht : d.node? place = some t) {names : List String} {name : String}
    (hname : names.getLast? = some name) (hu : t.at? names = some u) {q : Pattern}
    (hq : q.matches name = true) :
    walked path (names.map String.toList) ∈ expand d [anywhere, q] path := by
  have hne : names ≠ [] := by
    rintro rfl
    cases hname
  refine mem_expand_anywhere.mpr ⟨t, names, u, ?_, Tree.mem_contents_of_at? hne hu, ?_, rfl⟩
  · rw [Disk.find?, hplace]
    exact ht
  · rwa [hname]

end Glob

namespace Discovery

open Glob

/-- The path of a directory, as it is written, is a pattern that leads to the directory, and the
files below it are not left out for a part of it. -/
structure Legible (dir : String) : Prop where
  reads : ∀ part ∈ splitSlashes dir.toList, ∃ p, ReadAs part p
  kept : "node_modules".toList ∉ splitSlashes dir.toList
  starts : dir.toList.head? ≠ some '/' →
    ((splitSlashes (Path.stem ⟨dir⟩)).dropWhile (· = ['.'])).head? ≠ some []

instance (dir : String) : Decidable (Legible dir) :=
  decidable_of_iff ((∀ part ∈ splitSlashes dir.toList, ∃ p, ReadAs part p) ∧
      "node_modules".toList ∉ splitSlashes dir.toList ∧ (dir.toList.head? ≠ some '/' →
        ((splitSlashes (Path.stem ⟨dir⟩)).dropWhile (· = ['.'])).head? ≠ some []))
    ⟨fun h => ⟨h.1, h.2.1, h.2.2⟩, fun h => ⟨h.reads, h.kept, h.starts⟩⟩

def IsSource (name : String) : Prop := ∃ ext ∈ [".js", ".ts"], ext.toList <:+ name.toList

instance (name : String) : Decidable (IsSource name) :=
  inferInstanceAs (Decidable (∃ ext ∈ [".js", ".ts"], ext.toList <:+ name.toList))

theorem sourcePatterns_eq :
    sourcePatterns = [".js", ".ts"].map fun ext => "**/" ++ ("*" ++ ext) := by decide

/-- Either pattern ends in a part that matches the names with its extension. -/
theorem endsIn_extension : ∀ ext ∈ [".js", ".ts"],
    EndsIn ("*" ++ ext) (withExtension ext) := by
  have hextensions : ∀ ext ∈ [".js", ".ts"], '/' ∉ ("*" ++ ext).toList ∧ "*" ++ ext ≠ "" ∧
      Pattern.parse ("*" ++ ext) = some (withExtension ext) := by
    decide +kernel
  intro ext hext
  obtain ⟨hproper, hnonempty, hparsed⟩ := hextensions ext hext
  exact ⟨hproper, hnonempty, hparsed, rfl⟩

section Directory

variable {d : Disk} {dir : String}

theorem isFile_eq_false_of_isDir (h : d.isDir ⟨dir⟩ = true) : d.isFile ⟨dir⟩ = false := by
  unfold Disk.isDir at h
  unfold Disk.isFile
  cases hfind : d.find? ⟨dir⟩ with
  | none => rfl
  | some t => simpa [hfind, Tree.isFile] using h

theorem mem_stem_of_mem {part : List Char} (h : part ∈ directoryParts dir) :
    part ∈ splitSlashes dir.toList := by
  have hstem : part ∈ splitSlashes (Path.stem ⟨dir⟩) := by
    unfold directoryParts at h
    split at h
    · exact List.mem_of_mem_tail h
    · exact h
  rcases Path.splitSlashes_stem ⟨dir⟩ with hsplit | hsplit
  · rwa [hsplit]
  · rw [hsplit]
    exact List.mem_append_left _ hstem

theorem Legible.exists_patterns (h : Legible dir) :
    ∃ ps, List.Forall₂ ReadAs (directoryParts dir) ps :=
  exists_forall₂ fun part hpart => h.reads part (mem_stem_of_mem hpart)

/-- What is searched for below a directory ends in one of the extensions. -/
theorem mem_patternsOf_iff (hdir : d.isDir ⟨dir⟩ = true) {pattern : String} :
    pattern ∈ patternsOf d dir ↔ ∃ ext ∈ [".js", ".ts"], pattern = below dir ("*" ++ ext) := by
  rw [patternsOf, if_pos hdir, sourcePatterns_eq, List.map_map, List.mem_map]
  exact exists_congr fun ext => and_congr_right fun _ => eq_comm

theorem Legible.starts_search (h : Legible dir) (hne : dir ≠ "") (last : String) :
    Starts (searchStart (below dir last)) (directoryParts dir) := by
  unfold searchStart
  rw [head?_below hne]
  split
  · exact ⟨by decide, fun hdot => absurd hdot (by decide)⟩
  · rename_i hrelative
    rw [directoryParts, if_neg hrelative]
    exact ⟨by decide, fun _ => h.starts hrelative⟩

theorem Legible.searchParts_isSome (h : Legible dir) (hne : dir ≠ "")
    (hdir : d.isDir ⟨dir⟩ = true) {pattern : String} (hpattern : pattern ∈ patternsOf d dir) :
    (searchParts pattern).isSome := by
  obtain ⟨ps, hps⟩ := h.exists_patterns
  obtain ⟨ext, hext, rfl⟩ := (mem_patternsOf_iff hdir).mp hpattern
  rw [searchParts_below hne (endsIn_extension ext hext) (hps.imp fun _ _ h => h.toParsedAs)]
  rfl

theorem glob_below (hne : dir ≠ "") {ext : String} (hext : ext ∈ [".js", ".ts"])
    {ps : List Pattern} (h : List.Forall₂ ParsedAs (directoryParts dir) ps) :
    glob d (below dir ("*" ++ ext)) = some (expand d (ps ++ [anywhere, withExtension ext])
      (searchStart (below dir ("*" ++ ext)))) := by
  rw [glob_eq, searchParts_below hne (endsIn_extension ext hext) h, Option.map_some,
    if_neg (getLast?_below hne (endsIn_extension ext hext))]

/-- The search comes to a legible directory, by the path that is written. -/
theorem Legible.exists_reached (h : Legible dir) {place : List String}
    (hplace : d.resolve ⟨dir⟩ = .ok place) {ext : String} (hext : ext ∈ [".js", ".ts"]) :
    ∃ path, d.resolve path = .ok place ∧ isExcluded path = false ∧
      ∃ found, glob d (below dir ("*" ++ ext)) = some found ∧
        expand d [anywhere, withExtension ext] path ⊆ found := by
  have hne := Disk.text_ne_of_resolve hplace
  obtain ⟨ps, hps⟩ := h.exists_patterns
  obtain ⟨start, hstart, hwalk⟩ := exists_start ("*" ++ ext) hne hplace
  have hstarts := h.starts_search hne ("*" ++ ext)
  have hslashes : ∀ part ∈ directoryParts dir, '/' ∉ part := fun part hpart =>
    Path.not_mem_of_mem_splitSlashes (mem_stem_of_mem hpart)
  refine ⟨walked (searchStart (below dir ("*" ++ ext))) (directoryParts dir), ?_, ?_, _,
    glob_below hne hext (hps.imp fun _ _ h => h.toParsedAs),
    expand_walked_subset hps hslashes hstarts hstart hwalk _⟩
  · rw [resolve_walked d hstarts hslashes, hstart]
    exact hwalk
  · rw [Bool.eq_false_iff, ne_eq, isExcluded_eq_true]
    intro hpart
    rcases mem_splitSlashes_walked hstarts hslashes hpart with hpart | hpart
    · revert hpart
      unfold searchStart
      split <;> decide
    · exact h.kept (mem_stem_of_mem hpart)

theorem Legible.exists_finds (h : Legible dir) (hd : d.Named) (hdir : d.isDir ⟨dir⟩ = true)
    {place : List String} (hplace : d.resolve ⟨dir⟩ = .ok place) {names : List String}
    {content : ByteArray} {access : Access}
    (hfile : d.node? (place ++ names) = some (.file content access)) {name : String}
    (hname : names.getLast? = some name) (hsource : IsSource name)
    (hkept : "node_modules" ∉ names) :
    ∃ pattern ∈ patternsOf d dir, ∃ path, Finds d pattern path (pathOf (place ++ names)) := by
  obtain ⟨ext, hext, before, hbefore⟩ := hsource
  have hmatches : (withExtension ext).matches name = true := by
    rw [Pattern.matches, ← hbefore]
    exact matchTokens_anySequence (matchTokens_chars _) before
  obtain ⟨path, hpath, houtside, found, hglob, hfound⟩ := h.exists_reached hplace hext
  have hnames : ∀ n ∈ names, IsName n.toList :=
    fun n hn => hd.of_node? hfile n (List.mem_append_right _ hn)
  have hparts : ∀ part ∈ names.map String.toList, IsName part := by
    simpa using hnames
  have hstarts : Starts path (names.map String.toList) :=
    starts_of_isName (Disk.text_ne_of_resolve hpath) hparts
  have hslashes : ∀ part ∈ names.map String.toList, '/' ∉ part := fun part hpart =>
    (hparts part hpart).1
  have hplace : d.resolve (walked path (names.map String.toList)) = .ok (place ++ names) := by
    rw [resolve_walked d hstarts hslashes, hpath]
    exact Disk.foldlM_step_names hnames hfile
  obtain ⟨t, ht, hu⟩ : ∃ t, d.node? place = some t ∧ t.at? names = some (.file content access) := by
    rw [Disk.node?_eq_at?, Tree.at?_append] at hfile
    exact Option.bind_eq_some_iff.mp hfile
  refine ⟨below dir ("*" ++ ext), (mem_patternsOf_iff hdir).mpr ⟨ext, hext, rfl⟩,
    walked path (names.map String.toList),
    ⟨found, hglob, hfound (mem_expand_below hpath ht hname hu hmatches)⟩, ?_, ?_,
    Disk.canonical?_eq_some.mpr ⟨_, hplace, rfl⟩⟩
  · rw [Disk.isFile, Disk.find?, hplace]
    simp [hfile, Tree.isFile, Tree.isDir]
  · rw [Bool.eq_false_iff, ne_eq, isExcluded_eq_true] at houtside ⊢
    intro hpart
    rcases mem_splitSlashes_walked hstarts hslashes hpart with hpart | hpart
    · exact houtside hpart
    · obtain ⟨n, hn, hpart⟩ := List.mem_map.mp hpart
      exact hkept (String.toList_inj.mp hpart ▸ hn)

/-- The result has every file below a legible directory. -/
theorem Legible.mem_files (h : Legible dir) (hd : d.Named) {inputs : List String} {ps : List Path}
    (hps : files d inputs = .ok ps) (hinput : dir ∈ inputs) (hdir : d.isDir ⟨dir⟩ = true)
    {place : List String} (hplace : d.resolve ⟨dir⟩ = .ok place) {names : List String}
    {content : ByteArray} {access : Access}
    (hfile : d.node? (place ++ names) = some (.file content access)) {name : String}
    (hname : names.getLast? = some name) (hsource : IsSource name)
    (hkept : "node_modules" ∉ names) : pathOf (place ++ names) ∈ ps := by
  obtain ⟨pattern, hpattern, path, hfinds⟩ :=
    h.exists_finds hd hdir hplace hfile hname hsource hkept
  obtain ⟨q, hq, hcomponents⟩ :=
    exists_mem_files_of_finds hps hinput (isFile_eq_false_of_isDir hdir) hpattern hfinds
  obtain ⟨place', rfl, t, ht⟩ := exists_place_of_mem_files hps hq
  rwa [Disk.pathOf_injective (hd.of_node? ht) (hd.of_node? hfile) hcomponents] at hq

end Directory

/-- A search through a directory gives every source file below it that is in no installed package,
if the path of the directory, as it is written, is a pattern for itself. There is a result if this
is so of every directory, and each input that names nothing is a pattern. -/
theorem directory_files_found {d : Disk} (hd : d.Named) {inputs : List String}
    (hread : ∀ input ∈ inputs, d.isFile ⟨input⟩ = false → d.isDir ⟨input⟩ = true ∧ Legible input ∨
      ∀ pattern ∈ patternsOf d input, (searchParts pattern).isSome) :
    ∃ ps, files d inputs = .ok ps ∧ ∀ dir ∈ inputs, d.isDir ⟨dir⟩ = true → Legible dir →
      ∀ place, d.resolve ⟨dir⟩ = .ok place → ∀ names name content access,
        d.node? (place ++ names) = some (.file content access) →
          names.getLast? = some name → IsSource name → "node_modules" ∉ names →
            pathOf (place ++ names) ∈ ps := by
  obtain ⟨ps, hps⟩ := exists_files fun input hinput hfile pattern hpattern => by
    rcases hread input hinput hfile with ⟨hdir, hlegible⟩ | hwell
    · obtain ⟨place, hplace, -⟩ := Disk.exists_place_of_isDir hdir
      exact hlegible.searchParts_isSome (Disk.text_ne_of_resolve hplace) hdir hpattern
    · exact hwell pattern hpattern
  exact ⟨ps, hps, fun dir hinput hdir hlegible place hplace names name content access hfile hname
    hsource hkept => hlegible.mem_files hd hps hinput hdir hplace hfile hname hsource hkept⟩

/-- A directory, which is the current one, with a file in it and one below it. -/
def twoFiles : Disk where
  root := .dir [("src", .dir [("a.js", .file .empty), ("lib", .dir [("b.ts", .file .empty)])])]
  current := ["src"]

theorem directory_files_found_in_two_files :
    ∃ ps, files twoFiles [".", "/src/lib/"] = .ok ps ∧
      pathOf ["src", "a.js"] ∈ ps ∧ pathOf ["src", "lib", "b.ts"] ∈ ps := by
  have hlegible : ∀ input ∈ [".", "/src/lib/"], twoFiles.isDir ⟨input⟩ = true ∧ Legible input := by
    decide +kernel
  obtain ⟨ps, hps, hall⟩ := directory_files_found (d := twoFiles) (by decide +kernel)
    fun input hinput _ => .inl (hlegible input hinput)
  have hfound (names : List String) (name : String)
      (hfile : twoFiles.node? (["src"] ++ names) = some (.file .empty))
      (hname : names.getLast? = some name) (hsource : IsSource name)
      (hkept : "node_modules" ∉ names) : pathOf (["src"] ++ names) ∈ ps :=
    hall "." (by simp) (hlegible _ (by simp)).1 (hlegible _ (by simp)).2 ["src"]
      (by decide +kernel) names name _ _ hfile hname hsource hkept
  exact ⟨ps, hps, hfound ["a.js"] _ rfl rfl (by decide) (by decide),
    hfound ["lib", "b.ts"] _ rfl rfl (by decide) (by decide)⟩

/-- Brackets in the name of a directory are taken for a set of characters, so that the file in it is
not found. -/
theorem file_below_brackets_is_missed :
    ∃ d : Disk, d.Named ∧ d.isDir ⟨"/a[b]"⟩ = true ∧ d.resolve ⟨"/a[b]"⟩ = .ok ["a[b]"] ∧
      d.node? (["a[b]"] ++ ["x.js"]) = some (.file .empty) ∧ IsSource "x.js" ∧
      files d ["/a[b]"] = .ok [] :=
  ⟨⟨.dir [("a[b]", .dir [("x.js", .file .empty)])], []⟩, by decide +kernel, by decide +kernel,
    by decide +kernel, rfl, by decide, by decide +kernel⟩

end Discovery

end EmberClasses
