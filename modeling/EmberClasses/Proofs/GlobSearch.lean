import EmberClasses.Glob.Walk
import EmberClasses.Proofs.PathComponents
import EmberClasses.Proofs.ClassCuts

/-! The search for paths that match a pattern: where one part of the pattern leads to, and what
holds of everything that is found since it holds where the search begins. -/

namespace EmberClasses

namespace Glob

/-- The paths that one part of a pattern leads to from `path`, if the part is not `**`. -/
def follow (d : Disk) (q : Pattern) (path : Path) : List Path :=
  match q.literal? with
  | some name =>
    let special := name = "." || name = ".."
    if (special && d.isDir path) || (!special && pathExists d (joinFrom path name)) then
      [joinFrom path name] else []
  | none => matchingEntries d path q

theorem expand_cons {q : Pattern} (h : q.recursive = false) (d : Disk) (parts : List Pattern)
    (path : Path) : expand d (q :: parts) path = (follow d q path).flatMap (expand d parts) := by
  rw [expand.eq_def, follow]
  dsimp only
  cases q.literal? with
  | some name =>
    dsimp only
    split <;> simp
  | none => simp [h]

section Invariant

variable {P : Path → Prop} (hfrom : ∀ path name, P path → P (joinFrom path name))
  (hjoin : ∀ path name, P path → P (path.join name)) {d : Disk} {path p : Path}

include hfrom

theorem forall_mem_descendants (h : P path) {name : String} {isDir : Bool}
    (hp : (p, name, isDir) ∈ descendants d path) : P p := by
  have hfold (names : List String) : ∀ path, P path → P (names.foldl joinFrom path) := by
    induction names with
    | nil => exact fun path h => h
    | cons name names ih => exact fun path h => ih _ (hfrom path name h)
  unfold descendants at hp
  split at hp
  · obtain ⟨⟨names, u⟩, -, he⟩ := List.mem_map.mp hp
    cases he
    exact hfold names path h
  · cases hp

include hjoin

theorem forall_mem_matchingEntries (h : P path) {q : Pattern} (hp : p ∈ matchingEntries d path q) :
    P p := by
  unfold matchingEntries at hp
  split at hp
  · rcases List.mem_append.mp hp with hp | hp
    · obtain ⟨e, -, rfl⟩ := List.mem_map.mp hp
      exact hfrom path _ h
    · split at hp
      · obtain ⟨name, -, rfl⟩ := List.mem_map.mp hp
        exact hjoin path name h
      · cases hp
  · cases hp

/-- What holds where a search begins, and of every path that goes on, holds of all that is found. -/
theorem forall_mem_expand : (parts : List Pattern) → {path p : Path} → P path →
    p ∈ expand d parts path → P p
  | [], path, p, h, hp => by rwa [List.mem_singleton.mp hp]
  | q :: parts, path, p, h, hp => by
    unfold expand at hp
    split at hp
    · dsimp only at hp
      split at hp
      · exact forall_mem_expand parts (hfrom _ _ h) hp
      · cases hp
    · split at hp
      · cases parts with
        | nil =>
          obtain ⟨⟨p, name, isDir⟩, hfound, rfl⟩ := List.mem_map.mp hp
          exact forall_mem_descendants hfrom h (List.mem_of_mem_filter hfound)
        | cons next rest =>
          obtain ⟨⟨found, name, isDir⟩, hfound, hp⟩ := List.mem_flatMap.mp hp
          exact forall_mem_expand rest
            (forall_mem_descendants hfrom h (List.mem_of_mem_filter hfound)) hp
      · obtain ⟨found, hfound, hp⟩ := List.mem_flatMap.mp hp
        exact forall_mem_expand parts (forall_mem_matchingEntries hfrom hjoin h hfound) hp

end Invariant

theorem isAbsolute_join {path : Path} (h : path.text.toList.head? = some '/') (name : String) :
    (path.join name).text.toList.head? = some '/' := by
  have happend (rest : String) : (path.text ++ rest).toList.head? = some '/' := by
    rw [String.toList_append]
    exact List.mem_head?_append_of_mem_head? h
  unfold Path.join
  split
  · assumption
  · split
    · rename_i hempty
      simp [hempty] at h
    · split
      · exact happend name
      · rw [String.append_assoc]
        exact happend _

theorem isAbsolute_joinFrom {path : Path} (h : path.text.toList.head? = some '/') (name : String) :
    (joinFrom path name).text.toList.head? = some '/' := by
  unfold joinFrom
  split
  · rename_i hdot
    simp [hdot] at h
  · exact isAbsolute_join h name

def searchStart (text : String) : Path := ⟨if text.toList.head? = some '/' then "/" else "."⟩

def searchText (text : String) : List Char :=
  if text.toList.head? = some '/' then text.toList.tail else text.toList

/-- The parts of a pattern that a search goes through, none if the pattern is not well formed. -/
def searchParts (text : String) : Option (List Pattern) := do
  let _ ← Pattern.parse text
  let parts ← (partsOf (searchText text)).mapM fun part => Pattern.parse (String.ofList part)
  return mergeRecursive (if (searchText text).isEmpty then [⟨[], false⟩] else parts)

/-- Whether a pattern is well formed does not depend on the disk. -/
theorem glob_eq (d : Disk) (text : String) : glob d text = (searchParts text).map fun parts =>
    if text.toList.getLast? = some '/' then (expand d parts (searchStart text)).filter d.isDir
    else expand d parts (searchStart text) := by
  unfold glob searchParts searchStart searchText
  cases Pattern.parse text with
  | none => rfl
  | some whole =>
    by_cases hroot : text.toList.head? = some '/'
    · simp only [hroot, if_true]
      cases (partsOf text.toList.tail).mapM fun part => Pattern.parse (String.ofList part) <;> rfl
    · simp only [hroot, if_false]
      cases (partsOf text.toList).mapM fun part => Pattern.parse (String.ofList part) <;> rfl

theorem mem_expand_of_glob {d : Disk} {text : String} {found : List Path}
    (h : glob d text = some found) :
    ∃ parts, ∀ p ∈ found, p ∈ expand d parts (searchStart text) := by
  rw [glob_eq, Option.map_eq_some_iff] at h
  obtain ⟨parts, -, rfl⟩ := h
  refine ⟨parts, fun p hp => ?_⟩
  split at hp
  · exact List.mem_of_mem_filter hp
  · exact hp

/-- A search for an absolute pattern finds absolute paths. -/
theorem isAbsolute_of_glob {d : Disk} {text : String} {found : List Path}
    (h : glob d text = some found) (habsolute : text.toList.head? = some '/') {p : Path}
    (hp : p ∈ found) : p.text.toList.head? = some '/' := by
  obtain ⟨parts, hfound⟩ := mem_expand_of_glob h
  have hstart : (searchStart text).text.toList.head? = some '/' := by
    rw [searchStart, if_pos habsolute]
    decide
  exact forall_mem_expand (P := fun p => p.text.toList.head? = some '/')
    (fun _ name h => isAbsolute_joinFrom h name) (fun _ name h => isAbsolute_join h name) parts
    hstart (hfound p hp)

end Glob

end EmberClasses
