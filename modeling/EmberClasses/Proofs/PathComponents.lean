import EmberClasses.Disk
import Mathlib.Data.List.Lex
import Mathlib.Data.Prod.Lex
import Mathlib.Data.String.Basic

/-! Paths and their components. A path is cut at its slashes whatever it was put together from, and
paths are in linear order by their components. -/

namespace EmberClasses

namespace Path

def IsName (part : List Char) : Prop :=
  '/' ∉ part ∧ part ≠ [] ∧ part ≠ ['.'] ∧ part ≠ ['.', '.']

instance (part : List Char) : Decidable (IsName part) :=
  inferInstanceAs (Decidable (_ ∧ _))

theorem splitSlashes_ne_nil (cs : List Char) : splitSlashes cs ≠ [] := by
  cases cs with
  | nil => simp [splitSlashes]
  | cons c cs =>
    rw [splitSlashes]
    split
    · simp
    · split <;> simp

theorem splitSlashes_append (a b : List Char) :
    splitSlashes (a ++ '/' :: b) = splitSlashes a ++ splitSlashes b := by
  induction a with
  | nil => simp [splitSlashes]
  | cons c a ih =>
    by_cases hc : c = '/'
    · simp [splitSlashes, hc, ih]
    · rw [List.cons_append, splitSlashes, splitSlashes, if_neg hc, if_neg hc, ih]
      cases hsplit : splitSlashes a with
      | nil => exact absurd hsplit (splitSlashes_ne_nil a)
      | cons part parts => rfl

theorem splitSlashes_of_not_mem {part : List Char} (h : '/' ∉ part) :
    splitSlashes part = [part] := by
  induction part with
  | nil => rfl
  | cons c part ih =>
    rw [List.mem_cons, not_or] at h
    rw [splitSlashes, if_neg (Ne.symm h.1), ih h.2]

theorem not_mem_of_mem_splitSlashes {cs part : List Char} (h : part ∈ splitSlashes cs) :
    '/' ∉ part := by
  induction cs generalizing part with
  | nil => simp_all [splitSlashes]
  | cons c cs ih =>
    rw [splitSlashes] at h
    split at h
    · rcases List.mem_cons.mp h with rfl | h
      · simp
      · exact ih h
    · rename_i hc
      split at h
      · rw [List.mem_singleton.mp h, List.mem_singleton]
        exact Ne.symm hc
      · rename_i first parts hsplit
        rw [hsplit] at ih
        rcases List.mem_cons.mp h with rfl | h
        · rw [List.mem_cons, not_or]
          exact ⟨Ne.symm hc, ih List.mem_cons_self⟩
        · exact ih (List.mem_cons_of_mem _ h)

theorem splitSlashes_intercalate {parts : List (List Char)} (h : parts ≠ []) :
    splitSlashes (['/'].intercalate parts) = parts.flatMap splitSlashes := by
  induction parts with
  | nil => exact absurd rfl h
  | cons part parts ih =>
    cases parts with
    | nil => simp [List.intercalate]
    | cons next parts =>
      rw [List.intercalate_cons_cons, List.append_assoc, List.singleton_append,
        splitSlashes_append, ih (by simp)]
      rfl

theorem intercalate_splitSlashes (cs : List Char) :
    ['/'].intercalate (splitSlashes cs) = cs := by
  induction cs with
  | nil => rfl
  | cons c cs ih =>
    cases hsplit : splitSlashes cs with
    | nil => exact absurd hsplit (splitSlashes_ne_nil cs)
    | cons part parts =>
      rw [hsplit] at ih
      rw [splitSlashes]
      split
      · rename_i hc
        rw [hsplit, List.intercalate_cons_cons, ih, hc]
        rfl
      · rw [hsplit]
        cases parts with
        | nil => simpa using ih
        | cons next parts => simpa [List.intercalate_cons_cons] using ih

/-- A path has a name as a component if the name stands between slashes of its text. -/
theorem normal_mem_components_iff {name : String} (hname : IsName name.toList) (p : Path) :
    .normal name ∈ p.components ↔ name.toList ∈ splitSlashes p.text.toList := by
  obtain ⟨-, hempty, hdot, hdots⟩ := hname
  have hcomponent (part : List Char) : component part = .normal name ↔ part = name.toList := by
    unfold component
    split
    · simpa using Ne.symm hdots
    · rw [Component.normal.injEq, String.ofList_eq]
  have hinner : .normal name ∈ ((splitSlashes p.text.toList).filter
        (fun part => part ≠ [] ∧ part ≠ ['.'])).map component ↔
      name.toList ∈ splitSlashes p.text.toList := by
    simp [hcomponent, hempty, hdot]
  unfold components
  dsimp only
  split
  · simpa using hinner
  · split
    · simpa using hinner
    · exact hinner

end Path

namespace Disk

open EmberClasses.Path

theorem toList_pathOf (place : List String) :
    (pathOf place).text.toList = '/' :: ['/'].intercalate (place.map String.toList) := by
  simp [pathOf]

theorem splitSlashes_pathOf {place : List String} (h : place ≠ []) :
    splitSlashes (pathOf place).text.toList =
      [] :: place.flatMap fun name => splitSlashes name.toList := by
  rw [toList_pathOf, splitSlashes, if_pos rfl, splitSlashes_intercalate (by simpa using h),
    List.flatMap_map]

theorem flatMap_splitSlashes_names {place : List String}
    (h : ∀ name ∈ place, IsName name.toList) :
    (place.flatMap fun name => splitSlashes name.toList) = place.map String.toList := by
  rw [← List.flatMap_singleton' (place.map _), List.flatMap_map]
  exact List.flatMap_congr fun name hn => splitSlashes_of_not_mem (h name hn).1

/-- The canonical path of a place has the names of the place as its components. -/
theorem components_pathOf {place : List String} (h : ∀ name ∈ place, IsName name.toList) :
    (pathOf place).components = .root :: place.map .normal := by
  cases hplace : place with
  | nil => rfl
  | cons name rest =>
    have hfilter : (place.map String.toList).filter (fun part => part ≠ [] ∧ part ≠ ['.']) =
        place.map String.toList :=
      List.filter_eq_self.mpr fun part hpart => by
        obtain ⟨name, hn, rfl⟩ := List.mem_map.mp hpart
        exact decide_eq_true ⟨(h name hn).2.1, (h name hn).2.2.1⟩
    have hcomponents : (place.map String.toList).map component = place.map .normal := by
      rw [List.map_map]
      refine List.map_congr_left fun name hn => ?_
      rw [Function.comp_apply, component.eq_2 _ (h name hn).2.2.2, String.ofList_toList]
    have hinner : (([] :: place.map String.toList).filter
        (fun part => part ≠ [] ∧ part ≠ ['.'])).map component = place.map .normal := by
      rw [List.filter_cons_of_neg (by simp), hfilter, hcomponents]
    rw [← hplace, components, splitSlashes_pathOf (by simp [hplace]), flatMap_splitSlashes_names h,
      toList_pathOf]
    exact congrArg _ hinner

theorem pathOf_injective {place place' : List String} (h : ∀ name ∈ place, IsName name.toList)
    (h' : ∀ name ∈ place', IsName name.toList)
    (hsame : (pathOf place).components = (pathOf place').components) : place = place' := by
  rw [components_pathOf h, components_pathOf h', List.cons.injEq] at hsame
  exact List.map_injective_iff.mpr (fun _ _ => Component.normal.inj) hsame.2

end Disk

namespace Path

def Component.rank : Component → ℕ ×ₗ String
  | root => toLex (0, "")
  | current => toLex (1, "")
  | parent => toLex (2, "")
  | normal name => toLex (3, name)

theorem Component.lt_iff_rank (a b : Component) : a.lt b = true ↔ a.rank < b.rank := by
  cases a <;> cases b <;> simp [Component.lt, rank, Prod.Lex.toLex_lt_toLex, -String.lt_iff_ltb]

theorem Component.rank_injective : Function.Injective rank := by
  intro a b h
  cases a <;> cases b <;> simp_all [rank]

/-- The order of paths is that of the ranks of their components, which is linear. -/
theorem componentsLt_iff_rank (as bs : List Component) : componentsLt as bs = true ↔
    as.map Component.rank < bs.map Component.rank := by
  induction as generalizing bs with
  | nil => cases bs <;> simp [componentsLt]
  | cons a as ih =>
    cases bs with
    | nil => simp [componentsLt]
    | cons b bs =>
      rw [componentsLt, List.map_cons, List.map_cons, List.cons_lt_cons_iff]
      by_cases hab : a = b
      · simp [hab, ih]
      · simp [hab, Component.lt_iff_rank, Component.rank_injective.ne hab]

def Before (p q : Path) : Prop := componentsLt p.components q.components = true

variable {p q r : Path}

theorem Before.trans (h : p.Before q) (h' : q.Before r) : p.Before r := by
  unfold Before at *
  rw [componentsLt_iff_rank] at *
  exact h.trans h'

theorem Before.ne (h : p.Before q) : p.components ≠ q.components := by
  intro hsame
  rw [Before, componentsLt_iff_rank, hsame] at h
  exact lt_irrefl _ h

theorem before_of_not (hsame : ¬ p.same q) (h : ¬ p.Before q) : q.Before p := by
  have hne : p.components.map Component.rank ≠ q.components.map Component.rank := fun heq =>
    hsame (beq_iff_eq.mpr (Component.rank_injective.list_map heq))
  unfold Before at *
  rw [componentsLt_iff_rank] at *
  exact lt_of_le_of_ne (not_lt.mp h) hne.symm

end Path

end EmberClasses
