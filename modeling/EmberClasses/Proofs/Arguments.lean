import EmberClasses.Proofs.Acceptance
import EmberClasses.Proofs.DefinitionWalk
import Mathlib.Data.List.Flatten

/-! What becomes of the arguments of a definition. The last object literal holds the properties; all
other arguments should be applied to the superclass, and are, unless they are object literals too.
-/

namespace EmberClasses

open Script (Node Kind)

private theorem length_intercalate {α : Type} (sep : List α) {l : List (List α)} (h : l ≠ []) :
    (sep.intercalate l).length + sep.length = l.flatten.length + l.length * sep.length := by
  induction l with
  | nil => exact absurd rfl h
  | cons a l ih =>
    cases l with
    | nil => simp [List.intercalate]
    | cons b l =>
      have hrest := ih (List.cons_ne_nil b l)
      simp only [List.intercalate, List.intersperse, List.flatten_cons, List.length_append,
        List.length_cons] at hrest ⊢
      rw [Nat.succ_mul]
      omega

theorem Blueprint.heritage_length_lt {b : Blueprint} {mixins : List (List Char)}
    (hsub : b.mixins.Sublist mixins) (hlt : b.mixins.length < mixins.length) :
    b.heritage.length < ({ b with mixins } : Blueprint).heritage.length := by
  have hne : mixins ≠ [] := List.ne_nil_of_length_pos (by omega)
  have hnew : ({ b with mixins } : Blueprint).heritage =
      b.superclass.toList ++ ".extend(".toList ++ [',', ' '].intercalate mixins ++ [')'] := by
    simp [Blueprint.heritage, hne]
  rw [hnew]
  unfold Blueprint.heritage
  by_cases hb : b.mixins = []
  · rw [if_pos (by simp [hb])]
    simp only [List.length_append]
    have : 0 < ".extend(".toList.length := by decide
    omega
  · rw [if_neg (by simp [hb])]
    have h₁ := length_intercalate [',', ' '] hb
    have h₂ := length_intercalate [',', ' '] hne
    have hflat : b.mixins.flatten.length ≤ mixins.flatten.length := hsub.flatten.length_le
    simp only [List.length_append, List.length_cons, List.length_nil] at h₁ h₂ ⊢
    omega

namespace Definition

def literals (args : List Node) : List Node := args.filter fun a => a.kind = .object

def others : List Node → List Node
  | [] => []
  | a :: rest => if a.kind = .object ∧ literals rest = [] then rest else a :: others rest

section Arguments

variable (args : List Node)

/-- Leaving out all object literals leaves out the last one in particular. -/
theorem filter_sublist_others :
    (args.filter fun a => a.kind ≠ .object).Sublist (others args) := by
  induction args with
  | nil => simp [others]
  | cons a rest ih =>
    unfold others
    by_cases ha : a.kind = .object
    · rw [List.filter_cons_of_neg (by simp [ha])]
      split
      · exact List.filter_sublist
      · exact ih.cons a
    · rw [List.filter_cons_of_pos (by simp [ha]), if_neg (by simp [ha])]
      exact ih.cons_cons a

theorem length_others :
    (others args).length + min 1 (literals args).length = args.length := by
  induction args with
  | nil => rfl
  | cons a rest ih =>
    unfold others
    by_cases ha : a.kind = .object
    · have hlits : literals (a :: rest) = a :: literals rest := by simp [literals, ha]
      rw [hlits]
      by_cases hrest : literals rest = []
      · simp [ha, hrest]
      · have : 0 < (literals rest).length := List.length_pos_iff.mpr hrest
        simp only [ha, hrest, and_false, if_false, List.length_cons]
        omega
    · have hlits : literals (a :: rest) = literals rest := by simp [literals, ha]
      rw [hlits, if_neg (by simp [ha]), List.length_cons, List.length_cons]
      omega

theorem length_literals_add_filter :
    (literals args).length + (args.filter fun a => a.kind ≠ .object).length = args.length := by
  have h := (List.filter_append_perm (fun a : Node => decide (a.kind = .object)) args).length_eq
  simpa [literals] using h

/-- At most one object literal, and nothing is lost. -/
theorem filter_eq_others_iff :
    args.filter (fun a => a.kind ≠ .object) = others args ↔ (literals args).length ≤ 1 := by
  have hsub := filter_sublist_others args
  have h₁ := length_others args
  have h₂ := length_literals_add_filter args
  constructor
  · intro h
    have := congrArg List.length h
    omega
  · intro h
    exact hsub.eq_of_length (by omega)

/-- What is left of the arguments when the last object literal is taken once makes up all of them
only if there is no other object literal. -/
theorem perm_map_iff {α : Type} (f : Node → α) :
    (((literals args).getLast?.toList ++ args.filter fun a => a.kind ≠ .object).map f).Perm
      (args.map f) ↔ (literals args).length ≤ 1 := by
  have hperm : (literals args ++ args.filter fun a => a.kind ≠ .object).Perm args := by
    simpa [literals] using List.filter_append_perm (fun a : Node => decide (a.kind = .object)) args
  constructor
  · intro h
    have hlast : (literals args).getLast?.toList.length ≤ 1 := by
      cases (literals args).getLast? <;> simp
    have h₁ := h.length_eq
    have h₂ := hperm.length_eq
    rw [List.length_map, List.length_map, List.length_append] at h₁
    rw [List.length_append] at h₂
    omega
  · intro h
    have hlast : (literals args).getLast?.toList = literals args := by
      match hl : literals args, h with
      | [], _ => rfl
      | [a], _ => rfl
    rw [hlast]
    exact hperm.map f

theorem getLast?_literals_eq_some_iff {o : Node} :
    (literals args).getLast? = some o ↔ ∃ before after, args = before ++ o :: after ∧
      o.kind = .object ∧ literals after = [] := by
  constructor
  · intro h
    obtain ⟨init, hinit⟩ := List.getLast?_eq_some_iff.mp h
    obtain ⟨before, rest, rfl, -, hrest⟩ := List.filter_eq_append_iff.mp hinit
    obtain ⟨gap, after, rfl, hgap, ho, hafter⟩ := List.filter_eq_cons_iff.mp hrest
    refine ⟨before ++ gap, after, by simp, by simpa using ho, hafter⟩
  · rintro ⟨before, after, rfl, ho, hafter⟩
    have : literals (before ++ o :: after) = literals before ++ [o] := by
      simp only [literals] at hafter ⊢
      simp [ho, hafter]
    rw [this, List.getLast?_append]
    rfl

end Arguments

theorem at?_arguments {site : Site} {n : Node} {d : Definition} (h : at? site n = some d) :
    d.properties = (literals n.arguments).getLast? ∧
      d.mixins = (n.arguments.filter fun a => a.kind ≠ .object).map Node.span := by
  unfold at? at h
  split at h
  · cases h
  · obtain ⟨superclass, -, rfl⟩ := Option.map_eq_some_iff.mp h
    exact ⟨rfl, rfl⟩

/-- The arguments of a definition are accounted for exactly when at most one of them is an object
literal: then the last literal holds the properties, and all others are applied to the superclass
in order. Earlier object literals are lost. -/
theorem arguments_accounted_iff (site : Site) (n : Node) (d : Definition)
    (h : at? site n = some d) :
    (∀ o, d.properties = some o ↔ ∃ before after, n.arguments = before ++ o :: after ∧
      o.kind = .object ∧ literals after = []) ∧
    (d.properties = none ↔ literals n.arguments = []) ∧
    d.mixins.Sublist ((others n.arguments).map Node.span) ∧
    (d.mixins = (others n.arguments).map Node.span ↔ (literals n.arguments).length ≤ 1) ∧
    ((d.properties.toList.map Node.span ++ d.mixins).Perm (n.arguments.map Node.span) ↔
      (literals n.arguments).length ≤ 1) ∧
    ∀ (j : Conversion.Job) (cls : ClassDecl),
      (j.blueprintOf d).build j.options j.copy = .ok cls →
      (∀ p ∈ (j.propertiesOf d).properties, Blueprint.Holds j.copy cls p) ∧
      (cls.superclass = Blueprint.heritage { j.blueprintOf d with
          mixins := (others n.arguments).map fun a => Text.slice j.source a.span } ↔
        (literals n.arguments).length ≤ 1) := by
  obtain ⟨hproperties, hmixins⟩ := at?_arguments h
  have hiff : d.mixins = (others n.arguments).map Node.span ↔
      (literals n.arguments).length ≤ 1 := by
    rw [hmixins, ← filter_eq_others_iff]
    constructor
    · intro heq
      have := congrArg List.length heq
      rw [List.length_map, List.length_map] at this
      exact (filter_sublist_others n.arguments).eq_of_length this
    · exact congrArg _
  have hsub : d.mixins.Sublist ((others n.arguments).map Node.span) := by
    rw [hmixins]
    exact (filter_sublist_others n.arguments).map Node.span
  refine ⟨fun o => ?_, ?_, hsub, hiff, ?_, fun j cls hcls => ⟨Blueprint.build_holds hcls, ?_⟩⟩
  · rw [hproperties]
    exact getLast?_literals_eq_some_iff n.arguments
  · rw [hproperties, List.getLast?_eq_none_iff]
  · rw [← perm_map_iff n.arguments Node.span, hproperties, hmixins, List.map_append]
  · have htexts : (j.blueprintOf d).mixins = d.mixins.map (Text.slice j.source) := rfl
    have hothers : ((others n.arguments).map fun a => Text.slice j.source a.span) =
        ((others n.arguments).map Node.span).map (Text.slice j.source) := by
      rw [List.map_map]
      rfl
    rw [Blueprint.build_superclass hcls, hothers]
    constructor
    · intro heq
      by_contra hmany
      have hlt : d.mixins.length < ((others n.arguments).map Node.span).length :=
        lt_of_le_of_ne hsub.length_le fun hlen => hmany (hiff.mp (hsub.eq_of_length hlen))
      have := Blueprint.heritage_length_lt (b := j.blueprintOf d) (hsub.map (Text.slice j.source))
        (by rw [htexts, List.length_map, List.length_map]; exact hlt)
      rw [← heq] at this
      exact absurd this (lt_irrefl _)
    · intro hle
      rw [← hiff.mpr hle, ← htexts]

theorem arguments_accounted_with_mixin :
    let call : Node := ⟨.call, ⟨0, 21⟩, [
      ⟨.member "extend", ⟨0, 8⟩, [⟨.identifier "A", ⟨0, 1⟩, []⟩]⟩,
      ⟨.identifier "B", ⟨9, 10⟩, []⟩, ⟨.object, ⟨12, 20⟩, []⟩]⟩
    ∃ d, at? .plain call = some d ∧ d.mixins = (others call.arguments).map Node.span := by
  intro call
  have h : (at? .plain call).isSome := by decide +kernel
  obtain ⟨d, hd⟩ := Option.isSome_iff_exists.mp h
  exact ⟨d, hd, (arguments_accounted_iff .plain call d hd).2.2.2.1.mpr (by decide)⟩

def twoLiteralsText : List Char := "A.extend(\x7b a: 1 \x7d, \x7b b: 2 \x7d);".toList

/-- Of two object literals the first one is lost: it is no mixin, and its property is no member. -/
theorem first_of_two_literals_is_lost :
    ∃ script n : Node, ∃ d : Definition, ∃ cls : ClassDecl,
      let j := Conversion.Job.ofScript ⟨"a.js"⟩ twoLiteralsText {} {} script
      Script.parse ⟨false⟩ twoLiteralsText = .ok script ∧ n ∈ script.preorder ∧
      at? .plain n = some d ∧ n.arguments.map Node.span = [⟨9, 17⟩, ⟨19, 27⟩] ∧ d.mixins = [] ∧
      j.problemsOf d = [] ∧ (j.blueprintOf d).build {} j.copy = .ok cls ∧
      cls.superclass = ['A'] ∧ cls.members.map Member.key = ["b"] := by
  have h : ((Script.parse ⟨false⟩ twoLiteralsText).toOption.any fun script =>
      let j := Conversion.Job.ofScript ⟨"a.js"⟩ twoLiteralsText {} {} script
      script.preorder.any fun n => (at? .plain n).any fun d =>
        ((j.blueprintOf d).build {} j.copy).toOption.any fun cls =>
          n.arguments.map Node.span == [⟨9, 17⟩, ⟨19, 27⟩] && d.mixins == [] &&
          j.problemsOf d == [] && cls.superclass == ['A'] &&
          cls.members.map Member.key == ["b"]) = true := by
    decide +kernel
  simp only [Option.any_eq_true, Except.toOption_eq_some_iff, List.any_eq_true, Bool.and_eq_true,
    beq_iff_eq] at h
  obtain ⟨script, hparse, n, hn, d, hd, cls, hcls, ⟨⟨⟨hargs, hmixins⟩, hok⟩, hsuper⟩, hkeys⟩ := h
  exact ⟨script, n, d, cls, hparse, hn, hd, hargs, hmixins, hok, hcls, hsuper, hkeys⟩

end Definition

end EmberClasses
