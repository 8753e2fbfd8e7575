import EmberClasses.Conversion
import EmberClasses.Proofs.FunctionValues

/-! What the rules let pass, the builder can build. The rules and the builder look at the same
properties, but each for itself, so this is not read off either of them. -/

namespace EmberClasses

open Script (Node Kind)

theorem Blueprint.build_ok_of_object {o : Options} {file : Property.File} {object : Node}
    {b : Blueprint} (h : object.Formed)
    (hb : b.properties = (PropertyList.ofObject file object).properties)
    (hok : Problem.ofProperties o b.properties = []) (c : Copy) : ∃ d, b.build o c = .ok d := by
  refine b.build_ok o c fun p hp => ⟨?_, ?_⟩
  · rw [hb] at hp
    exact PropertyList.ofObject_orderly file h p hp
  · exact Problem.acceptable_of_ofProperty (List.flatMap_eq_nil_iff.mp hok p hp)

namespace Conversion.Job

/-- A definition whose properties have no problems can be built. -/
theorem build_ok (j : Job) {d : Definition}
    (h : ∀ object, d.properties = some object → object.Formed)
    (hok : Problem.ofProperties j.options (j.propertiesOf d).properties = []) :
    ∃ c, (j.blueprintOf d).build j.options j.copy = .ok c := by
  cases hd : d.properties with
  | none => exact Blueprint.build_ok _ _ _ (by simp [blueprintOf, propertiesOf, hd])
  | some object =>
    have hproperties : (j.propertiesOf d).properties =
        (PropertyList.ofObject ⟨j.source, j.usage, j.wrappers⟩ object).properties := by
      simp only [propertiesOf, hd]
    exact Blueprint.build_ok_of_object (h object hd) hproperties hok j.copy

/-- A definition is converted or reported, but nothing breaks. -/
theorem convert_ok (j : Job) {d : Definition}
    (h : ∀ object, d.properties = some object → object.Formed) (p : Progress) :
    ∃ answer, j.convert d p = .ok answer := by
  unfold convert
  dsimp only
  split
  · rename_i hnone
    obtain ⟨hvalid, -⟩ := List.append_eq_nil_iff.mp (List.isEmpty_iff.mp hnone)
    obtain ⟨c, hc⟩ := j.build_ok h hvalid
    exact ⟨_, by rw [hc]⟩
  · exact ⟨_, rfl⟩

end Conversion.Job

/-- The rules and the builder agree on every object literal, whatever the options, the usage data,
the imports and the rest of the blueprint are; so no definition breaks the conversion. -/
theorem builds_of_no_problems (object : Node) (h : object.Formed) :
    (∀ (o : Options) (file : Property.File) (b : Blueprint) (c : Copy),
      b.properties = (PropertyList.ofObject file object).properties →
      Problem.ofProperties o b.properties = [] → ∃ d, b.build o c = .ok d) ∧
    ∀ (j : Conversion.Job) (d : Definition) (p : Conversion.Progress), d.properties = some object →
      ∃ answer, j.convert d p = .ok answer := by
  refine ⟨fun o file b c hb hok => Blueprint.build_ok_of_object h hb hok c, fun j d p hd => ?_⟩
  refine j.convert_ok (fun other ho => ?_) p
  rw [hd, Option.some.injEq] at ho
  exact ho ▸ h

def nestedSuperObject : Node :=
  let superCall (start stop : Nat) (args : List Node) : Node :=
    ⟨.call, ⟨start, stop⟩, ⟨.member "_super", ⟨start, start + 11⟩,
      [⟨.thisRef, ⟨start, start + 4⟩, []⟩]⟩ :: args⟩
  let body : Node :=
    ⟨.body, ⟨17, 48⟩, [⟨.expression, ⟨19, 46⟩, [superCall 19 45 [superCall 31 44 []]]⟩]⟩
  let action : Node := ⟨.property { method := true }, ⟨13, 48⟩,
    [⟨.identifier "b", ⟨13, 14⟩, []⟩, ⟨.function {}, ⟨14, 48⟩, [body]⟩]⟩
  ⟨.object, ⟨0, 52⟩, [⟨.property {}, ⟨2, 50⟩,
    [⟨.identifier "actions", ⟨2, 9⟩, []⟩, ⟨.object, ⟨11, 50⟩, [action]⟩]⟩]⟩

/-- An action with a super call in the arguments of another one. -/
def nestedSuperText : List Char :=
  "\x7b actions: \x7b b() \x7b this._super(this._super()); \x7d \x7d \x7d".toList

theorem builds_nestedSuperObject :
    nestedSuperObject.Formed ∧ ∃ d, Blueprint.build
      ⟨"A", "B", [], (PropertyList.ofObject ⟨nestedSuperText, {}, []⟩ nestedSuperObject).properties,
        []⟩ {} ⟨nestedSuperText, [], .single⟩ = .ok d := by
  have hformed : nestedSuperObject.Formed := by decide
  have hok : Problem.ofProperties {}
      (PropertyList.ofObject ⟨nestedSuperText, {}, []⟩ nestedSuperObject).properties = [] := by
    decide +kernel
  exact ⟨hformed, (builds_of_no_problems nestedSuperObject hformed).1 {} ⟨nestedSuperText, {}, []⟩
    _ _ rfl hok⟩

end EmberClasses
