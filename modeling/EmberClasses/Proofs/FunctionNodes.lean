import EmberClasses.Proofs.TypeNodes
import EmberClasses.Script.Grammar.Class

/-! The nodes of patterns, functions and classes. -/

namespace EmberClasses.Script

open EmberClasses.Script.Parser

@[reducible] def Parser.Role.ofDeclared : Bool → Role
  | true => .statement
  | false => .value

namespace Grammar

variable {source : List Char} {rec : Rec} {live moved m : Bool}

section Patterns

theorem gathers_sparseList {item : Parser Node} (h : Gathers source false item true .part) :
    Gathers source live (sparseList item) false .part := fun _ =>
  .give (.call (.many fun _ => .ifEat .nil (.ifEat .nil (.call (.separated h)))))

theorem gathers_restBinding {target : Parser Node} {close : Punct}
    (h : Gathers source false target true .target) :
    Gathers source live (restBinding target close) true .part := fun _ =>
  .here fun _ => .expect (.add h fun _ _ => .look fun _ => .orFail fun _ => .node fun _ => rfl)

variable (hrec : rec.Settles source)

include hrec

theorem gathers_withDefault {target : Parser Node} (h : Gathers source live target true .target) :
    Gathers source live (withDefault rec target) true .part := fun _ =>
  .here fun _ => .add h fun _ hn => .ifEat
    (.add (.within (hrec .assignment)) fun _ _ => .node fun _ => rfl)
    (.pure (hn.under Role.target_part) rfl)

theorem gathers_propertyKey : Gathers source live (propertyKey rec) true .value := by
  refine .weaken fun _ => .token fun t => ?_
  split
  · exact .give (.call (.under .anyName Role.word_value))
  · exact .give (.call (.under .stringLiteral Role.word_value))
  · exact .give (.call (.under (.word_leaf rfl (by simp)) Role.word_value))
  · exact .give (.call (.under (.word_leaf rfl (by simp)) Role.word_value))
  · exact .give (.call (.under (.word_leaf rfl (by simp)) Role.word_value))
  · exact .advance (.add (.within (hrec .assignment)) fun _ hn => .expect (.pure hn rfl))
  · exact .fail

theorem gathers_bindingProperty : Gathers source live (bindingProperty rec) true .part := by
  refine fun _ => .look fun _ => .ite (fun _ => .call (gathers_restBinding .target_identifier))
    fun _ => .here fun _ => .look fun _ => .look fun _ => .ite (fun _ => ?_) fun _ => ?_
  · exact .add (gathers_withDefault hrec .target_identifier) fun _ _ => .node fun _ => rfl
  · refine .add (gathers_propertyKey hrec) ?_
    rintro ⟨_, computed⟩ _
    exact .key computed (.orFail fun _ => .expect
      (.add (gathers_withDefault hrec (hrec .binding)) fun _ _ => .node fun _ => rfl))

theorem gathers_binding : Gathers source live (binding rec) true .target := by
  refine .weaken fun _ => .here fun _ => .token fun t => ?_
  split
  · refine .advance (.add (gathers_sparseList fun _ => ?_) fun _ _ => .node fun _ => rfl)
    exact .look fun _ => .ite (fun _ => .call (gathers_restBinding (hrec .binding)))
      fun _ => .call (gathers_withDefault hrec (hrec .binding))
  · exact .advance (.add (.commaList (gathers_bindingProperty hrec)) fun _ _ => .node fun _ => rfl)
  · exact .call .target_identifier

theorem gathers_typedBinding (mark : Option Punct) :
    Gathers source live (typedBinding rec mark) true .target := by
  have hmark : Gathers source false (mark.mapM eat) false .word := fun _ => by
    cases mark with
    | none => exact .nil
    | some p => exact .give (.call (.eat p))
  refine fun _ => .here fun _ => .add (hrec .binding) fun target ht => .look fun _ =>
    .when hmark (.add (gathers_typeNote hrec) fun _ _ =>
      .ite (fun _ => .drop (.pure ht rfl)) fun _ => ?_)
  have htarget : target.kind.isTarget = true := ht target List.mem_cons_self
  have hsolid := (Kind.isPart_iff.mp (Kind.isPart_of_isTarget htarget)).1
  exact .inline hsolid
    (.special (fun _ => htarget) (by simp) hsolid (Kind.accepts_of_isTarget htarget _ _))

end Patterns

section Functions

variable (hrec : rec.Settles source)

include hrec

theorem gathers_decorators : Gathers source live (decorators rec) false .part :=
  .many fun _ => .look fun _ => .ite (fun _ => .here fun _ => .advance
    (.add (.within (hrec .leftHand)) fun _ _ => .give (.node fun _ => rfl))) fun _ => .nil

theorem gathers_parameter : Gathers source live (parameter rec) true .part := by
  refine fun _ => .here fun _ => .add (gathers_decorators hrec) fun _ _ => .look fun _ =>
    .when (.many fun _ => ?_) (.look fun _ => .look fun _ =>
      .ite (fun _ => ?_) fun _ => .ifEat ?_ ?_)
  · exact .look fun _ => .look fun _ => .ite (fun _ => .advance .nil) fun _ => .nil
  · exact .add .anyName fun _ _ => .relabel (.add (gathers_typeNote hrec) fun _ _ =>
      .drop (.node fun _ => rfl))
  · exact .add (gathers_typedBinding hrec none) fun _ _ => .look fun _ => .orFail fun _ =>
      .node fun _ => rfl
  · exact .add (gathers_withDefault hrec (gathers_typedBinding hrec _)) fun _ _ =>
      .node fun _ => rfl

theorem gathers_parameters : Gathers source live (parameters rec) true .part := fun _ =>
  .expect (.call (.within (.commaList (gathers_parameter hrec))))

theorem gathers_functionBody : Gathers source live (functionBody rec) true .body := fun _ =>
  .here fun _ => .expect (.add (.manyUntil (hrec (.statement false)))
    fun _ hs => .special (fun _ => rfl) rfl rfl hs)

omit hrec in
theorem fits_function (async generator declared : Bool) (span : Span) (ns : List Node) :
    (Role.ofDeclared declared).Fits ⟨.function ⟨async, generator, declared⟩, span, ns⟩ := by
  cases declared with
  | true => rfl
  | false => exact Role.fits_value rfl rfl

theorem builds_functionRest {form : FunctionForm} {role : Role}
    (hrole : ∀ span ns, role.Fits ⟨.function form, span, ns⟩) (start : Nat) (name : List Node) :
    Builds source start moved live name (functionRest rec form start name) m role := by
  refine .within (.add (gathers_typeParameters hrec) fun _ _ => .add (gathers_parameters hrec)
    fun _ _ => .add (gathers_resultNote hrec) fun _ _ => .look fun _ => .ite (fun _ => ?_) fun _ =>
      .look fun _ => .ite (fun _ => ?_) fun _ => .fail)
  · exact .add (gathers_functionBody hrec) fun _ _ => .node fun _ => hrole _ _
  · exact .ignore .semicolon fun _ => .node fun _ => hrole _ _

theorem gathers_function (declared nameless : Bool) :
    Gathers source live (function rec declared nameless) true (.ofDeclared declared) := by
  refine fun _ => .here fun _ => .ignore (.eatWord _) fun _ =>
    .expectWord (.ignore (.eat _) fun _ => .look fun _ => .look fun _ =>
      .add (fun _ => ?_ : Gathers source _ _ false .part) fun _ _ =>
        builds_functionRest hrec (fits_function _ _ _) _ _)
  refine .ite (fun _ => .give (.ite (fun _ => ?_) fun _ => ?_)) fun _ => .ite (fun _ => .fail)
    fun _ => .nil
  · exact .call (.under .word_identifier Role.word_part)
  · exact .call (.within (.under .word_identifier Role.word_part))

theorem gathers_methodFunction (async generator : Bool) (accessor : Accessor) :
    Gathers source live (methodFunction rec async generator accessor) true .value := fun _ =>
  .here fun _ => .rest
    (builds_functionRest (m := true) hrec (fits_function async generator false) _ [])
    fun _ hf => .ite (fun _ => .pure hf rfl) fun _ => .fail

end Functions

section Classes

instance (word : String) : Still (modifies word) := by
  unfold modifies
  infer_instance

variable (hrec : rec.Settles source)

include hrec

/-- The statements of a static block, whatever stands in front of it. -/
theorem builds_staticBlock (start : Nat) (ns : List Node) :
    Builds source start true false ns (staticBlock rec start) m .part :=
  .add (.within (gathers_functionBody hrec)) fun body hbody => .drop (.inline
    (by rw [hbody body List.mem_cons_self]; rfl)
    (.regroup (.node fun _ => rfl) (List.append_nil _).symm))

theorem builds_namedMember (start : Nat) (decorated : List Node) (isStatic : Bool) :
    Builds source start moved live decorated (namedMember rec start decorated isStatic) m
      .part := by
  refine .ignore (fun _ => ?_ : Gathers source _ _ false .word) fun _ =>
    .ignore (fun _ => ?_ : Gathers source _ _ false .word) fun _ =>
      .ignore (fun _ => ?_ : Gathers source _ _ false .word) fun _ =>
        .add (gathers_propertyKey hrec) ?_
  · exact .look fun _ => .look fun _ => .look fun _ => .ite (fun _ => .advance .nil) fun _ => .nil
  · exact .look fun _ => .ite (fun _ => .advance .nil) fun _ => .nil
  · exact .ite (fun _ => .call (.eat _)) fun _ => .nil
  · rintro ⟨_, computed⟩ _
    refine .key computed (.orFail fun _ => .look fun _ => .join ?_ fun hrest => .ite
      (fun _ => .ignore (.eat _) fun _ =>
        .ignore (fun _ => ?_ : Gathers source _ _ false .word) fun _ => hrest.weaken)
      fun _ => hrest.weaken)
    · refine .look fun _ => .look fun _ => .look fun _ => .ite (fun _ => .orFail fun _ => ?_)
        fun _ => .orFail fun _ => .orFail fun _ => ?_
      · exact .add (gathers_methodFunction hrec _ _ _) fun _ _ =>
          .regroup (.node fun _ => rfl) (by simp)
      · exact .add (gathers_typeNote hrec) fun _ _ =>
          .add (.whenever (.eat _) (.within (hrec .assignment))) fun _ _ =>
            .ignore .semicolon fun _ => .regroup (.node fun _ => rfl) (by simp)
    · exact .look fun _ => .ite (fun _ => .call (.eat _)) fun _ => .nil

theorem gathers_classMember : Gathers source live (classMember rec) true .part := by
  refine fun _ => .here fun start => .add (gathers_decorators hrec) fun decorated _ =>
    .isWord fun _ => .look fun _ => .ite (fun _ => ?_) fun _ => .look fun _ =>
      .ignore (.many fun _ => ?_) fun _ => ?_
  · exact .advance (.loosen (builds_staticBlock hrec start _) (fun _ => by simp_all) (by simp))
  · refine .look fun t => ?_
    split
    · exact .look fun _ => .ite (fun _ => .advance .nil) fun _ => .nil
    · exact .nil
  · have hsignature : Builds source start false false decorated (do
        if (← typed) && (← isPunct .lbracket) then
          attempt (do
            let parts ← indexSignature rec
            semicolon
            node .classSignature start parts)
        else return none) false .part :=
      .look fun _ => .look fun _ => .ite
        (fun _ => .tried (.add (gathers_indexSignature hrec) fun _ _ => .ignore .semicolon fun _ =>
          .drop (.node fun _ => rfl)))
        fun _ => .nil
    refine .either hsignature.weaken (fun found hfound => ?_) rfl
    cases found with
    | some n =>
      exact .inl (.filled (Kind.isPart_iff.mp (hfound n List.mem_cons_self)).1 (.pure hfound rfl))
    | none => exact .inr (builds_namedMember hrec start decorated _)

theorem gathers_implemented : Gathers source live (implemented rec) false .part := fun _ =>
  .look fun _ => .look fun _ => .ite
    (fun _ => .advance (.add (hrec .type) fun _ hfirst =>
      .add (.manyWhile (.eat _) (hrec .type)) fun _ hothers => .pure (hfirst.append hothers) rfl))
    fun _ => .nil

theorem gathers_heritage : Gathers source live (heritage rec) false .part := by
  refine fun _ => .ifEatWord (.here fun _ => .add (hrec .leftHand) fun _ _ =>
    .add (fun _ => ?_ : Gathers source _ _ false .part) fun _ _ => .give (.node fun _ => rfl)) .nil
  exact .look fun _ => .look fun _ => .ite (fun _ => .give (.call (gathers_typeArguments hrec)))
    fun _ => .nil

theorem builds_classRest (start : Nat) (decorated : List Node) (declared nameless : Bool) :
    Builds source start moved live decorated (classRest rec start decorated declared nameless) m
      (.ofDeclared declared) := by
  refine .expectWord (.look fun _ => .look fun _ => .look fun _ =>
    .add (fun _ => ?_ : Gathers source _ _ false .part) fun _ _ =>
      .add (gathers_typeParameters hrec) fun _ _ => .add (gathers_heritage hrec) fun _ _ =>
        .add (gathers_implemented hrec) fun _ _ => .expect
          (.add (.within (.many fun _ => ?_) : Gathers source _ _ false .part) fun _ _ =>
            .node fun _ => ?_))
  · exact .ite (fun _ => .give (.call (.under .word_identifier Role.word_part))) fun _ =>
      .ite (fun _ => .fail) fun _ => .nil
  · exact .ignore (.many fun _ => .ifEat .nil .nil) fun _ =>
      .ifEat .nil (.give (.call (gathers_classMember hrec)))
  · cases declared with
    | true => exact rfl
    | false => exact Role.fits_value rfl rfl

theorem gathers_classDefinition (declared nameless : Bool) :
    Gathers source live (classDefinition rec declared nameless) true (.ofDeclared declared) :=
  fun _ => .here fun _ => .add (gathers_decorators hrec) fun _ _ => .look fun _ => .look fun _ =>
    .when .advance (builds_classRest hrec _ _ _ _)

end Classes

end Grammar

end EmberClasses.Script
