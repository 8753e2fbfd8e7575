import EmberClasses.Proofs.ParserNodes
import EmberClasses.Script.Grammar.Types

/-! The nodes of types. -/

namespace EmberClasses.Script

open EmberClasses.Script.Parser

@[reducible] def Goal.role : Goal → Role
  | .expression | .assignment | .branch | .binary _ | .unary | .leftHand | .newTarget => .value
  | .binding => .target
  | .statement _ => .statement
  | .type | .plainType | .operatorType => .part

structure Rec.Settles (source : List Char) (rec : Rec) : Prop where
  gathers : ∀ goal {live}, Gathers source live (rec goal) true goal.role

instance {source : List Char} {rec : Rec} : CoeFun (rec.Settles source) fun _ =>
    ∀ goal {live}, Gathers source live (rec goal) true goal.role :=
  ⟨Rec.Settles.gathers⟩

theorem Rec.Settles.value {source : List Char} {rec : Rec} {goal : Goal} {live : Bool}
    (hrec : rec.Settles source) (hgoal : goal.role = .value) :
    Gathers source live (rec goal) true .value :=
  hgoal ▸ hrec goal

namespace Grammar

variable {source : List Char} {rec : Rec} {live moved m : Bool}

theorem gathers_qualifiedName : Gathers source live qualifiedName true .word := fun _ =>
  .here fun _ => .add .anyName fun n hn => .iterate (hn n List.mem_cons_self)
    fun _ _ => .ifEat
      (.ignore .anyName fun _ => .drop (.give (.node fun _ => ⟨rfl, by simp, rfl⟩)))
      .nil

section Arguments

variable (hrec : rec.Settles source)

include hrec

theorem gathers_typeArguments : Gathers source live (typeArguments rec) true .part := fun _ =>
  .here fun _ => .expect (.add (.commaList (hrec .type)) fun _ _ => .orFail fun _ =>
    .node fun _ => rfl)

theorem gathers_typeArgumentsHere : Gathers source live (typeArgumentsHere rec) false .part :=
  fun _ => .look fun _ => .look fun _ => .ite
    (fun _ => .give (.call (gathers_typeArguments hrec))) (fun _ => .nil)

theorem gathers_typeParameters : Gathers source live (typeParameters rec) false .part := by
  refine fun _ => .look fun _ => .look fun _ => .ite (fun _ => .nil) fun _ => ?_
  refine .here fun _ => .expect (.add (.commaList (fun _ => ?_ : Gathers source false _ true .part))
    fun _ _ => .orFail fun _ => .give (.node fun _ => rfl))
  refine .here fun _ => .ignore (.many fun _ => ?_) fun _ => ?_
  · exact .look fun _ => .look fun _ => .look fun _ => .look fun _ =>
      .ite (fun _ => .advance .nil) fun _ => .nil
  · exact .add .word_identifier fun _ _ => .add (.whenever (.eatWord _) (hrec .type)) fun _ _ =>
      .add (.whenever (.eat _) (hrec .type)) fun _ _ => .node fun _ => rfl

theorem gathers_resultType : Gathers source live (resultType rec) true .part := by
  refine fun _ => .here fun _ => .attempt (.call (hrec .type)) (.give ?_)
  refine .ignore (fun _ => ?_ : Gathers source live _ false .word) fun _ =>
    .ignore .anyName fun _ => .look fun _ => .look fun _ => .ite
      (fun _ => .advance (.add (hrec .type) fun _ _ => .node fun _ => rfl))
      (fun _ => .ite (fun _ => .node fun _ => rfl) fun _ => .fail)
  exact .look fun _ => .look fun _ => .ite (fun _ => .advance .nil) fun _ => .nil

theorem gathers_typeNote : Gathers source live (typeNote rec) false .part := fun _ =>
  .look fun _ => .look fun _ => .ite
    (fun _ => .here fun _ => .advance (.add (hrec .type) fun _ _ => .give (.node fun _ => rfl)))
    (fun _ => .nil)

theorem gathers_resultNote : Gathers source live (resultNote rec) false .part := fun _ =>
  .look fun _ => .look fun _ => .ite
    (fun _ => .advance (.give (.call (gathers_resultType hrec)))) (fun _ => .nil)

theorem gathers_typeParams : Gathers source live (typeParams rec) true .part := by
  refine fun _ => .expect (.call (.commaList (fun _ => ?_ : Gathers source false _ true .part)))
  refine .here fun _ => .ignore (.eat _) fun _ =>
    .add (fun _ => ?_ : Gathers source false _ true .part) fun _ _ => .ignore (.eat _) fun _ =>
      .add (gathers_typeNote hrec) fun _ _ => .node fun _ => rfl
  exact .look fun _ => .ite (fun _ => .call (.under .anyName Role.word_part)) fun _ =>
    .call (.under (hrec .binding) Role.target_part)

/-- What stands behind the type parameters of a function type. -/
theorem builds_functionType (start : Nat) :
    Builds source start moved live [] (functionType rec start) m .part :=
  .add (gathers_typeParameters hrec) fun _ _ => .add (gathers_typeParams hrec) fun _ _ =>
    .expect (.add (gathers_resultType hrec) fun _ _ => .node fun _ => rfl)

theorem gathers_templateType : Gathers source live (templateType rec) true .part := fun _ =>
  .here fun _ => .add (.templateParts (hrec .type) Role.part_inner false) fun _ _ =>
    .node fun _ => rfl

theorem gathers_memberName : Gathers source live (memberName rec) true .part := by
  refine .weaken fun _ => .token fun t => ?_
  split
  · exact .call (.under .anyName Role.word_part)
  · exact .call (.under .stringLiteral Role.word_part)
  · exact .call (.leaf fun _ => rfl)
  · exact .call (.leaf fun _ => rfl)
  · exact .advance (.add (hrec .assignment) fun _ hn => .expect
      (.pure (hn.under Role.value_part) rfl))
  · exact .fail

theorem gathers_indexSignature : Gathers source live (indexSignature rec) true .part := fun _ =>
  .expect (.ignore .anyName fun _ => .expect (.add (hrec .type) fun _ hkey =>
    .expect (.add (gathers_typeNote hrec) fun _ hnote => .pure (hkey.append hnote) rfl)))

omit hrec in
theorem gathers_memberEnd : Gathers source live memberEnd false .word := fun _ =>
  .look fun _ => .look fun _ => .ite (fun _ => .call .advance)
    fun _ => .look fun _ => .look fun _ => .ite (fun _ => .nil) fun _ => .fail

theorem gathers_typeMember : Gathers source live (typeMember rec) true .part := by
  have hmodifier (word : String) : Gathers source false (do
      if (← isWord word) && (← nextIs fun c => startsKey c.token) then advance) false .word :=
    fun _ => .look fun _ => .look fun _ => .ite (fun _ => .call .advance) fun _ => .nil
  refine fun _ => .here fun _ => .ignore (hmodifier _).weaken fun _ => .look fun _ => .look fun _ =>
    .ite (fun _ => ?_) fun _ => .attempt ?_ ?_
  · exact .add (gathers_typeParameters hrec) fun _ _ => .add (gathers_typeParams hrec) fun _ _ =>
      .add (gathers_resultNote hrec) fun _ _ =>
        .ignore gathers_memberEnd fun _ => .node fun _ => rfl
  · refine .add (fun _ => ?_ : Gathers source _ _ true .part) fun _ _ => .ignore (.eat _) fun _ =>
      .add (fun _ => ?_ : Gathers source false _ false .part) fun _ _ => .ignore gathers_memberEnd
        fun _ => .node fun _ => rfl
    · exact .look fun _ => .look fun _ => .ite (fun _ => .call (.under .anyName Role.word_part))
        fun _ => .ignore (hmodifier _).weaken fun _ => .ignore (hmodifier _).weaken fun _ =>
          .call (gathers_memberName hrec)
    · exact .look fun _ => .look fun _ => .ite
        (fun _ => .add (gathers_typeParameters hrec) fun _ hdeclared =>
          .add (gathers_typeParams hrec) fun _ hparams => .add (gathers_resultNote hrec)
            fun _ hresult => .pure ((hdeclared.append hparams).append hresult) rfl)
        (fun _ => .call (gathers_typeNote hrec))
  · exact .add (gathers_indexSignature hrec) fun _ _ => .ignore gathers_memberEnd fun _ =>
      .node fun _ => rfl

theorem gathers_objectType : Gathers source live (objectType rec) true .part := fun _ =>
  .here fun _ => .expect (.add (.manyUntil (gathers_typeMember hrec)) fun _ _ =>
    .node fun _ => rfl)

omit hrec in
theorem gathers_mappedHead : Gathers source live mappedHead true .word := by
  have hrest {start : Nat} {live : Bool} : Builds source start true live [] (do
      expect .lbracket
      let _ ← anyName
      expectWord "in") true .word :=
    .expect (.ignore .anyName fun _ => .call (.expectWord _))
  exact fun _ => .expect (.look fun _ => .look fun _ => .ite
    (fun _ => .advance (.expectWord hrest)) (fun _ => .ignore (.eatWord _) fun _ => hrest))

/-- What stands behind the word `in` of a mapped type. -/
theorem builds_mappedRest (start : Nat) :
    Builds source start moved live [] (mappedRest rec start) m .part := by
  refine .add (hrec .type) fun keys _ => .add (.whenever (.eatWord _) (hrec .type))
    fun renamed _ => .expect (.look fun _ => .look fun _ => ?_)
  have hrest {live : Bool} : Builds source start true live ([keys] ++ renamed) (do
      let note ← typeNote rec
      let _ ← eat .semicolon
      expect .rbrace
      node .type start (keys :: renamed ++ note)) m .part :=
    .add (gathers_typeNote hrec) fun _ _ => .ignore (.eat _) fun _ => .expect (.node fun _ => rfl)
  exact .ite (fun _ => .advance (.expect hrest)) fun _ => .ignore (.eat _) fun _ => hrest

theorem gathers_tupleElement : Gathers source live (tupleElement rec) true .part := by
  refine fun _ => .here fun _ => .ignore (.eat _) fun _ =>
    .ignore (fun _ => .tried ?_ : Gathers source _ _ false .word) fun _ =>
      .add (hrec .type) fun _ _ => .ignore (.eat _) fun _ => .node fun _ => rfl
  exact .ignore .anyName fun _ => .ignore (.eat _) fun _ => .call (.expect _)

theorem gathers_primaryType : Gathers source live (primaryType rec) true .part := by
  refine .weaken fun _ => .here fun _ => .token fun t => ?_
  split
  · exact .call (.under .stringLiteral Role.word_part)
  · exact .call (.leaf fun _ => rfl)
  · exact .call (.leaf fun _ => rfl)
  · exact .call (gathers_templateType hrec)
  · refine .advance (.token fun t => ?_)
    split
    · exact .call (.leaf fun _ => rfl)
    · exact .call (.leaf fun _ => rfl)
    · exact .fail
  · exact .look fun _ => .ite
      (fun _ => .ignore gathers_mappedHead fun _ => builds_mappedRest hrec _)
      (fun _ => .call (gathers_objectType hrec))
  · exact .advance (.add (.commaList (gathers_tupleElement hrec)) fun _ _ => .node fun _ => rfl)
  · exact .advance (.add (hrec .type) fun _ _ => .expect (.node fun _ => rfl))
  · refine .advance (.add (fun _ => ?_ : Gathers source _ _ true .part) fun _ _ =>
      .add (gathers_typeArgumentsHere hrec) fun _ _ => .node fun _ => rfl)
    exact .look fun _ => .ite (fun _ => .call (hrec .plainType)) fun _ =>
      .call (.under gathers_qualifiedName Role.word_part)
  · refine .advance (.expect (.add (.commaList (hrec .type)) fun _ _ =>
      .ignore (.many fun _ => ?_) fun _ =>
        .add (gathers_typeArgumentsHere hrec) fun _ _ => .node fun _ => rfl))
    exact .ifEat (.ignore .anyName fun _ => .nil) .nil
  · exact .look fun _ => .ite (fun _ => .call (.leaf fun _ => rfl)) fun _ =>
      .ite (fun _ => .fail) fun _ => .add gathers_qualifiedName fun _ _ =>
        .add (gathers_typeArgumentsHere hrec) fun _ _ => .node fun _ => rfl
  · exact .fail

theorem gathers_operatorType : Gathers source live (operatorType rec) true .part := by
  refine fun _ => .here fun _ => .look fun _ => .look fun _ => .look fun _ => .ite (fun _ => ?_)
    fun _ => .ifEatWord ?_ ?_
  · exact .advance (.add (hrec .operatorType) fun _ _ => .node fun _ => rfl)
  · refine .add .word_identifier fun _ _ => .attempt (.node fun _ => rfl)
      (.add (fun _ => ?_ : Gathers source _ _ true .part) fun _ _ => .node fun _ => rfl)
    exact .expectWord (.add (hrec .plainType) fun _ hn => .look fun _ => .orFail fun _ =>
      .pure hn rfl)
  · refine .add (gathers_primaryType hrec) fun n hn => .iterate (hn n List.mem_cons_self)
      fun _ _ => .look fun _ => .look fun _ => .ite (fun _ => ?_) fun _ => .nil
    exact .advance (.ifEat (.give (.node fun _ => rfl))
      (.add (hrec .type) fun _ _ => .expect (.give (.node fun _ => rfl))))

omit hrec in
theorem gathers_joinedType {operator : Punct} {operand : Parser Node}
    (h : Gathers source false operand true .part) :
    Gathers source live (joinedType operator operand) true .part := fun _ =>
  .here fun _ => .ignore (.eat _) fun _ => .add h fun _ hfirst =>
    .add (.manyWhile (.eat _) h) fun _ _ => .ite (fun _ => .drop (.pure hfirst rfl))
      fun _ => .node fun _ => rfl

theorem gathers_plainType : Gathers source live (plainType rec) true .part := by
  refine fun _ => .here fun start => .ignore (fun _ => ?_ : Gathers source _ _ false .word) fun _ =>
    .look fun _ => .ite (fun _ => .advance (builds_functionType hrec start)) fun _ => .look fun _ =>
      .ite (fun _ => builds_functionType hrec start) fun _ => ?_
  · exact .look fun _ => .look fun _ => .ite (fun _ => .advance .nil) fun _ => .nil
  · have hfunction : Builds source start false false [] (do
        if ← isPunct .lparen then attempt (functionType rec start) else return none) false .part :=
      .look fun _ => .ite (fun _ => .tried (builds_functionType hrec start)) fun _ => .nil
    refine .rest hfunction.weaken fun found hfound => ?_
    cases found with
    | some t =>
      exact .filled (Kind.isPart_iff.mp (hfound t List.mem_cons_self)).1 (.pure hfound rfl)
    | none =>
      exact .call (gathers_joinedType (gathers_joinedType (gathers_operatorType hrec)))

theorem gathers_type : Gathers source live (type rec) true .part := fun _ =>
  .here fun _ => .add (gathers_plainType hrec) fun _ ht => .look fun _ => .look fun _ => .ite
    (fun _ => .attempt (.pure ht rfl) (.give (.advance (.add (hrec .plainType) fun _ _ =>
      .expect (.add (hrec .type) fun _ _ => .expect (.add (hrec .type) fun _ _ =>
        .node fun _ => rfl))))))
    (fun _ => .pure ht rfl)

end Arguments

end Grammar

end EmberClasses.Script
