import EmberClasses.Proofs.ExpressionNodes
import EmberClasses.Script.Grammar.Declaration

/-! The nodes of statements and of declarations. -/

namespace EmberClasses.Script

open EmberClasses.Script.Parser

def Parser.Role.ofHead : Bool → Role
  | true => .part
  | false => .statement

namespace Grammar

variable {source : List Char} {rec : Rec} {live moved m : Bool}

theorem solid_of_statement {n : Node} (h : Role.statement.Fits n) : n.kind.isSolid = true :=
  Kind.isSolid_of_isLate (Kind.isLate_of_isStatement h)

section Parts

set_option synthInstance.maxSize 512 in
instance : Still variableKind? := by
  unfold variableKind?
  dsimp only
  infer_instance

variable (hrec : rec.Settles source)

include hrec

theorem gathers_block : Gathers source live (block rec) true .statement := fun _ =>
  .here fun _ => .expect (.add (.within (.manyUntil (hrec (.statement false)))) fun _ _ =>
    .node fun _ => rfl)

theorem gathers_single : Gathers source live (single rec) true .statement :=
  .within (hrec (.statement true))

theorem gathers_inParens : Gathers source live (inParens rec) true .value := fun _ =>
  .expect (.add (.within (hrec .expression)) fun _ he => .expect (.pure he rfl))

theorem gathers_declarator (kind : VariableKind) (head : Bool) :
    Gathers source live (declarator rec kind head) true .part := fun _ =>
  .here fun _ => .add (gathers_typedBinding hrec _) fun _ _ => .ifEat
    (.add (hrec .assignment) fun _ _ => .node fun _ => rfl)
    (.look fun _ => .orFail fun _ => .node fun _ => rfl)

theorem gathers_variableList (kind : VariableKind) (head : Bool) :
    Gathers source live (variableList rec kind head) true (.ofHead head) := by
  refine fun _ => .here fun _ => .ignore (.eatWord _) fun _ => .advance
    (.add (gathers_declarator hrec kind head) fun _ _ =>
      .add (.manyWhile (.eat _) (gathers_declarator hrec kind head)) fun _ _ => .node fun _ => ?_)
  cases head <;> rfl

/-- The end of the statement also ends the variables. -/
theorem gathers_variableStatement (kind : VariableKind) :
    Gathers source live (variableStatement rec kind) true .statement := by
  intro start ctx c n c' hc h
  obtain ⟨declared, c₁, hdeclared, hrest⟩ := bind_eq_ok.mp h
  obtain ⟨_, c₂, hsemicolon, hnode⟩ := bind_eq_ok.mp hrest
  cases hnode
  have hlist := gathers_variableList hrec kind false start ctx c declared c₁ hc hdeclared
  have hend := Gathers.semicolon _ ctx c₁ _ c' (.of_placed hlist.placed) hsemicolon
  have hsolid := solid_of_statement (hlist.all declared List.mem_cons_self)
  exact ⟨hend.placed, hlist.start_le.trans hend.start_le, hlist.last_le.trans hend.last_le,
    hlist.row.stretch hsolid hend.last_le hend.placed.last_boundary,
    fun hm => (hlist.moved hm).trans_le hend.last_le,
    .cons (hlist.all declared List.mem_cons_self) (.nil _)⟩

end Parts

section Statements

variable (hrec : rec.Settles source)

include hrec

theorem gathers_ifStatement : Gathers source live (ifStatement rec) true .statement := fun _ =>
  .here fun _ => .advance (.add (gathers_inParens hrec) fun _ _ =>
    .add (gathers_single hrec) fun _ _ =>
      .add (.whenever (.eatWord _) (gathers_single hrec)) fun _ _ => .node fun _ => rfl)

theorem gathers_whileStatement : Gathers source live (whileStatement rec) true .statement :=
  fun _ => .here fun _ => .advance (.add (gathers_inParens hrec) fun _ _ =>
    .add (gathers_single hrec) fun _ _ => .node fun _ => rfl)

theorem gathers_doStatement : Gathers source true (doStatement rec) true .statement := fun _ =>
  .here fun _ => .advance (.add (gathers_single hrec) fun _ _ => .expectWord
    (.add (gathers_inParens hrec) fun _ _ => .ignore (.eat _) fun _ => .node fun _ => rfl))

theorem gathers_loopStart : Gathers source live (loopStart rec) false .part := by
  refine fun _ => .look fun _ => .ite (fun _ => .nil) fun _ => .look fun kind => ?_
  cases kind with
  | some kind => exact .give (.call (.within (gathers_variableList hrec kind true)))
  | none => exact .give (.call (.under (.within (hrec .expression)) Role.value_part))

omit hrec in
theorem builds_loopTarget {start : Nat} {first : List Node} (h : Role.part.All first) :
    Builds source start true live first (loopTarget first) m .part := by
  unfold loopTarget
  split
  · exact .pure h rfl
  · exact .fail
  · split
    · rename_i target htarget
      have hbecomes := Node.becomes_toTarget _ target htarget
      exact .become hbecomes (.pure (.cons hbecomes.part (.nil _)) rfl)
    · exact .fail
  · exact .fail

theorem gathers_forStatement : Gathers source live (forStatement rec) true .statement := by
  refine fun _ => .here fun _ => .advance (.ignore (fun _ => ?_ : Gathers source _ _ false .word)
    fun _ => .expect (.look fun _ => .look fun _ =>
      .add (gathers_loopStart hrec) fun first hfirst => .look fun _ => .orFail fun _ =>
        .look fun _ => .look fun _ => .ite (fun _ => ?_) fun _ => .orFail fun _ => ?_))
  · exact .look fun _ => .look fun _ => .ite (fun _ => .advance .nil) fun _ => .nil
  · refine .rest (builds_loopTarget (m := true) hfirst) fun _ _ => .look fun _ => .advance
      (.add (.within (hrec.value ?_)) fun _ _ => .expect (.add (gathers_single hrec) fun _ _ =>
        .node fun _ => rfl))
    split <;> rfl
  · have hoptional (close : Punct) : Gathers source false (do
        if ← isPunct close then return [] else return [← enclosed (rec .expression)])
        false .value := fun _ =>
      .look fun _ => .ite (fun _ => .nil) fun _ => .give (.call (.within (hrec .expression)))
    exact .expect (.add (hoptional .semicolon) fun _ _ =>
      .expect (.add (hoptional .rparen) fun _ _ =>
        .expect (.add (gathers_single hrec) fun _ _ => .node fun _ => rfl)))

omit hrec in
theorem gathers_jumpStatement : Gathers source true jumpStatement true .statement := by
  refine fun _ => .here fun _ => .advance (.add (fun _ => ?_ : Gathers source _ _ false .inner)
    fun _ _ => .ignore .semicolon fun _ => .node fun _ => rfl)
  refine .look fun _ => .look fun _ => .ite (fun _ => ?_) fun _ => .nil
  refine .add .word_identifier fun n hn => .relabel (.pure (.cons ?_ (.nil _)) rfl)
  exact (Node.isLate_asLabel n).trans (Role.isLate_of_fits rfl (hn n List.mem_cons_self))

theorem gathers_returnStatement : Gathers source true (returnStatement rec) true .statement := by
  refine fun _ => .here fun _ => .look fun _ => .orFail fun _ => .advance (.look fun _ =>
    .look fun _ => .look fun _ => .look fun _ =>
      .add (fun _ => ?_ : Gathers source _ _ false .value) fun _ _ =>
        .ignore .semicolon fun _ => .node fun _ => rfl)
  exact .ite (fun _ => .nil) fun _ => .give (.call (.within (hrec .expression)))

theorem gathers_throwStatement : Gathers source live (throwStatement rec) true .statement :=
  fun _ => .here fun _ => .advance (.look fun _ => .orFail fun _ =>
    .add (.within (hrec .expression)) fun _ _ => .ignore .semicolon fun _ => .node fun _ => rfl)

theorem gathers_switchClause : Gathers source live (switchClause rec) true .part := by
  refine fun _ => .here fun _ => .add (fun _ => ?_ : Gathers source _ _ false .value) fun _ _ =>
    .expect (.add (.many fun _ => ?_ : Gathers source _ _ false .statement) fun _ _ =>
      .node fun _ => rfl)
  · exact .ifEatWord .nil (.expectWord (.give (.call (.within (hrec .expression)))))
  · exact .look fun _ => .look fun _ => .look fun _ => .ite (fun _ => .nil) fun _ =>
      .give (.call (hrec (.statement false)))

theorem gathers_switchStatement : Gathers source live (switchStatement rec) true .statement :=
  fun _ => .here fun _ => .advance (.add (gathers_inParens hrec) fun _ _ =>
    .expect (.add (.within (.manyUntil (gathers_switchClause hrec))) fun _ _ => .node fun _ => rfl))

theorem gathers_tryStatement : Gathers source true (tryStatement rec) true .statement := by
  refine fun _ => .here fun _ => .advance (.add (gathers_block hrec) fun _ _ =>
    .add (fun _ => ?_ : Gathers source _ _ false .part) fun _ _ =>
      .add (.whenever (.eatWord _) (gathers_block hrec)) fun _ _ => .orFail fun _ =>
        .node fun _ => rfl)
  refine .ifWord (.here fun _ => .advance (.add (fun _ => ?_ : Gathers source _ _ false .part)
    fun _ _ => .add (gathers_block hrec) fun _ _ => .give (.node fun _ => rfl))) .nil
  exact .ifEat (.add (gathers_typedBinding hrec none) fun _ ht =>
    .expect (.pure (ht.under Role.target_part) rfl)) .nil

theorem gathers_labelled : Gathers source live (labelled rec) true .statement := fun _ =>
  .here fun _ => .add .word_identifier fun _ _ => .relabel (.expect
    (.add (gathers_single hrec) fun _ _ => .node fun _ => rfl))

theorem gathers_expressionStatement :
    Gathers source live (expressionStatement rec) true .statement := fun _ =>
  .here fun _ => .add (.within (hrec .expression)) fun _ _ => .ignore .semicolon fun _ =>
    .node fun _ => rfl

theorem gathers_keywordStatement {word : String} {p : Parser Node}
    (h : keywordStatement rec word = some p) : Gathers source true p true .statement := by
  unfold keywordStatement at h
  split at h <;> cases h
  · exact gathers_ifStatement hrec
  · exact gathers_forStatement hrec
  · exact gathers_whileStatement hrec
  · exact gathers_whileStatement hrec
  · exact gathers_doStatement hrec
  · exact gathers_jumpStatement
  · exact gathers_jumpStatement
  · exact gathers_returnStatement hrec
  · exact gathers_throwStatement hrec
  · exact gathers_switchStatement hrec
  · exact gathers_tryStatement hrec
  · exact fun _ => .here fun _ => .advance (.ignore .semicolon fun _ => .node fun _ => rfl)

theorem gathers_plainStatement : Gathers source live (plainStatement rec) true .statement := by
  refine .weaken fun _ => .here fun _ => .token fun t => ?_
  split
  · exact .call (gathers_block hrec)
  · exact .advance (.node fun _ => rfl)
  · split
    · rename_i p hp
      exact .call (gathers_keywordStatement hrec hp)
    · exact .look fun _ => .look fun _ => .ite (fun _ => .call (gathers_labelled hrec)) fun _ =>
        .call (gathers_expressionStatement hrec)
  · exact .call (gathers_expressionStatement hrec)

end Statements

section Declarations

instance (word : String) : Still (introduces word) := by
  unfold introduces
  infer_instance

theorem token_of_introduces {word : String} {ctx : Context} {c c' : Cursor}
    (h : introduces word ctx c = .ok (true, c')) : c.token = .name word false := by
  unfold introduces at h
  rw [bind_of_ok (isWord_run _)] at h
  split at h
  · rename_i hword
    simpa using hword
  · cases h

theorem builds_introduces {β : Type} [Carries β] {start : Nat} {ns : List Node} {role : Role}
    {word : String} {f : Bool → Parser β}
    (h : ∀ b, Builds source start moved (live || b) ns (f b) m role) :
    Builds source start moved live ns (introduces word >>= f) m role := by
  refine .after (fun _ => moved) (live || ·) (fun _ => ns) fun ctx c b c' hc hb => ?_
  cases Still.still ctx c b c' hb
  refine ⟨?_, le_rfl, le_rfl, h b⟩
  cases b with
  | true => exact (hc.at_token (by simp [token_of_introduces hb])).weaken id fun _ => rfl
  | false => exact hc.weaken id (by simp)

variable (hrec : rec.Settles source)

include hrec

theorem gathers_declaration? : Gathers source live (declaration? rec) false .statement := by
  refine fun _ => .look fun kind => ?_
  cases kind with
  | some kind => exact .give (.call (gathers_variableStatement hrec kind))
  | none =>
    exact .look fun _ => .ite (fun _ => .give (.call (gathers_function hrec true false))) fun _ =>
      .look fun _ => .ite (fun _ => .give (.call (gathers_function hrec true false))) fun _ =>
        .look fun _ => .look fun _ => .ite
          (fun _ => .give (.call (gathers_classDefinition hrec true false))) fun _ =>
            .look fun _ => .look fun _ => .look fun _ => .ite
              (fun _ => .give (.call (gathers_classDefinition hrec true false))) fun _ => .nil

theorem gathers_interfaceDeclaration :
    Gathers source live (interfaceDeclaration rec) true .statement := by
  refine fun _ => .here fun _ => .advance (.add .word_identifier fun _ _ => .relabel
    (.add (gathers_typeParameters hrec) fun _ _ =>
      .add (fun _ => ?_ : Gathers source _ _ false .part) fun _ _ =>
        .add (gathers_objectType hrec) fun _ _ => .node fun _ => rfl))
  exact .ifEatWord (.add (hrec .type) fun _ hfirst => .add (.manyWhile (.eat _) (hrec .type))
    fun _ hothers => .pure (hfirst.append hothers) rfl) .nil

theorem gathers_typeAlias : Gathers source live (typeAlias rec) true .statement := fun _ =>
  .here fun _ => .advance (.add .word_identifier fun _ _ => .relabel
    (.add (gathers_typeParameters hrec) fun _ _ => .expect (.add (hrec .type) fun _ _ =>
      .ignore .semicolon fun _ => .node fun _ => rfl)))

theorem gathers_enumDeclaration : Gathers source live (enumDeclaration rec) true .statement := by
  refine fun _ => .here fun _ => .ignore (.eatWord _) fun _ => .expectWord
    (.add .word_identifier fun _ _ => .expect
      (.add (.commaList (fun _ => ?_ : Gathers source false _ true .part)) fun _ _ =>
        .node fun _ => rfl))
  refine .here fun _ => .add (gathers_propertyKey hrec) ?_
  rintro ⟨_, _⟩ _
  exact .relabel (.orFail fun _ =>
    .add (.whenever (.eat _) (.within (hrec .assignment))) fun _ _ => .node fun _ => rfl)

theorem gathers_namespaceDeclaration :
    Gathers source live (namespaceDeclaration rec) true .statement := by
  refine fun _ => .here fun _ => .advance (.add (fun _ => ?_ : Gathers source _ _ true .word)
    fun _ _ => .relabel (.look fun _ => .ite (fun _ => .advance
      (.add (.within (.manyUntil (hrec (.statement false)))) fun _ _ => .node fun _ => rfl))
      fun _ => .ignore .semicolon fun _ => .node fun _ => rfl))
  refine .look fun t => ?_
  split
  · exact .call .stringLiteral
  · exact .call gathers_qualifiedName

theorem gathers_namedDeclaration? :
    Gathers source live (namedDeclaration? rec) false .statement := by
  refine fun _ => .look fun _ => .ite (fun _ => .nil) fun _ => .look fun _ => .ite (fun _ => ?_)
    fun _ => .look fun _ => .ite (fun _ => ?_) fun _ => .look fun _ => .look fun _ =>
      .ite (fun _ => ?_) fun _ => .look fun _ => .look fun _ => .ite (fun _ => ?_) fun _ =>
        .look fun _ => .look fun _ => .ite (fun _ => ?_) fun _ => .isWord fun _ => .look fun _ =>
          .ite (fun hglobal => ?_) fun _ => .nil
  · exact .give (.call (gathers_interfaceDeclaration hrec))
  · exact .give (.call (gathers_typeAlias hrec))
  · exact .give (.call (gathers_enumDeclaration hrec))
  · exact .give (.call (gathers_namespaceDeclaration hrec))
  · exact .give (.call (gathers_namespaceDeclaration hrec))
  · exact .here fun _ => .advance (.addLate (gathers_block hrec)
      (fun _ _ => .give (.node fun _ => rfl)) fun _ => by simp_all)

theorem gathers_ambientDeclaration :
    Gathers source live (ambientDeclaration rec) true .statement := by
  refine .within fun _ => .look fun _ => .ite
    (fun _ => .call (gathers_variableStatement hrec .var)) fun _ =>
      .orElse (gathers_declaration? hrec) (fun _ => solid_of_statement) ?_ fun _ =>
        .orElse (gathers_namedDeclaration? hrec) (fun _ => solid_of_statement) ?_ fun _ => .fail
  · rintro n ctx c y c' h
    cases h
    exact ⟨rfl, rfl⟩
  · rintro n ctx c y c' h
    cases h
    exact ⟨rfl, rfl⟩

theorem gathers_typeDeclaration? :
    Gathers source live (typeDeclaration? rec) false .statement := by
  refine fun _ => .look fun _ => builds_introduces fun _ => .ite (fun hdeclare => ?_) fun _ => ?_
  · exact .here fun _ => .tried (.advance (.addLate (gathers_ambientDeclaration hrec)
      (fun _ _ => .node fun _ => rfl) fun _ => by simp_all))
  · exact .call (gathers_namedDeclaration? hrec)

end Declarations

end Grammar

end EmberClasses.Script
