import EmberClasses.Proofs.ImportGrammar
import EmberClasses.Proofs.StatementNodes

/-! The nodes of imports and exports, and of whole scripts. -/

namespace EmberClasses.Script

open EmberClasses.Script.Parser

namespace Parser.Role

theorem aside_node {k : Kind} (hk : k.isPart = true) (hcall : k ≠ .call) {ns : List Node}
    (h : aside.All ns) (span : Span) : aside.Fits ⟨k, span, ns⟩ := by
  refine ⟨hk, fun m hm => ?_⟩
  rcases Node.mem_preorder.mp hm with rfl | ⟨n, hn, hm⟩
  · exact hcall
  · exact (h n hn).2 m hm

end Parser.Role

namespace Grammar

variable {source : List Char} {rec : Rec} {live moved m : Bool}

section Names

theorem gathers_importAttributes : Gathers source live importAttributes false .aside := by
  refine fun _ => .look fun _ => .look fun _ => .look fun _ => .ite (fun _ => .advance (.expect
    (.call (.commaList (fun _ => ?_ : Gathers source false _ true .aside))))) fun _ => .nil
  refine .here fun _ => .add (fun _ => ?_ : Gathers source _ _ true .word) fun key hkey =>
    .expect (.add .stringLiteral fun value hvalue => .node fun _ => ?_)
  · refine .look fun t => ?_
    split
    · exact .call .stringLiteral
    · exact .call .anyName
  · exact Role.aside_node rfl (by simp) ((hkey.append hvalue).under Role.word_aside) _

theorem gathers_moduleName : Gathers source live moduleName true .aside := fun _ =>
  .add .stringLiteral fun _ hname => .add gathers_importAttributes fun _ hattributes =>
    .pure ((hname.under Role.word_aside).append hattributes) rfl

theorem gathers_exportedName : Gathers source live exportedName true .word := by
  refine fun _ => .look fun t => ?_
  split
  · exact .give (.call .stringLiteral)
  · exact .give (.call .anyName)
  · exact .fail

theorem gathers_typeOnlyName : Gathers source live typeOnlyName false .word := fun _ =>
  .look fun _ => .look fun _ => .ite (fun _ => .look fun _ => .when .advance .nil) fun _ => .nil

theorem gathers_importSpecifier : Gathers source live importSpecifier true .word := by
  refine fun _ => .ignore gathers_typeOnlyName fun _ => .here fun _ => .look fun _ =>
    .ignore gathers_exportedName ?_
  rintro ⟨_, _⟩
  refine .ifEatWord (.ignore .word_identifier fun _ => ?_)
    (.ite (fun _ => .node fun _ => ⟨rfl, by simp, rfl⟩) fun _ => .fail)
  split
  · exact .node fun _ => ⟨rfl, by simp, rfl⟩
  · exact .fail

/-- What an import binds besides its default does not depend on the default. -/
theorem importRest_append (first : List Node) :
    importRest first = (do return first ++ (← importRest []) : Parser (List Node)) := by
  unfold importRest
  simp only [bind_assoc]
  congr 1
  funext start
  congr 1
  funext starred
  split
  · simp only [bind_assoc]
    congr 1
    funext _
    congr 1
    funext n
    split
    · simp
    · rfl
  · simp

theorem gathers_importRest : Gathers source live (importRest []) true .word := by
  unfold importRest
  simp only [List.nil_append]
  refine fun _ => .here fun _ => .ifEat (.expectWord (.ignore .word_identifier fun _ => ?_))
    (.expect (.give (.call (.commaList gathers_importSpecifier))))
  split
  · exact .give (.node fun _ => ⟨rfl, by simp, rfl⟩)
  · exact .fail

theorem gathers_importDefault : Gathers source live importDefault false .word := by
  refine fun _ => .look fun _ => .ite (fun _ => .add .word_identifier fun n hn => ?_) fun _ => .nil
  have hword := hn n List.mem_cons_self
  split
  · rename_i name _
    exact .become (.withKind (k := .importDefault name) hword.1 rfl fun _ => trivial)
      (.pure (.cons ⟨rfl, by simp [Node.withKind], hword.2.2⟩ (.nil _)) rfl)
  · exact .fail

theorem gathers_importClause : Gathers source live importClause false .word := by
  rw [importClause_eq]
  refine fun _ => .add gathers_importDefault fun first hfirst => .join ?_ fun hrest => .ite
    (fun _ => .ignore (.eat _) fun _ => .ite (fun _ => .pure hfirst rfl) fun _ => hrest.weaken)
    fun _ => hrest.weaken
  rw [importRest_append]
  exact .add gathers_importRest fun _ hnames => .pure (hfirst.append hnames) rfl

/-- An import of another kind of module, behind its name. -/
theorem builds_importAlias (start : Nat) :
    Builds source start moved live [] (importAlias start) m .statement := by
  refine .expect (.look fun _ => .add (fun _ => ?_ : Gathers source _ _ true .word) fun _ _ =>
    .ignore .semicolon fun _ => .node fun _ => rfl)
  exact .ite
    (fun _ => .expectWord (.expect (.add .stringLiteral fun _ hn => .expect (.pure hn rfl))))
    fun _ => .call gathers_qualifiedName

theorem gathers_importPhase : Gathers source live importPhase false .word := fun _ =>
  .look fun _ => .look fun _ => .look fun _ => .look fun _ => .ite (fun _ => .call .advance)
    fun _ => .nil

theorem gathers_importDeclaration : Gathers source live importDeclaration true .statement := by
  refine fun _ => .here fun start => .expectWord (.look fun t => ?_)
  split
  · exact .add gathers_moduleName fun _ hname => .ignore .semicolon fun _ =>
      .special (fun _ => rfl) rfl rfl fun n hn => (hname n hn).2
  · refine .ignore (fun _ => ?_ : Gathers source _ _ false .word) fun _ => .look fun _ =>
      .look fun _ => .look fun _ => .ite (fun _ => .advance (builds_importAlias start)) fun _ =>
        .ignore gathers_importPhase fun _ => .add gathers_importClause fun names hnames =>
          .expectWord (.add gathers_moduleName fun _ hname => .ignore .semicolon fun _ =>
            .special (fun _ => rfl) rfl rfl fun n hn => ?_)
    · exact .look fun _ => .look fun _ => .ite (fun _ => .look fun _ => .when .advance .nil)
        fun _ => .nil
    · exact (((hnames.under Role.word_aside).append hname) n hn).2

end Names

section Exports

theorem gathers_exportSpecifier : Gathers source live exportSpecifier true .part := fun _ =>
  .ignore gathers_typeOnlyName fun _ => .here fun _ => .look fun _ =>
    .ignore gathers_exportedName fun _ => .eatWord fun _ => .when gathers_exportedName
      (.give (.node fun _ => rfl))

theorem builds_exportNames (start : Nat) :
    Builds source start moved live [] (exportNames start) m .statement := by
  refine .expect (.add (.many fun _ => ?_ : Gathers source _ _ false .part) fun _ _ =>
    .add (fun _ => ?_ : Gathers source _ _ false .aside) fun _ _ => .orFail fun _ =>
      .ignore .semicolon fun _ => .node fun _ => rfl)
  · exact .ifEat .nil (.call (.separated gathers_exportSpecifier))
  · exact .ifEatWord (.call gathers_moduleName) .nil

/-- All that another module exports, behind the keyword. -/
theorem builds_exportAll (start : Nat) :
    Builds source start moved live [] (exportAll start) m .statement :=
  .expect (.eatWord fun _ => .when gathers_exportedName (.expectWord
    (.add gathers_moduleName fun _ _ => .ignore .semicolon fun _ => .node fun _ => rfl)))

variable (hrec : rec.Settles source)

include hrec

/-- What is exported as the default, behind both keywords. -/
theorem builds_exportDefault (start : Nat) (decorated : List Node) :
    Builds source start true live decorated (exportDefault rec start decorated) m .statement := by
  refine .look fun _ => .look fun _ => .look fun _ => .look fun _ => .look fun _ =>
    .ite (fun _ => ?_) fun _ => .ite (fun _ => .fail) fun _ => .look fun _ => .look fun _ =>
      .ite (fun _ => ?_) fun _ => .look fun _ => .look fun _ => .ite (fun _ => ?_) fun _ => ?_
  · exact .add (gathers_classDefinition hrec true true) fun _ _ => .node fun _ => rfl
  · exact .add (gathers_function hrec true true) fun _ _ => .drop (.node fun _ => rfl)
  · exact .add (gathers_interfaceDeclaration hrec) fun _ _ => .drop (.node fun _ => rfl)
  · exact .add (.within (hrec .assignment)) fun _ _ => .ignore .semicolon fun _ =>
      .drop (.node fun _ => rfl)

theorem builds_exportDeclaration (start : Nat) (decorated : List Node) :
    Builds source start moved live decorated (exportDeclaration rec start decorated) m
      .statement := by
  refine .expectWord (.look fun _ => .look fun _ => .look fun _ => .when .advance (.ifEatWord
    (builds_exportDefault hrec start decorated) (.look fun _ => .ite (fun _ => ?_) fun _ =>
      .look fun _ => .ite (fun _ => ?_) fun _ => .look fun _ => .look fun _ => .ite (fun _ => ?_)
        fun _ => .look fun _ => .look fun _ => .ite (fun _ => ?_) fun _ => .look fun _ =>
          .look fun _ => .ite (fun _ => ?_) fun _ =>
            .add (gathers_declaration? hrec) fun found _ => ?_)))
  · exact .drop (builds_exportNames start) (List.nil_sublist _)
  · exact .drop (builds_exportAll start) (List.nil_sublist _)
  · exact .advance (.add (hrec .assignment) fun _ _ => .ignore .semicolon fun _ =>
      .drop (.node fun _ => rfl))
  · exact .advance (.expectWord (.add .word_identifier fun _ _ => .ignore .semicolon fun _ =>
      .drop (.node fun _ => rfl)))
  · exact .add gathers_importDeclaration fun _ _ => .drop (.node fun _ => rfl)
  · cases found with
    | some n => exact .orFail fun _ => .node fun _ => rfl
    | none =>
      refine .add (gathers_typeDeclaration? hrec) fun found _ => ?_
      cases found with
      | some n => exact .drop (.node fun _ => rfl)
      | none => exact .fail

theorem gathers_statement (single : Bool) :
    Gathers source live (statement rec single) true .statement := by
  refine fun _ => .here fun start => .look fun _ => .look fun _ => .ite (fun _ => ?_) fun _ =>
    .look fun _ => .ite (fun _ => ?_) fun _ => .look fun _ => .ite (fun _ => ?_) fun _ =>
      .look fun _ => .ite (fun _ => .orFail fun _ => ?_) fun _ => ?_
  · exact .look fun _ => .ite (fun _ => .fail) fun _ => .call gathers_importDeclaration
  · exact .look fun _ => .ite (fun _ => .fail) fun _ => builds_exportDeclaration hrec start []
  · exact .call (gathers_variableStatement hrec .var)
  · exact .add (gathers_decorators hrec) fun _ _ => .look fun _ => .look fun _ => .ite
      (fun _ => builds_exportDeclaration hrec start _) fun _ => .look fun _ => .look fun _ =>
        .when .advance (builds_classRest hrec start _ true false)
  · refine .orElse (gathers_declaration? hrec) (fun _ => solid_of_statement) ?_ fun _ =>
      .orElse (gathers_typeDeclaration? hrec) (fun _ => solid_of_statement) ?_ fun _ =>
        .call (gathers_plainStatement hrec)
    all_goals
      intro n ctx c y c' h
      dsimp only at h
      split at h
      · cases h
      · cases h
        exact ⟨rfl, rfl⟩

end Exports

end Grammar

/-- Rules that refer to each other to any depth gather their nodes. -/
theorem settles_rules (source : List Char) (depth : Nat) : (rules depth).Settles source := by
  induction depth with
  | zero => exact ⟨fun goal live start => .fail⟩
  | succ depth ih =>
    refine ⟨fun goal live => ?_⟩
    cases goal with
    | expression => exact Grammar.gathers_expression ih
    | assignment => exact Grammar.gathers_assignment ih rfl
    | branch => exact Grammar.gathers_assignment ih rfl
    | binary above => exact Grammar.gathers_binary ih above
    | unary => exact Grammar.gathers_unary ih
    | leftHand => exact Grammar.gathers_leftHand ih
    | newTarget => exact Grammar.gathers_newTarget ih
    | binding => exact Grammar.gathers_binding ih
    | statement single => exact Grammar.gathers_statement ih single
    | type => exact Grammar.gathers_type ih
    | plainType => exact Grammar.gathers_plainType ih
    | operatorType => exact Grammar.gathers_operatorType ih

end EmberClasses.Script
