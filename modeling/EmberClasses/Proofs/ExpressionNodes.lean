import EmberClasses.Proofs.FunctionNodes
import EmberClasses.Script.Grammar.Expression

/-! The nodes of expressions. -/

namespace EmberClasses.Script

open EmberClasses.Script.Parser

namespace Grammar

variable {source : List Char} {rec : Rec} {live moved m : Bool}

section Literals

variable (hrec : rec.Settles source)

include hrec

theorem gathers_spreadOr : Gathers source live (spreadOr rec) true .part := fun _ =>
  .here fun _ => .ifEat (.add (.within (hrec .assignment)) fun _ _ => .node fun _ => rfl)
    (.call (.under (.within (hrec .assignment)) Role.value_part))

theorem gathers_arguments : Gathers source live (arguments rec) true .part := fun _ =>
  .expect (.call (.commaList (gathers_spreadOr hrec)))

theorem gathers_arrayLiteral : Gathers source live (arrayLiteral rec) true .value := fun _ =>
  .here fun _ => .expect (.add (gathers_sparseList (gathers_spreadOr hrec)) fun _ _ =>
    .object rfl rfl)

theorem builds_keyedProperty (start : Nat) (accessor : Accessor) (async generator : Bool) :
    Builds source start moved live [] (keyedProperty rec start accessor async generator) m
      .part := by
  refine .look fun _ => .add (gathers_propertyKey hrec) ?_
  rintro ⟨_, _⟩ _
  refine .orFail fun _ => .look fun _ => .look fun _ => .look fun _ => .ite (fun _ => ?_)
    fun _ => .ite (fun _ => .fail) fun _ => .ifEat ?_ (.ite (fun _ => .fail) fun _ => .ifEat ?_ ?_)
  · exact .add (gathers_methodFunction hrec _ _ _) fun _ _ => .node fun _ => rfl
  · exact .add (.within (hrec .assignment)) fun _ _ => .node fun _ => rfl
  · exact .add (.within (hrec .assignment)) fun _ _ => .node fun _ => rfl
  · exact .node fun _ => rfl

theorem gathers_objectProperty : Gathers source live (objectProperty rec) true .part := by
  refine fun _ => .here fun start => .look fun _ => .ite (fun _ => .call (gathers_spreadOr hrec))
    fun _ => .look fun _ => .look fun _ => .look fun _ => .ite (fun _ => ?_) fun _ =>
      .look fun _ => ?_
  · exact .advance (builds_keyedProperty hrec start _ _ _)
  · exact .when .advance (.ignore (.eat _) fun _ => builds_keyedProperty hrec start _ _ _)

theorem gathers_objectLiteral : Gathers source live (objectLiteral rec) true .value := fun _ =>
  .here fun _ => .expect (.add (.commaList (gathers_objectProperty hrec)) fun _ _ =>
    .object rfl rfl)

theorem gathers_templateLiteral (tagged : Bool) :
    Gathers source live (templateLiteral rec tagged) true .value := fun _ =>
  .here fun _ => .add (.templateParts (.within (hrec .expression)) Role.value_inner tagged)
    fun _ _ => .object rfl rfl

omit hrec in
theorem gathers_regexLiteral : Gathers source live regexLiteral true .word := by
  intro start ctx c n c' hc h
  unfold regexLiteral at h
  obtain ⟨_, _, hget, hrest⟩ := bind_eq_ok.mp h
  cases hget
  split at hrest
  · cases hrest
  · rename_i hslash
    obtain ⟨c₁, hread, hleaf⟩ := reread_eq_ok hrest
    have hhead : c.here.head? = some '/' := by simpa using hslash
    obtain ⟨hstage, hstart, hlast⟩ := hc.reread hread
      (fun t n rest hscan => by
        obtain ⟨hleaves, hpos, rfl⟩ := Lexer.scanRegex_leaves hhead hscan
        exact ⟨hleaves, hpos, by simp [Lexer.TemplateText], by simp⟩)
      fun t n rest hscan => by simp [(Lexer.scanRegex_leaves hhead hscan).2.2]
    exact (Gathers.word_leaf rfl (by simp) start ctx c₁ n c' hstage hleaf).behind hstart.ge hlast.ge

end Literals

section Primary

instance : Still atAsyncFunction := by
  unfold atAsyncFunction
  infer_instance

variable (hrec : rec.Settles source)

include hrec

theorem gathers_importExpression : Gathers source true (importExpression rec) true .value := by
  refine fun _ => .here fun _ => .advance (.ignore (.eat _) fun _ => .look fun _ =>
    .ite (fun _ => .advance (.object rfl rfl)) fun _ => .join ?_ fun hrest => .ite
      (fun _ => .look fun _ => .look fun _ => .ite (fun _ => .advance hrest.weaken)
        fun _ => .look fun _ => hrest.weaken) fun _ => hrest.weaken)
  exact .expect (.add (.commaList (.within (hrec .assignment))) fun _ _ => .orFail fun _ =>
    .object rfl rfl)

theorem gathers_nameExpression : Gathers source live (nameExpression rec) true .value := by
  refine .weaken fun _ => .token fun t => ?_
  split
  · exact .call (.under (.word_leaf rfl (by simp)) Role.word_value)
  · exact .call (.under (.word_leaf rfl (by simp)) Role.word_value)
  · exact .call (.under (.word_leaf rfl (by simp)) Role.word_value)
  · exact .call (.under (.word_leaf rfl (by simp)) Role.word_value)
  · exact .call (gathers_function hrec false true)
  · exact .call (gathers_classDefinition hrec false true)
  · exact .call (gathers_importExpression hrec)
  · exact .add (.under (.word_leaf rfl (by simp)) Role.word_value) fun _ hn =>
      .look fun _ => .look fun _ => .look fun _ => .ite (fun _ => .pure hn rfl) fun _ => .fail
  · exact .look fun _ => .ite (fun _ => .call (gathers_function hrec false true))
      fun _ => .call (.under .word_identifier Role.word_value)

theorem gathers_primary : Gathers source live (primary rec) true .value := by
  refine .weaken fun _ => .here fun _ => .token fun t => ?_
  split
  · exact .call (gathers_nameExpression hrec)
  · exact .call (.under (.word_leaf rfl (by simp)) Role.word_value)
  · exact .call (.under (.word_leaf rfl (by simp)) Role.word_value)
  · exact .call (.under .stringLiteral Role.word_value)
  · exact .call (gathers_templateLiteral hrec false)
  · exact .call (.under gathers_regexLiteral Role.word_value)
  · exact .call (.under gathers_regexLiteral Role.word_value)
  · exact .advance (.add (.within (hrec .expression)) fun _ _ => .expect
      (.object rfl rfl))
  · exact .call (gathers_arrayLiteral hrec)
  · exact .call (gathers_objectLiteral hrec)
  · exact .call (gathers_classDefinition hrec false true)
  · exact .fail

end Primary

section Members

variable (hrec : rec.Settles source)

theorem builds_memberTail (start : Nat) {object : Node} (h : Role.value.Fits object) :
    Builds source start true live [object] (memberTail start object) m .value := by
  refine .nameToken fun t hname => ?_
  split
  · exact .advance (.special (fun _ => Role.fits_value rfl rfl) rfl rfl
      ⟨hname _ _ rfl, by simpa using h.2⟩)
  · exact .advance (.object rfl rfl)
  · exact .fail

include hrec

theorem builds_indexTail (start : Nat) (object : Node) :
    Builds source start true live [object] (indexTail rec start object) m .value :=
  .expect (.add (.within (hrec .expression)) fun _ _ => .expect (.object rfl rfl))

theorem gathers_instantiation : Gathers source live (instantiation rec) false .part := by
  refine fun _ => .look fun _ => .look fun _ => .ite (fun _ => .tried ?_) fun _ => .nil
  exact .add (gathers_typeArguments hrec) fun _ hargs => .look fun _ =>
    .ite (fun _ => .pure hargs rfl) fun _ => .fail

theorem builds_memberStep (start : Nat) {n : Node} (h : Role.value.Fits n) :
    Builds source start true live [n] (memberStep rec start n) false .value := by
  refine .token fun t => ?_
  split
  · exact .advance (.give (builds_memberTail start h))
  · exact .look fun _ => .ite (fun _ => .nil) fun _ => .give (builds_indexTail hrec start n)
  · exact .add (gathers_templateLiteral hrec true) fun _ _ => .give (.object rfl rfl)
  · exact .look fun _ => .look fun _ =>
      .ite (fun _ => .advance (.give (.object rfl rfl))) fun _ => .nil
  · exact .nil

/-- What stands behind the mark of an optional chain. -/
theorem builds_optionalTail (start : Nat) {n : Node} (h : Role.value.Fits n) :
    Builds source start true live [n] (optionalTail rec start n) m .value := by
  refine .token fun t => ?_
  split
  · exact .add (gathers_arguments hrec) fun _ _ => .object rfl rfl
  · exact builds_indexTail hrec start n
  · refine .add (gathers_instantiation hrec) fun found _ => ?_
    cases found with
    | some types => exact .add (gathers_arguments hrec) fun _ _ => .object rfl rfl
    | none => exact .fail
  · exact builds_memberTail start h

theorem builds_callStep (start : Nat) {n : Node} (h : Role.value.Fits n) :
    Builds source start true live [n] (callStep rec start n) false .value := by
  refine .token fun t => ?_
  split
  · exact .add (gathers_arguments hrec) fun _ _ => .give (.object rfl rfl)
  · refine .add (gathers_instantiation hrec) fun found _ => ?_
    cases found with
    | some types =>
      exact .look fun _ => .ite
        (fun _ => .add (gathers_arguments hrec) fun _ _ => .give (.object rfl rfl))
        fun _ => .give (.object rfl rfl)
    | none => exact .nil
  · exact builds_memberStep hrec start h

end Members

section Chains

def unchained (n : Node) : Node × Bool :=
  match n with
  | ⟨.chain, _, [inner]⟩ => (inner, true)
  | _ => (n, false)

def chainTail (rec : Rec) (start : Nat) (inner : Node) (chained : Bool) : Parser (Option Node) := do
  if ← eat .optional then
    let m ← optionalTail rec start inner
    return some ⟨.chain, m.span, [m]⟩
  else
    if chained && ((← token) matches .template _ _) then fail
    match ← callStep rec start inner with
    | some m => return some (if chained then ⟨.chain, m.span, [m]⟩ else m)
    | none => return none

theorem chainStep_eq (rec : Rec) (start : Nat) (n : Node) :
    chainStep rec start n = chainTail rec start (unchained n).1 (unchained n).2 := rfl

theorem becomes_chain {n : Node} (h : Role.value.Fits n) :
    n.Becomes ⟨.chain, n.span, [n]⟩ := by
  have hpart := Kind.isPart_iff.mp h.1
  refine ⟨rfl, rfl, fun hrow => hrow.wrap hpart.1 rfl (fun m hm => ?_) (by simp [hpart.2])⟩
  rw [List.mem_singleton.mp hm]
  exact h

theorem builds_unchained {start : Nat} {n : Node} {p : Parser (Option Node)}
    (hn : Role.value.Fits n)
    (h : Role.value.Fits (unchained n).1 →
      Builds source start moved live [(unchained n).1] p m .value) :
    Builds source start moved live [n] p m .value := by
  unfold unchained at h
  split at h
  · rename_i span inner
    intro ctx c x c' hc hx
    obtain ⟨-, -, -, hs, -, -⟩ := Row.cons_iff.mp hc.row
    have hinner : Role.value.Fits inner :=
      (hs _ (Node.mem_preorder_self _)).accepts inner List.mem_cons_self
    refine h hinner ctx c x c' (hc.nodes hc.row.children fun k hk hl => ?_) hx
    rw [List.mem_singleton.mp hk, (Kind.isPart_iff.mp hinner.1).2] at hl
    cases hl
  · exact h hn

variable (hrec : rec.Settles source)

include hrec

theorem builds_chainStep (start : Nat) {n : Node} (h : Role.value.Fits n) :
    Builds source start true live [n] (chainStep rec start n) false .value := by
  rw [chainStep_eq]
  refine builds_unchained h fun hinner => .ifEat ?_ (.look fun _ => .orFail fun _ => ?_)
  · exact .rest (builds_optionalTail (m := true) hrec start hinner) fun m hm =>
      .become (becomes_chain (hm m List.mem_cons_self))
        (.pure (.cons (Role.fits_value rfl rfl) (.nil _)) rfl)
  · refine .rest (builds_callStep hrec start hinner) fun found hfound => ?_
    cases found with
    | none => exact .nil
    | some m =>
      have hm := hfound m List.mem_cons_self
      cases (unchained n).2 with
      | true =>
        exact .become (becomes_chain hm) (.pure (.cons (Role.fits_value rfl rfl) (.nil _)) rfl)
      | false => exact .pure hfound rfl

theorem gathers_newExpression : Gathers source live (newExpression rec) true .value := by
  refine fun _ => .here fun _ => .expectWord (.ifEat (.expectWord (.object rfl rfl))
    (.add (hrec .newTarget) fun _ _ => .look fun _ => .orFail fun _ =>
      .add (fun _ => ?_ : Gathers source _ _ false .part) fun _ _ =>
        .add (fun _ => ?_ : Gathers source _ _ false .part) fun _ _ =>
          .object rfl rfl))
  · refine .add (gathers_instantiation hrec) fun found hfound => ?_
    cases found with
    | some types => exact .pure hfound rfl
    | none => exact .nil
  · exact .look fun _ => .ite (fun _ => .call (gathers_arguments hrec)) fun _ => .nil

theorem gathers_newTarget : Gathers source live (newTarget rec) true .value := by
  refine fun _ => .here fun start => .add (fun _ => ?_ : Gathers source _ _ true .value) fun n hn =>
    .iterate (hn n List.mem_cons_self) fun _ hk => builds_memberStep hrec start hk
  exact .look fun _ => .ite (fun _ => .call (gathers_newExpression hrec)) fun _ =>
    .look fun _ => .look fun _ => .ite (fun _ => .fail) fun _ => .call (gathers_primary hrec)

theorem gathers_leftHand : Gathers source live (leftHand rec) true .value := by
  refine fun _ => .here fun start => .add (fun _ => ?_ : Gathers source _ _ true .value) fun n hn =>
    .iterate (hn n List.mem_cons_self) fun _ hk => builds_chainStep hrec start hk
  exact .look fun _ => .ite (fun _ => .call (gathers_newExpression hrec)) fun _ =>
    .call (gathers_primary hrec)

end Chains

section Operators

instance (n : Node) : Still (updateTarget n) := by
  unfold updateTarget
  infer_instance

instance (ns : List Node) : Still (ns.forM updateTarget) := by
  induction ns with
  | nil => exact inferInstanceAs (Still (pure ()))
  | cons n ns ih => exact inferInstanceAs (Still (updateTarget n >>= fun _ => ns.forM updateTarget))

instance : Still operator? :=
  .bind inferInstance fun t => by split <;> infer_instance

theorem gathers_takeOperator : Gathers source live takeOperator false .word := by
  intro start ctx c u c' hc h
  unfold takeOperator at h
  rw [bind_of_ok (isPunct_run _)] at h
  split at h
  · obtain ⟨c₁, hread, hnext⟩ := reread_eq_ok h
    obtain ⟨hstage, hstart, hlast⟩ := hc.reread hread
      (fun t n rest hscan => by
        obtain ⟨⟨p, k⟩, hfind, heq⟩ := Option.map_eq_some_iff.mp hscan
        cases heq
        obtain ⟨hleaves, hpos, hfirst⟩ := Lexer.find?_leaves (by decide) hfind
        exact ⟨hleaves, hpos, by simp [Lexer.TemplateText], fun _ _ => hfirst⟩)
      fun t n rest hscan => by
        obtain ⟨⟨p, k⟩, -, heq⟩ := Option.map_eq_some_iff.mp hscan
        cases heq
        simp
    have hend := Gathers.advance start ctx c₁ u c' hstage hnext
    exact ⟨hend.placed, hstart ▸ hend.start_le, hlast ▸ hend.last_le, hend.row,
      (absurd · Bool.false_ne_true), hend.all⟩
  · have hend := Gathers.advance start ctx c u c' hc h
    exact ⟨hend.placed, hend.start_le, hend.last_le, hend.row, (absurd · Bool.false_ne_true),
      hend.all⟩

theorem builds_binaryNode (p : Punct) (start : Nat) (left right : Node) :
    Builds source start true live [left, right] (binaryNode p start left right) m .value := by
  unfold binaryNode
  split
  · exact .orFail fun _ => .object rfl rfl
  · exact .orFail fun _ => .object rfl rfl
  · exact .orFail fun _ => .object rfl rfl
  · exact .orFail fun _ => .object rfl rfl
  · exact .object rfl rfl

variable (hrec : rec.Settles source)

include hrec

theorem gathers_unary : Gathers source live (unary rec) true .value := by
  refine fun _ => .here fun start => ?_
  have hprefixed (k : Kind) (hk : k.isPart = true) (hname : k.isName = false)
      (haccepts : ∀ ns, k.Accepts source ns) {live m : Bool} :
      Builds source start false live [] (do
        advance
        let operand ← rec .unary
        node k start [operand]) m .value :=
    .advance (.add (hrec .unary) fun _ _ => .special
      (fun _ => Role.fits_value hk hname) rfl (Kind.isPart_iff.mp hk).1 (haccepts _))
  have hunary {live m : Bool} :=
    @hprefixed .unary rfl rfl (fun _ => trivial) live m
  refine .token fun t => ?_
  split
  · exact hunary
  · exact hunary
  · exact hunary
  · exact hunary
  · exact hunary
  · exact hunary
  · exact hunary
  · exact .rest (hprefixed .update rfl rfl (fun _ => trivial) (m := true))
      fun _ hn => .look fun _ => .pure hn rfl
  · exact .rest (hprefixed .update rfl rfl (fun _ => trivial) (m := true))
      fun _ hn => .look fun _ => .pure hn rfl
  · refine .look fun _ => .ite (fun _ => ?_) fun _ => .look fun _ => .ite (fun _ => ?_) fun _ => ?_
    · exact hprefixed .await rfl rfl fun _ => trivial
    · exact .advance (.add (hrec .type) fun _ _ => .expect (.add (hrec .unary) fun _ _ =>
        .object rfl rfl))
    · exact .add (hrec .leftHand) fun n hn => .look fun _ => .look fun _ => .look fun _ => .ite
        (fun _ => .look fun _ => .advance (.object rfl rfl)) fun _ => .pure hn rfl

theorem builds_binaryStep (above start : Nat) (left : Node) :
    Builds source start true live [left] (binaryStep rec above start left) false .value := by
  refine .look fun _ => .look fun _ => .look fun _ => .look fun _ => .look fun _ => .look fun _ =>
    .look fun _ => .ite (fun _ => .nil) fun _ => .ite (fun _ => ?_) fun _ => .ite (fun _ => ?_)
      fun _ => .look fun operator => ?_
  · exact .advance (.add (hrec (.binary comparison)) fun _ _ => .give (.object rfl rfl))
  · refine .advance (.add (fun _ => ?_ : Gathers source _ _ false .part) fun _ _ =>
      .give (.object rfl rfl))
    exact .ifWord (.call (.leaf fun _ => rfl)) (.call (hrec .type))
  · cases operator with
    | none => exact .nil
    | some p =>
      dsimp only
      split
      · exact .nil
      · exact .ite (fun _ => .nil) fun _ => .ignore gathers_takeOperator fun _ =>
          .add (hrec (.binary _)) fun _ _ => .give (builds_binaryNode p start left _)

theorem gathers_binary (above : Nat) : Gathers source live (binary rec above) true .value := by
  refine .weaken fun _ => .here fun start =>
    .rest (?_ : Builds source _ _ _ _ _ true .value) fun n hn =>
      .iterate (hn n List.mem_cons_self) fun k _ => builds_binaryStep hrec above start k
  refine .token fun t => ?_
  split
  · exact .look fun _ => .orFail fun _ => .add (.word_leaf rfl (by simp)) fun _ _ => .expectWord
      (.add (hrec (.binary comparison)) fun _ _ => .object rfl rfl)
  · exact .call (hrec .unary)

end Operators

section Arrows

instance : Still mayStartArrow :=
  .bind inferInstance fun t => by split <;> infer_instance

variable (hrec : rec.Settles source)

include hrec

theorem gathers_arrowHead : Gathers source live (arrowHead rec) true .part := by
  refine fun _ => .ignore (fun _ => ?_ : Gathers source _ _ false .word) fun async =>
    .add (.within fun _ => ?_ : Gathers source _ _ true .part) ?_
  · exact .look fun _ => .look fun _ => .ite (fun _ => .advance .nil) fun _ => .nil
  · refine .look fun _ => .ite (fun _ => ?_) fun _ => ?_
    · exact .here fun _ => .add .word_identifier fun _ _ => .give (.node fun _ => rfl)
    · exact .add (gathers_typeParameters hrec) fun _ hdeclared => .add (gathers_parameters hrec)
        fun _ hparams => .add (gathers_resultNote hrec) fun _ hresult =>
          .pure ((hdeclared.append hparams).append hresult) rfl
  · rintro ⟨_, _⟩ h
    exact .look fun _ => .look fun _ => .orFail fun _ => .pure h rfl

/-- The body of an arrow function. Where it is an expression, all of it starts there. -/
theorem gathers_arrowBody {goal : Goal} (hgoal : goal.role = .value) (async : Bool) :
    Gathers source live (arrowBody rec goal async) true .body := by
  refine fun _ => .look fun _ => .ite (fun _ => .call (.within (gathers_functionBody hrec)))
    fun _ => ?_
  intro ctx c x c' hc h
  obtain ⟨e, c₁, he, hx⟩ := bind_eq_ok.mp h
  cases hx
  have hend := Gathers.within (hrec.value hgoal) _ ctx c e c' hc he
  have hvalue := hend.all e List.mem_cons_self
  have hpart := Kind.isPart_iff.mp hvalue.1
  have hstatement : Row source _ c'.last [⟨.expression, e.span, [e]⟩] :=
    hend.row.wrap hpart.1 rfl trivial (by simp [hpart.2])
  have hbody : Row source _ c'.last [⟨.body, e.span, [⟨.expression, e.span, [e]⟩]⟩] :=
    hstatement.wrap rfl rfl (List.forall_mem_singleton.mpr rfl) fun _ => rfl
  exact ⟨hend.placed, hend.start_le, hend.last_le, hbody, hend.moved, .cons rfl (.nil _)⟩

/-- A function whose head was read, from its arrow on. -/
theorem builds_arrowRest {goal : Goal} (hgoal : goal.role = .value) (start : Nat) (async : Bool)
    (head : List Node) : Builds source start true live head (do
      advance
      let body ← arrowBody rec goal async
      node (.arrow async) start (head ++ [body])) m .value :=
  .advance (.add (gathers_arrowBody hrec hgoal async) fun _ _ => .object rfl rfl)

/-- The function is tried, and where it does not hold the cursor goes back to its start. -/
theorem gathers_arrowFunction {goal : Goal} (hgoal : goal.role = .value) :
    Gathers source live (arrowFunction rec goal) false .value := by
  refine fun _ => .look fun _ => .ite (fun _ => .here fun start => ?_) fun _ => .nil
  intro ctx c found c' hc h
  obtain ⟨_, _, hget, hrest⟩ := bind_eq_ok.mp h
  cases hget
  have hnone : Ends source start false .value c [] c :=
    ⟨hc.placed, le_rfl, le_rfl, hc.row, (absurd · Bool.false_ne_true), .nil _⟩
  obtain ⟨head, c₁, hhead, hrest⟩ := bind_eq_ok.mp hrest
  rw [attempt_run] at hhead
  split at hhead
  · rename_i r hrun
    cases hhead
    obtain ⟨⟨async, params, result⟩, c₁⟩ := r
    obtain ⟨hplaced, hstart, hlast, hrow, hm, hall⟩ :=
      gathers_arrowHead hrec start ctx c _ c₁ hc hrun
    have hstage : Stage source start true false (params ++ result) c₁ :=
      ⟨hplaced, hc.begins, hrow, hc.start_le.trans hstart, hm,
        (absurd · Bool.false_ne_true), fun n hn hl => by
        rw [(Kind.isPart_iff.mp (hall n hn)).2] at hl
        cases hl⟩
    dsimp only at hrest
    split at hrest
    · obtain ⟨f, c₂, hf, hrest⟩ := bind_eq_ok.mp hrest
      rw [attempt_run] at hf
      split at hf
      · rename_i r hrun
        cases hf
        cases hrest
        have hend : Ends source start false .value c₁ (Carries.nodes r.1) r.2 :=
          hstage.run hrun (.rest (builds_arrowRest (m := true) hrec hgoal start async _)
            fun _ hf => .look fun _ => .ite (fun _ => .pure hf rfl) fun _ => .fail)
        exact hend.behind hstart hlast
      · cases hf
        cases hrest
        exact hnone
    · exact .behind (hstage.run hrest (.give (builds_arrowRest hrec hgoal start async _)))
        hstart hlast
  · cases hhead
    cases hrest
    exact hnone

end Arrows

section Assignments

variable (hrec : rec.Settles source)

include hrec

theorem gathers_yieldExpression : Gathers source live (yieldExpression rec) true .value := fun _ =>
  .here fun _ => .expectWord (.look fun _ => .ite (fun _ => .object rfl rfl) fun _ =>
    .ifEat (.add (hrec .assignment) fun _ _ => .object rfl rfl)
      (.look fun _ => .ite (fun _ => .object rfl rfl) fun _ =>
        .add (hrec .assignment) fun _ _ => .object rfl rfl))

theorem gathers_conditional {goal : Goal} (hgoal : goal.role = .value) :
    Gathers source live (conditional rec goal) true .value := fun _ =>
  .here fun _ => .add (hrec (.binary 0)) fun _ ht => .ifEat
    (.add (.within (hrec .branch)) fun _ _ => .expect (.add (hrec.value hgoal) fun _ _ =>
      .object rfl rfl))
    (.pure ht rfl)

theorem gathers_assignment {goal : Goal} (hgoal : goal.role = .value) :
    Gathers source live (assignment rec goal) true .value := by
  refine fun _ => .here fun start => .add (gathers_arrowFunction hrec hgoal) fun found hfound => ?_
  cases found with
  | some f =>
    have hf := hfound f List.mem_cons_self
    exact .filled (Kind.isPart_iff.mp hf.1).1 (.pure hfound rfl)
  | none =>
    refine .look fun _ => .look fun _ => .ite (fun _ => .call (gathers_yieldExpression hrec))
      fun _ => .add (gathers_conditional hrec hgoal) fun left hl => .look fun operator => ?_
    split
    · split
      · exact .fail
      · rename_i target htarget
        exact .become (Node.becomes_toTarget left target htarget) (.advance
          (.add (hrec .assignment) fun _ _ => .object rfl rfl))
    · exact .orFail fun _ => .ignore gathers_takeOperator fun _ =>
        .add (hrec .assignment) fun _ _ => .object rfl rfl
    · exact .pure hl rfl

theorem gathers_expression : Gathers source live (expression rec) true .value := fun _ =>
  .here fun _ => .add (hrec .assignment) fun _ hfirst => .look fun _ => .ite
    (fun _ => .add (.manyWhile (.eat _) (hrec .assignment)) fun _ _ =>
      .object rfl rfl)
    fun _ => .pure hfirst rfl

end Assignments

end Grammar

end EmberClasses.Script
