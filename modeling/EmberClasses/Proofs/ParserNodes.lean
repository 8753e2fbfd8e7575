import EmberClasses.Proofs.GrammarSteps

/-! The nodes that the parsers below the grammar give: single tokens, lists, loops and templates. -/

namespace EmberClasses.Script

open Text (IsBoundary byteLength byteLength_cons byteLength_append)
open Lexer (Leaves TemplateText templateClose)

namespace Parser

open Carries (nodes)

variable {α β : Type} {source : List Char} {live m : Bool} {role : Role}

class Listed (α : Type) [Carries α] [Carries (List α)] : Prop where
  nil : nodes ([] : List α) = []
  cons : ∀ (x : α) (xs : List α), nodes (x :: xs) = nodes x ++ nodes xs

instance : Listed Node := ⟨rfl, fun _ _ => rfl⟩
instance : Listed Unit := ⟨rfl, fun _ _ => rfl⟩
instance : Listed String := ⟨rfl, fun _ _ => rfl⟩
instance : Listed (Node × Bool) := ⟨rfl, fun _ _ => rfl⟩
instance : Listed (Option Node) := ⟨rfl, fun x _ => by cases x <;> rfl⟩

instance [Carries α] [Carries (List α)] [Listed α] : Bare ([] : List α) := ⟨Listed.nil⟩

theorem liftM_eq_ok {e : Except Rejection α} {ctx : Context} {c c' : Cursor} {x : α} :
    (liftM e : Parser α) ctx c = .ok (x, c') ↔ e = .ok x ∧ c' = c := by
  cases e with
  | error r =>
    constructor
    · intro h
      cases h
    · rintro ⟨h, -⟩
      cases h
  | ok y =>
    constructor
    · intro h
      cases h
      exact ⟨rfl, rfl⟩
    · rintro ⟨h, rfl⟩
      cases h
      rfl

/-- The token at the cursor is read in another way. -/
theorem reread_eq_ok {scan : List Char → Option (Token × Nat × List Char)} {f : Unit → Parser β}
    {ctx : Context} {c c' : Cursor} {y : β}
    (h : ((get : Parser Cursor) >>= fun c => (liftM (c.reread scan) : Parser Cursor) >>= fun c₁ =>
      (set c₁ : Parser Unit) >>= f) ctx c = .ok (y, c')) :
    ∃ c₁, c.reread scan = .ok c₁ ∧ f () ctx c₁ = .ok (y, c') := by
  obtain ⟨_, _, hget, hrest⟩ := bind_eq_ok.mp h
  cases hget
  obtain ⟨c₁, c₂, hread, hrest⟩ := bind_eq_ok.mp hrest
  obtain ⟨hread, heq⟩ := liftM_eq_ok.mp hread
  obtain ⟨_, _, hset, hrest⟩ := bind_eq_ok.mp hrest
  cases hset
  exact ⟨c₁, hread, hrest⟩

theorem Stage.reread {start : Nat} {moved : Bool} {ns : List Node} {c c' : Cursor}
    {scan : List Char → Option (Token × Nat × List Char)}
    (h : Stage source start moved live ns c) (hread : c.reread scan = .ok c')
    (hscan : ∀ t n rest, scan c.here = some (t, n, rest) → Leaves c.here n rest ∧ 0 < n ∧
      TemplateText t c.here n ∧ ∀ p, t = .punct p → ∃ x tail, c.here = x :: tail ∧ x.utf8Size = 1)
    (hdone : ∀ t n rest, scan c.here = some (t, n, rest) →
      t ≠ .done ∧ ∀ text escaped, t ≠ .name text escaped) :
    Stage source start moved true ns c' ∧ c'.span.start = c.span.start ∧ c'.last = c.last := by
  obtain ⟨hplaced, hstart, hlast, -, n, rest, hsome⟩ := h.placed.reread hread hscan
    fun t n rest hsome => (hdone t n rest hsome).2
  refine ⟨⟨hplaced, h.begins, hlast ▸ h.row, hstart ▸ h.start_le, fun hm => hlast ▸ h.moved hm,
    fun _ => (hdone _ _ _ hsome).1, h.late⟩, hstart, hlast⟩

namespace Gathers

theorem weaken [Carries α] {p : Parser α} (h : Gathers source false p m role) :
    Gathers source live p m role :=
  fun start => (h start).weaken

theorem under [Carries α] {p : Parser α} {role' : Role} (h : Gathers source live p m role')
    (hrole : role'.Under role) : Gathers source live p m role :=
  fun start => (h start).under hrole

theorem within [Carries α] {p : Parser α} {change : Context → Context}
    (h : Gathers source live p m role) : Gathers source live (Parser.within change p) m role :=
  fun start => (h start).within

section Tokens

theorem eat (p : Punct) : Gathers source live (Parser.eat p) false .word := by
  intro start ctx c b c' hc h
  rcases eat_eq_ok.mp h with ⟨rfl, -, hnext⟩ | ⟨rfl, -, rfl⟩
  · obtain ⟨hstage, hstart, hlast⟩ := hc.advance hnext
    exact ⟨hstage.placed, hstart, hlast, hstage.row, (absurd · Bool.false_ne_true), .nil _⟩
  · exact ⟨hc.placed, le_rfl, le_rfl, hc.row, (absurd · Bool.false_ne_true), .nil _⟩

theorem eatWord (w : String) : Gathers source live (Parser.eatWord w) false .word := by
  intro start ctx c b c' hc h
  rcases eatWord_eq_ok.mp h with ⟨rfl, -, hnext⟩ | ⟨rfl, -, rfl⟩
  · obtain ⟨hstage, hstart, hlast⟩ := hc.advance hnext
    exact ⟨hstage.placed, hstart, hlast, hstage.row, (absurd · Bool.false_ne_true), .nil _⟩
  · exact ⟨hc.placed, le_rfl, le_rfl, hc.row, (absurd · Bool.false_ne_true), .nil _⟩

theorem advance : Gathers source live Parser.advance live .word := by
  intro start ctx c u c' hc h
  obtain ⟨hstage, hstart, hlast⟩ := hc.advance (advance_eq_ok.mp h)
  exact ⟨hstage.placed, hstart, hlast, hstage.row, fun hl => hstage.moved (by simp [hl]), .nil _⟩

theorem expect (p : Punct) : Gathers source live (Parser.expect p) true .word := by
  intro start ctx c u c' hc h
  obtain ⟨htoken, hnext⟩ := expect_eq_ok.mp h
  obtain ⟨hstage, hstart, hlast⟩ := (hc.at_token (by simp [htoken])).advance hnext
  exact ⟨hstage.placed, hstart, hlast, hstage.row, fun _ => hstage.moved rfl, .nil _⟩

theorem expectWord (w : String) : Gathers source live (Parser.expectWord w) true .word := by
  intro start ctx c u c' hc h
  obtain ⟨htoken, hnext⟩ := expectWord_eq_ok.mp h
  obtain ⟨hstage, hstart, hlast⟩ := (hc.at_token (by simp [htoken])).advance hnext
  exact ⟨hstage.placed, hstart, hlast, hstage.row, fun _ => hstage.moved rfl, .nil _⟩

theorem semicolon : Gathers source live Parser.semicolon false .word := fun _ =>
  .ifEat .nil (.look fun _ => .look fun _ => .look fun _ => .ite (fun _ => .nil) fun _ => .fail)

theorem leaf {k : Kind} (hrole : ∀ span, role.Fits ⟨k, span, []⟩) [Covers true k.isPlain] :
    Gathers source true (Parser.leaf k) true role := fun _ =>
  .here fun _ => .advance (.node fun _ => hrole _)

theorem word_leaf {k : Kind} (hk : k.isPart = true) (hcall : k ≠ .call)
    [Covers true k.isPlain] :
    Gathers source true (Parser.leaf k) true .word :=
  leaf fun _ => ⟨hk, hcall, rfl⟩

theorem identifier (hrole : ∀ text span, role.Fits ⟨.identifier text, span, []⟩) :
    Gathers source live Parser.identifier true role := by
  intro start ctx c n c' hc h
  obtain ⟨text, escaped, htoken, -, hleaf⟩ := identifier_eq_ok.mp h
  exact leaf (hrole text) start ctx c n c' (hc.at_token (by simp [htoken])) hleaf

theorem word_identifier : Gathers source live Parser.identifier true .word :=
  identifier fun _ _ => ⟨rfl, by simp, rfl⟩

theorem target_identifier : Gathers source live Parser.identifier true .target :=
  identifier fun _ _ => rfl

theorem anyName : Gathers source live Parser.anyName true .word := by
  intro start ctx c n c' hc h
  obtain ⟨text, escaped, htoken, hleaf⟩ := anyName_eq_ok.mp h
  exact word_leaf rfl (by simp) start ctx c n c' (hc.at_token (by simp [htoken])) hleaf

theorem stringLiteral : Gathers source live Parser.stringLiteral true .word := by
  intro start ctx c n c' hc h
  obtain ⟨value, htoken, hleaf⟩ := stringLiteral_eq_ok.mp h
  exact word_leaf rfl (by simp) start ctx c n c' (hc.at_token (by simp [htoken])) hleaf

end Tokens

section Lists

theorem manyLoop [Carries α] [Carries (List α)] [Listed α] {item : Parser (Option α)}
    (hitem : Gathers source false item false role) (fuel : Nat) :
    Gathers source false (Parser.manyLoop item fuel) false role := by
  induction fuel with
  | zero => exact fun _ => .nil
  | succ fuel ih =>
    intro start ctx c xs c' hc h
    rcases manyLoop_eq_ok.mp h with ⟨rfl, hend⟩ | ⟨x, rest, c₁, rfl, hx, hloop⟩
    · obtain ⟨hplaced, hstart, hlast, hrow, -, hall⟩ := hitem start ctx c none c' hc hend
      exact ⟨hplaced, hstart, hlast, (Listed.nil (α := α)).symm ▸ hrow,
        (absurd · Bool.false_ne_true), (Listed.nil (α := α)).symm ▸ hall⟩
    · obtain ⟨hplaced, hstart, hlast, hrow, -, hall⟩ := hitem start ctx c (some x) c₁ hc hx
      obtain ⟨hplaced', hstart', hlast', hrow', -, hall'⟩ :=
        ih _ ctx c₁ rest c' (.of_placed hplaced) hloop
      rw [Listed.cons]
      exact ⟨hplaced', hstart.trans hstart', hlast.trans hlast',
        hrow.append hrow' (hc.start_le.trans hstart) hplaced.last_le hlast',
        (absurd · Bool.false_ne_true), hall.append hall'⟩

theorem many [Carries α] [Carries (List α)] [Listed α] {item : Parser (Option α)}
    (hitem : Gathers source false item false role) :
    Gathers source live (Parser.many item) false role :=
  fun start ctx c xs c' hc h =>
    manyLoop hitem ctx.budget start ctx c xs c' (hc.weaken id (absurd · Bool.false_ne_true)) h

theorem whenever [Carries α] [Carries β] {test : Parser Bool} {p : Parser α} {f : α → β} {x : β}
    [Keeps f] [Bare x] (htest : Gathers source live test false .word)
    (hp : Gathers source false p m role) :
    Gathers source live (do if ← test then return f (← p) else return x) false role := by
  exact fun _ => .ignore htest fun _ => .ite (fun _ => .give (.call hp)) fun _ => .nil

theorem manyWhile {test : Parser Bool} {p : Parser Node}
    (htest : Gathers source false test false .word) (hp : Gathers source false p m role) :
    Gathers source live (Parser.many (do if ← test then return some (← p) else return none)) false
      role :=
  many (whenever htest hp)

theorem manyUntil {close : Punct} {item : Parser Node} (hitem : Gathers source false item m role) :
    Gathers source live (Parser.manyUntil close item) false role := by
  exact many fun _ => .ifEat .nil (.give (.call hitem))

theorem separated [Carries α] [Carries β] {close : Punct} {item : Parser α} {f : α → β}
    [hf : Keeps f] [Covers role.isLate false] (hitem : Gathers source live item m role) :
    Gathers source live (do
      let x ← item
      if !(← Parser.isPunct close) then Parser.expect .comma
      return f x) false role := by
  refine fun _ => .add hitem fun x hx => ?_
  rw [List.nil_append]
  have hpure {start : Nat} {moved live : Bool} :
      Builds source start moved live (nodes x) (pure (f x)) false role := by
    rw [← hf.eq x] at hx
    exact .pure hx (hf.eq x)
  exact .look fun _ => .ite (fun _ => .expect hpure) fun _ => hpure

theorem commaList {close : Punct} {item : Parser Node} [Covers role.isLate false]
    (hitem : Gathers source false item m role) :
    Gathers source live (Parser.commaList close item) false role := by
  exact many fun _ => .ifEat .nil (separated (f := some) hitem _)

end Lists

end Gathers

namespace Builds

variable {start : Nat} {moved : Bool} {ns : List Node}

theorem iterateLoop {step : Node → Parser (Option Node)}
    (hstep : ∀ n, role.Fits n → Builds source start true false [n] (step n) false role)
    (hrole : role.isLate = false) (fuel : Nat) {n : Node} (hn : role.Fits n) :
    Builds source start true false [n] (Parser.iterateLoop step fuel n) m role := by
  induction fuel generalizing n with
  | zero => exact .pure (.cons hn (.nil role)) rfl
  | succ fuel ih =>
    refine .either (hstep n hn) (fun found hfound => ?_) hrole
    cases found with
    | none => exact .inr (.pure (.cons hn (.nil role)) rfl)
    | some k => exact .inl (ih (hfound k List.mem_cons_self))

/-- Each step goes on from the node of the one before. -/
theorem iterate {step : Node → Parser (Option Node)} {n : Node} (hn : role.Fits n)
    (hstep : ∀ n, role.Fits n → Builds source start true false [n] (step n) false role)
    [hrole : Covers role.isLate false] [hmoved : Covers true moved] :
    Builds source start moved live [n] (Parser.iterate step n) m role :=
  fun ctx c x c' hc h =>
    iterateLoop hstep hrole.eq_false ctx.budget hn ctx c x c'
      (hc.weaken hmoved.le (absurd · Bool.false_ne_true)) h

end Builds

end Parser

namespace Cursor

variable {source : List Char} {c : Cursor}

/-- The text of a template at the cursor, between its delimiters. -/
def quasi (c : Cursor) (last : Bool) : Node :=
  ⟨.quasi, ⟨c.span.start + 1, c.span.stop - if last then 1 else 2⟩, []⟩

theorem Placed.quasi (h : c.Placed source) {last valid : Bool}
    (ht : c.token = .template last valid) :
    Row source c.span.start c.span.stop [c.quasi last] := by
  obtain ⟨n, hstop, hleaves, htext, -⟩ := h.rest
  obtain ⟨x, body, rest, hx, hhere, hn⟩ := htext last valid ht
  have hclose : byteLength (templateClose last) = if last then 1 else 2 := by
    cases last <;> decide
  have hopen : Leaves c.here 1 (body ++ templateClose last ++ rest) :=
    ⟨[x], hhere, by simp [hx, byteLength]⟩
  obtain ⟨hfrom, hdrop⟩ := leaves_boundary h.boundary h.here hopen
  have hbody : Leaves (body ++ templateClose last ++ rest) (byteLength body)
      (templateClose last ++ rest) := ⟨body, by simp, rfl⟩
  obtain ⟨hto, -⟩ := leaves_boundary hfrom hdrop hbody
  have hend : c.span.stop - (if last then 1 else 2) = c.span.start + 1 + byteLength body := by
    omega
  rw [Cursor.quasi, hend]
  refine Row.cons_iff.mpr ⟨Nat.le_add_right _ 1, by simp only [Node.span_mk]; omega, ?_,
    fun m hm => ?_, by simp, Row.nil source _ _⟩
  · rw [Node.WellNested]
    exact ⟨Nat.le_add_right _ _, trivial⟩
  · have hm : m = ⟨.quasi, ⟨c.span.start + 1, c.span.start + 1 + byteLength body⟩, []⟩ := by
      simpa [Node.preorder, Node.preorderAll] using hm
    subst hm
    exact ⟨⟨hfrom, hto⟩, (absurd · Bool.false_ne_true), rfl, by simp, by simp⟩

end Cursor

namespace Parser

variable {source : List Char} {live : Bool} {role : Role}

open Carries (nodes)

/-- Behind a substitution, the text of a template goes on. -/
theorem Builds.reopen {β : Type} [Carries β] {start : Nat} {moved m : Bool} {ns : List Node}
    {f : Unit → Parser β} (h : Builds source start moved true ns (f ()) m role) :
    Builds source start moved live ns (do
      if !(← Parser.isPunct .rbrace) then Parser.fail
      (get : Parser Cursor) >>= fun c =>
        (liftM (c.reread fun cs => Lexer.templateRest true 1 cs.tail) : Parser Cursor) >>= fun c₁ =>
          (set c₁ : Parser Unit) >>= f) m role := by
  intro ctx c y c' hc hrun
  rw [bind_of_ok (isPunct_run _)] at hrun
  split at hrun
  · cases hrun
  · rename_i htoken
    have htoken : c.token = .punct .rbrace := by simpa using htoken
    obtain ⟨c₁, hread, hrest⟩ := reread_eq_ok hrun
    obtain ⟨x, tail, hhere, hx⟩ := hc.placed.first _ htoken
    have hscan {t : Token} {n : Nat} {rest : List Char}
        (hsome : Lexer.templateRest true 1 c.here.tail = some (t, n, rest)) :
        Leaves c.here n rest ∧ 0 < n ∧ TemplateText t c.here n := by
      rw [hhere] at hsome ⊢
      exact Lexer.templateText_of_templateRest hx hsome
    have htemplate {t : Token} {n : Nat} {rest : List Char}
        (hsome : Lexer.templateRest true 1 c.here.tail = some (t, n, rest)) :
        ∃ last valid, t = .template last valid := by
      obtain ⟨-, last, valid, ht, -⟩ := Lexer.templateRest_leaves hsome
      exact ⟨last, valid, ht⟩
    obtain ⟨hstage, hstart, hlast⟩ := hc.reread hread (fun t n rest hsome => by
      obtain ⟨hleaves, hpos, htext⟩ := hscan hsome
      obtain ⟨last, valid, rfl⟩ := htemplate hsome
      exact ⟨hleaves, hpos, htext, by simp⟩) fun t n rest hsome => by
        obtain ⟨last, valid, rfl⟩ := htemplate hsome
        simp
    exact (h ctx c₁ y c' hstage hrest).behind hstart.ge hlast.ge

namespace Gathers

/-- Texts of a template and nodes in its substitutions. -/
theorem templatePartsLoop {item : Parser Node} (hitem : Gathers source false item true role)
    (hrole : role.Under .inner) (tagged : Bool) (fuel : Nat) :
    Gathers source live (Parser.templatePartsLoop item tagged fuel) true .inner := by
  induction fuel generalizing live with
  | zero => exact fun _ => .fail
  | succ fuel ih =>
    intro start ctx c xs c' hc h
    rw [Parser.templatePartsLoop, bind_of_ok token_run] at h
    cases htoken : c.token with
    | template last valid =>
      rw [htoken] at h
      have hlive := hc.at_token (by simp [htoken])
      dsimp only at h
      by_cases hinvalid : (!valid && !tagged) = true
      · rw [if_pos hinvalid] at h
        cases h
      · rw [if_neg hinvalid] at h
        obtain ⟨_, _, hget, hrest⟩ := bind_eq_ok.mp h
        cases hget
        obtain ⟨u, c₁, hnext, hrest⟩ := bind_eq_ok.mp hrest
        obtain ⟨hpassed, hstart, hlast⟩ := hlive.advance (advance_eq_ok.mp hnext)
        have htext : Stage source start true false [c.quasi last] c₁ := by
          refine hpassed.nodes ?_ (List.forall_mem_singleton.mpr (absurd · Bool.false_ne_true))
          rw [(hc.placed.advance (advance_eq_ok.mp hnext)).2.2]
          exact (hc.placed.quasi htoken).start_le hc.start_le
        have hinner : Role.inner.Fits (c.quasi last) := rfl
        refine .behind (Builds.ite (fun _ => ?_) (fun _ => ?_) ctx c₁ xs c' htext hrest) hstart
          hlast
        · exact .pure (.cons hinner (.nil _)) rfl
        · refine .add hitem fun x hx => .reopen (.add ih fun rest hrest => ?_)
          exact .pure (.cons hinner ((hx.under hrole).append hrest)) rfl
    | _ =>
      rw [htoken] at h
      cases h

theorem templateParts {item : Parser Node} (hitem : Gathers source false item true role)
    (hrole : role.Under .inner) (tagged : Bool) :
    Gathers source live (Parser.templateParts item tagged) true .inner :=
  fun start ctx c xs c' hc h =>
    templatePartsLoop hitem hrole tagged ctx.budget start ctx c xs c' hc h

end Gathers

end Parser

end EmberClasses.Script
