import EmberClasses.Script.Parser

/-! Runs of parsers. A parser is followed through the cursors it passes: forward, when its tokens
are known, and backward, when it is known to have succeeded. -/

namespace EmberClasses.Script

namespace Parser

variable {α β : Type} {ctx : Context} {c c' : Cursor}

theorem bind_eq_ok {p : Parser α} {f : α → Parser β} {y : β} :
    (p >>= f) ctx c = .ok (y, c') ↔ ∃ x c₁, p ctx c = .ok (x, c₁) ∧ f x ctx c₁ = .ok (y, c') := by
  change Except.bind (p ctx c) _ = _ ↔ _
  cases p ctx c with
  | error e => simp [Except.bind]
  | ok r =>
    obtain ⟨x, c₁⟩ := r
    constructor
    · intro h
      exact ⟨x, c₁, rfl, h⟩
    · rintro ⟨x', c₁', hx, h⟩
      cases hx
      exact h

theorem bind_of_ok {p : Parser α} {f : α → Parser β} {x : α} {c₁ : Cursor}
    (h : p ctx c = .ok (x, c₁)) : (p >>= f) ctx c = f x ctx c₁ := by
  change Except.bind (p ctx c) _ = _
  rw [h]
  rfl

theorem token_run : token ctx c = .ok (c.token, c) := rfl
theorem here_run : here ctx c = .ok (c.span.start, c) := rfl
theorem typed_run : typed ctx c = .ok (ctx.typed, c) := rfl
theorem isWord_run (w : String) : isWord w ctx c = .ok (c.token == .name w false, c) := rfl
theorem isPunct_run (p : Punct) : isPunct p ctx c = .ok (c.token == .punct p, c) := rfl
theorem atIdentifier_run : atIdentifier ctx c = .ok (isVariable ctx c.token, c) := rfl
theorem advance_run : advance ctx c = c.advance.map fun c' => ((), c') := by
  change Except.bind (Except.bind c.advance _) _ = _
  cases c.advance <;> rfl

theorem advance_of_ok (h : c.advance = .ok c') : advance ctx c = .ok ((), c') := by
  rw [advance_run, h]
  rfl

theorem advance_eq_ok {u : Unit} : advance ctx c = .ok (u, c') ↔ c.advance = .ok c' := by
  rw [advance_run]
  cases c.advance with
  | error e => simp [Except.map]
  | ok c₁ => simp [Except.map]

def nextPasses (c : Cursor) (test : Cursor → Bool) : Bool :=
  match c.advance with
  | .ok c' => test c'
  | .error _ => false

theorem attempt_run {p : Parser α} : attempt p ctx c =
    match p ctx c with
    | .ok r => .ok (some r.1, r.2)
    | .error _ => .ok (none, c) := by
  unfold attempt
  simp only [bind, ReaderT.bind, StateT.bind, Except.bind, tryCatch, tryCatchThe,
    MonadExceptOf.tryCatch, get, getThe, MonadStateOf.get, liftM, monadLift,
    MonadLift.monadLift, StateT.get, pure, Except.pure]
  cases p ctx c <;> rfl

theorem look_run {p : Parser α} : look p ctx c =
    .ok ((match p ctx c with | .ok r => some r.1 | .error _ => none), c) := by
  unfold look
  change Except.bind (attempt p ctx c) _ = _
  rw [attempt_run]
  cases p ctx c <;> rfl

theorem nextIs_run (test : Cursor → Bool) : nextIs test ctx c = .ok (nextPasses c test, c) := by
  unfold nextIs nextPasses
  rw [bind_of_ok look_run]
  cases h : c.advance with
  | error e =>
    have hrun : (do advance; return test (← get) : Parser Bool) ctx c = .error e := by
      change Except.bind (advance ctx c) _ = _
      rw [advance_run, h]
      rfl
    rw [hrun]
    rfl
  | ok r =>
    have : (do advance; return test (← get) : Parser Bool) ctx c = .ok (test r, r) := by
      rw [bind_of_ok (advance_of_ok h)]
      rfl
    rw [this]
    rfl

theorem taken_eq_ok {t : Token} {b : Bool} :
    (if c.token == t then do advance; return true else return false : Parser Bool) ctx c =
      .ok (b, c') ↔
    b = true ∧ c.token = t ∧ c.advance = .ok c' ∨ b = false ∧ c.token ≠ t ∧ c' = c := by
  by_cases h : c.token = t
  · rw [if_pos (by simp [h]), bind_eq_ok]
    constructor
    · rintro ⟨_, c₁, hnext, hpure⟩
      cases hpure
      exact .inl ⟨rfl, h, advance_eq_ok.mp hnext⟩
    · rintro (⟨rfl, -, hnext⟩ | ⟨-, hne, -⟩)
      · exact ⟨(), c', advance_eq_ok.mpr hnext, rfl⟩
      · exact absurd h hne
  · rw [if_neg (by simp [h])]
    constructor
    · intro hpure
      cases hpure
      exact .inr ⟨rfl, h, rfl⟩
    · rintro (⟨-, htoken, -⟩ | ⟨rfl, -, rfl⟩)
      · exact absurd htoken h
      · rfl

theorem eat_eq_ok {p : Punct} {b : Bool} : eat p ctx c = .ok (b, c') ↔
    b = true ∧ c.token = .punct p ∧ c.advance = .ok c' ∨
      b = false ∧ c.token ≠ .punct p ∧ c' = c :=
  taken_eq_ok

theorem eatWord_eq_ok {w : String} {b : Bool} : eatWord w ctx c = .ok (b, c') ↔
    b = true ∧ c.token = .name w false ∧ c.advance = .ok c' ∨
      b = false ∧ c.token ≠ .name w false ∧ c' = c :=
  taken_eq_ok

theorem orFail_eq_ok {p : Parser Bool} {u : Unit} :
    (do if !(← p) then fail : Parser Unit) ctx c = .ok (u, c') ↔ p ctx c = .ok (true, c') := by
  rw [bind_eq_ok]
  constructor
  · rintro ⟨b, c₁, hp, hrest⟩
    cases b with
    | true =>
      cases hrest
      exact hp
    | false => cases hrest
  · intro hp
    exact ⟨true, c', hp, rfl⟩

theorem expect_eq_ok {p : Punct} {u : Unit} :
    expect p ctx c = .ok (u, c') ↔ c.token = .punct p ∧ c.advance = .ok c' := by
  rw [expect, orFail_eq_ok, eat_eq_ok]
  simp

theorem expectWord_eq_ok {w : String} {u : Unit} :
    expectWord w ctx c = .ok (u, c') ↔ c.token = .name w false ∧ c.advance = .ok c' := by
  rw [expectWord, orFail_eq_ok, eatWord_eq_ok]
  simp

theorem leaf_eq_ok {kind : Kind} {n : Node} : leaf kind ctx c = .ok (n, c') ↔
    c.advance = .ok c' ∧ n = ⟨kind, ⟨c.span.start, c'.last⟩, []⟩ := by
  unfold leaf
  rw [bind_of_ok here_run, bind_eq_ok]
  constructor
  · rintro ⟨_, c₁, hnext, hnode⟩
    cases hnode
    exact ⟨advance_eq_ok.mp hnext, rfl⟩
  · rintro ⟨hnext, rfl⟩
    exact ⟨(), c', advance_eq_ok.mpr hnext, rfl⟩

theorem leaf_of_advance (kind : Kind) (h : c.advance = .ok c') :
    leaf kind ctx c = .ok (⟨kind, ⟨c.span.start, c'.last⟩, []⟩, c') :=
  leaf_eq_ok.mpr ⟨h, rfl⟩

theorem identifier_eq_ok {n : Node} : identifier ctx c = .ok (n, c') ↔
    ∃ text escaped, c.token = .name text escaped ∧ usable ctx text = true ∧
      leaf (.identifier text) ctx c = .ok (n, c') := by
  unfold identifier
  rw [bind_of_ok token_run]
  constructor
  · intro h
    cases htoken : c.token with
    | name text escaped =>
      rw [htoken] at h
      obtain ⟨x, c₁, hread, h⟩ := bind_eq_ok.mp h
      cases hread
      by_cases husable : usable ctx text = true
      · rw [if_pos husable] at h
        exact ⟨text, escaped, rfl, husable, h⟩
      · rw [if_neg husable] at h
        cases h
    | _ =>
      rw [htoken] at h
      cases h
  · rintro ⟨text, escaped, htoken, husable, h⟩
    rw [htoken]
    refine bind_eq_ok.mpr ⟨ctx, c, rfl, ?_⟩
    rw [if_pos husable]
    exact h

theorem stringLiteral_eq_ok {n : Node} : stringLiteral ctx c = .ok (n, c') ↔
    ∃ value, c.token = .string value ∧ leaf (.string value) ctx c = .ok (n, c') := by
  unfold stringLiteral
  rw [bind_of_ok token_run]
  constructor
  · intro h
    cases htoken : c.token with
    | string value =>
      rw [htoken] at h
      exact ⟨value, rfl, h⟩
    | _ =>
      rw [htoken] at h
      cases h
  · rintro ⟨value, htoken, h⟩
    rw [htoken]
    exact h

theorem anyName_eq_ok {n : Node} : anyName ctx c = .ok (n, c') ↔
    ∃ text escaped, c.token = .name text escaped ∧ leaf (.identifier text) ctx c = .ok (n, c') := by
  unfold anyName
  rw [bind_of_ok token_run]
  constructor
  · intro h
    cases htoken : c.token with
    | name text escaped =>
      rw [htoken] at h
      exact ⟨text, escaped, rfl, h⟩
    | _ =>
      rw [htoken] at h
      cases h
  · rintro ⟨text, escaped, htoken, h⟩
    rw [htoken]
    exact h

theorem manyLoop_eq_ok {item : Parser (Option α)} {fuel : Nat} {xs : List α} :
    manyLoop item (fuel + 1) ctx c = .ok (xs, c') ↔
      xs = [] ∧ item ctx c = .ok (none, c') ∨
      ∃ x rest c₁, xs = x :: rest ∧ item ctx c = .ok (some x, c₁) ∧
        manyLoop item fuel ctx c₁ = .ok (rest, c') := by
  rw [manyLoop, bind_eq_ok]
  constructor
  · rintro ⟨found, c₁, hitem, hrest⟩
    cases found with
    | none =>
      cases hrest
      exact .inl ⟨rfl, hitem⟩
    | some x =>
      obtain ⟨rest, c₂, hloop, hpure⟩ := bind_eq_ok.mp hrest
      cases hpure
      exact .inr ⟨x, rest, c₁, rfl, hitem, hloop⟩
  · rintro (⟨rfl, hitem⟩ | ⟨x, rest, c₁, rfl, hitem, hloop⟩)
    · exact ⟨none, c', hitem, rfl⟩
    · exact ⟨some x, c₁, hitem, bind_of_ok hloop⟩

/-- What a loop collects, by an invariant of the cursors it passes. -/
theorem forall_of_manyLoop {item : Parser (Option α)} {I : Cursor → Prop} {P : α → Prop}
    (hitem : ∀ c c' x, I c → item ctx c = .ok (some x, c') → P x ∧ I c') {fuel : Nat} {xs : List α}
    (hc : I c) (h : manyLoop item fuel ctx c = .ok (xs, c')) : ∀ x ∈ xs, P x := by
  induction fuel generalizing c xs with
  | zero =>
    cases h
    simp
  | succ fuel ih =>
    rcases manyLoop_eq_ok.mp h with ⟨rfl, -⟩ | ⟨x, rest, c₁, rfl, hx, hloop⟩
    · simp
    · obtain ⟨hP, hc₁⟩ := hitem _ _ _ hc hx
      intro y hy
      rcases List.mem_cons.mp hy with rfl | hy
      · exact hP
      · exact ih hc₁ hloop y hy

def listItem (close : Punct) (item : Parser Node) : Parser (Option Node) := do
  if ← eat close then return none
  else
    let x ← item
    if !(← isPunct close) then expect .comma
    return some x

theorem commaList_eq (close : Punct) (item : Parser Node) :
    commaList close item = many (listItem close item) := rfl

theorem listItem_eq_ok {close : Punct} {item : Parser Node} {found : Option Node} :
    listItem close item ctx c = .ok (found, c') ↔
      found = none ∧ c.token = .punct close ∧ c.advance = .ok c' ∨
      ∃ x c₁, found = some x ∧ c.token ≠ .punct close ∧ item ctx c = .ok (x, c₁) ∧
        (c₁.token = .punct close ∧ c' = c₁ ∨
          c₁.token ≠ .punct close ∧ c₁.token = .punct .comma ∧ c₁.advance = .ok c') := by
  unfold listItem
  rw [bind_eq_ok]
  constructor
  · rintro ⟨closed, c₀, heat, hrest⟩
    rcases eat_eq_ok.mp heat with ⟨rfl, hclose, hnext⟩ | ⟨rfl, hclose, rfl⟩
    · cases hrest
      exact .inl ⟨rfl, hclose, hnext⟩
    · obtain ⟨x, c₁, hitem, hrest⟩ := bind_eq_ok.mp hrest
      rw [bind_of_ok (isPunct_run _)] at hrest
      by_cases hc : c₁.token = .punct close
      · rw [if_neg (by simp [hc])] at hrest
        cases hrest
        exact .inr ⟨x, c', rfl, hclose, hitem, .inl ⟨hc, rfl⟩⟩
      · rw [if_pos (by simp [hc])] at hrest
        obtain ⟨_, c₂, hcomma, hpure⟩ := bind_eq_ok.mp hrest
        cases hpure
        exact .inr ⟨x, c₁, rfl, hclose, hitem, .inr ⟨hc, expect_eq_ok.mp hcomma⟩⟩
  · rintro (⟨rfl, hclose, hnext⟩ | ⟨x, c₁, rfl, hclose, hitem, hrest⟩)
    · exact ⟨true, c', eat_eq_ok.mpr (.inl ⟨rfl, hclose, hnext⟩), rfl⟩
    · refine ⟨false, c, eat_eq_ok.mpr (.inr ⟨rfl, hclose, rfl⟩), ?_⟩
      refine (bind_of_ok hitem).trans ?_
      rw [bind_of_ok (isPunct_run _)]
      rcases hrest with ⟨hc, rfl⟩ | ⟨hc, hcomma⟩
      · rw [if_neg (by simp [hc])]
        rfl
      · rw [if_pos (by simp [hc])]
        exact bind_of_ok (x := ()) (expect_eq_ok.mpr hcomma)

theorem many_eq (item : Parser (Option α)) :
    many item ctx c = manyLoop item ctx.budget ctx c := rfl

theorem forall_of_commaList {close : Punct} {item : Parser Node} {I : Cursor → Prop}
    {P : Node → Prop} (hitem : ∀ c c' x, I c → item ctx c = .ok (x, c') → P x ∧ I c')
    (hnext : ∀ c c', I c → c.advance = .ok c' → I c') {xs : List Node} (hc : I c)
    (h : commaList close item ctx c = .ok (xs, c')) : ∀ x ∈ xs, P x := by
  rw [commaList_eq, many_eq] at h
  refine forall_of_manyLoop (fun c c' x hc hx => ?_) hc h
  rcases listItem_eq_ok.mp hx with ⟨hnone, -⟩ | ⟨y, c₁, hsome, -, hy, hend⟩
  · cases hnone
  · cases hsome
    obtain ⟨hP, hc₁⟩ := hitem _ _ _ hc hy
    rcases hend with ⟨-, rfl⟩ | ⟨-, -, hcomma⟩
    · exact ⟨hP, hc₁⟩
    · exact ⟨hP, hnext _ _ hc₁ hcomma⟩

def Gives {α : Type} (p : Parser α) (P : α → Prop) : Prop :=
  ∀ ctx c x c', p ctx c = .ok (x, c') → P x

namespace Gives

variable {P : α → Prop} {Q : β → Prop}

theorem pure {x : α} (h : P x) : Gives (Pure.pure x) P := by
  intro ctx c y c' hy
  cases hy
  exact h

theorem fail : Gives Parser.fail P := by
  intro ctx c y c' hy
  cases hy

theorem bind_of {p : Parser α} {f : α → Parser β} (hp : Gives p P) (h : ∀ x, P x → Gives (f x) Q) :
    Gives (p >>= f) Q := by
  intro ctx c y c' hy
  obtain ⟨x, c₁, hx, hy⟩ := bind_eq_ok.mp hy
  exact h x (hp _ _ _ _ hx) _ _ _ _ hy

theorem bind {p : Parser α} {f : α → Parser β} (h : ∀ x, Gives (f x) Q) : Gives (p >>= f) Q :=
  bind_of (P := fun _ => True) (fun _ _ _ _ _ => trivial) fun x _ => h x

theorem ite {b : Prop} [Decidable b] {p q : Parser α} (hp : Gives p P) (hq : Gives q P) :
    Gives (if b then p else q) P := by
  split
  · exact hp
  · exact hq

theorem guard {b : Prop} [Decidable b] {p : Parser Unit} {rest : Unit → Parser α}
    (h : ∀ u, Gives (rest u) P) : Gives (if b then p >>= rest else rest ()) P :=
  ite (bind h) (h ())

theorem within {change : Context → Context} {p : Parser α} (h : Gives p P) :
    Gives (Parser.within change p) P :=
  fun ctx c x c' hx => h (change ctx) c x c' hx

theorem attempt {p : Parser α} (h : Gives p P) :
    Gives (Parser.attempt p) fun found => ∀ x, found = Option.some x → P x := by
  intro ctx c found c' hrun
  rw [attempt_run] at hrun
  split at hrun
  · rename_i r hp
    cases hrun
    intro x hx
    cases hx
    exact h _ _ _ _ hp
  · cases hrun
    intro x hx
    cases hx

end Gives

end Parser

end EmberClasses.Script
