import EmberClasses.Proofs.ParserRuns
import EmberClasses.Script.Parse

/-! What the grammar reads as an import. Each rule that takes part is described by the tokens it
finds and what it makes of them; the other rules for statements make no imports. -/

namespace EmberClasses.Script

namespace Grammar

open EmberClasses.Script.Parser

variable {ctx : Context} {c c' : Cursor}

def exported? : Token → Option String
  | .string value => some value
  | .name text _ => some text
  | _ => none

theorem exportedName_eq_ok {n : Node} {text : String}
    (h : exportedName ctx c = .ok ((n, text), c')) :
    exported? c.token = some text ∧ c.advance = .ok c' := by
  unfold exportedName at h
  rw [bind_of_ok token_run] at h
  cases htoken : c.token with
  | string value =>
    rw [htoken] at h
    obtain ⟨m, c₁, hm, h⟩ := bind_eq_ok.mp h
    obtain ⟨_, _, hleaf⟩ := stringLiteral_eq_ok.mp hm
    cases h
    exact ⟨rfl, (leaf_eq_ok.mp hleaf).1⟩
  | name value escaped =>
    rw [htoken] at h
    obtain ⟨m, c₁, hm, h⟩ := bind_eq_ok.mp h
    obtain ⟨_, _, _, hleaf⟩ := anyName_eq_ok.mp hm
    cases h
    exact ⟨rfl, (leaf_eq_ok.mp hleaf).1⟩
  | _ =>
    rw [htoken] at h
    cases h

theorem exportedName_of_name (ctx : Context) {text : String} {escaped : Bool}
    (h : c.token = .name text escaped) (hnext : c.advance = .ok c') :
    ∃ n, exportedName ctx c = .ok ((n, text), c') := by
  unfold exportedName
  rw [bind_of_ok token_run, h]
  exact ⟨_, bind_of_ok (anyName_eq_ok.mpr ⟨text, escaped, h, leaf_of_advance _ hnext⟩)⟩

/-- A `type` that is taken if the token after it passes a test. -/
def typeModifier (test : Cursor → Bool) : Parser Bool := do
  if (← typed) && (← isWord "type") then
    let qualifies ← nextIs test
    if qualifies then advance
    return qualifies
  else return false

theorem typeModifier_eq_ok {test : Cursor → Bool} {found : Bool}
    (h : typeModifier test ctx c = .ok (found, c')) :
    c' = c ∨ c.token = .name "type" false ∧ c.advance = .ok c' := by
  unfold typeModifier at h
  rw [bind_of_ok typed_run, bind_of_ok (isWord_run _)] at h
  by_cases hword : (ctx.typed && c.token == .name "type" false) = true
  · rw [if_pos hword, bind_of_ok (nextIs_run _)] at h
    by_cases hnext : nextPasses c test = true
    · rw [if_pos hnext] at h
      obtain ⟨_, c₁, hadvance, hpure⟩ := bind_eq_ok.mp h
      cases hpure
      simp only [Bool.and_eq_true, beq_iff_eq] at hword
      exact .inr ⟨hword.2, advance_eq_ok.mp hadvance⟩
    · rw [if_neg hnext] at h
      cases h
      exact .inl rfl
  · rw [if_neg hword] at h
    cases h
    exact .inl rfl

theorem typeModifier_absent {test : Cursor → Bool}
    (h : c.token = .name "type" false → nextPasses c test = false) :
    typeModifier test ctx c = .ok (false, c) := by
  unfold typeModifier
  rw [bind_of_ok typed_run, bind_of_ok (isWord_run _)]
  by_cases hword : (ctx.typed && c.token == .name "type" false) = true
  · rw [if_pos hword, bind_of_ok (nextIs_run _)]
    simp only [Bool.and_eq_true, beq_iff_eq] at hword
    rw [h hword.2]
    rfl
  · rw [if_neg hword]
    rfl

/-- Whether a token can be the name that `type` stands in front of. -/
def qualified (c : Cursor) : Bool :=
  match c.token with
  | .name text _ => text != "as"
  | .string _ => true
  | _ => false

theorem typeOnlyName_eq : typeOnlyName = typeModifier qualified := rfl

theorem importSpecifier_eq_ok {n : Node} (h : importSpecifier ctx c = .ok (n, c')) :
    ∃ typeOnly imported name, ∃ c₁ c₂ : Cursor,
      (c₁ = c ∨ c.token = .name "type" false ∧ c.advance = .ok c₁) ∧
      exported? c₁.token = some imported ∧ c₁.advance = .ok c₂ ∧
      n.kind = .importNamed imported name typeOnly ∧ n.children = [] ∧ usable ctx name = true ∧
      ((∃ c₃ escaped, c₂.token = .name "as" false ∧ c₂.advance = .ok c₃ ∧
          c₃.token = .name name escaped ∧ c₃.advance = .ok c') ∨
        (∃ escaped, c₁.token = .name name escaped) ∧ name = imported ∧ c' = c₂) := by
  unfold importSpecifier at h
  obtain ⟨typeOnly, c₁, htype, h⟩ := bind_eq_ok.mp h
  rw [bind_of_ok here_run, bind_of_ok atIdentifier_run] at h
  obtain ⟨⟨m, imported⟩, c₂, hname, h⟩ := bind_eq_ok.mp h
  obtain ⟨hexported, hnext⟩ := exportedName_eq_ok hname
  rw [typeOnlyName_eq] at htype
  have hfirst := typeModifier_eq_ok htype
  dsimp only at h
  obtain ⟨renamed, c₃, has, hrest⟩ := bind_eq_ok.mp h
  rcases eatWord_eq_ok.mp has with ⟨rfl, has, hafter⟩ | ⟨rfl, -, rfl⟩
  · obtain ⟨own, c₄, hown, hnode⟩ := bind_eq_ok.mp hrest
    obtain ⟨name, escaped, htoken, husable, hleaf⟩ := identifier_eq_ok.mp hown
    obtain ⟨hlast, rfl⟩ := leaf_eq_ok.mp hleaf
    cases hnode
    exact ⟨typeOnly, imported, name, c₁, c₂, hfirst, hexported, hnext, rfl, rfl, husable,
      .inl ⟨c₃, escaped, has, hafter, htoken, hlast⟩⟩
  · cases htoken : c₁.token with
    | name text escaped =>
      rw [htoken] at hexported hrest
      cases hexported
      by_cases husable : usable ctx imported = true
      · simp only [isVariable, husable] at hrest
        cases hrest
        exact ⟨typeOnly, imported, imported, c₁, c', hfirst, by rw [htoken]; rfl, hnext, rfl, rfl,
          husable, .inr ⟨⟨escaped, htoken⟩, rfl, rfl⟩⟩
      · simp only [isVariable, husable] at hrest
        cases hrest
    | _ =>
      rw [htoken] at hrest
      cases hrest

theorem importSpecifier_plain {name : String} {escaped : Bool}
    (htype : typeModifier qualified ctx c = .ok (false, c)) (htoken : c.token = .name name escaped)
    (husable : usable ctx name = true) (hnext : c.advance = .ok c')
    (hend : c'.token ≠ .name "as" false) :
    ∃ n, importSpecifier ctx c = .ok (n, c') ∧ n.kind = .importNamed name name false ∧
      n.children = [] := by
  obtain ⟨m, hm⟩ := exportedName_of_name ctx htoken hnext
  have has : eatWord "as" ctx c' = .ok (false, c') := eatWord_eq_ok.mpr (.inr ⟨rfl, hend, rfl⟩)
  have hplain : isVariable ctx c.token = true := by rw [htoken]; exact husable
  refine ⟨⟨.importNamed name name false, ⟨c.span.start, c'.last⟩, []⟩, ?_, rfl, rfl⟩
  unfold importSpecifier
  rw [typeOnlyName_eq, bind_of_ok htype, bind_of_ok here_run, bind_of_ok atIdentifier_run,
    bind_of_ok hm]
  dsimp only
  rw [bind_of_ok has, hplain]
  rfl

theorem importSpecifier_renamed {imported name : String} {escaped escaped' : Bool}
    {c₁ c₂ : Cursor} (htype : typeModifier qualified ctx c = .ok (false, c))
    (htoken : c.token = .name imported escaped) (hnext : c.advance = .ok c₁)
    (has : c₁.token = .name "as" false) (hafter : c₁.advance = .ok c₂)
    (hname : c₂.token = .name name escaped') (husable : usable ctx name = true)
    (hlast : c₂.advance = .ok c') :
    ∃ n, importSpecifier ctx c = .ok (n, c') ∧ n.kind = .importNamed imported name false ∧
      n.children = [] := by
  obtain ⟨m, hm⟩ := exportedName_of_name ctx htoken hnext
  have has : eatWord "as" ctx c₁ = .ok (true, c₂) := eatWord_eq_ok.mpr (.inl ⟨rfl, has, hafter⟩)
  have hown := identifier_eq_ok.mpr ⟨name, escaped', hname, husable, leaf_of_advance _ hlast⟩
  refine ⟨⟨.importNamed imported name false, ⟨c.span.start, c'.last⟩, []⟩, ?_, rfl, rfl⟩
  unfold importSpecifier
  rw [typeOnlyName_eq, bind_of_ok htype, bind_of_ok here_run, bind_of_ok atIdentifier_run,
    bind_of_ok hm]
  dsimp only
  rw [bind_of_ok has]
  exact (bind_of_ok hown).trans rfl

/-- An import of names in braces or of a namespace, after the default name. -/
def importRest (first : List Node) : Parser (List Node) := do
  let start ← here
  if ← eat .star then
    expectWord "as"
    let n ← identifier
    match n.kind with
    | .identifier name => return first ++ [← node (.importNamespace name) start []]
    | _ => fail
  else
    expect .lbrace
    return first ++ (← commaList .rbrace importSpecifier)

theorem importRest_eq_ok {first names : List Node} (h : importRest first ctx c = .ok (names, c')) :
    (∃ name escaped n, ∃ c₁ c₂ : Cursor, c.token = .punct .star ∧ c.advance = .ok c₁ ∧
        c₁.token = .name "as" false ∧ c₁.advance = .ok c₂ ∧ c₂.token = .name name escaped ∧
        usable ctx name = true ∧ c₂.advance = .ok c' ∧ n.kind = .importNamespace name ∧
        n.children = [] ∧ names = first ++ [n]) ∨
      ∃ ns c₁, c.token = .punct .lbrace ∧ c.advance = .ok c₁ ∧
        commaList .rbrace importSpecifier ctx c₁ = .ok (ns, c') ∧ names = first ++ ns := by
  unfold importRest at h
  rw [bind_of_ok here_run] at h
  obtain ⟨starred, c₀, hstar, hrest⟩ := bind_eq_ok.mp h
  rcases eat_eq_ok.mp hstar with ⟨rfl, hstar, hnext⟩ | ⟨rfl, -, rfl⟩
  · obtain ⟨_, c₂, has, hrest⟩ := bind_eq_ok.mp hrest
    obtain ⟨has, hafter⟩ := expectWord_eq_ok.mp has
    obtain ⟨own, c₃, hown, hnode⟩ := bind_eq_ok.mp hrest
    obtain ⟨name, escaped, htoken, husable, hleaf⟩ := identifier_eq_ok.mp hown
    obtain ⟨hlast, rfl⟩ := leaf_eq_ok.mp hleaf
    cases hnode
    exact .inl ⟨name, escaped, _, c₀, c₂, hstar, hnext, has, hafter, htoken, husable, hlast, rfl,
      rfl, rfl⟩
  · obtain ⟨_, c₁, hbrace, hrest⟩ := bind_eq_ok.mp hrest
    obtain ⟨hbrace, hnext⟩ := expect_eq_ok.mp hbrace
    obtain ⟨ns, c₂, hlist, hpure⟩ := bind_eq_ok.mp hrest
    cases hpure
    exact .inr ⟨ns, c₁, hbrace, hnext, hlist, rfl⟩

theorem importClause_eq_ok {names : List Node} (h : importClause ctx c = .ok (names, c')) :
    (∃ name escaped n, ∃ c₁ : Cursor, c.token = .name name escaped ∧ usable ctx name = true ∧
        c.advance = .ok c₁ ∧ n.kind = .importDefault name ∧ n.children = [] ∧
        (c₁.token ≠ .punct .comma ∧ names = [n] ∧ c' = c₁ ∨
          ∃ c₂, c₁.token = .punct .comma ∧ c₁.advance = .ok c₂ ∧
            importRest [n] ctx c₂ = .ok (names, c'))) ∨
      isVariable ctx c.token = false ∧ importRest [] ctx c = .ok (names, c') := by
  unfold importClause at h
  obtain ⟨first, c₁, hfirst, hrest⟩ := bind_eq_ok.mp h
  rw [bind_of_ok atIdentifier_run] at hfirst
  by_cases hvariable : isVariable ctx c.token = true
  · rw [if_pos hvariable] at hfirst
    obtain ⟨own, c₂, hown, hpure⟩ := bind_eq_ok.mp hfirst
    obtain ⟨name, escaped, htoken, husable, hleaf⟩ := identifier_eq_ok.mp hown
    obtain ⟨hnext, rfl⟩ := leaf_eq_ok.mp hleaf
    cases hpure
    refine .inl ⟨name, escaped, ⟨.importDefault name, ⟨c.span.start, c₁.last⟩, []⟩, c₁, htoken,
      husable, hnext, rfl, rfl, ?_⟩
    dsimp only at hrest
    obtain ⟨comma, c₂, heat, hrest⟩ := bind_eq_ok.mp hrest
    rcases eat_eq_ok.mp heat with ⟨rfl, hcomma, hafter⟩ | ⟨rfl, hcomma, rfl⟩
    · exact .inr ⟨c₂, hcomma, hafter, hrest⟩
    · cases hrest
      exact .inl ⟨hcomma, rfl, rfl⟩
  · rw [if_neg hvariable] at hfirst
    cases hfirst
    exact .inr ⟨by simpa using hvariable, hrest⟩

section Default

variable {name : String} {escaped : Bool} {c₁ c₂ : Cursor}

def importDefault : Parser (List Node) := do
  if ← atIdentifier then
    let n ← identifier
    match n.kind with
    | .identifier name => return [n.withKind (.importDefault name)]
    | _ => fail
  else return []

theorem importClause_eq : importClause = (do
    let first ← importDefault
    if !first.isEmpty then
      if !(← eat .comma) then return first
    importRest first) := rfl

theorem importClause_of_none (h : isVariable ctx c.token = false) :
    importClause ctx c = importRest [] ctx c := by
  have hnone : importDefault ctx c = .ok ([], c) := by
    unfold importDefault
    rw [bind_of_ok atIdentifier_run, h]
    rfl
  rw [importClause_eq, bind_of_ok hnone]
  rfl

def defaultNode (name : String) (c c' : Cursor) : Node :=
  ⟨.importDefault name, ⟨c.span.start, c'.last⟩, []⟩

theorem importDefault_of_name (htoken : c.token = .name name escaped)
    (husable : usable ctx name = true) (hnext : c.advance = .ok c₁) :
    importDefault ctx c = .ok ([defaultNode name c c₁], c₁) := by
  have hown := identifier_eq_ok.mpr ⟨name, escaped, htoken, husable, leaf_of_advance _ hnext⟩
  have hvariable : isVariable ctx c.token = true := by
    rw [htoken]
    exact husable
  unfold importDefault
  rw [bind_of_ok atIdentifier_run, if_pos hvariable]
  exact (bind_of_ok hown).trans rfl

theorem importClause_default (htoken : c.token = .name name escaped)
    (husable : usable ctx name = true) (hnext : c.advance = .ok c₁)
    (hcomma : c₁.token ≠ .punct .comma) :
    importClause ctx c = .ok ([defaultNode name c c₁], c₁) := by
  rw [importClause_eq, bind_of_ok (importDefault_of_name htoken husable hnext)]
  exact bind_of_ok (eat_eq_ok.mpr (.inr ⟨rfl, hcomma, rfl⟩))

theorem importClause_comma (htoken : c.token = .name name escaped)
    (husable : usable ctx name = true) (hnext : c.advance = .ok c₁)
    (hcomma : c₁.token = .punct .comma) (hafter : c₁.advance = .ok c₂) :
    importClause ctx c = importRest [defaultNode name c c₁] ctx c₂ := by
  rw [importClause_eq, bind_of_ok (importDefault_of_name htoken husable hnext)]
  exact bind_of_ok (eat_eq_ok.mpr (.inl ⟨rfl, hcomma, hafter⟩))

end Default

theorem importAttributes_eq_ok {ns : List Node} (h : importAttributes ctx c = .ok (ns, c')) :
    ∀ n ∈ ns, n.kind = .clause := by
  unfold importAttributes at h
  obtain ⟨w, c₁, -, h⟩ := bind_eq_ok.mp h
  obtain ⟨a, c₂, -, h⟩ := bind_eq_ok.mp h
  obtain ⟨f, c₃, -, h⟩ := bind_eq_ok.mp h
  by_cases hword : (w || a && !f) = true
  · rw [if_pos hword] at h
    obtain ⟨_, c₄, -, h⟩ := bind_eq_ok.mp h
    obtain ⟨_, c₅, -, h⟩ := bind_eq_ok.mp h
    refine forall_of_commaList (I := fun _ => True) (fun c c' x _ hx => ⟨?_, trivial⟩)
      (fun _ _ _ _ => trivial) trivial h
    obtain ⟨start, c₁, -, hx⟩ := bind_eq_ok.mp hx
    obtain ⟨key, c₂, -, hx⟩ := bind_eq_ok.mp hx
    obtain ⟨_, c₃, -, hx⟩ := bind_eq_ok.mp hx
    obtain ⟨value, c₄, -, hx⟩ := bind_eq_ok.mp hx
    cases hx
    rfl
  · rw [if_neg hword] at h
    cases h
    simp

theorem importAttributes_none (h : c.token = .punct .semicolon) :
    importAttributes ctx c = .ok ([], c) := by
  unfold importAttributes
  rw [bind_of_ok (isWord_run _), bind_of_ok (isWord_run _)]
  change (if _ then _ else _ : Parser (List Node)) ctx c = _
  rw [h]
  rfl

theorem moduleName_eq_ok {source : List Node} (h : moduleName ctx c = .ok (source, c')) :
    ∃ value n attributes, ∃ c₁ : Cursor, c.token = .string value ∧ c.advance = .ok c₁ ∧
      n.kind = .string value ∧ n.children = [] ∧ source = n :: attributes ∧
      importAttributes ctx c₁ = .ok (attributes, c') := by
  unfold moduleName at h
  obtain ⟨n, c₁, hname, h⟩ := bind_eq_ok.mp h
  obtain ⟨value, htoken, hleaf⟩ := stringLiteral_eq_ok.mp hname
  obtain ⟨hnext, rfl⟩ := leaf_eq_ok.mp hleaf
  obtain ⟨attributes, c₂, hattributes, hpure⟩ := bind_eq_ok.mp h
  cases hpure
  exact ⟨value, _, attributes, c₁, htoken, hnext, rfl, rfl, rfl, hattributes⟩

theorem moduleName_plain (ctx : Context) {value : String} (htoken : c.token = .string value)
    (hnext : c.advance = .ok c') (hend : c'.token = .punct .semicolon) :
    ∃ n, moduleName ctx c = .ok ([n], c') ∧ n.kind = .string value ∧ n.children = [] := by
  have hname : stringLiteral ctx c = .ok (_, c') :=
    stringLiteral_eq_ok.mpr ⟨value, htoken, leaf_of_advance _ hnext⟩
  refine ⟨⟨.string value, ⟨c.span.start, c'.last⟩, []⟩, ?_, rfl, rfl⟩
  unfold moduleName
  rw [bind_of_ok hname, bind_of_ok (importAttributes_none hend)]
  rfl

theorem importPhase_eq_ok {u : Unit} (h : importPhase ctx c = .ok (u, c')) :
    c' = c ∨ c.advance = .ok c' := by
  unfold importPhase at h
  rw [bind_of_ok (isWord_run _), bind_of_ok (nextIs_run _)] at h
  dsimp only at h
  rw [bind_of_ok (isWord_run _), bind_of_ok (nextIs_run _)] at h
  split at h
  · exact .inr (advance_eq_ok.mp h)
  · cases h
    exact .inl rfl

def marksSource (c : Cursor) : Bool :=
  match c.token with
  | .name text _ => text != "from"
  | _ => false

theorem importPhase_absent
    (hdefer : c.token = .name "defer" false → nextPasses c (·.token == .punct .star) = false)
    (hsource : c.token = .name "source" false → nextPasses c marksSource = false) :
    importPhase ctx c = .ok ((), c) := by
  unfold importPhase
  rw [bind_of_ok (isWord_run _), bind_of_ok (nextIs_run _)]
  dsimp only
  rw [bind_of_ok (isWord_run _), bind_of_ok (nextIs_run _)]
  have hnone : ¬ ((c.token == .name "defer" false && nextPasses c (·.token == .punct .star)) ||
      (c.token == .name "source" false && nextPasses c marksSource)) = true := by
    simp only [Bool.or_eq_true, Bool.and_eq_true, beq_iff_eq]
    rintro (⟨htoken, hnext⟩ | ⟨htoken, hnext⟩)
    · rw [hdefer htoken] at hnext
      cases hnext
    · rw [hsource htoken] at hnext
      cases hnext
  split
  · rename_i hsome
    exact absurd hsome hnone
  · rfl

def importBody (typeOnly : Bool) (start : Nat) : Parser Node := do
  let names ← importClause
  expectWord "from"
  let source ← moduleName
  semicolon
  node (.importDeclaration typeOnly) start (names ++ source)

theorem importBody_eq_ok {typeOnly : Bool} {start : Nat} {n : Node}
    (h : importBody typeOnly start ctx c = .ok (n, c')) :
    ∃ names source, ∃ c₁ c₂ c₃ : Cursor, importClause ctx c = .ok (names, c₁) ∧
      c₁.token = .name "from" false ∧ c₁.advance = .ok c₂ ∧
      moduleName ctx c₂ = .ok (source, c₃) ∧ n.kind = .importDeclaration typeOnly ∧
      n.children = names ++ source := by
  unfold importBody at h
  obtain ⟨names, c₁, hnames, h⟩ := bind_eq_ok.mp h
  obtain ⟨_, c₂, hfrom, h⟩ := bind_eq_ok.mp h
  obtain ⟨hfrom, hnext⟩ := expectWord_eq_ok.mp hfrom
  obtain ⟨source, c₃, hsource, h⟩ := bind_eq_ok.mp h
  obtain ⟨_, c₄, -, h⟩ := bind_eq_ok.mp h
  cases h
  exact ⟨names, source, c₁, c₂, c₃, hnames, hfrom, hnext, hsource, rfl, rfl⟩

/-- Whether the token after `type` makes it the mark of an import of types. -/
def marksImport (c : Cursor) : Bool :=
  match c.token with
  | .name text _ => text != "from"
  | .punct .lbrace | .punct .star => true
  | _ => false

theorem importDeclaration_eq_ok {n : Node} (h : importDeclaration ctx c = .ok (n, c')) :
    ∃ c₁ : Cursor, c.token = .name "import" false ∧ c.advance = .ok c₁ ∧
      (n.kind = .moduleStatement ∨
        (∃ source c₂, moduleName ctx c₁ = .ok (source, c₂) ∧
          n.kind = .importDeclaration false ∧ n.children = source) ∨
        ∃ typeOnly start, ∃ c₀ c₂ : Cursor, c₀.advance = .ok c₂ ∧
          importBody typeOnly start ctx c₂ = .ok (n, c')) := by
  unfold importDeclaration at h
  rw [bind_of_ok here_run] at h
  obtain ⟨_, c₁, hword, h⟩ := bind_eq_ok.mp h
  obtain ⟨hword, hnext⟩ := expectWord_eq_ok.mp hword
  refine ⟨c₁, hword, hnext, ?_⟩
  rw [bind_of_ok token_run] at h
  have hbody (h : (do
      let typeOnly ← typeModifier marksImport
      if (← typed) && (← atIdentifier) && (← nextIs fun c => c.token == .punct .assign) then
        advance
        importAlias c.span.start
      else
        importPhase
        importBody typeOnly c.span.start : Parser Node) ctx c₁ = .ok (n, c')) :
      n.kind = .moduleStatement ∨ ∃ typeOnly start, ∃ c₀ c₂ : Cursor, c₀.advance = .ok c₂ ∧
        importBody typeOnly start ctx c₂ = .ok (n, c') := by
    obtain ⟨typeOnly, c₂, htype, h⟩ := bind_eq_ok.mp h
    have hc₂ : ∃ c₀ : Cursor, c₀.advance = .ok c₂ := by
      rcases typeModifier_eq_ok htype with rfl | ⟨-, hmoved⟩
      · exact ⟨c, hnext⟩
      · exact ⟨c₁, hmoved⟩
    rw [bind_of_ok typed_run, bind_of_ok atIdentifier_run, bind_of_ok (nextIs_run _)] at h
    split at h
    · obtain ⟨_, c₃, -, h⟩ := bind_eq_ok.mp h
      unfold importAlias at h
      obtain ⟨_, c₄, -, h⟩ := bind_eq_ok.mp h
      obtain ⟨_, c₅, -, h⟩ := bind_eq_ok.mp h
      obtain ⟨_, c₆, -, h⟩ := bind_eq_ok.mp h
      obtain ⟨_, c₇, -, h⟩ := bind_eq_ok.mp h
      cases h
      exact .inl rfl
    · obtain ⟨_, c₃, hphase, hbody⟩ := bind_eq_ok.mp h
      rcases importPhase_eq_ok hphase with rfl | hmoved
      · obtain ⟨c₀, hc₀⟩ := hc₂
        exact .inr ⟨typeOnly, _, c₀, c₃, hc₀, hbody⟩
      · exact .inr ⟨typeOnly, _, c₂, c₃, hmoved, hbody⟩
  cases htoken : c₁.token with
  | string value =>
    rw [htoken] at h
    obtain ⟨source, c₂, hsource, h⟩ := bind_eq_ok.mp h
    obtain ⟨_, c₃, -, h⟩ := bind_eq_ok.mp h
    cases h
    exact .inr (.inl ⟨source, c₂, hsource, rfl, rfl⟩)
  | _ =>
    rw [htoken] at h
    exact (hbody h).imp_right .inr

/-- An import that starts neither with a module nor with a word that could be no name. -/
theorem importDeclaration_eq {c₁ : Cursor} (hword : c.token = .name "import" false)
    (hnext : c.advance = .ok c₁) (hstring : ∀ value, c₁.token ≠ .string value)
    (htype : c₁.token = .name "type" false → nextPasses c₁ marksImport = false)
    (hassign : isVariable ctx c₁.token = true →
      nextPasses c₁ (·.token == .punct .assign) = false)
    (hphase : importPhase ctx c₁ = .ok ((), c₁)) :
    importDeclaration ctx c = importBody false c.span.start ctx c₁ := by
  have hstart : expectWord "import" ctx c = .ok ((), c₁) := expectWord_eq_ok.mpr ⟨hword, hnext⟩
  have hbody : (do
      let typeOnly ← typeModifier marksImport
      if (← typed) && (← atIdentifier) && (← nextIs fun c => c.token == .punct .assign) then
        advance
        importAlias c.span.start
      else
        importPhase
        importBody typeOnly c.span.start : Parser Node) ctx c₁ =
      importBody false c.span.start ctx c₁ := by
    rw [bind_of_ok (typeModifier_absent htype), bind_of_ok typed_run, bind_of_ok atIdentifier_run,
      bind_of_ok (nextIs_run _)]
    have hnone : ¬ (ctx.typed && isVariable ctx c₁.token &&
        nextPasses c₁ (·.token == .punct .assign)) = true := by
      simp only [Bool.and_eq_true]
      rintro ⟨⟨-, hvariable⟩, hnext⟩
      rw [hassign hvariable] at hnext
      cases hnext
    rw [if_neg hnone, bind_of_ok hphase]
  unfold importDeclaration
  rw [bind_of_ok here_run, bind_of_ok hstart, bind_of_ok token_run]
  cases htoken : c₁.token with
  | string value => exact absurd htoken (hstring value)
  | _ => exact hbody

def NoImport (n : Node) : Prop := ∀ typeOnly, n.kind ≠ .importDeclaration typeOnly

theorem gives_node {kind : Kind} (h : ∀ typeOnly, kind ≠ .importDeclaration typeOnly) (start : Nat)
    (children : List Node) : Gives (node kind start children) NoImport := by
  intro ctx c n c' hn
  cases hn
  exact h

def NoneImport (found : Option Node) : Prop := ∀ n, found = some n → NoImport n

theorem gives_some {p : Parser Node} (h : Gives p NoImport) :
    Gives (do return Option.some (← p)) NoneImport := by
  refine .bind_of h fun n hn => .pure ?_
  intro m hm
  cases hm
  exact hn

theorem gives_none : Gives (Pure.pure Option.none) NoneImport := by
  refine .pure ?_
  intro n hn
  cases hn

section Statements

variable (rec : Rec)

theorem gives_variableStatement (kind : VariableKind) :
    Gives (variableStatement rec kind) NoImport := by
  have hlist : Gives (variableList rec kind false)
      fun n => ∃ head hoisted, n.kind = .variableList head hoisted := by
    unfold variableList
    refine .bind fun _ => .bind fun _ => .bind fun _ => .bind fun _ => .bind fun _ => ?_
    intro ctx c n c' hn
    cases hn
    exact ⟨_, _, rfl⟩
  unfold variableStatement
  refine .bind_of hlist fun n hn => .bind fun _ => gives_node ?_ _ _
  obtain ⟨head, hoisted, hn⟩ := hn
  rw [hn]
  simp

theorem gives_classRest (start : Nat) (decorated : List Node) (declared nameless : Bool) :
    Gives (classRest rec start decorated declared nameless) NoImport := by
  unfold classRest
  exact .bind fun _ => .bind fun _ => .bind fun _ => .bind fun _ => .bind fun _ => .bind fun _ =>
    .bind fun _ => .bind fun _ => .bind fun _ => .bind fun _ => gives_node (by simp) _ _

theorem gives_classDefinition (declared nameless : Bool) :
    Gives (classDefinition rec declared nameless) NoImport := by
  unfold classDefinition
  refine .bind fun _ => .bind fun _ => .bind fun _ => .bind fun _ => ?_
  exact .guard fun _ => gives_classRest rec _ _ _ _

theorem gives_function (declared nameless : Bool) :
    Gives (function rec declared nameless) NoImport := by
  unfold function functionRest
  refine .bind fun _ => .bind fun _ => .bind fun _ => .bind fun _ => .bind fun _ => .bind fun _ =>
    .bind fun _ => .within (.bind fun _ => .bind fun _ => .bind fun _ => .bind fun _ => ?_)
  refine .ite (.bind fun _ => gives_node (by simp) _ _) (.bind fun _ => ?_)
  exact .ite (.bind fun _ => gives_node (by simp) _ _) .fail

theorem gives_declaration : Gives (declaration? rec) NoneImport := by
  unfold declaration?
  refine .bind fun kind => ?_
  cases kind with
  | some kind => exact gives_some (gives_variableStatement rec kind)
  | none =>
    refine .bind fun _ => .ite (gives_some (gives_function rec _ _)) (.bind fun _ => ?_)
    refine .ite (gives_some (gives_function rec _ _)) (.bind fun _ => .bind fun _ => ?_)
    refine .ite (gives_some (gives_classDefinition rec _ _)) ?_
    refine .bind fun _ => .bind fun _ => .bind fun _ => ?_
    exact .ite (gives_some (gives_classDefinition rec _ _)) gives_none

theorem gives_namedDeclaration : Gives (namedDeclaration? rec) NoneImport := by
  have hinterface : Gives (interfaceDeclaration rec) NoImport := by
    unfold interfaceDeclaration
    exact .bind fun _ => .bind fun _ => .bind fun _ => .bind fun _ => .bind fun _ => .bind fun _ =>
      gives_node (by simp) _ _
  have halias : Gives (typeAlias rec) NoImport := by
    unfold typeAlias
    exact .bind fun _ => .bind fun _ => .bind fun _ => .bind fun _ => .bind fun _ => .bind fun _ =>
      .bind fun _ => gives_node (by simp) _ _
  have henum : Gives (enumDeclaration rec) NoImport := by
    unfold enumDeclaration
    exact .bind fun _ => .bind fun _ => .bind fun _ => .bind fun _ => .bind fun _ => .bind fun _ =>
      gives_node (by simp) _ _
  have hnamespace : Gives (namespaceDeclaration rec) NoImport := by
    unfold namespaceDeclaration
    refine .bind fun _ => .bind fun _ => .bind fun _ => .bind fun _ => .ite ?_ ?_
    · exact .bind fun _ => .bind fun _ => gives_node (by simp) _ _
    · exact .bind fun _ => gives_node (by simp) _ _
  unfold namedDeclaration?
  refine .bind fun _ => .ite gives_none (.bind fun _ => ?_)
  refine .ite (gives_some hinterface) (.bind fun _ => ?_)
  refine .ite (gives_some halias) (.bind fun _ => .bind fun _ => ?_)
  refine .ite (gives_some henum) (.bind fun _ => .bind fun _ => ?_)
  refine .ite (gives_some hnamespace) (.bind fun _ => .bind fun _ => ?_)
  refine .ite (gives_some hnamespace) (.bind fun _ => .bind fun _ => ?_)
  refine .ite (.bind fun _ => .bind fun _ => .bind fun _ => ?_) gives_none
  exact gives_some (gives_node (by simp) _ _)

theorem gives_typeDeclaration : Gives (typeDeclaration? rec) NoneImport := by
  unfold typeDeclaration?
  refine .bind fun _ => .bind fun _ => .ite (.bind fun start => ?_) (gives_namedDeclaration rec)
  exact .attempt (.bind fun _ => .bind fun _ => gives_node (by simp) _ _)

theorem gives_exportDefault (start : Nat) (decorated : List Node) :
    Gives (exportDefault rec start decorated) NoImport := by
  unfold exportDefault
  refine .bind fun _ => .bind fun _ => .bind fun _ => .bind fun _ => .bind fun _ => ?_
  refine .ite (.bind fun _ => gives_node (by simp) _ _) ?_
  refine .ite .fail (.bind fun _ => .bind fun _ => ?_)
  refine .ite (.bind fun _ => gives_node (by simp) _ _) (.bind fun _ => .bind fun _ => ?_)
  refine .ite (.bind fun _ => gives_node (by simp) _ _) ?_
  exact .bind fun _ => .bind fun _ => gives_node (by simp) _ _

theorem gives_exportNames (start : Nat) : Gives (exportNames start) NoImport := by
  unfold exportNames
  refine .bind fun _ => .bind fun _ => .bind fun _ => .guard fun _ => ?_
  exact .bind fun _ => gives_node (by simp) _ _

theorem gives_exportAll (start : Nat) : Gives (exportAll start) NoImport := by
  unfold exportAll
  refine .bind fun _ => .bind fun _ => ?_
  refine .ite (.bind fun _ => ?_) ?_
  · exact .bind fun _ => .bind fun _ => .bind fun _ => gives_node (by simp) _ _
  · exact .bind fun _ => .bind fun _ => .bind fun _ => gives_node (by simp) _ _

theorem gives_exportDeclaration (start : Nat) (decorated : List Node) :
    Gives (exportDeclaration rec start decorated) NoImport := by
  unfold exportDeclaration
  refine .bind fun _ => .bind fun _ => .bind fun _ => .bind fun _ => .guard fun _ => ?_
  refine .bind fun _ => .ite (gives_exportDefault rec _ _) (.bind fun _ => ?_)
  refine .ite (gives_exportNames _) (.bind fun _ => .ite (gives_exportAll _) (.bind fun _ => ?_))
  refine .bind fun _ => .ite ?_ (.bind fun _ => .bind fun _ => .ite ?_ ?_)
  · exact .bind fun _ => .bind fun _ => .bind fun _ => gives_node (by simp) _ _
  · exact .bind fun _ => .bind fun _ => .bind fun _ => .bind fun _ => gives_node (by simp) _ _
  · refine .bind fun _ => .bind fun _ => .ite (.bind fun _ => gives_node (by simp) _ _) ?_
    refine .bind fun found => ?_
    cases found with
    | some n => exact .guard fun _ => gives_node (by simp) _ _
    | none =>
      refine .bind fun found => ?_
      cases found with
      | some n => exact gives_node (by simp) _ _
      | none => exact .fail

theorem gives_block : Gives (block rec) NoImport := by
  unfold block
  exact .bind fun _ => .bind fun _ => .bind fun _ => gives_node (by simp) _ _

theorem gives_forStatement : Gives (forStatement rec) NoImport := by
  unfold forStatement
  refine .bind fun _ => .bind fun _ => .bind fun _ => .bind fun _ => .bind fun _ => .bind fun _ =>
    .bind fun _ => .bind fun _ => .guard fun _ => .bind fun _ => .bind fun _ => .ite ?_ ?_
  · exact .bind fun _ => .bind fun _ => .bind fun _ => .bind fun _ => .bind fun _ => .bind fun _ =>
      gives_node (by simp) _ _
  · exact .guard fun _ => .bind fun _ => .bind fun _ => .bind fun _ => .bind fun _ =>
      .bind fun _ => .bind fun _ => gives_node (by simp) _ _

theorem gives_keywordStatement {word : String} {p : Parser Node}
    (h : keywordStatement rec word = some p) : Gives p NoImport := by
  unfold keywordStatement at h
  split at h
  · cases h
    unfold ifStatement
    exact .bind fun _ => .bind fun _ => .bind fun _ => .bind fun _ => .bind fun _ =>
      gives_node (by simp) _ _
  · cases h
    exact gives_forStatement rec
  iterate 2
    cases h
    unfold whileStatement
    exact .bind fun _ => .bind fun _ => .bind fun _ => .bind fun _ => gives_node (by simp) _ _
  · cases h
    unfold doStatement
    exact .bind fun _ => .bind fun _ => .bind fun _ => .bind fun _ => .bind fun _ =>
      .bind fun _ => gives_node (by simp) _ _
  iterate 2
    cases h
    unfold jumpStatement
    exact .bind fun _ => .bind fun _ => .bind fun _ => .bind fun _ => gives_node (by simp) _ _
  · cases h
    unfold returnStatement
    refine .bind fun _ => .bind fun _ => .guard fun _ => .bind fun _ => .bind fun _ => ?_
    exact .bind fun _ => .bind fun _ => .bind fun _ => .bind fun _ => .bind fun _ =>
      gives_node (by simp) _ _
  · cases h
    unfold throwStatement
    exact .bind fun _ => .bind fun _ => .bind fun _ => .guard fun _ => .bind fun _ =>
      .bind fun _ => gives_node (by simp) _ _
  · cases h
    unfold switchStatement
    exact .bind fun _ => .bind fun _ => .bind fun _ => .bind fun _ => .bind fun _ =>
      gives_node (by simp) _ _
  · cases h
    unfold tryStatement
    exact .bind fun _ => .bind fun _ => .bind fun _ => .bind fun _ => .bind fun _ =>
      .guard fun _ => gives_node (by simp) _ _
  · cases h
    exact .bind fun _ => .bind fun _ => .bind fun _ => gives_node (by simp) _ _
  · cases h

theorem gives_plainStatement : Gives (plainStatement rec) NoImport := by
  have hexpression : Gives (expressionStatement rec) NoImport := by
    unfold expressionStatement
    exact .bind fun _ => .bind fun _ => .bind fun _ => gives_node (by simp) _ _
  have hlabelled : Gives (labelled rec) NoImport := by
    unfold labelled
    exact .bind fun _ => .bind fun _ => .bind fun _ => .bind fun _ => gives_node (by simp) _ _
  unfold plainStatement
  refine .bind fun _ => .bind fun t => ?_
  split
  · exact gives_block rec
  · exact .bind fun _ => gives_node (by simp) _ _
  · split
    · exact gives_keywordStatement rec ‹_›
    · exact .bind fun _ => .bind fun _ => .ite hlabelled hexpression
  · exact hexpression

end Statements

theorem importDeclaration_of_statement {rec : Rec} {ctx : Context} {c c' : Cursor} {n : Node}
    (h : statement rec false ctx c = .ok (n, c')) :
    NoImport n ∨ importDeclaration ctx c = .ok (n, c') := by
  unfold statement at h
  rw [bind_of_ok here_run, bind_of_ok (isWord_run _), bind_of_ok (nextIs_run _)] at h
  dsimp only at h
  split at h
  · obtain ⟨_, c₁, hread, h⟩ := bind_eq_ok.mp h
    cases hread
    split at h
    · cases h
    · exact .inr h
  · refine .inl (Gives.bind (fun _ => .ite ?_ ?_) _ _ _ _ h)
    · exact .bind fun _ => .ite .fail (gives_exportDeclaration rec _ _)
    · refine .bind fun _ => .ite (gives_variableStatement rec _) (.bind fun _ => .ite ?_ ?_)
      · refine .guard fun _ => .bind fun _ => .bind fun _ => .bind fun _ => ?_
        refine .ite (gives_exportDeclaration rec _ _) (.bind fun _ => .bind fun _ => ?_)
        exact .guard fun _ => gives_classRest rec _ _ _ _
      · refine .bind_of (gives_declaration rec) fun found hfound => ?_
        cases found with
        | some n => exact .ite .fail (.pure (hfound n rfl))
        | none =>
          refine .bind_of (gives_typeDeclaration rec) fun found hfound => ?_
          cases found with
          | some n => exact .ite .fail (.pure (hfound n rfl))
          | none => exact gives_plainStatement rec

end Grammar

def topContext (dialect : Dialect) (size : Nat) : Context :=
  { typed := dialect.typed, budget := size + 2 }

section Scripts

open EmberClasses.Script.Parser

theorem parse_eq_ok {dialect : Dialect} {source : List Char} {script : Node} :
    parse dialect source = .ok script ↔ ∃ c c', Cursor.start source = .ok c ∧
      Grammar.program (rules (8 * (source.length + 4))) (topContext dialect source.length) c =
        .ok (script, c') ∧ complete script = true := by
  unfold parse
  cases hstart : Cursor.start source with
  | error e =>
    constructor
    · intro h
      cases h
    · rintro ⟨c, c', hc, -⟩
      cases hc
  | ok c =>
    change Except.bind (Grammar.program _ (topContext dialect source.length) c) _ = _ ↔ _
    cases hprogram : Grammar.program (rules (8 * (source.length + 4)))
        (topContext dialect source.length) c with
    | error e =>
      constructor
      · intro h
        cases h
      · rintro ⟨c, c', hc, h, -⟩
        cases hc
        rw [hprogram] at h
        cases h
    | ok r =>
      obtain ⟨tree, c₁⟩ := r
      change (if complete tree = true then Except.ok tree else _) = _ ↔ _
      constructor
      · intro h
        split at h
        · rename_i hcomplete
          cases h
          exact ⟨c, c₁, rfl, hprogram, hcomplete⟩
        · cases h
      · rintro ⟨c, c', hc, h, hcomplete⟩
        cases hc
        rw [hprogram] at h
        cases h
        rw [if_pos hcomplete]

def scriptItem (rec : Rec) : Parser (Option Node) := do
  if (← token) == .done then return none
  else return some (← rec (.statement false))

theorem program_eq_ok {rec : Rec} {ctx : Context} {c c' : Cursor} {script : Node} :
    Grammar.program rec ctx c = .ok (script, c') ↔ ∃ items,
      manyLoop (scriptItem rec) ctx.budget ctx c = .ok (items, c') ∧ c'.token = .done ∧
      script = ⟨.program, ⟨0, c'.last⟩, items⟩ := by
  unfold Grammar.program
  rw [bind_eq_ok]
  constructor
  · rintro ⟨items, c₁, hitems, h⟩
    rw [bind_of_ok token_run] at h
    split at h
    · rename_i hdone
      cases h
      exact ⟨items, hitems, by simpa using hdone, rfl⟩
    · cases h
  · rintro ⟨items, hitems, hdone, rfl⟩
    refine ⟨items, c', hitems, ?_⟩
    rw [bind_of_ok token_run, hdone]
    rfl

theorem scriptItem_eq_ok {rec : Rec} {ctx : Context} {c c' : Cursor} {found : Option Node} :
    scriptItem rec ctx c = .ok (found, c') ↔ found = none ∧ c.token = .done ∧ c' = c ∨
      ∃ n, found = some n ∧ c.token ≠ .done ∧ rec (.statement false) ctx c = .ok (n, c') := by
  unfold scriptItem
  rw [bind_of_ok token_run]
  by_cases hdone : c.token = .done
  · rw [if_pos (by simp [hdone])]
    constructor
    · intro h
      cases h
      exact .inl ⟨rfl, hdone, rfl⟩
    · rintro (⟨rfl, -, rfl⟩ | ⟨n, -, hne, -⟩)
      · rfl
      · exact absurd hdone hne
  · rw [if_neg (by simp [hdone]), bind_eq_ok]
    constructor
    · rintro ⟨n, c₁, hn, h⟩
      cases h
      exact .inr ⟨n, rfl, hdone, hn⟩
    · rintro (⟨-, hd, -⟩ | ⟨n, rfl, -, hn⟩)
      · exact absurd hd hdone
      · exact ⟨n, c', hn, rfl⟩

theorem rules_statement (size : Nat) (single : Bool) :
    rules (8 * (size + 4)) (.statement single) =
      Grammar.statement (rules (8 * size + 31)) single := rfl

theorem importDeclaration_of_parse {dialect : Dialect} {source : List Char} {script n : Node}
    {typeOnly : Bool} (h : parse dialect source = .ok script) (hn : n ∈ script.children)
    (hk : n.kind = .importDeclaration typeOnly) :
    ∃ c c', Grammar.importDeclaration (topContext dialect source.length) c = .ok (n, c') := by
  obtain ⟨c, c', -, hprogram, -⟩ := parse_eq_ok.mp h
  obtain ⟨items, hitems, -, rfl⟩ := program_eq_ok.mp hprogram
  have hitem (c c' : Cursor) (m : Node) (_ : True)
      (hm : scriptItem (rules (8 * (source.length + 4))) (topContext dialect source.length) c =
        .ok (some m, c')) :
      (Grammar.NoImport m ∨ ∃ c c', Grammar.importDeclaration
        (topContext dialect source.length) c = .ok (m, c')) ∧ True := by
    rcases scriptItem_eq_ok.mp hm with ⟨hnone, -⟩ | ⟨_, hsome, -, hm⟩
    · cases hnone
    · cases hsome
      rw [rules_statement] at hm
      exact ⟨(Grammar.importDeclaration_of_statement hm).imp_right fun h => ⟨c, c', h⟩, trivial⟩
  rcases forall_of_manyLoop hitem trivial hitems n hn with hno | himport
  · exact absurd hk (hno typeOnly)
  · exact himport

end Scripts

end EmberClasses.Script
