import EmberClasses.Proofs.ImportContent

/-! The text of a declaration, token by token. It is read as an import again, with the same names
and the same module, if its names are words and nothing in the module needs an escape. -/

namespace EmberClasses.Import

open Script (Node Kind Token Punct Context Cursor Dialect topContext)
open Script.Lexer
open Script.Parser (usable)

def specifierText (n : Named) : List Char :=
  if n.imported = n.localName then n.localName.toList
  else n.imported.toList ++ ' ' :: ("as".toList ++ ' ' :: n.localName.toList)

/-- More names in braces, up to the closing one, and what follows. -/
def listText (tail : List Char) : List Named → List Char
  | [] => ' ' :: '}' :: tail
  | n :: ns => ',' :: ' ' :: (specifierText n ++ listText tail ns)

namespace Declaration

def restText (d : Declaration) (tail : List Char) : List Char :=
  match d.namespaceName, d.named with
  | some name, _ => '*' :: ' ' :: ("as".toList ++ ' ' :: (name.toList ++ tail))
  | none, n :: ns => '{' :: ' ' :: (specifierText n ++ listText tail ns)
  | none, [] => tail

theorem restText_namespace {d : Declaration} {name : String} (h : d.namespaceName = some name)
    (tail : List Char) :
    d.restText tail = '*' :: ' ' :: ("as".toList ++ ' ' :: (name.toList ++ tail)) := by
  unfold restText
  rw [h]

theorem restText_named {d : Declaration} {n : Named} {ns : List Named} (h : d.namespaceName = none)
    (hnamed : d.named = n :: ns) (tail : List Char) :
    d.restText tail = '{' :: ' ' :: (specifierText n ++ listText tail ns) := by
  unfold restText
  rw [h, hnamed]

def clauseText (d : Declaration) (tail : List Char) : List Char :=
  match d.defaultName with
  | none => d.restText tail
  | some name =>
    if d.namespaceName = none ∧ d.named = [] then name.toList ++ tail
    else name.toList ++ ',' :: ' ' :: d.restText tail

end Declaration

def moduleText (quote : Quote) (module : String) : List Char :=
  quote.char :: (module.toList ++ quote.char :: [';'])

def fromText (quote : Quote) (module : String) : List Char :=
  "from".toList ++ ' ' :: moduleText quote module

theorem intercalate_specifiers (tail : List Char) (n : Named) (ns : List Named) :
    [',', ' '].intercalate ((n :: ns).map specifierText) ++ ' ' :: '}' :: tail =
      specifierText n ++ listText tail ns := by
  induction ns generalizing n with
  | nil => simp [listText, List.intercalate]
  | cons m ms ih =>
    rw [listText, ← ih m]
    simp [List.intercalate]

theorem Declaration.render_toList {d : Declaration} (quote : Quote) (h : d.Usual)
    (hne : d.isEmpty = false) :
    (d.render quote).toList =
      "import".toList ++ ' ' :: d.clauseText (' ' :: fromText quote d.module) := by
  have hspecifier : (String.toList ∘ fun n : Named => if n.imported = n.localName then n.localName
      else n.imported ++ " as " ++ n.localName) = specifierText := by
    funext n
    unfold specifierText
    rw [Function.comp_apply]
    split <;> simp
  have hlist (n : Named) (ns : List Named) (tail : List Char) := intercalate_specifiers tail n ns
  have halone := h.alone
  unfold isEmpty localNames at hne
  unfold render clauses clauseText restText fromText moduleText
  cases hdefault : d.defaultName <;> cases hspace : d.namespaceName <;> cases hnamed : d.named
  case none.none.nil => simp [hdefault, hspace, hnamed] at hne
  case none.some.cons => simp [hspace, hnamed] at halone
  case some.some.cons => simp [hspace, hnamed] at halone
  case none.none.cons => simp [hspecifier, ← hlist, List.intercalate, -List.map_cons]
  case some.none.cons => simp [hspecifier, ← hlist, List.intercalate, -List.map_cons]
  all_goals simp

section Tokens

variable {c : Cursor} {rest text : List Char} {name : String}

theorem scan_star : scanToken ('*' :: ' ' :: rest) = some (.punct .star, 1, ' ' :: rest) := rfl

theorem at_name (h : c.At (name.toList ++ rest)) (hname : isName name.toList = true)
    (hrest : EndsName rest) : c.token = .name name false ∧ c.rest = rest := by
  have hscan := h.unique (scanToken_name hname hrest)
  rwa [String.ofList_toList] at hscan

theorem advance_name (h : c.rest = name.toList ++ rest ∨ c.rest = ' ' :: (name.toList ++ rest))
    (hname : isName name.toList = true) (hrest : EndsName rest) :
    ∃ c', c.advance = .ok c' ∧ c'.At (name.toList ++ rest) ∧ c'.token = .name name false ∧
      c'.rest = rest := by
  obtain ⟨c', hnext, hc'⟩ :=
    Cursor.advance_at h (solid_name hname rest) (scanToken_name hname hrest)
  exact ⟨c', hnext, hc', at_name hc' hname hrest⟩

theorem advance_punct {p : Punct} {n : Nat} (h : c.rest = text ∨ c.rest = ' ' :: text)
    (hsolid : Solid text) (hscan : scanToken text = some (.punct p, n, rest)) :
    ∃ c', c.advance = .ok c' ∧ c'.At text ∧ c'.token = .punct p ∧ c'.rest = rest := by
  obtain ⟨c', hnext, hc'⟩ := Cursor.advance_at h hsolid hscan
  exact ⟨c', hnext, hc', hc'.unique hscan⟩

end Tokens

section Reading

open Script.Parser Script.Grammar

variable {c : Cursor} {rest text : List Char}

def Named.Worded (n : Named) : Prop :=
  n.imported = n.localName ∨ isName n.imported.toList = true

instance (n : Named) : Decidable n.Worded := inferInstanceAs (Decidable (_ ∨ _))

def Named.Writable (n : Named) : Prop := IsLocal n.localName ∧ n.Worded

theorem Declaration.Usual.writable {d : Declaration} (h : d.Usual)
    (hworded : ∀ n ∈ d.named, n.Worded) : ∀ n ∈ d.named, n.Writable := by
  intro n hn
  exact ⟨h.names _ (List.mem_append_right _ (List.mem_map_of_mem hn)), hworded n hn⟩

theorem nextPasses_of_ok {test : Cursor → Bool} {c' : Cursor} (h : c.advance = .ok c') :
    nextPasses c test = test c' := by
  unfold nextPasses
  rw [h]

theorem qualified_punct {p : Punct} (h : c.token = .punct p) : qualified c = false := by
  unfold qualified
  rw [h]

theorem importSpecifier_at (dialect : Dialect) (size : Nat) {n : Named} {p : Punct} {k : Nat}
    (hn : n.Writable) (hc : c.At (specifierText n ++ rest)) (hends : EndsName rest)
    (hrest : rest = text ∨ rest = ' ' :: text) (hsolid : Solid text)
    {after : List Char} (hscan : scanToken text = some (.punct p, k, after)) :
    ∃ m c', importSpecifier (topContext dialect size) c = .ok (m, c') ∧ c'.At text ∧
      m.kind = .importNamed n.imported n.localName false ∧ m.children = [] := by
  obtain ⟨⟨hname, husable⟩, himported⟩ := hn
  unfold specifierText at hc
  by_cases heq : n.imported = n.localName
  · rw [if_pos heq] at hc
    obtain ⟨htoken, hafter⟩ := at_name hc hname hends
    rw [← hafter] at hrest
    obtain ⟨c', hnext, hc', hpunct, -⟩ := advance_punct hrest hsolid hscan
    have htype : typeModifier qualified (topContext dialect size) c = .ok (false, c) := by
      apply typeModifier_absent
      intro _
      rw [nextPasses_of_ok hnext, qualified_punct hpunct]
    obtain ⟨m, hm, hkind, hchildren⟩ := importSpecifier_plain htype htoken husable hnext
      (by rw [hpunct]; simp)
    exact ⟨m, c', hm, hc', heq ▸ hkind, hchildren⟩
  · have himported := himported.resolve_left heq
    rw [if_neg heq, List.append_assoc, List.cons_append, List.append_assoc] at hc
    have hspace {cs : List Char} : EndsName (' ' :: cs) := endsName_cons (by decide)
    obtain ⟨htoken, hafter⟩ := at_name hc himported hspace
    obtain ⟨c₁, hnext, -, has, hafter⟩ := advance_name (.inr hafter) (by decide) hspace
    obtain ⟨c₂, hnext₁, -, hlocal, hafter⟩ := advance_name (.inr hafter) hname hends
    rw [← hafter] at hrest
    obtain ⟨c', hnext₂, hc', -, -⟩ := advance_punct hrest hsolid hscan
    have htype : typeModifier qualified (topContext dialect size) c = .ok (false, c) := by
      apply typeModifier_absent
      intro _
      rw [nextPasses_of_ok hnext, qualified, has]
      rfl
    obtain ⟨m, hm, hkind, hchildren⟩ := importSpecifier_renamed htype htoken hnext has hnext₁ hlocal
      husable hnext₂
    exact ⟨m, c', hm, hc', hkind, hchildren⟩

theorem specifierText_append {n : Named} (hn : n.Writable) (hrest : EndsName rest) :
    ∃ (name : String) (more : List Char), specifierText n ++ rest = name.toList ++ more ∧
      isName name.toList = true ∧ EndsName more := by
  obtain ⟨⟨hname, -⟩, himported⟩ := hn
  unfold specifierText
  by_cases heq : n.imported = n.localName
  · rw [if_pos heq]
    exact ⟨n.localName, rest, rfl, hname, hrest⟩
  · rw [if_neg heq, List.append_assoc]
    exact ⟨n.imported, _, rfl, himported.resolve_left heq, endsName_cons (by decide)⟩

theorem token_of_specifierText {n : Named} (hn : n.Writable) (hrest : EndsName rest)
    (hc : c.At (specifierText n ++ rest)) : ∃ name, c.token = .name name false := by
  obtain ⟨name, more, htext, hname, hmore⟩ := specifierText_append hn hrest
  exact ⟨name, (at_name (htext ▸ hc) hname hmore).1⟩

theorem endsName_listText (tail : List Char) (ns : List Named) : EndsName (listText tail ns) := by
  cases ns with
  | nil => exact endsName_cons (by decide)
  | cons n ns => exact endsName_cons (by decide)

def Lists (nodes : List Node) (ns : List Named) : Prop :=
  List.Forall₂ (fun m n => m.kind = .importNamed n.imported n.localName false ∧ m.children = [])
    nodes ns

theorem importList_at (dialect : Dialect) (size : Nat) {n : Named} {ns : List Named}
    {fuel : Nat} (hns : ∀ m ∈ n :: ns, m.Writable)
    (hfuel : ns.length + 2 ≤ fuel) (hc : c.At (specifierText n ++ listText (' ' :: text) ns))
    (hsolid : Solid text) {t : Token} {k : Nat} (hscan : scanToken text = some (t, k, rest)) :
    ∃ nodes c', manyLoop (listItem .rbrace importSpecifier) fuel (topContext dialect size) c =
      .ok (nodes, c') ∧ c'.At text ∧ Lists nodes (n :: ns) := by
  induction ns generalizing n c fuel with
  | nil =>
    obtain ⟨fuel, rfl⟩ := Nat.exists_eq_add_of_le' hfuel
    have hn := hns n List.mem_cons_self
    obtain ⟨name, htoken⟩ := token_of_specifierText hn (endsName_listText _ []) hc
    obtain ⟨m, c₁, hm, hc₁, hkind, hchildren⟩ := importSpecifier_at dialect size hn hc
      (endsName_listText _ []) (.inr rfl) (solid_cons (by decide)) scan_rbrace
    obtain ⟨hclose, hafter⟩ := hc₁.unique scan_rbrace
    obtain ⟨c', hnext, hc'⟩ := Cursor.advance_at (.inr hafter) hsolid hscan
    refine ⟨[m], c', ?_, hc', .cons ⟨hkind, hchildren⟩ .nil⟩
    refine manyLoop_eq_ok.mpr (.inr ⟨m, [], c₁, rfl, ?_, ?_⟩)
    · exact listItem_eq_ok.mpr (.inr ⟨m, c₁, rfl, by rw [htoken]; simp, hm, .inl ⟨hclose, rfl⟩⟩)
    · exact manyLoop_eq_ok.mpr (.inl ⟨rfl, listItem_eq_ok.mpr (.inl ⟨rfl, hclose, hnext⟩)⟩)
  | cons m ms ih =>
    rw [List.length_cons] at hfuel
    obtain ⟨fuel, rfl⟩ := Nat.exists_eq_add_of_le' (show 1 ≤ fuel by omega)
    have hn := hns n List.mem_cons_self
    have hrest : ∀ m' ∈ m :: ms, m'.Writable := fun m' hm' => hns m' (List.mem_cons_of_mem n hm')
    obtain ⟨name, htoken⟩ := token_of_specifierText hn (endsName_listText _ (m :: ms)) hc
    obtain ⟨x, c₁, hx, hc₁, hkind, hchildren⟩ := importSpecifier_at dialect size hn hc
      (endsName_listText _ (m :: ms)) (.inl rfl) (solid_cons (by decide)) scan_comma
    obtain ⟨hpunct, hafter⟩ := hc₁.unique scan_comma
    obtain ⟨name₂, more₂, htext₂, hname₂, hmore₂⟩ :=
      specifierText_append (hrest m List.mem_cons_self) (endsName_listText (' ' :: text) ms)
    rw [htext₂] at hafter
    obtain ⟨c₂, hnext, hc₂, -, -⟩ := advance_name (.inr hafter) hname₂ hmore₂
    have hfuel : ms.length + 2 ≤ fuel := by omega
    obtain ⟨nodes, c', hloop, hc', hlists⟩ := ih hrest hfuel (htext₂ ▸ hc₂)
    refine ⟨x :: nodes, c', ?_, hc', .cons ⟨hkind, hchildren⟩ hlists⟩
    refine manyLoop_eq_ok.mpr (.inr ⟨x, nodes, c₂, rfl, ?_, hloop⟩)
    refine listItem_eq_ok.mpr (.inr ⟨x, c₁, rfl, by rw [htoken]; simp, hx, .inr ?_⟩)
    rw [hpunct]
    exact ⟨by simp, rfl, hnext⟩

theorem foldl_lists {nodes : List Node} {ns : List Named} (h : Lists nodes ns) (x : Content) :
    nodes.foldl Content.read x =
      { x with specifiers := x.specifiers ++ ns.map fun n => ⟨n, false⟩ } := by
  induction h generalizing x with
  | nil => simp
  | cons hkind _ ih => simp [ih, Content.read, hkind.1]

def IsLeaf (n : Node) : Prop := n.children = [] ∧ n.kind ≠ .coverProperty

theorem isLeaf_lists {nodes : List Node} {ns : List Named} (h : Lists nodes ns) :
    ∀ m ∈ nodes, IsLeaf m := by
  induction h with
  | nil => simp
  | cons hkind _ ih =>
    intro m hm
    rcases List.mem_cons.mp hm with rfl | hm
    · exact ⟨hkind.2, by rw [hkind.1]; simp⟩
    · exact ih m hm

def Content.put (x : Content) (d : Declaration) : Content :=
  { x with
    defaultName := d.defaultName.or x.defaultName
    namespaceName := d.namespaceName.or x.namespaceName
    specifiers := x.specifiers ++ d.named.map fun n => ⟨n, false⟩ }

structure Spell (names : List Node) (d : Declaration) : Prop where
  content : ∀ x, names.foldl Content.read x = x.put d
  leaves : ∀ m ∈ names, IsLeaf m

theorem Spell.append {first names : List Node} {d : Declaration}
    (hfirst : Spell first { d with namespaceName := none, named := [] })
    (hnames : Spell names { d with defaultName := none }) : Spell (first ++ names) d := by
  constructor
  · intro x
    rw [List.foldl_append, hfirst.content, hnames.content]
    simp [Content.put]
  · intro m hm
    rcases List.mem_append.mp hm with hm | hm
    · exact hfirst.leaves m hm
    · exact hnames.leaves m hm

theorem importRest_namespace_at (dialect : Dialect) {size : Nat} {d : Declaration}
    (first : List Node) (hd : d.Usual) {name : String} (hname : d.namespaceName = some name)
    (hc : c.At (d.restText (' ' :: text))) (hsolid : Solid text) {t : Token} {k : Nat}
    (hscan : scanToken text = some (t, k, rest)) :
    ∃ names c', importRest first (topContext dialect size) c = .ok (first ++ names, c') ∧
      c'.At text ∧ Spell names { d with defaultName := none } := by
  have hspace {cs : List Char} : EndsName (' ' :: cs) := endsName_cons (by decide)
  have hnamed : d.named = [] := hd.alone.resolve_left (by rw [hname]; simp)
  rw [Declaration.restText_namespace hname] at hc
  obtain ⟨hlocal, husable⟩ := hd.names name (by simp [Declaration.localNames, hname])
  obtain ⟨hstar, hafter⟩ := hc.unique scan_star
  obtain ⟨c₁, hnext, -, has, hafter⟩ := advance_name (.inr hafter) (by decide) hspace
  obtain ⟨c₂, hnext₁, -, htoken, hafter⟩ := advance_name (.inr hafter) hlocal hspace
  obtain ⟨c₃, hnext₂, hc₃⟩ := Cursor.advance_at (.inr hafter) hsolid hscan
  have hown : identifier (topContext dialect size) c₂ = .ok (_, c₃) :=
    identifier_eq_ok.mpr ⟨name, false, htoken, husable, leaf_of_advance _ hnext₂⟩
  refine ⟨[⟨.importNamespace name, ⟨c.span.start, c₃.last⟩, []⟩], c₃, ?_, hc₃, ?_, ?_⟩
  · unfold importRest
    rw [bind_of_ok here_run, bind_of_ok (eat_eq_ok.mpr (.inl ⟨rfl, hstar, hnext⟩))]
    refine (bind_of_ok (x := ()) (expectWord_eq_ok.mpr ⟨has, hnext₁⟩)).trans ?_
    exact (bind_of_ok hown).trans rfl
  · intro x
    simp [Content.read, Content.put, hname, hnamed]
  · intro m hm
    rw [List.mem_singleton.mp hm]
    exact ⟨rfl, by simp⟩

theorem importRest_named_at (dialect : Dialect) {size : Nat} {d : Declaration} (first : List Node)
    (hwritable : ∀ n ∈ d.named, n.Writable) (hsize : d.named.length ≤ size + 1)
    (hname : d.namespaceName = none) (hne : d.named ≠ []) (hc : c.At (d.restText (' ' :: text)))
    (hsolid : Solid text) {t : Token} {k : Nat} (hscan : scanToken text = some (t, k, rest)) :
    ∃ names c', importRest first (topContext dialect size) c = .ok (first ++ names, c') ∧
      c'.At text ∧ Spell names { d with defaultName := none } := by
  obtain ⟨n, ns, hnamed⟩ := List.exists_cons_of_ne_nil hne
  rw [Declaration.restText_named hname hnamed] at hc
  rw [hnamed] at hwritable hsize
  obtain ⟨hbrace, hafter⟩ := hc.unique scan_lbrace
  obtain ⟨name, more, htext, hlocal, hmore⟩ :=
    specifierText_append (hwritable n List.mem_cons_self) (endsName_listText (' ' :: text) ns)
  rw [htext] at hafter
  obtain ⟨c₁, hnext, hc₁, -, -⟩ := advance_name (.inr hafter) hlocal hmore
  have hfuel : ns.length + 2 ≤ (topContext dialect size).budget := by
    rw [List.length_cons] at hsize
    simp only [topContext]
    omega
  obtain ⟨nodes, c', hloop, hc', hlists⟩ :=
    importList_at dialect size hwritable hfuel (htext ▸ hc₁) hsolid hscan
  have hlist : commaList .rbrace importSpecifier (topContext dialect size) c₁ =
      .ok (nodes, c') := hloop
  refine ⟨nodes, c', ?_, hc', ?_, isLeaf_lists hlists⟩
  · unfold importRest
    rw [bind_of_ok here_run]
    refine (bind_of_ok (eat_eq_ok.mpr (.inr ⟨rfl, by rw [hbrace]; simp, rfl⟩))).trans ?_
    refine (bind_of_ok (x := ()) (expect_eq_ok.mpr ⟨hbrace, hnext⟩)).trans ?_
    exact bind_of_ok hlist
  · intro x
    rw [foldl_lists hlists]
    simp [Content.put, hname, hnamed]

theorem importRest_at (dialect : Dialect) {size : Nat} {d : Declaration} (first : List Node)
    (hd : d.Usual) (hwritable : ∀ n ∈ d.named, n.Writable) (hsize : d.named.length ≤ size + 1)
    (hne : d.namespaceName ≠ none ∨ d.named ≠ []) (hc : c.At (d.restText (' ' :: text)))
    (hsolid : Solid text) {t : Token} {k : Nat} (hscan : scanToken text = some (t, k, rest)) :
    ∃ names c', importRest first (topContext dialect size) c = .ok (first ++ names, c') ∧
      c'.At text ∧ Spell names { d with defaultName := none } := by
  by_cases hname : d.namespaceName = none
  · have hsome : d.named ≠ [] := hne.resolve_left fun h => h hname
    exact importRest_named_at dialect first hwritable hsize hname hsome hc hsolid hscan
  · obtain ⟨name, hname⟩ := Option.ne_none_iff_exists'.mp hname
    exact importRest_namespace_at dialect first hd hname hc hsolid hscan

theorem spell_default {d : Declaration} {name : String} (c c' : Cursor)
    (h : d.defaultName = some name) :
    Spell [defaultNode name c c'] { d with namespaceName := none, named := [] } := by
  constructor
  · intro x
    simp [defaultNode, Content.read, Content.put, h]
  · intro m hm
    rw [List.mem_singleton.mp hm]
    exact ⟨rfl, by simp [defaultNode]⟩

theorem restText_token {d : Declaration} {tail : List Char}
    (hsome : d.namespaceName ≠ none ∨ d.named ≠ []) (hc : c.At (d.restText tail)) :
    c.token = .punct .star ∨ c.token = .punct .lbrace := by
  cases hname : d.namespaceName with
  | some name =>
    rw [Declaration.restText_namespace hname] at hc
    exact .inl (hc.unique scan_star).1
  | none =>
    cases hnamed : d.named with
    | nil => simp [hname, hnamed] at hsome
    | cons n ns =>
      rw [Declaration.restText_named hname hnamed] at hc
      exact .inr (hc.unique scan_lbrace).1

theorem scan_restText {d : Declaration} (hsome : d.namespaceName ≠ none ∨ d.named ≠ [])
    (tail : List Char) : Solid (d.restText tail) ∧
      ∃ p n after, scanToken (d.restText tail) = some (.punct p, n, after) := by
  cases hname : d.namespaceName with
  | some name =>
    rw [Declaration.restText_namespace hname]
    exact ⟨solid_cons (by decide), _, _, _, scan_star⟩
  | none =>
    cases hnamed : d.named with
    | nil => simp [hname, hnamed] at hsome
    | cons n ns =>
      rw [Declaration.restText_named hname hnamed]
      exact ⟨solid_cons (by decide), _, _, _, scan_lbrace⟩

/-- The first token of what is imported. Either it is a punctuator and what follows the default name
starts here, or it is the default name; then the word `from` or a comma comes next. -/
theorem clause_cases {d : Declaration} (hd : d.Usual) (hne : d.isEmpty = false)
    (hc : c.At (d.clauseText (' ' :: ("from".toList ++ ' ' :: rest)))) :
    (d.defaultName = none ∧ (d.namespaceName ≠ none ∨ d.named ≠ []) ∧
        c.At (d.restText (' ' :: ("from".toList ++ ' ' :: rest)))) ∨
      ∃ name c₁, d.defaultName = some name ∧ c.token = .name name false ∧ IsLocal name ∧
        c.advance = .ok c₁ ∧
        (d.namespaceName = none ∧ d.named = [] ∧ c₁.token = .name "from" false ∧
            c₁.At ("from".toList ++ ' ' :: rest) ∨
          (d.namespaceName ≠ none ∨ d.named ≠ []) ∧ c₁.token = .punct .comma ∧ ∃ c₂,
            c₁.advance = .ok c₂ ∧ c₂.At (d.restText (' ' :: ("from".toList ++ ' ' :: rest)))) := by
  have hspace {cs : List Char} : EndsName (' ' :: cs) := endsName_cons (by decide)
  unfold Declaration.clauseText at hc
  cases hdefault : d.defaultName with
  | none =>
    rw [hdefault] at hc
    have hsome : d.namespaceName ≠ none ∨ d.named ≠ [] := by
      by_contra hnone
      rw [not_or, not_not, not_not] at hnone
      simp [Declaration.isEmpty, Declaration.localNames, hdefault, hnone] at hne
    exact .inl ⟨rfl, hsome, hc⟩
  | some name =>
    rw [hdefault] at hc
    dsimp only at hc
    have hlocal := hd.names name (by simp [Declaration.localNames, hdefault])
    by_cases hnone : d.namespaceName = none ∧ d.named = []
    · rw [if_pos hnone] at hc
      obtain ⟨htoken, hafter⟩ := at_name hc hlocal.1 hspace
      obtain ⟨c₁, hnext, hc₁, hfrom, -⟩ := advance_name (.inr hafter) (by decide) hspace
      exact .inr ⟨name, c₁, rfl, htoken, hlocal, hnext, .inl ⟨hnone.1, hnone.2, hfrom, hc₁⟩⟩
    · rw [if_neg hnone] at hc
      have hsome := not_and_or.mp hnone
      obtain ⟨htoken, hafter⟩ := at_name hc hlocal.1 (endsName_cons (by decide))
      obtain ⟨c₁, hnext, -, hcomma, hafter⟩ :=
        advance_punct (.inl hafter) (solid_cons (by decide)) scan_comma
      obtain ⟨hsolid, p, n, after, hscan⟩ :=
        scan_restText hsome (' ' :: ("from".toList ++ ' ' :: rest))
      obtain ⟨c₂, hnext₁, hc₂⟩ := Cursor.advance_at (.inr hafter) hsolid hscan
      exact .inr ⟨name, c₁, rfl, htoken, hlocal, hnext, .inr ⟨hsome, hcomma, c₂, hnext₁, hc₂⟩⟩

/-- Reading what is imported comes down to reading what follows the default name. -/
theorem importClause_at (dialect : Dialect) (size : Nat) {d : Declaration} (hd : d.Usual)
    (hne : d.isEmpty = false)
    (hc : c.At (d.clauseText (' ' :: ("from".toList ++ ' ' :: rest)))) :
    (d.namespaceName = none ∧ d.named = [] ∧ ∃ names c',
        importClause (topContext dialect size) c = .ok (names, c') ∧
        c'.At ("from".toList ++ ' ' :: rest) ∧ Spell names d) ∨
      (d.namespaceName ≠ none ∨ d.named ≠ []) ∧ ∃ first c',
        importClause (topContext dialect size) c =
          importRest first (topContext dialect size) c' ∧
        c'.At (d.restText (' ' :: ("from".toList ++ ' ' :: rest))) ∧
        Spell first { d with namespaceName := none, named := [] } := by
  rcases clause_cases hd hne hc with ⟨hnone, hsome, hc⟩ |
    ⟨name, c₁, hname, htoken, ⟨-, husable⟩, hnext, ⟨hspace, hnamed, hfrom, hc₁⟩ |
      ⟨hsome, hcomma, c₂, hnext₁, hc₂⟩⟩
  · have hvariable : isVariable (topContext dialect size) c.token = false := by
      rcases restText_token hsome hc with htoken | htoken <;> rw [htoken] <;> rfl
    refine .inr ⟨hsome, [], c, importClause_of_none hvariable, hc, ?_, by simp⟩
    intro x
    simp [Content.put, hnone]
  · have hspell : Spell [defaultNode name c c₁] d := by
      have hdefault := spell_default c c₁ hname
      rwa [← hspace, ← hnamed] at hdefault
    exact .inl ⟨hspace, hnamed, _, c₁,
      importClause_default htoken husable hnext (by rw [hfrom]; simp), hc₁, hspell⟩
  · exact .inr ⟨hsome, _, c₂, importClause_comma htoken husable hnext hcomma hnext₁, hc₂,
      spell_default c c₁ hname⟩

theorem scan_clauseText {d : Declaration} (hd : d.Usual) (hne : d.isEmpty = false)
    (tail : List Char) : Solid (d.clauseText (' ' :: tail)) ∧
      ∃ t n after, scanToken (d.clauseText (' ' :: tail)) = some (t, n, after) := by
  unfold Declaration.clauseText
  cases hdefault : d.defaultName with
  | none =>
    have hsome : d.namespaceName ≠ none ∨ d.named ≠ [] := by
      by_contra hnone
      rw [not_or, not_not, not_not] at hnone
      simp [Declaration.isEmpty, Declaration.localNames, hdefault, hnone] at hne
    obtain ⟨hsolid, p, n, after, hscan⟩ := scan_restText hsome (' ' :: tail)
    exact ⟨hsolid, _, n, after, hscan⟩
  | some name =>
    have hlocal := hd.names name (by simp [Declaration.localNames, hdefault])
    dsimp only
    split
    · exact ⟨solid_name hlocal.1 _, _, _, _, scanToken_name hlocal.1 (endsName_cons (by decide))⟩
    · exact ⟨solid_name hlocal.1 _, _, _, _, scanToken_name hlocal.1 (endsName_cons (by decide))⟩

/-- After the first word of what is imported stands `from` or a comma. -/
theorem clause_next {d : Declaration} (hd : d.Usual) (hne : d.isEmpty = false)
    (hc : c.At (d.clauseText (' ' :: ("from".toList ++ ' ' :: rest)))) :
    (c.token = .punct .star ∨ c.token = .punct .lbrace) ∨
      (∃ name, c.token = .name name false) ∧ ∃ c₁, c.advance = .ok c₁ ∧
        (c₁.token = .name "from" false ∨ c₁.token = .punct .comma) := by
  rcases clause_cases hd hne hc with ⟨-, hsome, hc⟩ |
    ⟨name, c₁, -, htoken, -, hnext, ⟨-, -, hfrom, -⟩ | ⟨-, hcomma, -⟩⟩
  · exact .inl (restText_token hsome hc)
  · exact .inr ⟨⟨name, htoken⟩, c₁, hnext, .inl hfrom⟩
  · exact .inr ⟨⟨name, htoken⟩, c₁, hnext, .inr hcomma⟩

/-- The text of a declaration is taken for an import, and is read from what is imported on. -/
theorem statement_at (rec : Script.Rec) (dialect : Dialect) (size : Nat) (rest : List Char)
    {d : Declaration} (hd : d.Usual) (hne : d.isEmpty = false) :
    ∃ c c₁, Cursor.start ("import".toList ++
        ' ' :: d.clauseText (' ' :: ("from".toList ++ ' ' :: rest))) = .ok c ∧
      c.token = .name "import" false ∧
      c₁.At (d.clauseText (' ' :: ("from".toList ++ ' ' :: rest))) ∧
      statement rec false (topContext dialect size) c =
        importBody false c.span.start (topContext dialect size) c₁ := by
  have hword : isName "import".toList = true := by decide
  have hspace {cs : List Char} : EndsName (' ' :: cs) := endsName_cons (by decide)
  obtain ⟨c, hstart, hc⟩ : ∃ c, Cursor.start ("import".toList ++
      ' ' :: d.clauseText (' ' :: ("from".toList ++ ' ' :: rest))) = .ok c ∧ c.At _ :=
    Cursor.read_at (solid_name hword _) (scanToken_name hword hspace)
  obtain ⟨htoken, hafter⟩ := at_name hc hword hspace
  obtain ⟨hsolid, t, n, after, hscan⟩ := scan_clauseText hd hne ("from".toList ++ ' ' :: rest)
  obtain ⟨c₁, hnext, hc₁⟩ := Cursor.advance_at (.inr hafter) hsolid hscan
  refine ⟨c, c₁, hstart, htoken, hc₁, ?_⟩
  have hfirst := clause_next hd hne hc₁
  have hparen : nextPasses c (fun c => c.token == .punct .lparen || c.token == .punct .dot) =
      false := by
    rw [nextPasses_of_ok hnext]
    rcases hfirst with (htoken | htoken) | ⟨⟨name, htoken⟩, -⟩ <;> rw [htoken] <;> rfl
  -- A word that could be a modifier is one only before other tokens.
  have hmodifier {test : Cursor → Bool}
      (hfrom : ∀ c : Cursor, c.token = .name "from" false → test c = false)
      (hcomma : ∀ c : Cursor, c.token = .punct .comma → test c = false) {t : Token}
      (ht : ∀ p, t ≠ .punct p) (heq : c₁.token = t) : nextPasses c₁ test = false := by
    rcases hfirst with (htoken | htoken) | ⟨-, c₂, hnext₁, htoken | htoken⟩
    · exact absurd (heq ▸ htoken) (ht _)
    · exact absurd (heq ▸ htoken) (ht _)
    · rw [nextPasses_of_ok hnext₁, hfrom c₂ htoken]
    · rw [nextPasses_of_ok hnext₁, hcomma c₂ htoken]
  have himport : importDeclaration (topContext dialect size) c =
      importBody false c.span.start (topContext dialect size) c₁ := by
    refine importDeclaration_eq htoken hnext ?_ ?_ ?_ (importPhase_absent ?_ ?_)
    · intro value
      rcases hfirst with (htoken | htoken) | ⟨⟨name, htoken⟩, -⟩ <;> rw [htoken] <;> simp
    · exact hmodifier (fun c h => by simp [marksImport, h]) (fun c h => by simp [marksImport, h])
        (by simp)
    · intro hvariable
      refine hmodifier (fun c h => by simp [h]) (fun c h => by simp [h]) (fun p hp => ?_) rfl
      rw [hp] at hvariable
      cases hvariable
    · exact hmodifier (fun c h => by simp [h]) (fun c h => by simp [h]) (by simp)
    · exact hmodifier (fun c h => by simp [marksSource, h]) (fun c h => by simp [marksSource, h])
        (by simp)
  unfold statement
  rw [bind_of_ok here_run, bind_of_ok (isWord_run _), bind_of_ok (nextIs_run _)]
  dsimp only
  rw [htoken, hparen]
  exact himport

theorem importClause_eq_ok_at (dialect : Dialect) {size : Nat} {d : Declaration} (hd : d.Usual)
    (hne : d.isEmpty = false) (hwritable : ∀ n ∈ d.named, n.Writable)
    (hsize : d.named.length ≤ size + 1)
    (hc : c.At (d.clauseText (' ' :: ("from".toList ++ ' ' :: rest)))) :
    ∃ names c', importClause (topContext dialect size) c = .ok (names, c') ∧
      c'.At ("from".toList ++ ' ' :: rest) ∧ Spell names d := by
  have hfrom : isName "from".toList = true := by decide
  rcases importClause_at dialect size hd hne hc with ⟨-, -, hclause⟩ |
    ⟨hsome, first, c₁, hclause, hc₁, hfirst⟩
  · exact hclause
  · obtain ⟨names, c', hrest, hc', hnames⟩ := importRest_at dialect first hd hwritable
      hsize hsome hc₁ (solid_name hfrom _) (scanToken_name hfrom (endsName_cons (by decide)))
    exact ⟨first ++ names, c', hclause.trans hrest, hc', hfirst.append hnames⟩

theorem scan_semicolon : scanToken (';' :: rest) = some (.punct .semicolon, 1, rest) := rfl

theorem solid_moduleText (quote : Quote) (module : String) : Solid (moduleText quote module) := by
  cases quote with
  | single => exact solid_cons (by decide)
  | double => exact solid_cons (by decide)

theorem moduleName_at (ctx : Context) {quote : Quote} {module : String}
    (hplain : ∀ x ∈ module.toList, IsPlain quote.char x) (hc : c.At (fromText quote module)) :
    ∃ n c₁ c₂ c', c.token = .name "from" false ∧ c.advance = .ok c₁ ∧
      moduleName ctx c₁ = .ok ([n], c₂) ∧ n.kind = .string module ∧ n.children = [] ∧
      semicolon ctx c₂ = .ok ((), c') ∧ c'.token = .done := by
  have hspace {cs : List Char} : EndsName (' ' :: cs) := endsName_cons (by decide)
  obtain ⟨hfrom, hafter⟩ := at_name hc (by decide) hspace
  obtain ⟨k, hscan⟩ := scanToken_plain [';'] (quote_cases quote) hplain
  obtain ⟨c₁, hnext, hc₁⟩ := Cursor.advance_at (.inr hafter) (solid_moduleText quote module) hscan
  obtain ⟨hstring, hafter⟩ := hc₁.unique hscan
  obtain ⟨c₂, hnext₁, -, hsemicolon, hafter⟩ :=
    advance_punct (.inl hafter) (solid_cons (by decide)) scan_semicolon
  obtain ⟨c', hnext₂, hc'⟩ := Cursor.advance_at (t := .done) (.inl hafter) (by simp [Solid]) rfl
  obtain ⟨n, hn, hkind, hchildren⟩ := moduleName_plain ctx hstring hnext₁ hsemicolon
  refine ⟨n, c₁, c₂, c', hfrom, hnext, hn, hkind, hchildren, ?_, (hc'.unique rfl).1⟩
  exact bind_of_ok (eat_eq_ok.mpr (.inl ⟨rfl, hsemicolon, hnext₂⟩))

def Declaration.content (d : Declaration) : Content :=
  ({ module := d.module } : Content).put d

theorem length_named_le (d : Declaration) (tail : List Char) (h : d.Usual) :
    d.named.length ≤ (d.clauseText tail).length := by
  have hlist (ns : List Named) : ns.length ≤ (listText tail ns).length := by
    induction ns with
    | nil => simp
    | cons n ns ih =>
      simp only [listText, List.length_cons, List.length_append]
      omega
  have hrest : d.named.length ≤ (d.restText tail).length := by
    unfold Declaration.restText
    split
    · rename_i hname
      simp [h.alone.resolve_left (by simp [hname])]
    · rename_i n ns _ hnamed
      rw [hnamed]
      have := hlist ns
      simp only [List.length_cons, List.length_append]
      omega
    · rename_i hnamed
      simp [hnamed]
  unfold Declaration.clauseText
  split
  · exact hrest
  · split
    · rename_i hnone
      simp [hnone.2]
    · simp only [List.length_append, List.length_cons]
      omega

theorem complete_of_leaves {span span' : Span} {parts : List Node} {typeOnly : Bool}
    (h : ∀ m ∈ parts, IsLeaf m) :
    Script.complete ⟨.program, span, [⟨.importDeclaration typeOnly, span', parts⟩]⟩ = true := by
  have hparts : Node.anyOf (fun m => m.kind = .coverProperty) parts = false := by
    induction parts with
    | nil => rfl
    | cons m parts ih =>
      obtain ⟨hchildren, hkind⟩ := h m List.mem_cons_self
      obtain ⟨kind, span, children⟩ := m
      cases hchildren
      rw [Node.anyOf, ih fun n hn => h n (List.mem_cons_of_mem _ hn), Node.any, Node.anyOf,
        decide_eq_false hkind]
      rfl
  simp [Script.complete, Node.any, Node.anyOf, hparts]

/-- The text of a declaration is read as what the declaration says. -/
theorem parse_render (dialect : Dialect) {d : Declaration} {quote : Quote} (hd : d.Usual)
    (hne : d.isEmpty = false) (hwritable : ∀ n ∈ d.named, n.Writable)
    (hplain : ∀ x ∈ d.module.toList, IsPlain quote.char x) :
    ∃ script, Script.parse dialect (d.render quote).toList = .ok script ∧
      Content.ofScript script = [d.content] := by
  have htext := Declaration.render_toList quote hd hne
  generalize (d.render quote).toList = source at htext
  have hsize : d.named.length ≤ source.length + 1 := by
    have := length_named_le d (' ' :: fromText quote d.module) hd
    rw [htext, List.length_append, List.length_cons]
    omega
  obtain ⟨c, c₁, hstart, hword, hc₁, hstatement⟩ := statement_at
    (Script.rules (8 * source.length + 31)) dialect source.length (moduleText quote d.module) hd hne
  obtain ⟨names, c₂, hclause, hc₂, hspell⟩ :=
    importClause_eq_ok_at dialect hd hne hwritable hsize hc₁
  obtain ⟨n, c₃, c₄, c₅, hfrom, hnext, hmodule, hkind, hchildren, hend, hdone⟩ :=
    moduleName_at (topContext dialect source.length) hplain hc₂
  let item : Node := ⟨.importDeclaration false, ⟨c.span.start, c₅.last⟩, names ++ [n]⟩
  have hitem : Script.rules (8 * (source.length + 4)) (.statement false)
      (topContext dialect source.length) c = .ok (item, c₅) := by
    rw [Script.rules_statement, hstatement]
    unfold importBody
    rw [bind_of_ok hclause]
    refine (bind_of_ok (x := ()) (expectWord_eq_ok.mpr ⟨hfrom, hnext⟩)).trans ?_
    rw [bind_of_ok hmodule, bind_of_ok hend]
    rfl
  refine ⟨⟨.program, ⟨0, c₅.last⟩, [item]⟩, ?_, ?_⟩
  · refine Script.parse_eq_ok.mpr ⟨c, c₅, htext ▸ hstart, ?_, ?_⟩
    · refine Script.program_eq_ok.mpr ⟨[item], ?_, hdone, rfl⟩
      refine manyLoop_eq_ok.mpr (.inr ⟨item, [], c₅, rfl, ?_, ?_⟩)
      · exact Script.scriptItem_eq_ok.mpr (.inr ⟨item, rfl, by rw [hword]; simp, hitem⟩)
      · exact manyLoop_eq_ok.mpr (.inl ⟨rfl, Script.scriptItem_eq_ok.mpr (.inl ⟨rfl, hdone, rfl⟩)⟩)
    · apply complete_of_leaves
      intro m hm
      rcases List.mem_append.mp hm with hm | hm
      · exact hspell.leaves m hm
      · rw [List.mem_singleton.mp hm]
        exact ⟨hchildren, by rw [hkind]; simp⟩
  · have hread : (names ++ [n]).foldl Content.read {} = d.content := by
      rw [List.foldl_append, hspell.content, List.foldl_cons, List.foldl_nil, Content.read, hkind]
      rfl
    exact congrArg (fun x => [x]) hread

end Reading

end EmberClasses.Import
