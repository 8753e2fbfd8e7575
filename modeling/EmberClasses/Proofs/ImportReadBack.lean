import EmberClasses.Proofs.ImportText

/-! Which declarations can be read back from their text. A token is never shorter than what it
says, so reading can not fall behind the text; and where a string is read in place of a word, it
gets ahead of the text and does not find the module any more. -/

namespace EmberClasses.Script.Cursor

open Lexer

/-- The cursor is on a token, with the white space before it skipped. -/
structure OnToken (c : Cursor) : Prop where
  scanned : c.At c.here
  solid : ∀ x ∈ c.here.head?, isSpace x = false

variable {c c' : Cursor} {text : String} {escaped escaped' : Bool} {cs : List Char}

theorem onToken_of_advance (h : c.advance = .ok c') : c'.OnToken ∧ c'.here <:+ c.rest := by
  obtain ⟨hscanned, hsuffix, hsolid⟩ := advance_eq_ok h
  exact ⟨⟨hscanned, hsolid⟩, hsuffix⟩

theorem At.suffix (h : c.At cs) : c.here <:+ cs := by rw [h.here]

theorem At.onToken (h : c.At cs) (hsolid : Solid cs) : c.OnToken := by
  obtain ⟨rfl, hscan⟩ := h
  exact ⟨⟨rfl, hscan⟩, fun x hx => (hsolid x hx).2.1⟩

namespace OnToken

theorem name (h : c.OnToken) (htoken : c.token = .name text escaped) :
    c.rest <:+ c.here ∧ c.rest.length + text.length ≤ c.here.length := by
  obtain ⟨n, hscan⟩ := h.scanned.scan
  rw [htoken] at hscan
  obtain ⟨-, -, -, read, hread, hlen⟩ := name_of_scanToken hscan
  refine ⟨⟨read, hread.symm⟩, ?_⟩
  rw [hread, List.length_append]
  omega

theorem string (h : c.OnToken) (htoken : c.token = .string text) :
    c.rest <:+ c.here ∧ c.rest.length + text.length + 2 ≤ c.here.length := by
  obtain ⟨n, hscan⟩ := h.scanned.scan
  rw [htoken] at hscan
  obtain ⟨quote, body, -, hread, hlen, -⟩ := string_of_scanToken hscan
  refine ⟨⟨quote :: (body ++ [quote]), by rw [hread]; simp⟩, ?_⟩
  rw [hread, List.length_cons, List.length_append, List.length_cons]
  omega

theorem punct {p : Punct} (h : c.OnToken) (htoken : c.token = .punct p) :
    c.rest <:+ c.here ∧ c.rest.length < c.here.length := by
  obtain ⟨n, hscan⟩ := h.scanned.scan
  rw [htoken] at hscan
  exact punct_of_scanToken hscan

theorem name_name {text' : String} (h : c.OnToken) (htoken : c.token = .name text escaped)
    (hnext : c.advance = .ok c') (htoken' : c'.token = .name text' escaped') :
    c'.here.length < c.rest.length := by
  obtain ⟨n, hscan⟩ := h.scanned.scan
  rw [htoken] at hscan
  obtain ⟨hc', hsuffix⟩ := onToken_of_advance hnext
  obtain ⟨n', hscan'⟩ := hc'.scanned.scan
  rw [htoken'] at hscan'
  obtain ⟨-, -, hends, -⟩ := name_of_scanToken hscan
  obtain ⟨-, hstarts, -⟩ := name_of_scanToken hscan'
  by_contra hlen
  have heq := hsuffix.eq_of_length_le (by omega)
  exact hstarts (heq ▸ hends)

theorem suffix_of_space (h : c.OnToken) (hs : c.here <:+ ' ' :: cs) : c.here <:+ cs := by
  rcases List.suffix_cons_iff.mp hs with heq | hs
  · exact absurd (h.solid ' ' (by rw [heq]; rfl)) (by decide)
  · exact hs

/-- A punctuator and the blank after it are passed together. -/
theorem after_punct {p : Punct} {x : Char} (h : c.OnToken) (htoken : c.token = .punct p)
    (hsuffix : c.here <:+ x :: ' ' :: cs) (hnext : c.advance = .ok c') :
    c'.OnToken ∧ c'.here <:+ cs ∧ c'.here.length < c.here.length := by
  obtain ⟨hc', hafter⟩ := onToken_of_advance hnext
  obtain ⟨hrest, hlength⟩ := h.punct htoken
  have hle := hsuffix.length_le
  have hspace : c.rest <:+ ' ' :: cs := by
    refine List.suffix_of_suffix_length_le (hrest.trans hsuffix) (List.suffix_cons _ _) ?_
    simp only [List.length_cons] at hle ⊢
    omega
  exact ⟨hc', hc'.suffix_of_space (hafter.trans hspace), hafter.length_le.trans_lt hlength⟩

theorem eq_of_longer {x : Char} (h : c.OnToken) (hsuffix : c.here <:+ x :: ' ' :: cs)
    (hlength : cs.length < c.here.length) : c.here = x :: ' ' :: cs := by
  rcases List.suffix_cons_iff.mp hsuffix with heq | hsuffix
  · exact heq
  · have hle := (h.suffix_of_space hsuffix).length_le
    omega

end OnToken

end EmberClasses.Script.Cursor

namespace EmberClasses.Import

open Script (Node Kind Token Punct Context Cursor Dialect topContext)
open Script.Lexer
open Script.Parser (usable)

section Lengths

open Script.Parser Script.Grammar

variable {ctx : Context} {c c' : Cursor} {text more : List Char}

theorem length_specifierText (n : Named) : (specifierText n).length =
    if n.imported = n.localName then n.localName.length
    else n.imported.length + n.localName.length + 4 := by
  unfold specifierText
  split
  · rfl
  · simp only [List.length_append, List.length_cons, String.length_toList]
    have : "as".length = 2 := rfl
    omega

/-- How much of the text the import of one name takes: as much as it is written with, and more if
its exported name is read from a string. -/
structure Takes (n : Named) (c c' : Cursor) : Prop where
  onToken : c'.OnToken
  suffix : c'.here <:+ c.here
  length : c'.here.length + (specifierText n).length ≤ c.here.length
  spelled : n.Worded ∨ n.imported ≠ n.localName ∧ ∃ c₁ : Cursor, c₁.OnToken ∧
    c₁.here <:+ c.here ∧ c₁.token = .string n.imported ∧
    c'.here.length + n.localName.length + 3 ≤ c₁.rest.length

theorem takes_of_importSpecifier {m : Node} (hc : c.OnToken)
    (h : importSpecifier ctx c = .ok (m, c')) : ∃ n : Named, ∃ typeOnly,
      m.kind = .importNamed n.imported n.localName typeOnly ∧ Takes n c c' := by
  obtain ⟨typeOnly, imported, name, c₁, c₂, hfirst, hexported, hnext, hkind, -, -, hrest⟩ :=
    importSpecifier_eq_ok h
  refine ⟨⟨imported, name⟩, typeOnly, hkind, ?_⟩
  have hc₁ : c₁.OnToken ∧ c₁.here <:+ c.here := by
    rcases hfirst with rfl | ⟨htype, hmoved⟩
    · exact ⟨hc, List.suffix_rfl⟩
    · obtain ⟨hc₁, hsuffix⟩ := Cursor.onToken_of_advance hmoved
      exact ⟨hc₁, hsuffix.trans (hc.name htype).1⟩
  obtain ⟨hc₁, hsuffix₁⟩ := hc₁
  obtain ⟨hc₂, hsuffix₂⟩ := Cursor.onToken_of_advance hnext
  have hlength := length_specifierText ⟨imported, name⟩
  dsimp only at hlength
  rcases hrest with ⟨c₃, escaped, has, hafter, hname, hlast⟩ | ⟨⟨escaped, hname⟩, rfl, rfl⟩
  · obtain ⟨hc₃, hsuffix₃⟩ := Cursor.onToken_of_advance hafter
    obtain ⟨hc', hsuffix'⟩ := Cursor.onToken_of_advance hlast
    obtain ⟨has_suffix, has_length⟩ := hc₂.name has
    obtain ⟨hname_suffix, hname_length⟩ := hc₃.name hname
    have hgap := hc₂.name_name has hafter hname
    have htwo : "as".length = 2 := rfl
    have hchain : c'.here <:+ c₂.here :=
      hsuffix'.trans (hname_suffix.trans (hsuffix₃.trans has_suffix))
    have hend : c'.here.length + name.length + 3 ≤ c₂.here.length := by
      have := hsuffix'.length_le
      omega
    have hle₁ := hsuffix₁.length_le
    have hle₂ := hsuffix₂.length_le
    cases htoken : c₁.token with
    | string value =>
      rw [htoken] at hexported
      cases hexported
      obtain ⟨hstring_suffix, hstring_length⟩ := hc₁.string htoken
      have hend₁ : c'.here.length + name.length + 3 ≤ c₁.rest.length := by omega
      refine ⟨hc', hchain.trans (hsuffix₂.trans (hstring_suffix.trans hsuffix₁)), ?_, ?_⟩
      · rw [hlength]
        split <;> omega
      · by_cases heq : imported = name
        · exact .inl (.inl heq)
        · exact .inr ⟨heq, c₁, hc₁, hsuffix₁, htoken, hend₁⟩
    | name text escaped' =>
      rw [htoken] at hexported
      cases hexported
      obtain ⟨hfirst_suffix, hfirst_length⟩ := hc₁.name htoken
      have hgap₁ := hc₁.name_name htoken hnext has
      obtain ⟨k, hscan⟩ := hc₁.scanned.scan
      rw [htoken] at hscan
      refine ⟨hc', hchain.trans (hsuffix₂.trans (hfirst_suffix.trans hsuffix₁)), ?_, .inl (.inr ?_)⟩
      · rw [hlength]
        split <;> omega
      · exact (name_of_scanToken hscan).1
    | _ =>
      rw [htoken] at hexported
      cases hexported
  · obtain ⟨hname_suffix, hname_length⟩ := hc₁.name hname
    have hle₁ := hsuffix₁.length_le
    have hle₂ := hsuffix₂.length_le
    refine ⟨hc₂, hsuffix₂.trans (hname_suffix.trans hsuffix₁), ?_, .inl (.inl rfl)⟩
    rw [hlength, if_pos rfl]
    omega

/-- The text is too short for a string: the quote that ends it would be the `a` of `as`. -/
theorem not_string_of_tight {n : Named} (hne : n.imported ≠ n.localName) (hc : c.OnToken)
    (hsuffix : c.here <:+ specifierText n ++ more) (htoken : c.token = .string n.imported)
    (htight : more.length + n.localName.length + 2 ≤ c.rest.length) : False := by
  obtain ⟨k, hscan⟩ := hc.scanned.scan
  rw [htoken] at hscan
  obtain ⟨quote, body, hquote, hread, hlen, -⟩ := string_of_scanToken hscan
  have hlength := length_specifierText n
  rw [if_neg hne] at hlength
  have hle := hsuffix.length_le
  have hcount := congrArg List.length hread
  simp only [List.length_append, List.length_cons] at hle hcount
  have heq : c.here = specifierText n ++ more :=
    hsuffix.eq_of_length_le (by rw [List.length_append]; omega)
  have hbody : body.length = n.imported.toList.length := by
    rw [String.length_toList]
    omega
  have hleft : c.here[n.imported.toList.length + 1]? = some quote := by
    rw [hread, ← hbody]
    simp
  have hright : c.here[n.imported.toList.length + 1]? = some 'a' := by
    rw [heq, specifierText, if_neg hne, List.append_assoc, List.getElem?_append_right (by omega)]
    rw [Nat.add_sub_cancel_left]
    rfl
  rw [hleft, Option.some.injEq] at hright
  subst hright
  revert hquote
  decide

theorem Takes.suffix_of_text {n : Named} (h : Takes n c c')
    (hsuffix : c.here <:+ specifierText n ++ more) : c'.here <:+ more := by
  refine List.suffix_of_suffix_length_le (h.suffix.trans hsuffix) (List.suffix_append _ _) ?_
  have hle := hsuffix.length_le
  have hlength := h.length
  rw [List.length_append] at hle
  omega

theorem Takes.worded {n : Named} (h : Takes n c c')
    (hsuffix : c.here <:+ specifierText n ++ more) (htight : more.length ≤ c'.here.length + 1) :
    n.Worded := by
  rcases h.spelled with hworded | ⟨hne, c₁, hc₁, hc, htoken, hrest⟩
  · exact hworded
  · exact (not_string_of_tight hne hc₁ (hc.trans hsuffix) htoken (by omega)).elim

def named? (part : Node) : Option Named :=
  match part.kind with
  | .importNamed imported name _ => some ⟨imported, name⟩
  | _ => none

theorem named_foldl (parts : List Node) (x : Content) :
    (parts.foldl Content.read x).specifiers.map (·.toNamed) =
      x.specifiers.map (·.toNamed) ++ parts.filterMap named? := by
  induction parts generalizing x with
  | nil => simp
  | cons part parts ih =>
    rw [List.foldl_cons, ih, List.filterMap_cons]
    unfold Content.read named?
    cases part.kind <;> simp

section Lists

variable {n : Named} {ns : List Named} {fuel : Nat} {nodes : List Node}

theorem importList_nil (hc : c.OnToken)
    (h : manyLoop (listItem .rbrace importSpecifier) (fuel + 1) ctx c = .ok (nodes, c'))
    (hnodes : nodes.filterMap named? = []) : c.token = .punct .rbrace ∧ c.advance = .ok c' := by
  rcases manyLoop_eq_ok.mp h with ⟨-, hitem⟩ | ⟨m, rest, c₁, rfl, hitem, -⟩
  · rcases listItem_eq_ok.mp hitem with ⟨-, hclose⟩ | ⟨_, _, hsome, -⟩
    · exact hclose
    · cases hsome
  · rcases listItem_eq_ok.mp hitem with ⟨hnone, -⟩ | ⟨_, c₂, hsome, -, hm, -⟩
    · cases hnone
    · cases hsome
      obtain ⟨n, typeOnly, hkind, -⟩ := takes_of_importSpecifier hc hm
      simp [named?, hkind] at hnodes

theorem importList_cons (hc : c.OnToken)
    (h : manyLoop (listItem .rbrace importSpecifier) (fuel + 1) ctx c = .ok (nodes, c'))
    (hnodes : nodes.filterMap named? = n :: ns) : c.token ≠ .punct .rbrace ∧ ∃ rest c₁ c₂,
      rest.filterMap named? = ns ∧ Takes n c c₁ ∧
      (c₁.token = .punct .rbrace ∧ c₂ = c₁ ∨ c₁.token = .punct .comma ∧ c₁.advance = .ok c₂) ∧
      manyLoop (listItem .rbrace importSpecifier) fuel ctx c₂ = .ok (rest, c') := by
  rcases manyLoop_eq_ok.mp h with ⟨rfl, -⟩ | ⟨m, rest, c₂, rfl, hitem, hloop⟩
  · cases hnodes
  · rcases listItem_eq_ok.mp hitem with ⟨hnone, -⟩ | ⟨_, c₁, hsome, hopen, hm, hend⟩
    · cases hnone
    · cases hsome
      obtain ⟨n', typeOnly, hkind, htakes⟩ := takes_of_importSpecifier hc hm
      rw [List.filterMap_cons, named?, hkind] at hnodes
      obtain ⟨rfl, hrest⟩ := List.cons.inj hnodes
      exact ⟨hopen, rest, c₁, c₂, hrest, htakes, hend.imp_right And.right, hloop⟩

/-- A comma is not passed over, for the name behind it does not start with one. -/
theorem here_of_comma {m : Named} {ms : List Named} (hm : m.Writable) (hc : c.OnToken)
    (hcomma : c.token = .punct .comma)
    (hsuffix : c.here <:+ ',' :: ' ' :: (specifierText m ++ listText (' ' :: text) ms))
    (hlength : (specifierText m ++ listText (' ' :: text) ms).length ≤ c.here.length) :
    c.here = ',' :: ' ' :: (specifierText m ++ listText (' ' :: text) ms) := by
  apply hc.eq_of_longer hsuffix
  by_contra hlong
  have hsame : c.here <:+ specifierText m ++ listText (' ' :: text) ms := by
    refine List.suffix_of_suffix_length_le hsuffix ?_ (by omega)
    exact (List.suffix_cons _ _).trans (List.suffix_cons _ _)
  have hat := hc.scanned
  rw [hsame.eq_of_length_le hlength] at hat
  obtain ⟨name, htoken⟩ := token_of_specifierText hm (endsName_listText _ ms) hat
  rw [hcomma] at htoken
  cases htoken

/-- Reading names in braces never falls behind their text, and if it ends where the text ends, all
exported names were words. The induction follows the names; the bound goes from the end backward. -/
theorem importList_length (hlocal : ∀ m ∈ n :: ns, IsLocal m.localName)
    (hfuel : ns.length + 2 ≤ fuel) (hc : c.OnToken)
    (hsuffix : c.here <:+ specifierText n ++ listText (' ' :: text) ns)
    (h : manyLoop (listItem .rbrace importSpecifier) fuel ctx c = .ok (nodes, c'))
    (hnodes : nodes.filterMap named? = n :: ns) :
    c'.OnToken ∧ c'.here <:+ text ∧ (text.length ≤ c'.here.length →
      (∀ m ∈ n :: ns, m.Worded) ∧
        (specifierText n ++ listText (' ' :: text) ns).length ≤ c.here.length + 1) := by
  induction ns generalizing n c fuel nodes with
  | nil =>
    obtain ⟨fuel, rfl⟩ := Nat.exists_eq_add_of_le' hfuel
    obtain ⟨-, rest, c₁, c₂, hrest, htakes, hend, hloop⟩ := importList_cons hc h hnodes
    have hc₁ := htakes.onToken
    have hbrace : c₁.here <:+ '}' :: ' ' :: text :=
      hc₁.suffix_of_space (htakes.suffix_of_text hsuffix)
    have hlength := htakes.length
    rcases hend with ⟨-, heq⟩ | ⟨hcomma, hnext⟩
    · rw [heq] at hloop
      obtain ⟨hclose, hnext⟩ := importList_nil hc₁ hloop hrest
      obtain ⟨hc', hafter, hless⟩ := hc₁.after_punct hclose hbrace hnext
      refine ⟨hc', hafter, fun htext => ?_⟩
      have hhere := congrArg List.length (hc₁.eq_of_longer hbrace (by omega))
      have hmore : (listText (' ' :: text) []).length ≤ c₁.here.length + 1 := by
        rw [hhere]
        rfl
      refine ⟨?_, by rw [List.length_append]; omega⟩
      intro m hm
      rw [List.mem_singleton.mp hm]
      exact htakes.worded hsuffix hmore
    · obtain ⟨hc₂, hafter, -⟩ := hc₁.after_punct hcomma hbrace hnext
      obtain ⟨hclose, hnext⟩ := importList_nil hc₂ hloop hrest
      obtain ⟨hc', hlast⟩ := Cursor.onToken_of_advance hnext
      obtain ⟨hclose_suffix, hclose_length⟩ := hc₂.punct hclose
      refine ⟨hc', hlast.trans (hclose_suffix.trans hafter), fun htext => ?_⟩
      have hle := hafter.length_le
      have hle' := hlast.length_le
      omega
  | cons m ms ih =>
    rw [List.length_cons] at hfuel
    obtain ⟨fuel, rfl⟩ := Nat.exists_eq_add_of_le' (show 2 ≤ fuel by omega)
    obtain ⟨-, rest, c₁, c₂, hrest, htakes, hend, hloop⟩ := importList_cons hc h hnodes
    have hc₁ := htakes.onToken
    have hcomma_suffix : c₁.here <:+ ',' :: ' ' :: (specifierText m ++ listText (' ' :: text) ms) :=
      htakes.suffix_of_text hsuffix
    have hlength := htakes.length
    have hmore (x : Named) (hx : x ∈ m :: ms) : IsLocal x.localName :=
      hlocal x (List.mem_cons_of_mem n hx)
    rcases hend with ⟨hclose, rfl⟩ | ⟨hcomma, hnext⟩
    · exact absurd hclose (importList_cons hc₁ hloop hrest).1
    · obtain ⟨hc₂, hafter, hless⟩ := hc₁.after_punct hcomma hcomma_suffix hnext
      obtain ⟨hc', hend, hback⟩ := ih hmore (by omega) hc₂ hafter hloop hrest
      refine ⟨hc', hend, fun htext => ?_⟩
      obtain ⟨hworded, hbound⟩ := hback htext
      have hname : m.Writable := ⟨hmore m List.mem_cons_self, hworded m List.mem_cons_self⟩
      have hhere := here_of_comma hname hc₁ hcomma hcomma_suffix (by omega)
      have hcount := congrArg List.length hhere
      refine ⟨?_, by rw [List.length_append, listText, ← hhere]; omega⟩
      intro x hx
      rcases List.mem_cons.mp hx with rfl | hx
      · exact htakes.worded hsuffix (by rw [listText, ← hhere]; omega)
      · exact hworded x hx

end Lists

/-- If the module is read as it is, its text was not passed over, and nothing in it is an escape. -/
theorem moduleText_exact {quote : Quote} {module : String} (hc : c.OnToken)
    (hsuffix : c.here <:+ moduleText quote module) (htoken : c.token = .string module) :
    c.here = moduleText quote module ∧ ∀ x ∈ module.toList, IsPlain quote.char x := by
  obtain ⟨k, hscan⟩ := hc.scanned.scan
  rw [htoken] at hscan
  obtain ⟨quote', body, hquote, hread, hlen, hplain⟩ := string_of_scanToken hscan
  have hlast : quote' ≠ ';' := by rcases hquote with rfl | rfl <;> decide
  -- The text ends with a semicolon, so something is left after the closing quote.
  have hrest : c.rest ≠ [] := by
    intro hnil
    obtain ⟨front, hfront⟩ := hsuffix
    have hend : (front ++ quote' :: body) ++ [quote'] =
        (quote.char :: (module.toList ++ [quote.char])) ++ [';'] := by
      rw [hread, hnil, moduleText] at hfront
      simpa using hfront
    exact hlast (List.append_inj_right' hend rfl |> List.singleton_inj.mp)
  have hpos := List.length_pos_iff.mpr hrest
  have hle := hsuffix.length_le
  have hcount := congrArg List.length hread
  simp only [moduleText, List.length_cons, List.length_append, List.length_nil,
    String.length_toList] at hle hcount
  have heq : c.here = moduleText quote module := by
    apply hsuffix.eq_of_length_le
    simp only [moduleText, List.length_cons, List.length_append, List.length_nil,
      String.length_toList]
    omega
  rw [heq, moduleText] at hread
  obtain ⟨rfl, hbody⟩ := List.cons.inj hread
  have hsame : module.toList = body :=
    List.append_inj_left hbody (by rw [String.length_toList]; omega)
  refine ⟨heq, ?_⟩
  rw [hsame]
  exact hplain (by rw [← hsame, String.length_toList])

theorem fromText_exact {quote : Quote} {module : String} (hc : c.OnToken)
    (hsuffix : c.here <:+ fromText quote module) (hfrom : c.token = .name "from" false)
    (hnext : c.advance = .ok c') (htoken : c'.token = .string module) :
    (fromText quote module).length ≤ c.here.length ∧
      ∀ x ∈ module.toList, IsPlain quote.char x := by
  obtain ⟨hc', hafter⟩ := Cursor.onToken_of_advance hnext
  obtain ⟨hrest, hlength⟩ := hc.name hfrom
  have hfour : "from".length = 4 := rfl
  have hle := hsuffix.length_le
  have hcount : (fromText quote module).length = (moduleText quote module).length + 5 := rfl
  have hspace : c.rest <:+ ' ' :: moduleText quote module := by
    refine List.suffix_of_suffix_length_le (hrest.trans hsuffix) (List.suffix_append _ _) ?_
    rw [List.length_cons]
    omega
  obtain ⟨heq, hplain⟩ :=
    moduleText_exact hc' (hc'.suffix_of_space (hafter.trans hspace)) htoken
  refine ⟨?_, hplain⟩
  by_contra hlong
  -- A word that starts one letter later is another word.
  have hlate : c.here <:+ "rom".toList ++ ' ' :: moduleText quote module := by
    refine (List.suffix_cons_iff.mp hsuffix).resolve_left ?_
    intro hsame
    exact hlong (congrArg List.length hsame).ge
  have hle' := hafter.length_le
  rw [heq] at hle'
  have hat := hc.scanned
  rw [hlate.eq_of_length_le (by
    rw [List.length_append, List.length_cons]
    have : "rom".toList.length = 3 := rfl
    omega)] at hat
  have hother := (at_name hat (by decide) (endsName_cons (by decide))).1
  rw [hfrom] at hother
  simp at hother

theorem named_of_spell {names : List Node} {d : Declaration} (h : Spell names d) :
    names.filterMap named? = d.named := by
  have hfold := named_foldl names {}
  rw [h.content] at hfold
  simpa [Content.put, Function.comp_def] using hfold.symm

theorem importClause_length (dialect : Dialect) {size : Nat} {d : Declaration} {names : List Node}
    {rest : List Char} (hd : d.Usual) (hne : d.isEmpty = false) (hsize : d.named.length ≤ size + 1)
    (hc : c.At (d.clauseText (' ' :: ("from".toList ++ ' ' :: rest))))
    (h : importClause (topContext dialect size) c = .ok (names, c'))
    (hnames : names.filterMap named? = d.named) :
    c'.OnToken ∧ c'.here <:+ "from".toList ++ ' ' :: rest ∧
      (("from".toList ++ ' ' :: rest).length ≤ c'.here.length → ∀ n ∈ d.named, n.Worded) := by
  have hword : isName "from".toList = true := by decide
  have hsolid : Solid ("from".toList ++ ' ' :: rest) := solid_name hword _
  rcases importClause_at dialect size hd hne hc with ⟨-, hnamed, names', c₁, hclause, hc₁, -⟩ |
    ⟨hsome, first, c₁, hclause, hc₁, hfirst⟩
  · rw [h] at hclause
    cases hclause
    exact ⟨hc₁.onToken hsolid, hc₁.suffix, by simp [hnamed]⟩
  · rw [h] at hclause
    cases hname : d.namespaceName with
    | some name =>
      have hnamed : d.named = [] := hd.alone.resolve_left (by simp [hname])
      obtain ⟨names', c₂, hrest, hc₂, -⟩ := importRest_at dialect first hd (by simp [hnamed]) hsize
        hsome hc₁ hsolid (scanToken_name hword (endsName_cons (by decide)))
      rw [hrest] at hclause
      cases hclause
      exact ⟨hc₂.onToken hsolid, hc₂.suffix, by simp [hnamed]⟩
    | none =>
      cases hnamed : d.named with
      | nil => simp [hname, hnamed] at hsome
      | cons n ns =>
        rw [Declaration.restText_named hname hnamed] at hc₁
        have hbrace := (hc₁.unique scan_lbrace).1
        rcases importRest_eq_ok hclause.symm with ⟨_, _, _, _, _, hstar, -⟩ |
          ⟨nodes, c₂, -, hnext, hlist, rfl⟩
        · rw [hbrace] at hstar
          cases hstar
        · have hon := hc₁.onToken (solid_cons (by decide))
          obtain ⟨hc₂, hsuffix, -⟩ := hon.after_punct hbrace hc₁.suffix hnext
          have hnodes : nodes.filterMap named? = n :: ns := by
            rw [List.filterMap_append, named_of_spell hfirst] at hnames
            exact hnames.trans hnamed
          rw [commaList_eq, many_eq] at hlist
          have hlocal : ∀ m ∈ n :: ns, IsLocal m.localName := by
            intro m hm
            apply hd.names
            rw [← hnamed] at hm
            exact List.mem_append_right _ (List.mem_map_of_mem hm)
          have hfuel : ns.length + 2 ≤ (topContext dialect size).budget := by
            rw [hnamed, List.length_cons] at hsize
            simp only [topContext]
            omega
          obtain ⟨hc', hend, hworded⟩ := importList_length hlocal hfuel hc₂ hsuffix hlist hnodes
          exact ⟨hc', hend, fun hlong => (hworded hlong).1⟩

theorem module_foldl {parts : List Node} (h : ∀ n ∈ parts, n.kind = .clause) (x : Content) :
    (parts.foldl Content.read x).module = x.module ∧ parts.filterMap named? = [] := by
  induction parts generalizing x with
  | nil => exact ⟨rfl, rfl⟩
  | cons part parts ih =>
    have hkind := h part List.mem_cons_self
    obtain ⟨hmodule, hnamed⟩ := ih (fun n hn => h n (List.mem_cons_of_mem part hn)) (x.read part)
    rw [List.foldl_cons, hmodule, List.filterMap_cons, hnamed, Content.read, named?, hkind]
    exact ⟨rfl, rfl⟩

/-- A declaration whose text is read as the same names from the same module. -/
theorem worded_of_parse {dialect : Dialect} {d : Declaration} {quote : Quote} {script : Node}
    {x : Content} (hd : d.Usual) (hne : d.isEmpty = false)
    (h : Script.parse dialect (d.render quote).toList = .ok script)
    (hx : Content.ofScript script = [x]) (hnamed : x.specifiers.map (·.toNamed) = d.named)
    (hmodule : x.module = d.module) :
    (∀ n ∈ d.named, n.Worded) ∧ ∀ y ∈ d.module.toList, IsPlain quote.char y := by
  have htext := Declaration.render_toList quote hd hne
  generalize (d.render quote).toList = source at h htext
  have hsize : d.named.length ≤ source.length + 1 := by
    have := length_named_le d (' ' :: fromText quote d.module) hd
    rw [htext, List.length_append, List.length_cons]
    omega
  obtain ⟨c, c₁, hstart, hword, hc₁, hstatement⟩ := statement_at
    (Script.rules (8 * source.length + 31)) dialect source.length (moduleText quote d.module) hd hne
  obtain ⟨c₀, c', hstart', hprogram, -⟩ := Script.parse_eq_ok.mp h
  have hsame : Cursor.start source = .ok c := htext ▸ hstart
  rw [hsame] at hstart'
  cases hstart'
  obtain ⟨items, hitems, -, rfl⟩ := Script.program_eq_ok.mp hprogram
  rcases manyLoop_eq_ok.mp hitems with ⟨-, hnone⟩ | ⟨n, rest, c₂, rfl, hitem, -⟩
  · rcases Script.scriptItem_eq_ok.mp hnone with ⟨-, hdone, -⟩ | ⟨_, hsome, -⟩
    · rw [hword] at hdone
      cases hdone
    · cases hsome
  · rcases Script.scriptItem_eq_ok.mp hitem with ⟨hnone, -⟩ | ⟨_, hsome, -, hn⟩
    · cases hnone
    · cases hsome
      rw [Script.rules_statement, hstatement] at hn
      obtain ⟨names, source, c₃, c₄, c₅, hclause, hfrom, hnext, hsource, hkind, hchildren⟩ :=
        importBody_eq_ok hn
      obtain ⟨value, m, attributes, c₆, hvalue, -, hm, -, rfl, hattributes⟩ :=
        moduleName_eq_ok hsource
      obtain ⟨hkept, hnone⟩ := module_foldl (importAttributes_eq_ok hattributes)
        ((names.foldl Content.read {}).read m)
      have hread : (names ++ m :: attributes).foldl Content.read {} = x := by
        rw [Content.ofScript, Script.Node.children_mk, List.filterMap_cons, Content.ofStatement?,
          hkind, hchildren] at hx
        exact (List.cons.inj hx).1
      have hnames : names.filterMap named? = d.named := by
        have hfold := named_foldl (names ++ m :: attributes) {}
        rw [hread, hnamed, List.filterMap_append, List.filterMap_cons, hnone, named?, hm] at hfold
        simpa using hfold.symm
      have hvalue' : value = d.module := by
        rw [← hmodule, ← hread, List.foldl_append, List.foldl_cons, hkept, Content.read, hm]
      subst hvalue'
      obtain ⟨hc₃, hsuffix, hworded⟩ :=
        importClause_length dialect hd hne hsize hc₁ hclause hnames
      obtain ⟨hlong, hplain⟩ := fromText_exact hc₃ hsuffix hfrom hnext hvalue
      exact ⟨hworded hlong, hplain⟩

theorem Content.content_declaration (x : Content) (span : Span) :
    (x.declaration span).content = { x with
      attributes := [], typeOnly := false,
      specifiers := x.specifiers.map fun s => { s with typeOnly := false } } := by
  simp [declaration, Declaration.content, put, Function.comp_def]

/-- Which contents are read back from the text of their declarations: those whose names are words,
whose module holds nothing that would have to be escaped, and that say nothing more. -/
theorem parse_render_iff (dialect : Dialect) (quote : Quote) {x : Content} {span : Span}
    (hd : (x.declaration span).Usual) (hne : (x.declaration span).isEmpty = false)
    (hvalue : x.typeOnly = false) :
    (∃ script, Script.parse dialect ((x.declaration span).render quote).toList = .ok script ∧
        Content.ofScript script = [x]) ↔
      x.attributes = [] ∧ (∀ s ∈ x.specifiers, s.typeOnly = false ∧ s.toNamed.Worded) ∧
        ∀ c ∈ x.module.toList, IsPlain quote.char c := by
  constructor
  · rintro ⟨script, hparse, hx⟩
    obtain ⟨hworded, hplain⟩ := worded_of_parse hd hne hparse hx rfl rfl
    obtain ⟨script', hparse', hx'⟩ := parse_render dialect hd hne (hd.writable hworded) hplain
    rw [hparse] at hparse'
    cases hparse'
    rw [hx, Content.content_declaration, List.singleton_inj] at hx'
    refine ⟨congrArg Content.attributes hx', ?_, hplain⟩
    intro s hs
    refine ⟨?_, hworded s.toNamed (List.mem_map_of_mem hs)⟩
    rw [congrArg Content.specifiers hx'] at hs
    obtain ⟨t, -, rfl⟩ := List.mem_map.mp hs
    rfl
  · rintro ⟨hattributes, hspecifiers, hplain⟩
    have hworded : ∀ n ∈ (x.declaration span).named, n.Worded := by
      intro n hn
      obtain ⟨s, hs, rfl⟩ := List.mem_map.mp hn
      exact (hspecifiers s hs).2
    obtain ⟨script, hparse, hx⟩ := parse_render dialect hd hne (hd.writable hworded) hplain
    refine ⟨script, hparse, ?_⟩
    have hsame : (x.specifiers.map fun s => { s with typeOnly := false }) = x.specifiers := by
      calc (x.specifiers.map fun s => { s with typeOnly := false })
          = x.specifiers.map id := by
            apply List.map_congr_left
            intro s hs
            rw [← (hspecifiers s hs).1]
            rfl
        _ = x.specifiers := List.map_id _
    rw [hx, Content.content_declaration, hsame, ← hattributes, ← hvalue]

end Lengths

end EmberClasses.Import
