import EmberClasses.Json.Literal
import EmberClasses.Proofs.NumberTexts

/-! Script literals read back. A reader of literals, built on the tokens of a script, gives for the
literal of a value the value again, whatever its strings and keys hold, but for one key: in an
object literal `__proto__`, quoted or not, is no entry but the prototype of the object. -/

namespace EmberClasses.Json

open Script (Token)
open Script.Lexer

section Reader

/-- The first token of a text, the characters it is read from, and what follows. -/
def firstToken (cs : List Char) : Option (Token × List Char × List Char) := do
  let (_, _, here) ← skipTrivia .blank 0 false cs
  let (token, _, rest) ← scanToken here
  return (token, here.take (here.length - rest.length), rest)

def prototypeKey : String := "__proto__"

def wordValue? : String → Option Json
  | "null" => some null
  | "true" => some (bool true)
  | "false" => some (bool false)
  | _ => none

def keyOf? : Token → Option String
  | .name key _ => some key
  | .string key => some key
  | _ => none

/-- The object that a literal with these entries makes. A key that is written again gets the last
value. The prototype is no entry, and it may be set once. -/
def objectOf? (entries : List (String × Json)) : Option Json :=
  if (entries.map Prod.fst).count prototypeKey ≤ 1 then
    some (object ((entries.filter (·.1 ≠ prototypeKey)).foldl (fun own e => setKey e.1 e.2 own) []))
  else none

mutual

/-- The value of the literal at the start of a text, and what follows. The first argument bounds how
often the readers call each other; more than the length of the text is enough. -/
def readValue : Nat → List Char → Option (Json × List Char)
  | 0, _ => none
  | fuel + 1, cs => do
    let (token, text, rest) ← firstToken cs
    match token with
    | .name word false => return (← wordValue? word, rest)
    | .string s => return (string s, rest)
    | .number => return (number (← Number.ofText? text), rest)
    | .punct .minus =>
      match ← firstToken rest with
      | (.number, text, rest) => return (number (← Number.ofText? text).negated, rest)
      | _ => none
    | .punct .lbracket =>
      let (items, rest) ← readItems fuel rest
      return (array items, rest)
    | .punct .lbrace =>
      let (entries, rest) ← readEntries fuel rest
      return (← objectOf? entries, rest)
    | _ => none

def readItems : Nat → List Char → Option (List Json × List Char)
  | 0, _ => none
  | fuel + 1, cs => do
    match ← firstToken cs with
    | (.punct .rbracket, _, rest) => return ([], rest)
    | _ =>
      let (v, rest) ← readValue fuel cs
      match ← firstToken rest with
      | (.punct .comma, _, rest) =>
        let (vs, rest) ← readItems fuel rest
        return (v :: vs, rest)
      | (.punct .rbracket, _, rest) => return ([v], rest)
      | _ => none

/-- The entries of an object as they are written, up to the closing brace. -/
def readEntries : Nat → List Char → Option (List (String × Json) × List Char)
  | 0, _ => none
  | fuel + 1, cs => do
    match ← firstToken cs with
    | (.punct .rbrace, _, rest) => return ([], rest)
    | (token, _, rest) =>
      let key ← keyOf? token
      match ← firstToken rest with
      | (.punct .colon, _, rest) =>
        let (v, rest) ← readValue fuel rest
        match ← firstToken rest with
        | (.punct .comma, _, rest) =>
          let (es, rest) ← readEntries fuel rest
          return ((key, v) :: es, rest)
        | (.punct .rbrace, _, rest) => return ([(key, v)], rest)
        | _ => none
      | _ => none

end

def readLiteral (text : List Char) : Option Json := do
  let (v, rest) ← readValue (text.length + 1) text
  let (token, _, _) ← firstToken rest
  if token = .done then return v else none

end Reader

mutual

/-- Doubles are in their one form, and the keys of an object differ. -/
def Proper : Json → Prop
  | number n => n.Proper
  | array items => ProperItems items
  | object entries => (entries.map Prod.fst).Nodup ∧ ProperEntries entries
  | _ => True

def ProperItems : List Json → Prop
  | [] => True
  | v :: vs => v.Proper ∧ ProperItems vs

def ProperEntries : List (String × Json) → Prop
  | [] => True
  | (_, v) :: es => v.Proper ∧ ProperEntries es

end

mutual

/-- The value as its literal is read: without the entries that would set a prototype. -/
def own : Json → Json
  | array items => array (ownItems items)
  | object entries => object ((ownEntries entries).filter (·.1 ≠ prototypeKey))
  | v => v

def ownItems : List Json → List Json
  | [] => []
  | v :: vs => v.own :: ownItems vs

def ownEntries : List (String × Json) → List (String × Json)
  | [] => []
  | (key, v) :: es => (key, v.own) :: ownEntries es

end

/-! Tokens of literals. -/

section Tokens

variable {cs text rest : List Char} {t : Token} {n : Nat}

theorem firstToken_eq (hsolid : Solid (text ++ rest))
    (hscan : scanToken (text ++ rest) = some (t, n, rest)) :
    firstToken (text ++ rest) = some (t, text, rest) := by
  simp [firstToken, skipTrivia_solid hsolid, hscan]

theorem firstToken_space (h : Solid cs) : firstToken (' ' :: cs) = firstToken cs := by
  simp [firstToken, skipTrivia_space, skipTrivia_solid h]

theorem readValue_space (h : Solid cs) (fuel : Nat) :
    readValue fuel (' ' :: cs) = readValue fuel cs := by
  cases fuel with
  | zero => simp [readValue]
  | succ fuel => simp [readValue, firstToken_space h]

theorem readItems_space (h : Solid cs) (fuel : Nat) :
    readItems fuel (' ' :: cs) = readItems fuel cs := by
  cases fuel with
  | zero => simp [readItems]
  | succ fuel => simp [readItems, firstToken_space h, readValue_space h]

theorem readEntries_space (h : Solid cs) (fuel : Nat) :
    readEntries fuel (' ' :: cs) = readEntries fuel cs := by
  cases fuel with
  | zero => simp [readEntries]
  | succ fuel => simp [readEntries, firstToken_space h]

theorem firstToken_char {c : Char} {p : Script.Punct}
    (hsolid : isLineBreak c = false ∧ isSpace c = false ∧ c ≠ '/')
    (hscan : scanToken (c :: rest) = some (.punct p, 1, rest)) :
    firstToken (c :: rest) = some (.punct p, [c], rest) := by
  have htext : c :: rest = [c] ++ rest := rfl
  rw [htext]
  exact firstToken_eq (solid_cons hsolid) hscan

@[simp] theorem firstToken_comma : firstToken (',' :: rest) = some (.punct .comma, [','], rest) :=
  firstToken_char (by decide) rfl

@[simp] theorem firstToken_colon : firstToken (':' :: rest) = some (.punct .colon, [':'], rest) :=
  firstToken_char (by decide) rfl

@[simp] theorem firstToken_lbracket :
    firstToken ('[' :: rest) = some (.punct .lbracket, ['['], rest) :=
  firstToken_char (by decide) rfl

@[simp] theorem firstToken_rbracket :
    firstToken (']' :: rest) = some (.punct .rbracket, [']'], rest) :=
  firstToken_char (by decide) rfl

@[simp] theorem firstToken_lbrace : firstToken ('{' :: rest) = some (.punct .lbrace, ['{'], rest) :=
  firstToken_char (by decide) rfl

@[simp] theorem firstToken_rbrace : firstToken ('}' :: rest) = some (.punct .rbrace, ['}'], rest) :=
  firstToken_char (by decide) rfl

theorem firstToken_name {name : String} (h : isName name.toList = true) (hrest : EndsName rest) :
    firstToken (name.toList ++ rest) = some (.name name false, name.toList, rest) := by
  have hscan := scanToken_name h hrest
  rw [String.ofList_toList] at hscan
  exact firstToken_eq (solid_name h rest) hscan

end Tokens

section Strings

variable {quote : Char}

/-- A character stands for itself, or it is written as an escape of one letter. -/
theorem escape_cases (hquote : quote = '"' ∨ quote = '\'') (c : Char) :
    escape quote c = [c] ∧ IsPlain quote c ∨
      ∃ d, escape quote c = ['\\', d] ∧ (d ≠ '\n' ∧ d ≠ '\r') ∧
        ∀ cs, scanEscape (d :: cs) = some ([c.toNat], 1) := by
  unfold escape
  by_cases hback : c = '\\'
  · subst hback
    exact .inr ⟨'\\', if_pos rfl, by decide, fun cs => rfl⟩
  · by_cases hfeed : c = '\n'
    · subst hfeed
      exact .inr ⟨'n', rfl, by decide, fun cs => rfl⟩
    · by_cases hreturn : c = '\r'
      · subst hreturn
        exact .inr ⟨'r', rfl, by decide, fun cs => rfl⟩
      · rw [if_neg hback, if_neg hfeed, if_neg hreturn]
        by_cases hc : c = quote
        · subst hc
          refine .inr ⟨c, if_pos rfl, ⟨hfeed, hreturn⟩, fun cs => ?_⟩
          rcases hquote with rfl | rfl <;> rfl
        · exact .inl ⟨if_neg hc, hc, hback, hfeed, hreturn⟩

theorem stringRest_escaped (hquote : quote = '"' ∨ quote = '\'') (cs rest : List Char)
    (rev : List Nat) (n : Nat) :
    ∃ m, stringRest quote 0 rev n (cs.flatMap (escape quote) ++ quote :: rest) =
      some (String.ofList (joinUnits (rev.reverse ++ cs.map Char.toNat)), m, rest) := by
  have hback : '\\' ≠ quote := by rcases hquote with rfl | rfl <;> decide
  induction cs generalizing rev n with
  | nil => exact ⟨n + 1, by simp [stringRest]⟩
  | cons c cs ih =>
    have hunits : rev.reverse ++ (c :: cs).map Char.toNat =
        (c.toNat :: rev).reverse ++ cs.map Char.toNat := by simp
    rw [List.flatMap_cons, hunits]
    rcases escape_cases hquote c with ⟨htext, hc, hslash, hfeed, hreturn⟩ | ⟨d, htext, -, hscan⟩
    · obtain ⟨m, hm⟩ := ih (c.toNat :: rev) (n + c.utf8Size)
      refine ⟨m, ?_⟩
      rw [htext, List.singleton_append, List.cons_append, stringRest]
      simpa [hc, hslash, hfeed, hreturn] using hm
    · obtain ⟨m, hm⟩ := ih (c.toNat :: rev) (n + 1 + d.utf8Size)
      refine ⟨m, ?_⟩
      simp only [htext, List.cons_append, List.nil_append]
      rw [stringRest, if_neg hback, if_pos rfl, hscan]
      simpa [stringRest] using hm

end Strings

variable (quote : Quote)

theorem firstToken_quoted (s : String) (rest : List Char) :
    firstToken (quoted quote s ++ rest) = some (.string s, quoted quote s, rest) := by
  have hquote := quote_cases quote
  obtain ⟨m, hm⟩ := stringRest_escaped hquote s.toList rest [] 1
  rw [List.reverse_nil, List.nil_append, joinUnits_map_toNat, String.ofList_toList] at hm
  have htext : quoted quote s ++ rest =
      quote.char :: (s.toList.flatMap (escape quote.char) ++ quote.char :: rest) := by
    simp [quoted]
  have hsolid : Solid (quoted quote s ++ rest) := by
    rw [htext]
    cases quote <;> exact solid_cons (by decide)
  have htest : (quote.char = '"' || quote.char = '\'') = true := by simpa using hquote
  refine firstToken_eq (n := m) hsolid ?_
  rw [htext, scanToken, if_pos htest, scanString, hm]
  rfl

theorem isName_of_isPlainIdentifier {name : String} (h : Name.isPlainIdentifier name = true) :
    isName name.toList = true := by
  have hstart {c : Char} (hc : (c.isAlpha || c == '_' || c == '$') = true) :
      Text.isIdStart c = true := by
    simp only [Bool.or_eq_true] at hc
    rcases hc with (hc | hc) | hc <;> simp [Text.isIdStart, hc]
  unfold Name.isPlainIdentifier at h
  cases hname : name.toList with
  | nil => simp [hname] at h
  | cons c cs =>
    simp only [hname, Bool.and_eq_true, List.all_eq_true] at h
    simp only [isName, hstart h.1, Bool.true_and, List.all_eq_true]
    intro d hd
    have hpart := h.2 d hd
    rw [Bool.or_eq_true] at hpart
    rcases hpart with hpart | hpart
    · exact isIdPart_of_isIdStart (hstart hpart)
    · simp [Text.isIdPart, hpart]

/-- The key of an entry is read back, whether it is quoted or not. -/
theorem firstToken_literalKey (key : String) (rest : List Char) :
    ∃ t text, firstToken (literalKey quote key ++ ':' :: rest) = some (t, text, ':' :: rest) ∧
      keyOf? t = some key := by
  unfold literalKey
  split
  · rename_i hplain
    exact ⟨_, _, firstToken_name (isName_of_isPlainIdentifier hplain) (endsName_cons (by decide)),
      rfl⟩
  · exact ⟨_, _, firstToken_quoted quote key _, rfl⟩

/-! Numbers. -/

def decimalDigits : List Char := ['0', '1', '2', '3', '4', '5', '6', '7', '8', '9']

theorem Numeral.Formed.exists_digit {m : Numeral} (h : m.Formed) (rest : List Char) :
    ∃ d ∈ decimalDigits, ∃ tail, m.text ++ rest = d :: tail := by
  obtain ⟨d, ds, hwhole⟩ := List.exists_cons_of_ne_nil h.whole.1
  have hd : d.isDigit = true := h.whole.2 d (by rw [hwhole]; exact List.mem_cons_self)
  have hcode : ∀ n ∈ List.range' 48 10, Char.ofNat n ∈ decimalDigits := by decide
  have hrange : 48 ≤ d.toNat ∧ d.toNat ≤ 57 := by
    simpa [Char.isDigit, UInt32.le_iff_toNat_le] using hd
  have hmem := hcode d.toNat (List.mem_range'_1.mpr (by omega))
  rw [Char.ofNat_toNat] at hmem
  rw [Numeral.text, hwhole]
  exact ⟨d, hmem, _, rfl⟩

theorem Numeral.Formed.solid {m : Numeral} (h : m.Formed) (rest : List Char) :
    Solid (m.text ++ rest) := by
  obtain ⟨d, hd, tail, htext⟩ := h.exists_digit rest
  have hsolid : decimalDigits.all fun c => !isLineBreak c && !isSpace c && c != '/' := by decide
  have hd := List.all_eq_true.mp hsolid d hd
  simp only [Bool.and_eq_true, Bool.not_eq_true', bne_iff_ne] at hd
  rw [htext]
  exact solid_cons ⟨hd.1.1, hd.1.2, hd.2⟩

theorem Numeral.Formed.firstToken_text {m : Numeral} (h : m.Formed) {rest : List Char}
    (hrest : EndsNumber rest) : firstToken (m.text ++ rest) = some (.number, m.text, rest) :=
  firstToken_eq (h.solid rest) (h.scanToken_text hrest)

theorem Numeral.Formed.firstToken_minus {m : Numeral} (h : m.Formed) (rest : List Char) :
    firstToken ('-' :: (m.text ++ rest)) = some (.punct .minus, ['-'], m.text ++ rest) := by
  obtain ⟨d, hd, tail, htext⟩ := h.exists_digit rest
  rw [htext]
  refine firstToken_char (by decide) ?_
  simp only [decimalDigits, List.mem_cons, List.not_mem_nil, or_false] at hd
  rcases hd with rfl | rfl | rfl | rfl | rfl | rfl | rfl | rfl | rfl | rfl <;> rfl

theorem readValue_number {n : Number} (h : n.Proper) {rest : List Char} (hrest : EndsNumber rest)
    (fuel : Nat) :
    readValue (fuel + 1) (n.render.toList ++ rest) = some (number n, rest) := by
  obtain ⟨m, k, hm, hk, ⟨htext, rfl⟩ | ⟨htext, rfl⟩⟩ := Number.exists_numeral h
  · simp [readValue, htext, hm.firstToken_text hrest, hk]
  · simp [readValue, htext, hm.firstToken_minus, hm.firstToken_text hrest, hk]

theorem solid_literal {v : Json} (h : v.Proper) (rest : List Char) :
    Solid (literal quote v ++ rest) := by
  cases v with
  | null => exact solid_cons (by decide)
  | bool b => cases b <;> exact solid_cons (by decide)
  | number n =>
    obtain ⟨m, k, hm, -, ⟨htext, -⟩ | ⟨htext, -⟩⟩ := Number.exists_numeral h
    · rw [literal, htext]
      exact hm.solid rest
    · rw [literal, htext]
      exact solid_cons (by decide)
  | string s => cases quote <;> exact solid_cons (by decide)
  | array items => exact solid_cons (by decide)
  | object entries => cases entries <;> exact solid_cons (by decide)

/-! Lists of literals. -/

def commaSeparated (texts : List (List Char)) : List Char := [',', ' '].intercalate texts

@[simp] theorem commaSeparated_singleton (a : List Char) : commaSeparated [a] = a := by
  simp [commaSeparated, List.intercalate]

@[simp] theorem commaSeparated_cons_cons (a b : List Char) (ts : List (List Char)) :
    commaSeparated (a :: b :: ts) = a ++ ',' :: ' ' :: commaSeparated (b :: ts) := by
  simp [commaSeparated, List.intercalate]

theorem exists_commaSeparated (a : List Char) (ts : List (List Char)) :
    ∃ more, commaSeparated (a :: ts) = a ++ more := by
  cases ts with
  | nil => exact ⟨[], by simp⟩
  | cons b ts => exact ⟨_, commaSeparated_cons_cons a b ts⟩

theorem solid_items {v : Json} (h : v.Proper) (vs : List Json) (rest : List Char) :
    Solid (commaSeparated (literals quote (v :: vs)) ++ rest) := by
  obtain ⟨more, htext⟩ := exists_commaSeparated (literal quote v) (literals quote vs)
  rw [literals, htext, List.append_assoc]
  exact solid_literal quote h _

theorem solid_entries (e : String × Json) (es : List (String × Json)) (rest : List Char) :
    Solid (commaSeparated (entryLiterals quote (e :: es)) ++ rest) := by
  obtain ⟨more, htext⟩ := exists_commaSeparated
    (literalKey quote e.1 ++ [':', ' '] ++ literal quote e.2) (entryLiterals quote es)
  rw [entryLiterals, htext, literalKey]
  simp only [List.append_assoc]
  split
  · rename_i hplain
    exact solid_name (isName_of_isPlainIdentifier hplain) _
  · cases quote <;> exact solid_cons (by decide)

section Lists

variable {fuel : Nat} {v : Json} {cs rest : List Char}

theorem firstToken_of_readValue (h : readValue fuel cs = some (v, rest)) :
    ∃ t text after, firstToken cs = some (t, text, after) ∧ t ≠ .punct .rbracket := by
  cases fuel with
  | zero => simp [readValue] at h
  | succ fuel =>
    cases hfirst : firstToken cs with
    | none => simp [readValue, hfirst] at h
    | some first =>
      obtain ⟨t, text, after⟩ := first
      refine ⟨t, text, after, rfl, ?_⟩
      rintro rfl
      simp [readValue, hfirst] at h

theorem readItems_last (h : readValue fuel cs = some (v, ']' :: rest)) :
    readItems (fuel + 1) cs = some ([v], rest) := by
  obtain ⟨t, text, after, hfirst, hne⟩ := firstToken_of_readValue h
  simp [readItems, hfirst, hne, h]

theorem readItems_cons (h : readValue fuel cs = some (v, ',' :: rest)) {vs : List Json}
    {after : List Char} (hmore : readItems fuel rest = some (vs, after)) :
    readItems (fuel + 1) cs = some (v :: vs, after) := by
  obtain ⟨t, text, here, hfirst, hne⟩ := firstToken_of_readValue h
  simp [readItems, hfirst, hne, h, hmore]

def KeyAt (key : String) (cs after : List Char) : Prop :=
  ∃ t text, firstToken cs = some (t, text, ':' :: after) ∧ keyOf? t = some key

theorem ne_rbrace_of_keyOf? {t : Token} {key : String} (h : keyOf? t = some key) :
    t ≠ .punct .rbrace := by
  rintro rfl
  cases h

theorem readEntries_last {key : String} {here : List Char} (hkey : KeyAt key cs here)
    (hv : readValue fuel here = some (v, ' ' :: '}' :: rest)) :
    readEntries (fuel + 1) cs = some ([(key, v)], rest) := by
  obtain ⟨t, text, hfirst, ht⟩ := hkey
  have hne := ne_rbrace_of_keyOf? ht
  have hspace : firstToken (' ' :: '}' :: rest) = firstToken ('}' :: rest) :=
    firstToken_space (solid_cons (by decide))
  simp [readEntries, hfirst, ht, hv, hspace]

theorem readEntries_cons {key : String} {here after : List Char} (hkey : KeyAt key cs here)
    (hv : readValue fuel here = some (v, ',' :: rest)) {es : List (String × Json)}
    (hmore : readEntries fuel rest = some (es, after)) :
    readEntries (fuel + 1) cs = some ((key, v) :: es, after) := by
  obtain ⟨t, text, hfirst, ht⟩ := hkey
  have hne := ne_rbrace_of_keyOf? ht
  simp [readEntries, hfirst, ht, hv, hmore]

end Lists

/-! Objects. -/

theorem setKey_of_not_mem {α : Type} {key : String} {entries : List (String × α)}
    (h : key ∉ entries.map Prod.fst) (value : α) :
    setKey key value entries = entries ++ [(key, value)] := by
  induction entries with
  | nil => rfl
  | cons e es ih =>
    rw [List.map_cons, List.mem_cons, not_or] at h
    rw [setKey, if_neg fun heq => h.1 heq.symm, ih h.2]
    rfl

theorem foldl_setKey {α : Type} (entries more : List (String × α))
    (h : ((entries ++ more).map Prod.fst).Nodup) :
    more.foldl (fun own e => setKey e.1 e.2 own) entries = entries ++ more := by
  induction more generalizing entries with
  | nil => simp
  | cons e es ih =>
    have hnew : e.1 ∉ entries.map Prod.fst := by
      rw [List.map_append, List.nodup_append] at h
      exact fun hmem => h.2.2 _ hmem _ (by simp) rfl
    rw [List.foldl_cons, setKey_of_not_mem hnew, ih, List.append_assoc, List.singleton_append]
    rwa [List.append_assoc, List.singleton_append]

theorem objectOf?_of_nodup {entries : List (String × Json)}
    (h : (entries.map Prod.fst).Nodup) :
    objectOf? entries = some (object (entries.filter (·.1 ≠ prototypeKey))) := by
  have hown := foldl_setKey [] (entries.filter (·.1 ≠ prototypeKey))
    (h.sublist (List.filter_sublist.map Prod.fst))
  rw [objectOf?, if_pos (List.nodup_iff_count_le_one.mp h _), hown, List.nil_append]

theorem keys_ownEntries (entries : List (String × Json)) :
    (ownEntries entries).map Prod.fst = entries.map Prod.fst := by
  induction entries with
  | nil => simp [ownEntries]
  | cons e es ih => simp [ownEntries, ih]

/-! Reading back. -/

theorem endsNumber_cons {c : Char} (h : Text.isIdPart c = false ∧ c ≠ '\\' ∧ c ≠ '.')
    (rest : List Char) : EndsNumber (c :: rest) :=
  ⟨endsName_cons ⟨h.1, h.2.1⟩, fun heq => h.2.2 (Option.some.inj heq)⟩

theorem keyAt_entry (key : String) (v : Json) (rest : List Char) :
    KeyAt key (literalKey quote key ++ [':', ' '] ++ literal quote v ++ rest)
      (' ' :: (literal quote v ++ rest)) := by
  have hkey := firstToken_literalKey quote key (' ' :: (literal quote v ++ rest))
  simpa [KeyAt] using hkey

theorem readValue_word {word : String} (hname : isName word.toList = true) {v : Json}
    (hv : wordValue? word = some v) {rest : List Char} (hrest : EndsName rest) (fuel : Nat) :
    readValue (fuel + 1) (word.toList ++ rest) = some (v, rest) := by
  rw [readValue, firstToken_name hname hrest]
  simp [hv]

mutual

/-- The literal of a value is read up to where it ends. With each call the bound goes down by one
and the text that is left of the literal by at least one character, its closing bracket included. -/
theorem readValue_literal : ∀ v : Json, v.Proper → ∀ (fuel : Nat) (rest : List Char),
    EndsNumber rest → (literal quote v).length < fuel →
    readValue fuel (literal quote v ++ rest) = some (v.own, rest)
  | null, _, fuel + 1, rest, hrest, _ => readValue_word (by decide) rfl hrest.1 fuel
  | bool true, _, fuel + 1, rest, hrest, _ => readValue_word (by decide) rfl hrest.1 fuel
  | bool false, _, fuel + 1, rest, hrest, _ => readValue_word (by decide) rfl hrest.1 fuel
  | number n, hn, fuel + 1, rest, hrest, _ => readValue_number hn hrest fuel
  | string s, _, fuel + 1, rest, _, _ => by simp [readValue, literal, firstToken_quoted, own]
  | array items, hv, fuel + 1, rest, _, hfuel => by
    have htext : literal quote (array items) ++ rest =
        '[' :: (commaSeparated (literals quote items) ++ ']' :: rest) := by
      simp [literal, commaSeparated]
    have hitems := readItems_literals items hv fuel rest (by
      simp only [literal, commaSeparated, List.length_append, List.length_cons] at hfuel ⊢
      omega)
    simp [htext, readValue, hitems, own]
  | object [], _, fuel + 2, rest, _, _ => by
    simp [literal, readValue, readEntries, objectOf?, own, ownEntries]
  | object (e :: es), hv, fuel + 1, rest, _, hfuel => by
    have htext : literal quote (object (e :: es)) ++ rest =
        '{' :: ' ' :: (commaSeparated (entryLiterals quote (e :: es)) ++ ' ' :: '}' :: rest) := by
      simp [literal, commaSeparated]
    have hentries := readEntries_literals (e :: es) (List.cons_ne_nil _ _) hv.2 fuel rest (by
      simp only [literal, commaSeparated, List.length_append, List.length_cons] at hfuel ⊢
      omega)
    have hsolid := solid_entries quote e es (' ' :: '}' :: rest)
    have hobject := objectOf?_of_nodup
      (show ((ownEntries (e :: es)).map Prod.fst).Nodup by rw [keys_ownEntries]; exact hv.1)
    simp [htext, readValue, readEntries_space hsolid, hentries, hobject, own]

theorem readItems_literals : ∀ vs : List Json, ProperItems vs → ∀ (fuel : Nat) (rest : List Char),
    (commaSeparated (literals quote vs)).length + 1 < fuel →
    readItems fuel (commaSeparated (literals quote vs) ++ ']' :: rest) = some (ownItems vs, rest)
  | [], _, fuel + 1, rest, _ => by
    simp [literals, commaSeparated, readItems, ownItems]
  | [v], hv, fuel + 1, rest, hfuel => by
    have hvalue := readValue_literal v hv.1 fuel (']' :: rest) (endsNumber_cons (by decide) _)
      (by simp only [literals, commaSeparated_singleton] at hfuel; omega)
    simpa [literals, ownItems] using readItems_last hvalue
  | v :: w :: ws, hv, fuel + 1, rest, hfuel => by
    simp only [literals, commaSeparated_cons_cons, List.length_append, List.length_cons] at hfuel
    have hvalue := readValue_literal v hv.1 fuel
      (',' :: ' ' :: (commaSeparated (literals quote (w :: ws)) ++ ']' :: rest))
      (endsNumber_cons (by decide) _) (by omega)
    have hmore := readItems_literals (w :: ws) hv.2 fuel rest (by rw [literals]; omega)
    rw [← readItems_space (solid_items quote hv.2.1 ws (']' :: rest))] at hmore
    simpa [literals, ownItems] using readItems_cons hvalue hmore

theorem readEntries_literals : ∀ es : List (String × Json), es ≠ [] → ProperEntries es →
    ∀ (fuel : Nat) (rest : List Char),
    (commaSeparated (entryLiterals quote es)).length + 2 < fuel →
    readEntries fuel (commaSeparated (entryLiterals quote es) ++ ' ' :: '}' :: rest) =
      some (ownEntries es, rest)
  | [(key, v)], _, hv, fuel + 1, rest, hfuel => by
    simp only [entryLiterals, commaSeparated_singleton, List.length_append] at hfuel
    have hvalue := readValue_literal v hv.1 fuel (' ' :: '}' :: rest)
      (endsNumber_cons (by decide) _) (by omega)
    rw [← readValue_space (solid_literal quote hv.1 _)] at hvalue
    simpa [entryLiterals, ownEntries] using
      readEntries_last (keyAt_entry quote key v (' ' :: '}' :: rest)) hvalue
  | (key, v) :: e :: es, _, hv, fuel + 1, rest, hfuel => by
    simp only [entryLiterals, commaSeparated_cons_cons, List.length_append, List.length_cons]
      at hfuel
    have hvalue := readValue_literal v hv.1 fuel
      (',' :: ' ' :: (commaSeparated (entryLiterals quote (e :: es)) ++ ' ' :: '}' :: rest))
      (endsNumber_cons (by decide) _) (by omega)
    have hmore := readEntries_literals (e :: es) (List.cons_ne_nil _ _) hv.2 fuel rest
      (by rw [entryLiterals]; omega)
    rw [← readValue_space (solid_literal quote hv.1 _)] at hvalue
    rw [← readEntries_space (solid_entries quote e es _)] at hmore
    simpa [entryLiterals, ownEntries] using
      readEntries_cons (keyAt_entry quote key v _) hvalue hmore

end

theorem readLiteral_literal {v : Json} (h : v.Proper) :
    readLiteral (literal quote v) = some v.own := by
  have hvalue := readValue_literal quote v h ((literal quote v).length + 1) [] endsNumber_nil
    (Nat.lt_succ_self _)
  have hdone : firstToken [] = some (.done, [], []) := rfl
  rw [List.append_nil] at hvalue
  simp [readLiteral, hvalue, hdone]

/-! Line breaks. -/

/-- The text stays in its line. -/
def Unbroken (cs : List Char) : Prop := ∀ c ∈ cs, c ≠ '\n' ∧ c ≠ '\r'

theorem Unbroken.append {cs ds : List Char} (hc : Unbroken cs) (hd : Unbroken ds) :
    Unbroken (cs ++ ds) := fun c hmem => (List.mem_append.mp hmem).elim (hc c) (hd c)

instance (cs : List Char) : Decidable (Unbroken cs) :=
  decidable_of_iff (cs.all fun c => c != '\n' && c != '\r') (by simp [Unbroken])

theorem Unbroken.cons {c : Char} {cs : List Char} (hc : c ≠ '\n' ∧ c ≠ '\r') (h : Unbroken cs) :
    Unbroken (c :: cs) := fun d hd => (List.mem_cons.mp hd).elim (fun heq => heq ▸ hc) (h d)

theorem unbroken_commaSeparated {ts : List (List Char)} (h : ∀ t ∈ ts, Unbroken t) :
    Unbroken (commaSeparated ts) := by
  induction ts with
  | nil => decide
  | cons a ts ih =>
    rw [List.forall_mem_cons] at h
    cases ts with
    | nil => simpa using h.1
    | cons b ts =>
      rw [commaSeparated_cons_cons]
      exact h.1.append (.cons (by decide) (.cons (by decide) (ih h.2)))

theorem unbroken_quoted (s : String) : Unbroken (quoted quote s) := by
  have hquote := quote_cases quote
  have hends : quote.char ≠ '\n' ∧ quote.char ≠ '\r' := by cases quote <;> decide
  refine .append (.cons hends fun c hc => ?_) (.cons hends (by decide))
  obtain ⟨x, -, hx⟩ := List.mem_flatMap.mp hc
  rcases escape_cases hquote x with ⟨htext, -, -, hbreak⟩ | ⟨d, htext, hbreak, -⟩
  · rw [htext] at hx
    rwa [List.mem_singleton.mp hx]
  · rw [htext] at hx
    exact Unbroken.cons (by decide) (.cons hbreak (by decide)) c hx

theorem unbroken_literalKey (key : String) : Unbroken (literalKey quote key) := by
  unfold literalKey
  split
  · rename_i hplain
    have hname := isName_of_isPlainIdentifier hplain
    intro c hc
    have hpart := isIdPart_of_isName hname c hc
    exact ⟨ne_of_isIdPart hpart (by decide), ne_of_isIdPart hpart (by decide)⟩
  · exact unbroken_quoted quote key

mutual

theorem unbroken_literal : ∀ v : Json, v.Proper → Unbroken (literal quote v)
  | null, _ => by rw [literal]; decide
  | bool b, _ => by cases b <;> (rw [literal]; decide)
  | number n, hn => by
    obtain ⟨m, k, hm, -, ⟨htext, -⟩ | ⟨htext, -⟩⟩ := Number.exists_numeral hn
    · rw [literal, htext]
      exact hm.ne_break
    · rw [literal, htext]
      exact .cons (by decide) hm.ne_break
  | string s, _ => unbroken_quoted quote s
  | array items, hv => by
    have hitems := unbroken_commaSeparated (unbroken_literals items hv)
    rw [literal]
    exact (Unbroken.cons (by decide) hitems).append (by decide)
  | object [], _ => by rw [literal]; decide
  | object (e :: es), hv => by
    have hentries := unbroken_commaSeparated (unbroken_entryLiterals (e :: es) hv.2)
    rw [literal]
    exact (Unbroken.append (by decide) hentries).append (by decide)

theorem unbroken_literals : ∀ vs : List Json, ProperItems vs →
    ∀ t ∈ literals quote vs, Unbroken t
  | [], _ => by simp [literals]
  | v :: vs, hv => by
    rw [literals, List.forall_mem_cons]
    exact ⟨unbroken_literal v hv.1, unbroken_literals vs hv.2⟩

theorem unbroken_entryLiterals : ∀ es : List (String × Json), ProperEntries es →
    ∀ t ∈ entryLiterals quote es, Unbroken t
  | [], _ => by simp [entryLiterals]
  | (key, v) :: es, hv => by
    rw [entryLiterals, List.forall_mem_cons]
    exact ⟨((unbroken_literalKey quote key).append (by decide)).append (unbroken_literal v hv.1),
      unbroken_entryLiterals es hv.2⟩

end

/-! Values that are read back as they are. -/

mutual

/-- No object has the key that sets a prototype. -/
def NoPrototype : Json → Prop
  | array items => NoPrototypeItems items
  | object entries => (∀ e ∈ entries, e.1 ≠ prototypeKey) ∧ NoPrototypeEntries entries
  | _ => True

def NoPrototypeItems : List Json → Prop
  | [] => True
  | v :: vs => v.NoPrototype ∧ NoPrototypeItems vs

def NoPrototypeEntries : List (String × Json) → Prop
  | [] => True
  | (_, v) :: es => v.NoPrototype ∧ NoPrototypeEntries es

end

mutual

theorem own_eq_self_iff : ∀ v : Json, v.own = v ↔ v.NoPrototype
  | null => by simp [own, NoPrototype]
  | bool _ => by simp [own, NoPrototype]
  | number _ => by simp [own, NoPrototype]
  | string _ => by simp [own, NoPrototype]
  | array items => by
    rw [own, array.injEq, NoPrototype]
    exact ownItems_eq_self_iff items
  | object entries => by
    rw [own, object.injEq, NoPrototype, ← ownEntries_eq_self_iff entries]
    constructor
    · intro h
      have hlength := congrArg List.length (keys_ownEntries entries)
      rw [List.length_map, List.length_map] at hlength
      have hall := List.length_filter_eq_length_iff.mp ((congrArg List.length h).trans hlength.symm)
      rw [List.filter_eq_self.mpr hall] at h
      rw [h] at hall
      exact ⟨fun e he => of_decide_eq_true (hall e he), h⟩
    · rintro ⟨hkeys, hown⟩
      rw [hown, List.filter_eq_self]
      exact fun e he => decide_eq_true (hkeys e he)

theorem ownItems_eq_self_iff : ∀ vs : List Json, ownItems vs = vs ↔ NoPrototypeItems vs
  | [] => by simp [ownItems, NoPrototypeItems]
  | v :: vs => by
    rw [ownItems, List.cons.injEq, NoPrototypeItems, own_eq_self_iff v, ownItems_eq_self_iff vs]

theorem ownEntries_eq_self_iff : ∀ es : List (String × Json),
    ownEntries es = es ↔ NoPrototypeEntries es
  | [] => by simp [ownEntries, NoPrototypeEntries]
  | (key, v) :: es => by
    rw [ownEntries, List.cons.injEq, Prod.mk.injEq, NoPrototypeEntries, own_eq_self_iff v,
      ownEntries_eq_self_iff es]
    simp

end

/-- The literal of a value stays in its line and is read back, in the order of its entries. What is
read is the value itself exactly if no object in it has the key `__proto__`. -/
theorem literal_read_back_iff (quote : Quote) {v : Json} (h : v.Proper) :
    (∀ c ∈ literal quote v, c ≠ '\n' ∧ c ≠ '\r') ∧ readLiteral (literal quote v) = some v.own ∧
      (readLiteral (literal quote v) = some v ↔ v.NoPrototype) := by
  have hread := readLiteral_literal quote h
  refine ⟨unbroken_literal quote v h, hread, ?_⟩
  rw [hread, Option.some.injEq]
  exact own_eq_self_iff v

/-- A value with both kinds of keys, nested, with a fraction and a string that needs escapes. -/
def settings : Json :=
  object [("tag", string "it's\n\\"), ("is-on", array [bool true, null]),
    ("size", object [("", number (.double true ⟨5 * 2 ^ 50, -51⟩)), ("w", number (.whole (-7)))])]

theorem settings_read_back :
    settings.Proper ∧ readLiteral (literal .single settings) = some settings := by
  have hsize : Double.Canonical ⟨5 * 2 ^ 50, -51⟩ := by decide
  have hproper : settings.Proper :=
    ⟨by decide, trivial, ⟨trivial, trivial, trivial⟩, ⟨by decide, hsize, trivial, trivial⟩, trivial⟩
  have hfree : settings.NoPrototype :=
    ⟨by decide, trivial, ⟨trivial, trivial, trivial⟩, ⟨by decide, trivial, trivial, trivial⟩,
      trivial⟩
  exact ⟨hproper, (literal_read_back_iff .single hproper).2.2.mpr hfree⟩

example : literal .single settings =
    ("\x7b tag: 'it\\'s\\n\\\\', 'is-on': [true, null], " ++
      "size: \x7b '': -2.5, w: -7 \x7d \x7d").toList := by
  decide +kernel

theorem prototype_entry_is_lost :
    literal .single (object [("__proto__", number (.whole 1))]) = "\x7b __proto__: 1 \x7d".toList ∧
      readLiteral "\x7b __proto__: 1 \x7d".toList = some (object []) ∧
      some (object []) ≠ some (object [("__proto__", number (.whole 1))]) := by
  have htext : literal .single (object [("__proto__", number (.whole 1))]) =
      "\x7b __proto__: 1 \x7d".toList := by decide
  have hproper : (object [("__proto__", number (.whole 1))]).Proper :=
    ⟨by decide, trivial, trivial⟩
  have hread := readLiteral_literal .single hproper
  rw [htext] at hread
  exact ⟨htext, hread, by simp⟩

end EmberClasses.Json
