import EmberClasses.Options
import EmberClasses.Proofs.StringTokens
import EmberClasses.Script.Parser
import Mathlib.Algebra.GroupWithZero.Nat

/-! Tokens and the characters they are read from, in both directions: which token a given text is
read as, and how long a text must be to be read as a given token. A string literal is never shorter
than its value, and is of the same length only if nothing in it is an escape. -/

namespace EmberClasses.Script

open Text (byteLength byteLength_cons byteLength_append isIdStart isIdPart)

namespace Lexer

def isName : List Char → Bool
  | [] => false
  | c :: cs => isIdStart c && cs.all isIdPart

def EndsName (cs : List Char) : Prop := ∀ c ∈ cs.head?, isIdPart c = false ∧ c ≠ '\\'

def IsPlain (quote c : Char) : Prop := c ≠ quote ∧ c ≠ '\\' ∧ c ≠ '\n' ∧ c ≠ '\r'

instance (quote c : Char) : Decidable (IsPlain quote c) := inferInstanceAs (Decidable (_ ∧ _))

theorem isIdPart_of_isIdStart {c : Char} (h : isIdStart c = true) : isIdPart c = true := by
  simp [isIdPart, h]

theorem ne_of_isIdPart {c d : Char} (h : isIdPart c = true) (hd : isIdPart d = false) : c ≠ d := by
  rintro rfl
  rw [h] at hd
  cases hd

theorem isName_concat {cs : List Char} (h : isName cs = true) {c : Char} (hc : isIdPart c = true) :
    isName (cs ++ [c]) = true := by
  cases cs with
  | nil => cases h
  | cons d ds =>
    simp only [isName, Bool.and_eq_true] at h
    simp [isName, h, hc]

theorem isIdPart_of_isName {cs : List Char} (h : isName cs = true) :
    ∀ c ∈ cs, isIdPart c = true := by
  cases cs with
  | nil => cases h
  | cons d ds =>
    rw [isName, Bool.and_eq_true, List.all_eq_true] at h
    exact List.forall_mem_cons.mpr ⟨isIdPart_of_isIdStart h.1, h.2⟩

def blankCodes : List Nat :=
  [9, 10, 11, 12, 13, 32, 0x85, 0xA0, 0x1680, 0x180E, 0x2000, 0x2001, 0x2002, 0x2003, 0x2004,
   0x2005, 0x2006, 0x2007, 0x2008, 0x2009, 0x200A, 0x200B, 0x2028, 0x2029, 0x202F, 0x205F, 0x3000,
   0xFEFF]

theorem toNat_mem_blankCodes {c : Char} (h : isLineBreak c = true ∨ isSpace c = true) :
    c.toNat ∈ blankCodes := by
  have hcode : c.toNat = 10 ∨ c.toNat = 13 ∨ c.toNat = 0x2028 ∨ c.toNat = 0x2029 ∨
      isSpace c = true := by
    rcases h with h | h
    · simp only [isLineBreak, Bool.or_eq_true, beq_iff_eq] at h
      rcases h with ((rfl | rfl) | h) | h
      · exact .inl rfl
      · exact .inr (.inl rfl)
      · exact .inr (.inr (.inl h))
      · exact .inr (.inr (.inr (.inl h)))
    · exact .inr (.inr (.inr (.inr h)))
  simp only [isSpace, Bool.or_eq_true, Bool.and_eq_true, beq_iff_eq, decide_eq_true_eq] at hcode
  simp only [blankCodes, List.mem_cons, List.not_mem_nil, or_false]
  omega

theorem not_blank_of_isIdStart {c : Char} (h : isIdStart c = true) :
    isLineBreak c = false ∧ isSpace c = false := by
  have hblank : ∀ n ∈ blankCodes, isIdStart (Char.ofNat n) = false := by decide +kernel
  have hnone : ¬ (isLineBreak c = true ∨ isSpace c = true) := by
    intro hc
    have hfalse := hblank _ (toNat_mem_blankCodes hc)
    rw [Char.ofNat_toNat, h] at hfalse
    cases hfalse
  simpa using hnone

theorem not_digit_of_isIdStart {c : Char} (h : isIdStart c = true) : c.isDigit = false := by
  have hdigit : ∀ n ∈ List.range' 48 10, isIdStart (Char.ofNat n) = false := by decide
  by_contra hc
  have hrange : 48 ≤ c.toNat ∧ c.toNat ≤ 57 := by
    simpa [Char.isDigit, UInt32.le_iff_toNat_le] using hc
  have hfalse := hdigit c.toNat (List.mem_range'_1.mpr (by omega))
  rw [Char.ofNat_toNat, h] at hfalse
  cases hfalse

section Names

theorem nameRest_append {cs rest rev : List Char} (escaped : Bool) (n : Nat) (hrev : rev ≠ [])
    (hcs : ∀ c ∈ cs, isIdPart c = true) (hrest : EndsName rest) :
    nameRest 0 rev escaped n (cs ++ rest) =
      some (cs.reverse ++ rev, escaped, n + byteLength cs, rest) := by
  induction cs generalizing rev n with
  | nil =>
    cases rest with
    | nil => rfl
    | cons c rest =>
      obtain ⟨hpart, hback⟩ := hrest c rfl
      simp [nameRest, hback, hrev, hpart]
  | cons c cs ih =>
    have hc := hcs c List.mem_cons_self
    have hback : c ≠ '\\' := ne_of_isIdPart hc (by decide)
    have hmore := ih (n + c.utf8Size) (List.cons_ne_nil c rev)
      fun d hd => hcs d (List.mem_cons_of_mem c hd)
    simp only [List.cons_append, nameRest, hback, if_false, List.isEmpty_iff, hrev, hc, if_true]
    rw [hmore, byteLength_cons, List.reverse_cons, List.append_assoc, Nat.add_assoc]
    rfl

theorem scanName_append {cs rest : List Char} (h : isName cs = true) (hrest : EndsName rest) :
    scanName (cs ++ rest) = some (String.ofList cs, false, byteLength cs, rest) := by
  cases cs with
  | nil => cases h
  | cons c cs =>
    simp only [isName, Bool.and_eq_true, List.all_eq_true] at h
    have hback : c ≠ '\\' := ne_of_isIdPart (isIdPart_of_isIdStart h.1) (by decide)
    have hmore := nameRest_append false c.utf8Size (List.cons_ne_nil c [])
      h.2 hrest
    simp only [List.cons_append, scanName, nameRest, hback, if_false, List.isEmpty_nil, if_true,
      h.1, Nat.zero_add, hmore]
    simp [byteLength_cons]

theorem scanToken_name {cs rest : List Char} (h : isName cs = true) (hrest : EndsName rest) :
    scanToken (cs ++ rest) = some (.name (String.ofList cs) false, byteLength cs, rest) := by
  cases cs with
  | nil => cases h
  | cons c cs =>
    have hscan := scanName_append h hrest
    simp only [isName, Bool.and_eq_true] at h
    have hne (d : Char) (hd : isIdStart d = false) : c ≠ d := by
      rintro rfl
      rw [h.1] at hd
      cases hd
    have hdigit := not_digit_of_isIdStart h.1
    rw [List.cons_append] at hscan ⊢
    simp [scanToken, hscan, h.1, hdigit, hne '"' (by decide), hne '\'' (by decide),
      hne '.' (by decide), hne backtick (by decide), hne '#' (by decide)]

/-- What is read as a name: at least as many characters as it has, up to where it can not go on. -/
theorem nameRest_eq_some {skip : Nat} {rev rev' : List Char} {escaped escaped' : Bool} {n n' : Nat}
    {cs rest : List Char} (h : nameRest skip rev escaped n cs = some (rev', escaped', n', rest))
    (hrev : rev = [] ∨ isName rev.reverse = true) :
    (rev' = [] ∨ isName rev'.reverse = true) ∧ (rev' ≠ [] → EndsName rest) ∧
      ∃ text, cs = text ++ rest ∧ rev'.length ≤ rev.length + text.length := by
  have hpush {rev : List Char} (hrev : rev = [] ∨ isName rev.reverse = true) {c : Char}
      (hc : (if rev.isEmpty then isIdStart c else isIdPart c) = true) :
      isName (c :: rev).reverse = true := by
    rw [List.reverse_cons]
    rcases hrev with rfl | hrev
    · simpa [isName] using hc
    · apply isName_concat hrev
      split at hc
      · exact isIdPart_of_isIdStart hc
      · exact hc
  fun_induction nameRest skip rev escaped n cs with
  | case1 skip rev escaped n =>
    cases h
    exact ⟨hrev, fun _ c hc => by simp at hc, [], rfl, by simp⟩
  | case2 rev escaped n skip c cs ih =>
    obtain ⟨hname, hends, text, rfl, hlen⟩ := ih h hrev
    exact ⟨hname, hends, c :: text, rfl, by rw [List.length_cons]; omega⟩
  | case3 => cases h
  | case4 rev escaped n rest fits code k after hcode hfits ih =>
    obtain ⟨hname, hends, text, htext, hlen⟩ := ih h (.inr (hpush hrev hfits))
    refine ⟨hname, hends, '\\' :: text, by rw [htext]; rfl, ?_⟩
    rw [List.length_cons] at hlen ⊢
    omega
  | case5 => cases h
  | case6 => cases h
  | case7 rev escaped n c cs fits hback hfits ih =>
    obtain ⟨hname, hends, text, rfl, hlen⟩ := ih h (.inr (hpush hrev hfits))
    refine ⟨hname, hends, c :: text, rfl, ?_⟩
    rw [List.length_cons] at hlen ⊢
    omega
  | case8 rev escaped n c cs fits hback hfits =>
    cases h
    refine ⟨hrev, fun hne d hd => ?_, [], rfl, by simp⟩
    cases hd
    have hpart : isIdPart c = false := by simpa [fits, hne] using hfits
    exact ⟨hpart, hback⟩

end Names

section Strings

def unitWidth (n : Nat) : Nat := if 0xD800 ≤ n ∧ n ≤ 0xDFFF then 5 else 1

theorem unitWidth_of_lt {n : Nat} (h : n < 0xD800) : unitWidth n = 1 := by
  unfold unitWidth
  rw [if_neg (by omega)]

theorem unitWidth_le (n : Nat) : unitWidth n ≤ 5 := by
  unfold unitWidth
  split <;> omega

theorem length_joinUnits (units : List Nat) :
    (joinUnits units).length ≤ (units.map unitWidth).sum := by
  have hunit (n : Nat) : (joinUnits.unit n).length ≤ unitWidth n := by
    unfold joinUnits.unit unitWidth
    split
    · rename_i hn
      have hdigits : (Nat.toDigits 16 n).length ≤ 4 :=
        (Nat.length_toDigits_le_iff (by omega) (by omega)).mpr (by omega)
      rw [List.length_cons]
      omega
    · rfl
  fun_induction joinUnits units with
  | case1 high low rest hpair ih =>
    have hhigh := unitWidth_le high
    simp only [List.length_cons, List.map_cons, List.sum_cons]
    have : 1 ≤ unitWidth high := by unfold unitWidth; split <;> omega
    omega
  | case2 high low rest hpair ih =>
    rw [List.length_append, List.map_cons, List.sum_cons]
    have := hunit high
    omega
  | case3 n => simpa using hunit n
  | case4 => simp

theorem not_surrogate (c : Char) : ¬ (0xD800 ≤ c.toNat ∧ c.toNat ≤ 0xDFFF) := by
  rcases c.valid with h | h
  · have : c.toNat < 0xD800 := h
    omega
  · have : 0xDFFF < c.toNat := h.1
    omega

theorem unitWidth_toNat (c : Char) : unitWidth c.toNat = 1 := by
  rw [unitWidth, if_neg (not_surrogate c)]

theorem joinUnits_map_toNat (cs : List Char) : joinUnits (cs.map Char.toNat) = cs := by
  have hunit (c : Char) : joinUnits.unit c.toNat = [c] := by
    rw [joinUnits.unit, if_neg (not_surrogate c), Char.ofNat_toNat]
  induction cs with
  | nil => rfl
  | cons c cs ih =>
    cases cs with
    | nil => exact hunit c
    | cons d ds =>
      have hpair := not_surrogate c
      rw [List.map_cons, List.map_cons, joinUnits, if_neg (by omega), hunit, ← List.map_cons, ih]
      rfl

theorem foldl_digits_lt {b : Nat} {value : Char → Nat} {ds : List Char}
    (h : ∀ d ∈ ds, value d < b) (n : Nat) :
    ds.foldl (fun v d => v * b + value d) n < (n + 1) * b ^ ds.length := by
  induction ds generalizing n with
  | nil => simp
  | cons d ds ih =>
    have hd := h d List.mem_cons_self
    calc (d :: ds).foldl (fun v d => v * b + value d) n
        < (n * b + value d + 1) * b ^ ds.length :=
          ih (fun e he => h e (List.mem_cons_of_mem d he)) _
      _ ≤ ((n + 1) * b) * b ^ ds.length := by
        apply Nat.mul_le_mul_right
        rw [Nat.add_mul, Nat.one_mul]
        omega
      _ = (n + 1) * b ^ (d :: ds).length := by rw [List.length_cons, Nat.pow_succ']; ac_rfl

theorem hexNumber_lt (ds : List Char) : hexNumber ds < 16 ^ ds.length := by
  have hvalue (c : Char) : (hexValue? c).getD 0 < 16 := by
    unfold hexValue?
    split
    · rename_i hc
      have hrange : 48 ≤ c.toNat ∧ c.toNat ≤ 57 := by
        simpa [Char.isDigit, UInt32.le_iff_toNat_le] using hc
      simp only [Option.getD_some]
      omega
    · split
      · rename_i hc
        have hrange : c.toNat ≤ 102 := by
          simp only [Bool.and_eq_true, decide_eq_true_eq] at hc
          exact hc.2
        simp only [Option.getD_some]
        omega
      · split
        · rename_i hc
          have hrange : c.toNat ≤ 70 := by
            simp only [Bool.and_eq_true, decide_eq_true_eq] at hc
            exact hc.2
          simp only [Option.getD_some]
          omega
        · decide
  have hlt := foldl_digits_lt (b := 16) (fun d (_ : d ∈ ds) => hvalue d) 0
  simpa [hexNumber] using hlt

theorem codePoint_width {cs rest : List Char} {code k : Nat}
    (h : codePoint cs = some (code, k, rest)) : unitWidth code ≤ k + 1 := by
  unfold codePoint at h
  split at h
  · rename_i digits
    dsimp only at h
    split at h
    · split at h
      · cases h
      · cases h
        have hlt := hexNumber_lt (digits.takeWhile isHex)
        by_cases hlen : (digits.takeWhile isHex).length ≤ 2
        · have hpow : 16 ^ (digits.takeWhile isHex).length ≤ 16 ^ 2 :=
            Nat.pow_le_pow_right (by omega) hlen
          rw [unitWidth_of_lt (by omega)]
          omega
        · have := unitWidth_le (hexNumber (digits.takeWhile isHex))
          omega
    · cases h
  · dsimp only at h
    split at h
    · cases h
      exact unitWidth_le _
    · cases h

theorem octal_lt (cs : List Char) :
    (octalDigits cs).foldl (fun v d => v * 8 + (d.toNat - 48)) 0 < 512 := by
  have hlen : (octalDigits cs).length ≤ 3 := by
    unfold octalDigits
    dsimp only
    split
    · refine (List.takeWhile_prefix _).length_le.trans ((List.length_take_le _ _).trans ?_)
      split <;> omega
    · simp
  have hdigit : ∀ d ∈ octalDigits cs, d.toNat - 48 ≤ 7 := by
    intro d hd
    unfold octalDigits at hd
    dsimp only at hd
    split at hd
    · have hle := List.all_eq_true.mp List.all_takeWhile _ hd
      simp only [Bool.and_eq_true, decide_eq_true_eq] at hle
      have : d.toNat ≤ 55 := hle.2
      omega
    · cases hd
  generalize octalDigits cs = ds at hlen hdigit
  have hlt := foldl_digits_lt (b := 8) (fun d hd => Nat.lt_succ_of_le (hdigit d hd)) 0
  have hpow : 8 ^ ds.length ≤ 8 ^ 3 := Nat.pow_le_pow_right (by omega) hlen
  omega

/-- An escape is not shorter than what it stands for, its backslash not counted. -/
theorem scanEscape_width {cs : List Char} {units : List Nat} {k : Nat}
    (h : scanEscape cs = some (units, k)) : (units.map unitWidth).sum ≤ k := by
  unfold scanEscape at h
  split at h
  · cases h
  · cases h
    simp
  · rename_i rest
    dsimp only at h
    split at h
    · rename_i hhex
      cases h
      simp only [Bool.and_eq_true, decide_eq_true_eq] at hhex
      have hlt := hexNumber_lt (rest.take 2)
      rw [hhex.1] at hlt
      rw [List.map_singleton, List.sum_singleton, unitWidth_of_lt (by omega)]
      omega
    · cases h
  · obtain ⟨⟨code, j, after⟩, hcode, heq⟩ := Option.map_eq_some_iff.mp h
    cases heq
    simpa using codePoint_width hcode
  · rename_i c rest _ _ _
    split at h
    · cases h
      simp
    · dsimp only at h
      split at h
      · cases h
        rw [List.map_singleton, List.sum_singleton]
        unfold plainEscape
        split
        iterate 6 decide
        exact (unitWidth_toNat c).le
      · rename_i hsome
        cases h
        have hoctal := octal_lt (c :: rest)
        have hpos : 0 < (octalDigits (c :: rest)).length := by
          rw [List.length_pos_iff]
          simpa using hsome
        rw [List.map_singleton, List.sum_singleton, unitWidth_of_lt (by omega)]
        omega

theorem stringRest_append {quote : Char} {cs : List Char} (rest : List Char) (rev : List Nat)
    (n : Nat) (h : ∀ c ∈ cs, IsPlain quote c) :
    stringRest quote 0 rev n (cs ++ quote :: rest) =
      some (String.ofList (joinUnits (rev.reverse ++ cs.map Char.toNat)),
        n + byteLength cs + 1, rest) := by
  induction cs generalizing rev n with
  | nil => simp [stringRest]
  | cons c cs ih =>
    obtain ⟨hquote, hback, hfeed, hreturn⟩ := h c List.mem_cons_self
    have hmore := ih (c.toNat :: rev) (n + c.utf8Size)
      fun d hd => h d (List.mem_cons_of_mem c hd)
    simp only [List.cons_append, stringRest, hquote, hback, hfeed, hreturn, if_false, decide_false,
      Bool.or_false, Bool.false_eq_true]
    rw [hmore, byteLength_cons, List.reverse_cons, List.append_assoc, Nat.add_assoc n]
    rfl

/-- What is read as a string: at least as many characters as it has, between two quotes, and more if
one of them does not stand for itself. -/
theorem stringRest_length {quote : Char} {skip n m : Nat} {rev : List Nat} {cs after : List Char}
    {value : String} (h : stringRest quote skip rev n cs = some (value, m, after)) :
    ∃ body, cs = body ++ quote :: after ∧
      value.length + skip ≤ body.length + (rev.map unitWidth).sum ∧
      (value.length = body.length + (rev.map unitWidth).sum → ∀ c ∈ body, IsPlain quote c) := by
  induction cs generalizing skip rev n with
  | nil => cases skip <;> cases h
  | cons c cs ih =>
    cases skip with
    | succ skip =>
      rw [stringRest] at h
      obtain ⟨body, rfl, hle, -⟩ := ih h
      refine ⟨c :: body, rfl, by rw [List.length_cons]; omega, fun heq => ?_⟩
      rw [List.length_cons] at heq
      omega
    | zero =>
      rw [stringRest] at h
      split at h
      · rename_i hquote
        cases h
        have hunits := length_joinUnits rev.reverse
        rw [List.map_reverse, List.sum_reverse] at hunits
        exact ⟨[], by rw [hquote]; rfl, by simpa using hunits, by simp⟩
      · rename_i hquote
        split at h
        · split at h
          · cases h
          · rename_i units k hescape
            have hwidth := scanEscape_width hescape
            obtain ⟨body, rfl, hle, -⟩ := ih h
            rw [List.map_append, List.sum_append] at hle
            refine ⟨c :: body, rfl, by rw [List.length_cons]; omega, fun heq => ?_⟩
            rw [List.length_cons] at heq
            omega
        · rename_i hback
          split at h
          · cases h
          · rename_i hbreak
            obtain ⟨body, rfl, hle, hplain⟩ := ih h
            rw [List.map_cons, List.sum_cons, unitWidth_toNat] at hle hplain
            refine ⟨c :: body, rfl, by rw [List.length_cons]; omega, fun heq d hd => ?_⟩
            rw [List.length_cons] at heq
            rcases List.mem_cons.mp hd with rfl | hd
            · simp only [Bool.or_eq_true, decide_eq_true_eq, not_or] at hbreak
              exact ⟨hquote, hback, hbreak⟩
            · exact hplain (by omega) d hd

end Strings

section Tokens

variable {cs rest : List Char} {n : Nat}

theorem quote_cases (quote : Quote) : quote.char = '"' ∨ quote.char = '\'' := by
  cases quote with
  | single => exact .inr rfl
  | double => exact .inl rfl

theorem scanToken_plain (rest : List Char) {quote : Char} (hquote : quote = '"' ∨ quote = '\'')
    {value : String} (h : ∀ c ∈ value.toList, IsPlain quote c) :
    ∃ n, scanToken (quote :: (value.toList ++ quote :: rest)) = some (.string value, n, rest) := by
  have hrest := stringRest_append rest [] 1 h
  rw [List.reverse_nil, List.nil_append, joinUnits_map_toNat, String.ofList_toList] at hrest
  have htest : (quote = '"' || quote = '\'') = true := by simpa using hquote
  refine ⟨1 + byteLength value.toList + 1, ?_⟩
  rw [scanToken, if_pos htest, scanString, hrest]
  rfl

theorem string_of_scanToken {value : String} (h : scanToken cs = some (.string value, n, rest)) :
    ∃ quote body, (quote = '"' ∨ quote = '\'') ∧ cs = quote :: (body ++ quote :: rest) ∧
      value.length ≤ body.length ∧ (value.length = body.length → ∀ c ∈ body, IsPlain quote c) := by
  obtain ⟨quote, after, rfl, hquote, hscan⟩ := scanString_of_scanToken h
  obtain ⟨⟨v, m, end_⟩, hrest, heq⟩ := Option.map_eq_some_iff.mp hscan
  cases heq
  obtain ⟨body, rfl, hle, hplain⟩ := stringRest_length hrest
  exact ⟨quote, body, hquote, rfl, by simpa using hle, fun hlen => hplain (by simpa using hlen)⟩

theorem scanToken_eq_some {t : Token} (h : scanToken cs = some (t, n, rest)) :
    (∀ p, t ≠ .punct p) ∧ (∀ text escaped, t ≠ .name text escaped) ∨
      (∃ c tail text escaped, cs = c :: tail ∧ (isIdStart c = true ∨ c = '\\') ∧
        t = .name text escaped ∧ scanName cs = some (text, escaped, n, rest)) ∨
      scanPunct cs = some (t, n, rest) := by
  unfold scanToken at h
  split at h
  · cases h
    exact .inl ⟨by simp, by simp⟩
  · rename_i c tail
    split at h
    · obtain ⟨_, _, h⟩ := Option.map_eq_some_iff.mp h
      cases h
      exact .inl ⟨by simp, by simp⟩
    · split at h
      · rcases scanNumber_token h with rfl | rfl <;> exact .inl ⟨by simp, by simp⟩
      · split at h
        · rcases scanNumber_token h with rfl | rfl <;> exact .inl ⟨by simp, by simp⟩
        · split at h
          · obtain ⟨_, _, rfl⟩ := templateRest_token h
            exact .inl ⟨by simp, by simp⟩
          · split at h
            · obtain ⟨_, _, h⟩ := Option.map_eq_some_iff.mp h
              cases h
              exact .inl ⟨by simp, by simp⟩
            · split at h
              · rename_i hstart
                obtain ⟨⟨text, escaped, m, after⟩, hscan, heq⟩ := Option.map_eq_some_iff.mp h
                cases heq
                exact .inr (.inl ⟨c, tail, text, escaped, rfl, by simpa using hstart, rfl, hscan⟩)
              · exact .inr (.inr h)

theorem scanPunct_eq_some {t : Token} (h : scanPunct cs = some (t, n, rest)) :
    (∃ p, t = .punct p) ∧ rest <:+ cs ∧ rest.length < cs.length := by
  unfold scanPunct at h
  split at h
  · cases h
  · rename_i after
    split at h
    · cases h
      exact ⟨⟨_, rfl⟩, ⟨['?'], rfl⟩, by simp⟩
    · cases h
      exact ⟨⟨_, rfl⟩, ⟨['?', '.'], rfl⟩, by simp only [List.length_cons]; omega⟩
  · obtain ⟨⟨p, m⟩, hfind, heq⟩ := Option.map_eq_some_iff.mp h
    cases heq
    obtain ⟨e, he, heq⟩ := Option.map_eq_some_iff.mp hfind
    cases heq
    have hspelled : ∀ e ∈ Punct.table, 0 < e.1.length := by decide
    have hlen := hspelled e (List.mem_of_find?_eq_some he)
    have hprefix := List.find?_some he
    rw [List.isPrefixOf_iff_prefix] at hprefix
    have hle := hprefix.length_le
    exact ⟨⟨_, rfl⟩, List.drop_suffix _ _, by rw [List.length_drop]; omega⟩

theorem name_of_scanToken {text : String} {escaped : Bool}
    (h : scanToken cs = some (.name text escaped, n, rest)) :
    isName text.toList = true ∧ ¬ EndsName cs ∧ EndsName rest ∧
      ∃ read, cs = read ++ rest ∧ text.length ≤ read.length := by
  rcases scanToken_eq_some h with ⟨-, hnone⟩ | ⟨c, tail, _, _, rfl, hstart, heq, hscan⟩ | hpunct
  · exact absurd rfl (hnone text escaped)
  · cases heq
    unfold scanName at hscan
    split at hscan
    · rename_i rev escaped' m after hrest
      split at hscan
      · cases hscan
      · rename_i hne
        cases hscan
        have hne : rev ≠ [] := by simpa using hne
        obtain ⟨hname, hends, read, hread, hlen⟩ := nameRest_eq_some hrest (.inl rfl)
        refine ⟨?_, ?_, hends hne, read, hread, by simpa using hlen⟩
        · rw [String.toList_ofList]
          exact hname.resolve_left hne
        · intro hfalse
          obtain ⟨hpart, hback⟩ := hfalse c rfl
          rcases hstart with hstart | hstart
          · exact absurd (isIdPart_of_isIdStart hstart) (by simp [hpart])
          · exact hback hstart
    · cases hscan
  · obtain ⟨⟨p, hp⟩, -⟩ := scanPunct_eq_some hpunct
    cases hp

theorem punct_of_scanToken {p : Punct} (h : scanToken cs = some (.punct p, n, rest)) :
    rest <:+ cs ∧ rest.length < cs.length := by
  rcases scanToken_eq_some h with ⟨hnone, -⟩ | ⟨_, _, _, _, _, _, heq, _⟩ | hpunct
  · exact absurd rfl (hnone p)
  · cases heq
  · exact (scanPunct_eq_some hpunct).2

end Tokens

theorem skipTrivia_eq_some {mode : Trivia} {n m : Nat} {fresh fresh' : Bool} {cs here : List Char}
    (h : skipTrivia mode n fresh cs = some (m, fresh', here)) :
    here <:+ cs ∧ ∀ c ∈ here.head?, isSpace c = false := by
  fun_induction skipTrivia mode n fresh cs with
  | case1 => cases h
  | case2 =>
    cases h
    exact ⟨List.suffix_rfl, by simp⟩
  | case3 n fresh cs ih => exact (ih h).imp_left fun hs => hs.trans ⟨['/', '/'], rfl⟩
  | case4 n fresh cs ih => exact (ih h).imp_left fun hs => hs.trans ⟨['/', '*'], rfl⟩
  | case7 n fresh c cs _ _ _ hspace =>
    cases h
    refine ⟨List.suffix_rfl, fun d hd => ?_⟩
    cases hd
    simpa using hspace
  | case10 n fresh cs ih => exact (ih h).imp_left fun hs => hs.trans ⟨['*', '/'], rfl⟩
  | _ =>
    rename_i ih
    obtain ⟨hsuffix, hspace⟩ := ih h
    exact ⟨hsuffix.trans (List.suffix_cons _ _), hspace⟩

theorem skipTrivia_space (n : Nat) (fresh : Bool) (cs : List Char) :
    skipTrivia .blank n fresh (' ' :: cs) = skipTrivia .blank (n + 1) fresh cs := rfl

def Solid (cs : List Char) : Prop :=
  ∀ c ∈ cs.head?, isLineBreak c = false ∧ isSpace c = false ∧ c ≠ '/'

theorem skipTrivia_solid {cs : List Char} (h : Solid cs) (n : Nat) (fresh : Bool) :
    skipTrivia .blank n fresh cs = some (n, fresh, cs) := by
  cases cs with
  | nil => rfl
  | cons c cs =>
    obtain ⟨hbreak, hspace, hslash⟩ := h c rfl
    simp [skipTrivia, hbreak, hspace, hslash]

theorem solid_cons {c : Char} (h : isLineBreak c = false ∧ isSpace c = false ∧ c ≠ '/') :
    Solid (c :: rest) := by
  intro d hd
  cases hd
  exact h

theorem endsName_cons {c : Char} (h : isIdPart c = false ∧ c ≠ '\\') : EndsName (c :: rest) := by
  intro d hd
  cases hd
  exact h

theorem scan_comma : scanToken (',' :: rest) = some (.punct .comma, 1, rest) := rfl

theorem scan_lbrace : scanToken ('{' :: rest) = some (.punct .lbrace, 1, rest) := rfl

theorem scan_rbrace : scanToken ('}' :: rest) = some (.punct .rbrace, 1, rest) := rfl

theorem solid_name {cs : List Char} (h : isName cs = true) (rest : List Char) :
    Solid (cs ++ rest) := by
  cases cs with
  | nil => cases h
  | cons c cs =>
    intro d hd
    cases hd
    simp only [isName, Bool.and_eq_true] at h
    obtain ⟨hbreak, hspace⟩ := not_blank_of_isIdStart h.1
    exact ⟨hbreak, hspace, ne_of_isIdPart (isIdPart_of_isIdStart h.1) (by decide)⟩

end Lexer

namespace Cursor

open Lexer

structure At (c : Cursor) (text : List Char) : Prop where
  here : c.here = text
  scan : ∃ n, scanToken text = some (c.token, n, c.rest)

variable {c c' : Cursor} {text : List Char}

theorem read_eq_ok {offset last : Nat} (h : read offset last text = .ok c) :
    c.At c.here ∧ c.here <:+ text ∧ ∀ x ∈ c.here.head?, isSpace x = false := by
  unfold read at h
  split at h
  · cases h
  · rename_i hskip
    obtain ⟨hsuffix, hspace⟩ := skipTrivia_eq_some hskip
    split at h
    · cases h
    · rename_i hscan
      cases h
      exact ⟨⟨rfl, _, hscan⟩, hsuffix, hspace⟩

theorem advance_eq_ok (h : c.advance = .ok c') :
    c'.At c'.here ∧ c'.here <:+ c.rest ∧ ∀ x ∈ c'.here.head?, isSpace x = false :=
  read_eq_ok h

theorem At.unique (h : c.At text) {t : Token} {n : Nat} {rest : List Char}
    (hscan : scanToken text = some (t, n, rest)) : c.token = t ∧ c.rest = rest := by
  obtain ⟨m, hc⟩ := h.scan
  rw [hscan] at hc
  cases hc
  exact ⟨rfl, rfl⟩

theorem read_at {offset last : Nat} {t : Token} {n : Nat} {rest : List Char} (hsolid : Solid text)
    (hscan : scanToken text = some (t, n, rest)) :
    ∃ c, read offset last text = .ok c ∧ c.At text := by
  rw [read, skipTrivia_solid hsolid]
  dsimp only
  rw [hscan]
  exact ⟨_, rfl, rfl, n, hscan⟩

/-- To the next token, which follows at once or after a blank. -/
theorem advance_at (hrest : c.rest = text ∨ c.rest = ' ' :: text) {t : Token} {n : Nat}
    {rest : List Char} (hsolid : Solid text) (hscan : scanToken text = some (t, n, rest)) :
    ∃ c', c.advance = .ok c' ∧ c'.At text := by
  unfold advance
  rcases hrest with hrest | hrest
  · rw [hrest]
    exact read_at hsolid hscan
  · rw [hrest, read, skipTrivia_space, skipTrivia_solid hsolid]
    dsimp only
    rw [hscan]
    exact ⟨_, rfl, rfl, n, hscan⟩

end Cursor

end EmberClasses.Script
