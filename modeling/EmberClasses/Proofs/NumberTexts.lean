import EmberClasses.Json.Value
import EmberClasses.Proofs.DoubleRounding
import EmberClasses.Proofs.TokenTexts

/-! The texts of numbers. A number is written as a decimal literal of a script, which the lexer
takes as one token and which stands for the number again: a text of digits alone for a whole number,
any other for the double nearest to it. -/

namespace EmberClasses.Json

open Script (Token)
open Script.Lexer
open Double (Decimal)

def digitsValue (ds : List Char) : Nat := Nat.ofDigitChars 10 ds 0

/-- A decimal literal by its parts. The exponent has its sign in front. -/
structure Numeral where
  whole : List Char
  fraction : Option (List Char) := none
  exponent : Option (Char × List Char) := none

namespace Numeral

def fractionText (n : Numeral) : List Char := n.fraction.elim [] ('.' :: ·)

def exponentText (n : Numeral) : List Char := n.exponent.elim [] fun (sign, ds) => 'e' :: sign :: ds

def text (n : Numeral) : List Char := n.whole ++ (n.fractionText ++ n.exponentText)

def power (n : Numeral) : Int :=
  n.exponent.elim 0 fun (sign, ds) => if sign = '-' then -(digitsValue ds : Int) else digitsValue ds

def digits (n : Numeral) : List Char := n.whole ++ n.fraction.getD []

def decimal (n : Numeral) : Decimal where
  digits := digitsValue n.digits
  exponent := n.power - (n.fraction.getD []).length

end Numeral

def Digits (ds : List Char) : Prop := ds ≠ [] ∧ ∀ c ∈ ds, c.isDigit = true

instance (ds : List Char) : Decidable (Digits ds) :=
  decidable_of_iff (ds ≠ [] ∧ ds.all Char.isDigit = true) (by rw [List.all_eq_true]; rfl)

/-- The parts are those of a decimal literal without leading zeros. -/
structure Numeral.Formed (n : Numeral) : Prop where
  whole : Digits n.whole
  padded : n.whole = ['0'] ∨ n.whole.head? ≠ some '0'
  fraction : ∀ ds, n.fraction = some ds → Digits ds
  exponent : ∀ sign ds, n.exponent = some (sign, ds) → (sign = '+' ∨ sign = '-') ∧ Digits ds

section Reading

def exponentValue? : List Char → Option Int
  | [] => some 0
  | mark :: cs =>
    let (negative, ds) := match cs with
      | '-' :: ds => (true, ds)
      | '+' :: ds => (false, ds)
      | ds => (false, ds)
    if (mark == 'e' || mark == 'E') && ds.all Char.isDigit then
      some (if negative then -(digitsValue ds : Int) else digitsValue ds)
    else none

def Number.nearest? (t : Decimal) : Option Number :=
  (Double.ofRatio t.ratio.1 t.ratio.2).map (.double false)

/-- The number that the text of a decimal literal stands for. No zero may stand in front of other
digits. -/
def Number.ofText? (text : List Char) : Option Number :=
  let whole := text.takeWhile Char.isDigit
  if whole.length ≠ 1 ∧ whole.head? = some '0' then none
  else
    match text.dropWhile Char.isDigit with
    | [] => some (.whole (digitsValue whole))
    | '.' :: cs => do
      let fraction := cs.takeWhile Char.isDigit
      let exponent ← exponentValue? (cs.dropWhile Char.isDigit)
      nearest? ⟨digitsValue (whole ++ fraction), exponent - fraction.length⟩
    | cs => do nearest? ⟨digitsValue whole, ← exponentValue? cs⟩

end Reading

/-- The digits of a literal end here: the point or the exponent follows, or nothing of the literal.
-/
def EndsDigits (cs : List Char) : Prop :=
  ∀ c ∈ cs.head?, c = '.' ∨ c = 'e' ∨ Text.isIdPart c = false

def EndsNumber (cs : List Char) : Prop := EndsName cs ∧ cs.head? ≠ some '.'

theorem EndsNumber.endsDigits {cs : List Char} (h : EndsNumber cs) : EndsDigits cs :=
  fun c hc => .inr (.inr (h.1 c hc).1)

theorem endsNumber_nil : EndsNumber [] := ⟨fun _ hc => absurd hc (by simp), by simp⟩

theorem EndsDigits.not_digit {cs : List Char} (h : EndsDigits cs) {c : Char} (hc : c ∈ cs.head?) :
    c.isDigit = false ∧ c ≠ '_' ∧ c ≠ 'n' := by
  rcases h c hc with rfl | rfl | hpart
  · decide
  · decide
  · refine ⟨?_, ?_, ?_⟩
    · by_contra hd
      simp [Text.isIdPart, hd] at hpart
    all_goals
      rintro rfl
      revert hpart
      decide

theorem takeWhile_digits {ds tail : List Char} (h : ∀ c ∈ ds, c.isDigit = true)
    (htail : EndsDigits tail) :
    (ds ++ tail).takeWhile Char.isDigit = ds ∧ (ds ++ tail).dropWhile Char.isDigit = tail := by
  rw [List.takeWhile_append_of_pos h, List.dropWhile_append_of_pos h]
  cases tail with
  | nil => simp
  | cons c tail => simp [(htail.not_digit rfl).1]

/-! The value of digits. -/

theorem digitsValue_append (ds es : List Char) :
    digitsValue (ds ++ es) = digitsValue ds * 10 ^ es.length + digitsValue es := by
  unfold digitsValue
  rw [Nat.ofDigitChars_append, Nat.ofDigitChars_eq_ofDigitChars_zero, Nat.mul_comm]

theorem digitsValue_zeros (k : Nat) : digitsValue (List.replicate k '0') = 0 := by
  unfold digitsValue
  rw [Nat.ofDigitChars_replicate_zero, Nat.mul_zero]

theorem digitsValue_toDigits (n : Nat) : digitsValue (Nat.toDigits 10 n) = n :=
  Nat.ofDigitChars_toDigits (by decide) (by decide)

theorem digits_toDigits (n : Nat) : Digits (Nat.toDigits 10 n) :=
  ⟨Nat.toDigits_ne_nil, fun _ hc => Nat.isDigit_of_mem_toDigits (by decide) (by decide) hc⟩

theorem head?_toDigits {n : Nat} (hn : 0 < n) : (Nat.toDigits 10 n).head? ≠ some '0' := by
  have hdigit : ∀ k < 10, 0 < k → [k.digitChar].head? ≠ some '0' := by decide
  induction n using Nat.strong_induction_on with
  | _ n ih =>
    by_cases hlt : n < 10
    · rw [Nat.toDigits_of_lt_base hlt]
      exact hdigit n hlt hn
    · rw [Nat.toDigits_of_base_le (by decide) (by omega),
        List.head?_append_of_ne_nil _ Nat.toDigits_ne_nil]
      exact ih _ (by omega) (by omega)

namespace Numeral

variable {n : Numeral} {rest : List Char}

theorem endsDigits_exponentText (n : Numeral) (hrest : EndsNumber rest) :
    EndsDigits (n.exponentText ++ rest) := by
  unfold exponentText
  cases n.exponent with
  | none => exact hrest.endsDigits
  | some e =>
    rintro c ⟨⟩
    exact .inr (.inl rfl)

theorem endsDigits_fractionText (n : Numeral) (hrest : EndsNumber rest) :
    EndsDigits (n.fractionText ++ (n.exponentText ++ rest)) := by
  unfold fractionText
  cases n.fraction with
  | none => exact n.endsDigits_exponentText hrest
  | some ds =>
    rintro c ⟨⟩
    exact .inl rfl

theorem Formed.exponentValue?_text (h : n.Formed) :
    exponentValue? n.exponentText = some n.power := by
  unfold exponentText power
  cases he : n.exponent with
  | none => rfl
  | some e =>
    obtain ⟨sign, ds⟩ := e
    obtain ⟨hsign, -, hds⟩ := h.exponent sign ds he
    rcases hsign with rfl | rfl <;> simp [exponentValue?, List.all_eq_true.mpr hds]

theorem Formed.not_padded (h : n.Formed) :
    ¬ (n.whole.length ≠ 1 ∧ n.whole.head? = some '0') := by
  rintro ⟨hlength, hhead⟩
  rcases h.padded with hzero | hne
  · exact hlength (by rw [hzero]; rfl)
  · exact hne hhead

theorem Formed.ofText?_whole (h : n.Formed) (hf : n.fraction = none) (he : n.exponent = none) :
    Number.ofText? n.text = some (.whole (digitsValue n.whole)) := by
  have htext : n.text = n.whole ++ [] := by simp [text, fractionText, exponentText, hf, he]
  obtain ⟨htake, hdrop⟩ := takeWhile_digits h.whole.2 endsNumber_nil.endsDigits
  rw [htext, Number.ofText?, htake, hdrop]
  exact if_neg h.not_padded

/-- Any other literal stands for the double nearest to it. -/
theorem Formed.ofText?_double (h : n.Formed) (hne : n.fraction ≠ none ∨ n.exponent ≠ none) :
    Number.ofText? n.text = Number.nearest? n.decimal := by
  have hexponent := h.exponentValue?_text
  have hrest := n.endsDigits_fractionText endsNumber_nil
  rw [List.append_nil] at hrest
  obtain ⟨htake, hdrop⟩ := takeWhile_digits h.whole.2 hrest
  rw [text, Number.ofText?, htake, hdrop]
  dsimp only
  rw [if_neg h.not_padded]
  cases hf : n.fraction with
  | none =>
    cases he : n.exponent with
    | none => simp [hf, he] at hne
    | some e =>
      have htext : n.exponentText = 'e' :: e.1 :: e.2 := by rw [exponentText, he]; rfl
      rw [htext] at hexponent
      simp [fractionText, hf, htext, hexponent, decimal, digits]
  | some ds =>
    have hends := n.endsDigits_exponentText endsNumber_nil
    rw [List.append_nil] at hends
    obtain ⟨htake, hdrop⟩ := takeWhile_digits (h.fraction ds hf).2 hends
    simp [fractionText, hf, htake, hdrop, hexponent, decimal, digits]

/-! Scanning. -/

theorem wellSeparated_digits {ds : List Char} (h : ∀ c ∈ ds, c.isDigit = true) {after : Bool}
    (hafter : after = true ∨ ds ≠ []) : wellSeparated after ds = true := by
  induction ds generalizing after with
  | nil => simpa [wellSeparated] using hafter
  | cons d ds ih =>
    have hd : d ≠ '_' := by
      rintro rfl
      exact absurd (h '_' List.mem_cons_self) (by decide)
    have hds : wellSeparated true ds = true :=
      ih (fun c hc => h c (List.mem_cons_of_mem d hc)) (.inl rfl)
    cases after <;> simp [wellSeparated, hd, hds]

theorem digitRun_append {ds : List Char} (h : Digits ds) (hrest : EndsDigits rest) :
    digitRun Char.isDigit (ds ++ rest) = some (ds.length, rest) := by
  have hrun : (ds ++ rest).takeWhile (fun c => c.isDigit || c == '_') = ds := by
    rw [List.takeWhile_append_of_pos fun c hc => by simp [h.2 c hc]]
    cases rest with
    | nil => simp
    | cons c rest => simp [hrest.not_digit rfl]
  simp [digitRun, hrun, wellSeparated_digits h.2 (.inr h.1)]

theorem Formed.scanExponent_text (h : n.Formed) (hrest : EndsNumber rest) (k : Nat) :
    scanExponent k (n.exponentText ++ rest) = some (k + n.exponentText.length, rest) := by
  unfold exponentText
  cases he : n.exponent with
  | none =>
    cases rest with
    | nil => rfl
    | cons c rest =>
      have hpart := (hrest.1 c rfl).1
      have hmark : c ≠ 'e' ∧ c ≠ 'E' := by
        constructor <;> (rintro rfl; revert hpart; decide)
      simp [scanExponent, hmark]
  | some e =>
    obtain ⟨sign, ds⟩ := e
    obtain ⟨hsign, hds⟩ := h.exponent sign ds he
    have hrun := digitRun_append hds hrest.endsDigits
    have hlength : k + 1 + 1 + ds.length = k + (ds.length + 1 + 1) := by omega
    rcases hsign with rfl | rfl <;> simp [scanExponent, hrun, hlength]

theorem Formed.scanFraction_text (h : n.Formed) (hrest : EndsNumber rest) (k : Nat) :
    scanFraction k (n.fractionText ++ (n.exponentText ++ rest)) =
      some (k + (n.fractionText ++ n.exponentText).length, rest) := by
  have hexponent := h.scanExponent_text hrest
  unfold fractionText
  cases hf : n.fraction with
  | none =>
    have hpoint : (n.exponentText ++ rest).head? ≠ some '.' := by
      unfold exponentText
      cases n.exponent with
      | none => exact hrest.2
      | some e => simp
    rw [Option.elim_none, List.nil_append, List.nil_append, ← hexponent k]
    generalize n.exponentText ++ rest = tail at *
    unfold scanFraction
    split
    · exact absurd rfl hpoint
    · rfl
  | some ds =>
    have hds := h.fraction ds hf
    have hrun := digitRun_append hds (n.endsDigits_exponentText hrest)
    obtain ⟨d, ds, rfl⟩ := List.exists_cons_of_ne_nil hds.1
    have hd := hds.2 d List.mem_cons_self
    simp only [Option.elim_some, List.cons_append] at hrun ⊢
    simp only [scanFraction, hd, if_true, hrun, Option.bind_some, hexponent]
    simp only [List.length_cons, List.length_append]
    congr 2
    omega

/-- A zero in front is the only digit before the point. -/
theorem Formed.after_zero (h : n.Formed) (hrest : EndsNumber rest) {cs : List Char}
    (heq : n.text ++ rest = '0' :: cs) : EndsDigits cs := by
  obtain ⟨d, ds, hwhole⟩ := List.exists_cons_of_ne_nil h.whole.1
  have hends := n.endsDigits_fractionText hrest
  rw [text, hwhole, List.cons_append, List.cons_append, List.append_assoc, List.append_assoc] at heq
  obtain ⟨rfl, rfl⟩ := List.cons.inj heq
  have hds : ds = [] := by
    rcases h.padded with hzero | hne
    · rw [hwhole] at hzero
      exact (List.cons.inj hzero).2
    · exact absurd (by rw [hwhole]; rfl) hne
  rwa [hds, List.nil_append]

theorem Formed.scanNumber_text (h : n.Formed) (hrest : EndsNumber rest) :
    scanNumber (n.text ++ rest) = some (.number, n.text.length, rest) := by
  have hzero {c : Char} {cs : List Char} (hc : c ≠ '.' ∧ c ≠ 'e' ∧ Text.isIdPart c = true)
      (heq : n.text ++ rest = '0' :: c :: cs) : False := by
    rcases h.after_zero hrest heq c rfl with hdot | hmark | hpart
    · exact hc.1 hdot
    · exact hc.2.1 hmark
    · exact absurd hc.2.2 (by simp [hpart])
  have htext : n.text ++ rest = n.whole ++ (n.fractionText ++ (n.exponentText ++ rest)) := by
    simp [text]
  have hends := n.endsDigits_fractionText hrest
  have hrun := digitRun_append h.whole hends
  have hfraction := h.scanFraction_text hrest n.whole.length
  have hend : numberEnd .number n.text.length rest = some (.number, n.text.length, rest) := by
    cases rest with
    | nil => rfl
    | cons c rest => simp [numberEnd, hrest.1 c rfl]
  unfold scanNumber
  split
  iterate 6
    rename_i heq
    exact (hzero (by decide) heq).elim
  · rename_i heq
    obtain ⟨d, ds, hwhole⟩ := List.exists_cons_of_ne_nil h.whole.1
    have hd := h.whole.2 d (by rw [hwhole]; exact List.mem_cons_self)
    rw [htext, hwhole, List.cons_append] at heq
    obtain ⟨rfl, -⟩ := List.cons.inj heq
    exact absurd hd (by decide)
  · rename_i heq
    exact (hzero (by decide) heq).elim
  · have hpadded : (n.text ++ rest).head? = some '0' →
        ((n.text ++ rest).tail.head?.map Char.isDigit).getD false = false := by
      intro hhead
      cases hcs : n.text ++ rest with
      | nil => rfl
      | cons c cs =>
        rw [hcs] at hhead
        obtain rfl : c = '0' := Option.some.inj hhead
        cases cs with
        | nil => rfl
        | cons d cs => exact ((h.after_zero hrest hcs).not_digit rfl).1
    rw [if_neg (by simpa using hpadded), htext, hrun]
    split
    · rename_i heq
      cases heq
    · rename_i k tail heq
      rw [Option.some.injEq, Prod.mk.injEq] at heq
      exact absurd rfl (hends.not_digit (c := 'n') (by rw [heq.2]; rfl)).2.2
    · rename_i heq
      cases heq
      rw [hfraction, Option.bind_some, ← List.length_append]
      exact hend

theorem Formed.scanToken_text (h : n.Formed) (hrest : EndsNumber rest) :
    scanToken (n.text ++ rest) = some (.number, n.text.length, rest) := by
  have hscan := h.scanNumber_text hrest
  obtain ⟨d, ds, hwhole⟩ := List.exists_cons_of_ne_nil h.whole.1
  have hd : d.isDigit = true := h.whole.2 d (by rw [hwhole]; exact List.mem_cons_self)
  have hquote : ¬ (d = '"' ∨ d = '\'') := by
    rintro (rfl | rfl) <;> exact absurd hd (by decide)
  obtain ⟨tail, htail⟩ : ∃ tail, n.text ++ rest = d :: tail := by
    rw [text, hwhole]
    exact ⟨_, rfl⟩
  rw [htail] at hscan ⊢
  rw [scanToken, if_neg (by simpa using hquote), if_pos hd, hscan]

theorem Formed.ne_break (h : n.Formed) : ∀ c ∈ n.text, c ≠ '\n' ∧ c ≠ '\r' := by
  have hdigit {c : Char} (hc : c.isDigit = true) : c ≠ '\n' ∧ c ≠ '\r' := by
    constructor <;> (rintro rfl; exact absurd hc (by decide))
  intro c hc
  rw [text, List.mem_append, List.mem_append] at hc
  rcases hc with hc | hc | hc
  · exact hdigit (h.whole.2 c hc)
  · unfold fractionText at hc
    cases hf : n.fraction with
    | none => simp [hf] at hc
    | some ds =>
      rw [hf] at hc
      rcases List.mem_cons.mp hc with rfl | hc
      · decide
      · exact hdigit ((h.fraction ds hf).2 c hc)
  · unfold exponentText at hc
    cases he : n.exponent with
    | none => simp [he] at hc
    | some e =>
      obtain ⟨hsign, hds⟩ := h.exponent e.1 e.2 he
      rw [he] at hc
      rcases List.mem_cons.mp hc with rfl | hc
      · decide
      · rcases List.mem_cons.mp hc with rfl | hc
        · rcases hsign with hsign | hsign <;> simp [hsign]
        · exact hdigit (hds.2 c hc)

end Numeral

/-! The literal of a double. -/

def significant (n : Nat) : List Char :=
  ((Nat.toDigits 10 n).reverse.dropWhile (· == '0')).reverse

/-- Digits that start with one worth `10 ^ lead`, as a literal. -/
def numeralOf (digits : List Char) (lead : Int) : Numeral :=
  let point := lead.toNat + 1
  if DoubleFormat.standard.low ≤ lead ∧ lead ≤ DoubleFormat.standard.high then
    if lead < 0 then
      { whole := ['0'], fraction := some (List.replicate ((-lead).toNat - 1) '0' ++ digits) }
    else if digits.length ≤ point then
      { whole := digits ++ List.replicate (point - digits.length) '0', fraction := some ['0'] }
    else { whole := digits.take point, fraction := some (digits.drop point) }
  else
    { whole := digits.take 1
      fraction := if digits.length = 1 then none else some (digits.drop 1)
      exponent := some (if lead < 0 then '-' else '+', Nat.toDigits 10 lead.natAbs) }

theorem Digits.zeros {ds : List Char} (h : Digits ds) (k : Nat) :
    Digits (List.replicate k '0' ++ ds) ∧ Digits (ds ++ List.replicate k '0') := by
  have hall : ∀ c ∈ List.replicate k '0', c.isDigit = true := fun c hc => by
    rw [List.eq_of_mem_replicate hc]
    decide
  constructor
  · exact ⟨by simp [h.1], fun c hc => (List.mem_append.mp hc).elim (hall c) (h.2 c)⟩
  · exact ⟨by simp [h.1], fun c hc => (List.mem_append.mp hc).elim (h.2 c) (hall c)⟩

theorem Digits.parts {ds : List Char} (h : Digits ds) {k : Nat} :
    (0 < k → Digits (ds.take k)) ∧ (k < ds.length → Digits (ds.drop k)) := by
  constructor
  · intro hk
    refine ⟨?_, fun c hc => h.2 c (List.mem_of_mem_take hc)⟩
    rw [ne_eq, List.take_eq_nil_iff]
    rintro (rfl | hnil)
    · exact absurd hk (by decide)
    · exact h.1 hnil
  · intro hk
    refine ⟨?_, fun c hc => h.2 c (List.mem_of_mem_drop hc)⟩
    rw [ne_eq, List.drop_eq_nil_iff]
    omega

theorem formed_numeralOf {ds : List Char} (h : Digits ds) (hhead : ds.head? ≠ some '0')
    (lead : Int) : (numeralOf ds lead).Formed := by
  have hlength : ds.length ≠ 0 := by simpa using h.1
  have htake (k : Nat) : (ds.take (k + 1)).head? ≠ some '0' := by
    rwa [List.head?_take, if_neg (by omega)]
  unfold numeralOf
  dsimp only
  split
  · split
    · exact ⟨(by decide : Digits ['0']), .inl rfl,
        fun _ hf => Option.some.inj hf ▸ (h.zeros _).1, nofun⟩
    · split
      · refine ⟨(h.zeros _).2, .inr ?_, fun _ hf => Option.some.inj hf ▸ (by decide), nofun⟩
        rwa [List.head?_append_of_ne_nil _ h.1]
      · exact ⟨h.parts.1 (by omega), .inr (htake _),
          fun _ hf => Option.some.inj hf ▸ h.parts.2 (by omega), nofun⟩
  · refine ⟨h.parts.1 (by omega), .inr (htake 0), fun fs hf => ?_, fun sign es he => ?_⟩
    · split at hf
      · cases hf
      · exact Option.some.inj hf ▸ h.parts.2 (by omega)
    · cases he
      exact ⟨by split <;> simp, digits_toDigits _⟩

/-- Where the point is put, the digits keep their places. -/
theorem decimal_numeralOf {ds : List Char} (h : Digits ds) (lead : Int) :
    (numeralOf ds lead).decimal.value = digitsValue ds * 10 ^ (lead + 1 - ds.length) := by
  have hlength : ds.length ≠ 0 := by simpa using h.1
  have hparts (k : Nat) : digitsValue (ds.take k ++ ds.drop k) = digitsValue ds := by
    rw [List.take_append_drop]
  have hzero : digitsValue ['0'] = 0 := rfl
  unfold numeralOf Decimal.value Numeral.decimal Numeral.digits Numeral.power
  dsimp only
  split
  · split
    · rw [Option.getD_some, digitsValue_append, digitsValue_append, digitsValue_zeros, hzero,
        Nat.zero_mul, Nat.zero_mul, Nat.zero_add, Nat.zero_add, List.length_append,
        List.length_replicate, Option.elim_none]
      congr 2
      omega
    · split
      · rw [Option.getD_some, digitsValue_append, digitsValue_append, digitsValue_zeros, hzero,
          Nat.add_zero, Nat.add_zero, List.length_replicate, Option.elim_none,
          List.length_singleton]
        push_cast
        rw [mul_assoc, mul_assoc, zpow_neg_one, mul_inv_cancel₀ (by norm_num), mul_one,
          ← zpow_natCast]
        congr 2
        omega
      · rw [Option.getD_some, hparts, Option.elim_none, List.length_drop]
        congr 2
        omega
  · have hpower : (if (if lead < 0 then '-' else '+') = '-' then
        -(digitsValue (Nat.toDigits 10 lead.natAbs) : Int)
        else digitsValue (Nat.toDigits 10 lead.natAbs)) = lead := by
      rw [digitsValue_toDigits]
      by_cases hneg : lead < 0
      · rw [if_pos hneg, if_pos rfl]
        omega
      · rw [if_neg hneg, if_neg (by decide)]
        omega
    rw [Option.elim_some, hpower]
    split
    · rename_i hone
      rw [Option.getD_none, List.append_nil, ← hone, List.take_length, List.length_nil]
      congr 2
      omega
    · rw [Option.getD_some, hparts, List.length_drop]
      congr 2
      omega

theorem marked_numeralOf (ds : List Char) (lead : Int) :
    (numeralOf ds lead).fraction ≠ none ∨ (numeralOf ds lead).exponent ≠ none := by
  unfold numeralOf
  dsimp only
  split
  · split
    · simp
    · split <;> simp
  · simp

theorem toDigits_eq_significant (n : Nat) :
    ∃ k, Nat.toDigits 10 n = significant n ++ List.replicate k '0' := by
  have hsplit :=
    List.takeWhile_append_dropWhile (p := (· == '0')) (l := (Nat.toDigits 10 n).reverse)
  have hzeros := List.all_eq_true.mp
    (List.all_takeWhile (p := (· == '0')) (l := (Nat.toDigits 10 n).reverse))
  have hreplicate := List.eq_replicate_of_mem fun c hc => beq_iff_eq.mp (hzeros c hc)
  refine ⟨((Nat.toDigits 10 n).reverse.takeWhile (· == '0')).length, ?_⟩
  rw [significant, ← List.reverse_replicate, ← hreplicate, ← List.reverse_append, hsplit,
    List.reverse_reverse]

theorem digits_significant {n : Nat} (hn : 0 < n) :
    Digits (significant n) ∧ (significant n).head? ≠ some '0' := by
  obtain ⟨k, hk⟩ := toDigits_eq_significant n
  have hhead := head?_toDigits hn
  have hsome : significant n ≠ [] := by
    intro hnil
    rw [hnil, List.nil_append] at hk
    cases k with
    | zero => exact Nat.toDigits_ne_nil hk
    | succ k => exact hhead (by rw [hk]; rfl)
  have hall := (digits_toDigits n).2
  rw [hk] at hall
  rw [hk, List.head?_append_of_ne_nil _ hsome] at hhead
  exact ⟨⟨hsome, fun c hc => hall c (List.mem_append_left _ hc)⟩, hhead⟩

def numeralFor (t : Decimal) : Numeral :=
  numeralOf (significant t.digits) ((Nat.toDigits 10 t.digits).length + t.exponent - 1)

theorem decimal_numeralFor {t : Decimal} (h : 0 < t.digits) :
    (numeralFor t).decimal.value = t.value := by
  obtain ⟨k, hk⟩ := toDigits_eq_significant t.digits
  have hvalue : digitsValue (significant t.digits) * 10 ^ k = t.digits := by
    have hall := digitsValue_toDigits t.digits
    rwa [hk, digitsValue_append, digitsValue_zeros, List.length_replicate] at hall
  have hexponent : ((Nat.toDigits 10 t.digits).length : Int) + t.exponent - 1 + 1 -
      (significant t.digits).length = k + t.exponent := by
    rw [hk, List.length_append, List.length_replicate]
    omega
  rw [numeralFor, decimal_numeralOf (digits_significant h).1, hexponent, zpow_add₀ (by norm_num),
    ← mul_assoc, zpow_natCast]
  unfold Decimal.value
  congr 1
  exact_mod_cast hvalue

theorem DoubleFormat.render_eq {x : Double} (h : 0 < x.shortest.digits) :
    (DoubleFormat.standard.render x).toList = (numeralFor x.shortest).text := by
  have hsome := (digits_significant h).1.1
  unfold DoubleFormat.render numeralFor numeralOf
  dsimp only
  rw [← significant, if_neg (by simpa using hsome), Int.ofNat_eq_natCast]
  generalize ((Nat.toDigits 10 x.shortest.digits).length + x.shortest.exponent - 1 : Int) = lead
  generalize significant x.shortest.digits = ds
  by_cases hrange : DoubleFormat.standard.low ≤ lead ∧ lead ≤ DoubleFormat.standard.high
  · rw [if_pos hrange, if_pos hrange]
    by_cases hneg : lead < 0
    · rw [if_pos hneg, if_pos hneg]
      simp [Numeral.text, Numeral.fractionText, Numeral.exponentText]
    · rw [if_neg hneg, if_neg hneg]
      by_cases hcount : ds.length ≤ lead.toNat + 1
      · rw [if_pos hcount, if_pos hcount]
        simp [Numeral.text, Numeral.fractionText, Numeral.exponentText]
      · rw [if_neg hcount, if_neg hcount]
        simp [Numeral.text, Numeral.fractionText, Numeral.exponentText]
  · rw [if_neg hrange, if_neg hrange]
    by_cases hone : ds.length = 1 <;> by_cases hneg : lead < 0 <;>
      simp [Numeral.text, Numeral.fractionText, Numeral.exponentText, hone, hneg,
        DoubleFormat.standard]

theorem eq_zero_of_canonical {x : Double} (hx : x.Canonical) (h : x.units = 0) :
    x = ⟨0, -1074⟩ := by
  obtain ⟨units, scale⟩ := x
  obtain rfl : units = 0 := h
  rcases hx.full with hfull | rfl
  · exact absurd hfull (show ¬ Double.significandLimit / 2 ≤ 0 by decide)
  · rfl

/-- The literal that is written for a double stands for it: the decimal in it rounds to the double.
-/
theorem DoubleFormat.exists_numeral {x : Double} (hx : x.Canonical) :
    ∃ m : Numeral, m.Formed ∧ (DoubleFormat.standard.render x).toList = m.text ∧
      Number.ofText? m.text = some (.double false x) := by
  rcases Nat.eq_zero_or_pos x.units with hzero | h0
  · obtain rfl := eq_zero_of_canonical hx hzero
    refine ⟨{ whole := ['0'], fraction := some ['0'] }, ?_, by decide, by decide⟩
    exact ⟨by decide, .inl rfl, fun ds hds => Option.some.inj hds ▸ by decide, nofun⟩
  · have hnearest := Double.nearest_shortest hx h0
    have hdigits : 0 < x.shortest.digits := by
      by_contra hnone
      have hpos := hnearest.pos h0
      rw [Decimal.value, Nat.eq_zero_of_not_pos hnone, Nat.cast_zero, zero_mul] at hpos
      exact absurd hpos (lt_irrefl 0)
    obtain ⟨hds, hhead⟩ := digits_significant hdigits
    have hform : (numeralFor x.shortest).Formed := formed_numeralOf hds hhead _
    refine ⟨_, hform, DoubleFormat.render_eq hdigits, ?_⟩
    rw [← decimal_numeralFor hdigits, ← Decimal.ratio_value] at hnearest
    rw [hform.ofText?_double (marked_numeralOf _ _), Number.nearest?,
      Double.ofRatio_of_nearest hx h0 (Decimal.ratio_snd_pos _) hnearest]
    rfl

def Number.negated : Number → Number
  | .whole n => if n = 0 then .double true ⟨0, -1074⟩ else .whole (-n)
  | .double negative x => .double (!negative) x

def Number.Proper : Number → Prop
  | .whole _ => True
  | .double _ x => x.Canonical

theorem exists_numeral_nat (n : Nat) :
    ∃ m : Numeral, m.Formed ∧ (toString n).toList = m.text ∧
      Number.ofText? m.text = some (.whole n) := by
  have hform : (⟨Nat.toDigits 10 n, none, none⟩ : Numeral).Formed := by
    refine ⟨digits_toDigits n, ?_, nofun, nofun⟩
    rcases Nat.eq_zero_or_pos n with rfl | hn
    · exact .inl rfl
    · exact .inr (head?_toDigits hn)
  refine ⟨_, hform, ?_, ?_⟩
  · simp [Numeral.text, Numeral.fractionText, Numeral.exponentText]
  · rw [hform.ofText?_whole rfl rfl, digitsValue_toDigits]

/-- A number is written as a literal, with a minus sign in front of it if it is negative. -/
theorem Number.exists_numeral {n : Number} (h : n.Proper) :
    ∃ (m : Numeral) (k : Number), m.Formed ∧ Number.ofText? m.text = some k ∧
      (n.render.toList = m.text ∧ n = k ∨ n.render.toList = '-' :: m.text ∧ n = k.negated) := by
  match n, h with
  | .whole (.ofNat n), _ =>
    obtain ⟨m, hm, htext, hread⟩ := exists_numeral_nat n
    exact ⟨m, _, hm, hread, .inl ⟨htext, rfl⟩⟩
  | .whole (.negSucc n), _ =>
    obtain ⟨m, hm, htext, hread⟩ := exists_numeral_nat (n + 1)
    refine ⟨m, _, hm, hread, .inr ⟨?_, ?_⟩⟩
    · rw [← htext, render, show toString (Int.negSucc n) = "-" ++ toString (n + 1) from rfl,
        String.toList_append]
      rfl
    · rw [negated, if_neg (by omega)]
      rfl
  | .double negative x, h =>
    obtain ⟨m, hm, htext, hread⟩ := DoubleFormat.exists_numeral h
    refine ⟨m, _, hm, hread, ?_⟩
    cases negative with
    | false => exact .inl ⟨by simpa [render] using htext, rfl⟩
    | true => exact .inr ⟨by simpa [render] using htext, rfl⟩

end EmberClasses.Json
