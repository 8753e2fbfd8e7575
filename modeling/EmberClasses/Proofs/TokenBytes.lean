import EmberClasses.Proofs.Bytes
import EmberClasses.Proofs.TokenTexts

/-! The bytes of tokens. Every scanner gives a number of bytes along with the text that it leaves;
these are the bytes of the characters before that text. So a cursor knows where its token ends, and
every token but the end of the script takes up some bytes. -/

namespace EmberClasses.Script

open Text (byteLength byteLength_nil byteLength_cons byteLength_append isIdPart)

namespace Lexer

/-- `rest` is what is left of a text when its first `n` bytes are taken. -/
def Leaves (cs : List Char) (n : Nat) (rest : List Char) : Prop :=
  ∃ taken, cs = taken ++ rest ∧ byteLength taken = n

section Leaves

variable {cs ds rest : List Char} {c : Char} {n m : Nat}

theorem Leaves.refl (cs : List Char) : Leaves cs 0 cs := ⟨[], rfl, rfl⟩

theorem Leaves.cons (c : Char) (h : Leaves cs n rest) : Leaves (c :: cs) (c.utf8Size + n) rest := by
  obtain ⟨taken, rfl, rfl⟩ := h
  exact ⟨c :: taken, rfl, rfl⟩

theorem Leaves.trans (h : Leaves cs n ds) (h' : Leaves ds m rest) : Leaves cs (n + m) rest := by
  obtain ⟨first, rfl, rfl⟩ := h
  obtain ⟨second, rfl, rfl⟩ := h'
  exact ⟨first ++ second, by rw [List.append_assoc], byteLength_append _ _⟩

theorem utf8Size_eq_one (h : c.toNat < 128) : c.utf8Size = 1 := by
  rw [Char.utf8Size_eq_one_iff, UInt32.le_iff_toNat_le]
  exact Nat.le_of_lt_succ h

/-- One character after the other, each of one byte. -/
theorem Leaves.cons_one (hc : c.utf8Size = 1) (h : Leaves cs n rest) :
    Leaves (c :: cs) (n + 1) rest := by
  have hcons := h.cons c
  rwa [hc, Nat.add_comm] at hcons

theorem byteLength_of_ascii (h : ∀ c ∈ cs, c.utf8Size = 1) : byteLength cs = cs.length := by
  induction cs with
  | nil => rfl
  | cons c cs ih =>
    rw [byteLength_cons, h c List.mem_cons_self, ih fun d hd => h d (List.mem_cons_of_mem c hd),
      List.length_cons, Nat.add_comm]

theorem leaves_drop_of_isPrefix (h : ds <+: cs) (hds : ∀ c ∈ ds, c.utf8Size = 1) :
    Leaves cs ds.length (cs.drop ds.length) := by
  refine ⟨ds, ?_, byteLength_of_ascii hds⟩
  conv_lhs => rw [← List.take_append_drop ds.length cs]
  rw [← List.prefix_iff_eq_take.mp h]

end Leaves

section Characters

variable {c : Char}

theorem utf8Size_of_isDigit (h : c.isDigit = true) : c.utf8Size = 1 := by
  apply utf8Size_eq_one
  have hrange : 48 ≤ c.toNat ∧ c.toNat ≤ 57 := by
    simpa [Char.isDigit, UInt32.le_iff_toNat_le] using h
  omega

theorem utf8Size_of_le {d : Char} (h : c ≤ d) (hd : d.toNat < 128) : c.utf8Size = 1 := by
  apply utf8Size_eq_one
  have hle : c.toNat ≤ d.toNat := UInt32.le_iff_toNat_le.mp h
  omega

theorem utf8Size_of_isHex (h : isHex c = true) : c.utf8Size = 1 := by
  unfold isHex hexValue? at h
  split at h
  · rename_i hdigit
    exact utf8Size_of_isDigit hdigit
  · split at h
    · rename_i hlower
      rw [Bool.and_eq_true, decide_eq_true_eq, decide_eq_true_eq] at hlower
      exact utf8Size_of_le hlower.2 (by decide)
    · split at h
      · rename_i hupper
        rw [Bool.and_eq_true, decide_eq_true_eq, decide_eq_true_eq] at hupper
        exact utf8Size_of_le hupper.2 (by decide)
      · cases h

end Characters

section Names

variable {cs rest : List Char}

theorem codePoint_ascii {after : List Char} {code k : Nat}
    (h : codePoint cs = some (code, k, after)) : ∀ c ∈ cs.take k, c.utf8Size = 1 := by
  unfold codePoint at h
  split at h
  · rename_i digits
    dsimp only at h
    split at h
    · rename_i next hdrop
      split at h
      · cases h
      · cases h
        have htake : digits.take ((digits.takeWhile isHex).length + 1) =
            digits.takeWhile isHex ++ ['}'] := by
          rw [List.take_add, hdrop,
            (List.prefix_iff_eq_take.mp (List.takeWhile_prefix isHex)).symm]
          rfl
        intro c hc
        rw [List.take_succ_cons, htake, List.mem_cons, List.mem_append, List.mem_singleton] at hc
        rcases hc with rfl | hc | rfl
        · decide
        · exact utf8Size_of_isHex (List.all_eq_true.mp List.all_takeWhile c hc)
        · decide
    · cases h
  · dsimp only at h
    split at h
    · rename_i hall
      cases h
      rw [Bool.and_eq_true] at hall
      exact fun c hc => utf8Size_of_isHex (List.all_eq_true.mp hall.2 c hc)
    · cases h

/-- The rest of a name, `skip` characters of which belong to an escape. -/
theorem nameRest_leaves {skip : Nat} {rev rev' : List Char} {escaped escaped' : Bool} {n m : Nat}
    (h : nameRest skip rev escaped n cs = some (rev', escaped', m, rest))
    (hskip : ∀ c ∈ cs.take skip, c.utf8Size = 1) : ∃ k, m = n + k ∧ Leaves cs k rest := by
  fun_induction nameRest skip rev escaped n cs with
  | case1 skip rev escaped n =>
    cases h
    exact ⟨0, rfl, .refl _⟩
  | case2 rev escaped n skip c cs ih =>
    rw [List.take_succ_cons] at hskip
    obtain ⟨k, rfl, hk⟩ := ih h fun d hd => hskip d (List.mem_cons_of_mem c hd)
    exact ⟨k + 1, by omega, hk.cons_one (hskip c List.mem_cons_self)⟩
  | case3 => cases h
  | case4 rev escaped n fits after code k _ hcode hfits ih =>
    have hletter : ∀ c ∈ ('u' :: after).take (k + 1), c.utf8Size = 1 := by
      intro c hc
      rw [List.take_succ_cons] at hc
      rcases List.mem_cons.mp hc with rfl | hc
      · decide
      · exact codePoint_ascii hcode c hc
    obtain ⟨j, rfl, hj⟩ := ih h hletter
    exact ⟨j + 1, by omega, hj.cons_one (by decide)⟩
  | case5 => cases h
  | case6 => cases h
  | case7 rev escaped n c cs fits hback hfits ih =>
    obtain ⟨k, rfl, hk⟩ := ih h (by simp)
    exact ⟨c.utf8Size + k, by omega, hk.cons c⟩
  | case8 =>
    cases h
    exact ⟨0, rfl, .refl _⟩

theorem scanName_leaves {text : String} {escaped : Bool} {n : Nat}
    (h : scanName cs = some (text, escaped, n, rest)) : Leaves cs n rest ∧ 0 < n := by
  unfold scanName at h
  split at h
  · rename_i rev escaped' m after hrest
    split at h
    · cases h
    · rename_i hne
      cases h
      obtain ⟨k, hk, hleaves⟩ := nameRest_leaves hrest (by simp)
      obtain ⟨-, -, read, hread, hlen⟩ := nameRest_eq_some hrest (.inl rfl)
      rw [Nat.zero_add] at hk
      subst hk
      refine ⟨hleaves, ?_⟩
      obtain ⟨taken, htaken, rfl⟩ := hleaves
      have hsame : read = taken := List.append_cancel_right (hread.symm.trans htaken)
      cases taken with
      | nil =>
        rw [hsame] at hlen
        exact absurd (List.eq_nil_of_length_eq_zero (Nat.le_zero.mp hlen)) (by simpa using hne)
      | cons c taken =>
        have hc := c.utf8Size_pos
        rw [byteLength_cons]
        omega
  · cases h

end Names

section Numbers

variable {cs rest : List Char} {t : Token} {n m k : Nat}

theorem digitRun_leaves {ok : Char → Bool} (hok : ∀ c, ok c = true → c.utf8Size = 1)
    (h : digitRun ok cs = some (n, rest)) : Leaves cs n rest ∧ 0 < n := by
  unfold digitRun at h
  dsimp only at h
  split at h
  · rename_i hseparated
    cases h
    refine ⟨leaves_drop_of_isPrefix (List.takeWhile_prefix _) fun c hc => ?_, ?_⟩
    · have hc := List.all_eq_true.mp List.all_takeWhile c hc
      rw [Bool.or_eq_true, beq_iff_eq] at hc
      rcases hc with hc | rfl
      · exact hok c hc
      · decide
    · rw [List.length_pos_iff]
      intro hnil
      rw [hnil] at hseparated
      cases hseparated
  · cases h

theorem scanExponent_leaves (h : scanExponent n cs = some (m, rest)) :
    ∃ k, m = n + k ∧ Leaves cs k rest := by
  have hdigits {signed : Nat} {ds : List Char}
      (h : (digitRun Char.isDigit ds).map (fun p => (n + 1 + signed + p.1, p.2)) = some (m, rest)) :
      ∃ k, m = n + 1 + signed + k ∧ Leaves ds k rest := by
    obtain ⟨⟨k, after⟩, hrun, heq⟩ := Option.map_eq_some_iff.mp h
    cases heq
    exact ⟨k, rfl, (digitRun_leaves (fun c => utf8Size_of_isDigit) hrun).1⟩
  unfold scanExponent at h
  split at h
  · rename_i c after
    split at h
    · rename_i hletter
      have hc : c.utf8Size = 1 := by
        rw [Bool.or_eq_true, beq_iff_eq, beq_iff_eq] at hletter
        rcases hletter with rfl | rfl <;> decide
      dsimp only at h
      split at h
      iterate 2
        obtain ⟨k, rfl, hk⟩ := hdigits h
        exact ⟨k + 1 + 1, by omega, (hk.cons_one (by decide)).cons_one hc⟩
      obtain ⟨k, rfl, hk⟩ := hdigits h
      exact ⟨k + 1, by omega, hk.cons_one hc⟩
    · cases h
      exact ⟨0, rfl, .refl _⟩
  · cases h
    exact ⟨0, rfl, .refl _⟩

theorem scanFraction_leaves (h : scanFraction n cs = some (m, rest)) :
    ∃ k, m = n + k ∧ Leaves cs k rest ∧ (cs.head? = some '.' → 0 < k) := by
  have hpoint : Char.utf8Size '.' = 1 := by decide
  unfold scanFraction at h
  split at h
  · rename_i after
    split at h
    · rename_i c tail
      split at h
      · obtain ⟨⟨j, ds⟩, hrun, h⟩ := Option.bind_eq_some_iff.mp h
        obtain ⟨k, rfl, hk⟩ := scanExponent_leaves h
        have hj := (digitRun_leaves (fun c => utf8Size_of_isDigit) hrun).1
        exact ⟨j + k + 1, by omega, (hj.trans hk).cons_one hpoint, fun _ => by omega⟩
      · split at h
        · cases h
        · obtain ⟨k, rfl, hk⟩ := scanExponent_leaves h
          exact ⟨k + 1, by omega, hk.cons_one hpoint, fun _ => by omega⟩
    · cases h
      exact ⟨0 + 1, rfl, (Leaves.refl []).cons_one hpoint, fun _ => Nat.one_pos⟩
  · rename_i hnot
    obtain ⟨k, rfl, hk⟩ := scanExponent_leaves h
    refine ⟨k, rfl, hk, fun hhead => ?_⟩
    cases cs with
    | nil => cases hhead
    | cons c cs => exact absurd (by cases hhead; rfl) (hnot cs)

theorem numberEnd_eq_some {u : Token} (h : numberEnd t n cs = some (u, m, rest)) :
    m = n ∧ rest = cs := by
  unfold numberEnd at h
  split at h
  · split at h
    · cases h
    · cases h
      exact ⟨rfl, rfl⟩
  · cases h
    exact ⟨rfl, rfl⟩

theorem scanBased_leaves {ok : Char → Bool} (hok : ∀ c, ok c = true → c.utf8Size = 1)
    (h : scanBased ok cs = some (t, n, rest)) : ∃ k, n = k + 2 ∧ Leaves cs k rest := by
  unfold scanBased at h
  split at h
  · cases h
  · rename_i k after hrun
    obtain ⟨rfl, rfl⟩ := numberEnd_eq_some h
    have hleaves := (digitRun_leaves hok hrun).1
    exact ⟨k + 1, rfl, hleaves.trans ((Leaves.refl _).cons_one (by decide))⟩
  · rename_i k after _ hrun
    obtain ⟨rfl, rfl⟩ := numberEnd_eq_some h
    exact ⟨k, rfl, (digitRun_leaves hok hrun).1⟩

theorem fraction_leaves {u : Token} (h : Leaves cs n rest)
    (hscan : ((scanFraction n rest).bind fun p => numberEnd u p.1 p.2) = some (t, m, ds)) :
    Leaves cs m ds ∧ n ≤ m := by
  obtain ⟨⟨j, after⟩, hfraction, hend⟩ := Option.bind_eq_some_iff.mp hscan
  obtain ⟨rfl, rfl⟩ := numberEnd_eq_some hend
  obtain ⟨k, rfl, hk, -⟩ := scanFraction_leaves hfraction
  exact ⟨h.trans hk, Nat.le_add_right _ _⟩

theorem scanPadded_leaves (hcs : ∃ c tail, cs = c :: tail ∧ c.isDigit = true)
    (h : scanPadded cs = some (t, n, rest)) : Leaves cs n rest ∧ 0 < n := by
  have hleaves : Leaves cs (cs.takeWhile Char.isDigit).length
      (cs.drop (cs.takeWhile Char.isDigit).length) :=
    leaves_drop_of_isPrefix (List.takeWhile_prefix _) fun c hc =>
      utf8Size_of_isDigit (List.all_eq_true.mp List.all_takeWhile c hc)
  have hpos : 0 < (cs.takeWhile Char.isDigit).length := by
    obtain ⟨c, tail, rfl, hc⟩ := hcs
    rw [List.takeWhile_cons, if_pos hc, List.length_cons]
    exact Nat.succ_pos _
  unfold scanPadded at h
  dsimp only at h
  split at h
  · obtain ⟨hm, hle⟩ := fraction_leaves hleaves h
    exact ⟨hm, hpos.trans_le hle⟩
  · obtain ⟨rfl, rfl⟩ := numberEnd_eq_some h
    exact ⟨hleaves, hpos⟩

theorem scanNumber_leaves (h : scanNumber cs = some (t, n, rest)) : Leaves cs n rest ∧ 0 < n := by
  have hbased {ok : Char → Bool} {a b : Char} {ds : List Char}
      (hok : ∀ c, ok c = true → c.utf8Size = 1) (ha : a.utf8Size = 1) (hb : b.utf8Size = 1)
      (h : scanBased ok ds = some (t, n, rest)) : Leaves (a :: b :: ds) n rest ∧ 0 < n := by
    obtain ⟨k, rfl, hk⟩ := scanBased_leaves hok h
    exact ⟨(hk.cons_one hb).cons_one ha, Nat.succ_pos _⟩
  have hoctal (c : Char) (h : (decide ('0' ≤ c) && decide (c ≤ '7')) = true) : c.utf8Size = 1 := by
    rw [Bool.and_eq_true, decide_eq_true_eq, decide_eq_true_eq] at h
    exact utf8Size_of_le h.2 (by decide)
  have hbinary (c : Char) (h : (c == '0' || c == '1') = true) : c.utf8Size = 1 := by
    rw [Bool.or_eq_true, beq_iff_eq, beq_iff_eq] at h
    rcases h with rfl | rfl <;> decide
  unfold scanNumber at h
  split at h
  iterate 2 exact hbased (fun c => utf8Size_of_isHex) (by decide) (by decide) h
  iterate 2 exact hbased hoctal (by decide) (by decide) h
  iterate 2 exact hbased hbinary (by decide) (by decide) h
  · obtain ⟨⟨j, after⟩, hfraction, hend⟩ := Option.bind_eq_some_iff.mp h
    obtain ⟨rfl, rfl⟩ := numberEnd_eq_some hend
    obtain ⟨k, rfl, hk, hpos⟩ := scanFraction_leaves hfraction
    rw [Nat.zero_add]
    exact ⟨hk, hpos rfl⟩
  · cases h
  · dsimp only at h
    split at h
    · rename_i hpadded
      rw [Bool.and_eq_true, decide_eq_true_eq] at hpadded
      cases cs with
      | nil => cases hpadded.1
      | cons c tail =>
        have hc : c = '0' := by simpa using hpadded.1
        exact scanPadded_leaves ⟨c, tail, rfl, by rw [hc]; decide⟩ h
    · split at h
      · cases h
      · rename_i k after hrun
        obtain ⟨rfl, rfl⟩ := numberEnd_eq_some h
        obtain ⟨hleaves, -⟩ := digitRun_leaves (fun c => utf8Size_of_isDigit) hrun
        exact ⟨hleaves.trans ((Leaves.refl _).cons_one (by decide)), Nat.succ_pos _⟩
      · rename_i k after _ hrun
        obtain ⟨hleaves, hpos⟩ := digitRun_leaves (fun c => utf8Size_of_isDigit) hrun
        obtain ⟨hm, hle⟩ := fraction_leaves hleaves h
        exact ⟨hm, hpos.trans_le hle⟩

end Numbers

section Tokens

variable {cs rest : List Char} {t : Token} {n m : Nat}

def templateClose (last : Bool) : List Char := if last then [backtick] else ['$', '{']

/-- The text of a template goes up to a backtick or to the next substitution. -/
theorem templateRest_leaves {valid : Bool} (h : templateRest valid n cs = some (t, m, rest)) :
    ∃ body last valid', t = .template last valid' ∧ cs = body ++ templateClose last ++ rest ∧
      m = n + byteLength body + byteLength (templateClose last) := by
  fun_induction templateRest valid n cs with
  | case1 => cases h
  | case2 valid n cs =>
    cases h
    exact ⟨[], false, valid, rfl, rfl, rfl⟩
  | case3 valid n c cs ih =>
    obtain ⟨body, last, valid', ht, rfl, hm⟩ := ih h
    have hback : Char.utf8Size '\\' = 1 := by decide
    refine ⟨'\\' :: c :: body, last, valid', ht, rfl, ?_⟩
    rw [hm, byteLength_cons, byteLength_cons, hback]
    omega
  | case4 valid n cs =>
    cases h
    exact ⟨[], true, valid, rfl, rfl, rfl⟩
  | case5 valid n c cs _ _ _ ih =>
    obtain ⟨body, last, valid', ht, rfl, hm⟩ := ih h
    refine ⟨c :: body, last, valid', ht, rfl, ?_⟩
    rw [hm, byteLength_cons]
    omega

theorem regexRest_leaves {inSet : Bool} (h : regexRest inSet n cs = some (m, rest)) :
    ∃ k, m = n + k ∧ Leaves cs k rest := by
  fun_induction regexRest inSet n cs with
  | case1 => cases h
  | case2 => cases h
  | case3 inSet n c cs _ ih =>
    obtain ⟨k, rfl, hk⟩ := ih h
    have hback : Char.utf8Size '\\' = 1 := by decide
    exact ⟨c.utf8Size + k + 1, by omega, (hk.cons c).cons_one hback⟩
  | case4 => cases h
  | case5 inSet n c cs _ _ hclose =>
    cases h
    rw [Bool.and_eq_true, decide_eq_true_eq] at hclose
    exact ⟨0 + 1, rfl, (Leaves.refl _).cons_one (by rw [hclose.1]; decide)⟩
  | case6 inSet n c cs _ _ _ ih =>
    obtain ⟨k, rfl, hk⟩ := ih h
    exact ⟨c.utf8Size + k, by omega, hk.cons c⟩

theorem scanRegex_leaves (hcs : cs.head? = some '/') (h : scanRegex cs = some (t, n, rest)) :
    Leaves cs n rest ∧ 0 < n ∧ t = .regex := by
  unfold scanRegex at h
  split at h
  · cases h
  · rename_i k after hbody
    dsimp only at h
    split at h
    · rename_i hflags
      cases h
      rw [Bool.and_eq_true, List.all_eq_true] at hflags
      obtain ⟨j, rfl, hj⟩ := regexRest_leaves hbody
      have hflag : "dgimsuvy".toList.all (fun c => decide (c.utf8Size = 1)) = true := by decide
      simp only [List.all_eq_true, decide_eq_true_eq] at hflag
      have hafter : Leaves after (after.takeWhile isIdPart).length
          (after.drop (after.takeWhile isIdPart).length) :=
        leaves_drop_of_isPrefix (List.takeWhile_prefix _) fun c hc =>
          hflag c (by simpa using hflags.1 c hc)
      cases cs with
      | nil => cases hcs
      | cons c cs =>
        have hc : c = '/' := by simpa using hcs
        have hslash := (hj.trans hafter).cons_one (show c.utf8Size = 1 by rw [hc]; decide)
        refine ⟨?_, by omega, rfl⟩
        rwa [show j + (after.takeWhile isIdPart).length + 1 =
          1 + j + (after.takeWhile isIdPart).length by omega] at hslash
    · cases h

theorem find?_leaves {entries : List (List Char × Punct)} {p : Punct}
    (hentries : entries.all (fun e => decide (0 < e.1.length) &&
      e.1.all fun c => decide (c.utf8Size = 1)) = true)
    (h : Punct.find? entries cs = some (p, n)) :
    Leaves cs n (cs.drop n) ∧ 0 < n ∧ ∃ c tail, cs = c :: tail ∧ c.utf8Size = 1 := by
  obtain ⟨e, he, heq⟩ := Option.map_eq_some_iff.mp h
  cases heq
  simp only [List.all_eq_true, Bool.and_eq_true, decide_eq_true_eq] at hentries
  obtain ⟨hpos, hone⟩ := hentries e (List.mem_of_find?_eq_some he)
  have hprefix := List.find?_some he
  rw [List.isPrefixOf_iff_prefix] at hprefix
  refine ⟨leaves_drop_of_isPrefix hprefix hone, hpos, ?_⟩
  obtain ⟨spelling, punct⟩ := e
  cases spelling with
  | nil => cases hpos
  | cons c spelling =>
    obtain ⟨tail, rfl⟩ := hprefix
    exact ⟨c, spelling ++ tail, rfl, hone c List.mem_cons_self⟩

theorem scanPunct_leaves (h : scanPunct cs = some (t, n, rest)) :
    Leaves cs n rest ∧ 0 < n ∧ ∃ c tail, cs = c :: tail ∧ c.utf8Size = 1 := by
  have hmark : Char.utf8Size '?' = 1 := by decide
  have hpoint : Char.utf8Size '.' = 1 := by decide
  unfold scanPunct at h
  split at h
  · cases h
  · rename_i after
    split at h
    · cases h
      exact ⟨(Leaves.refl _).cons_one hmark, Nat.one_pos, '?', _, rfl, hmark⟩
    · cases h
      exact ⟨((Leaves.refl _).cons_one hpoint).cons_one hmark, Nat.two_pos, '?', _, rfl, hmark⟩
  · obtain ⟨⟨p, k⟩, hfind, heq⟩ := Option.map_eq_some_iff.mp h
    cases heq
    exact find?_leaves (by decide) hfind

/-- The text of a token that opens or goes on with a template, given its first character. -/
def TemplateText (t : Token) (cs : List Char) (n : Nat) : Prop :=
  ∀ last valid, t = .template last valid → ∃ c body rest, c.utf8Size = 1 ∧
    cs = c :: (body ++ templateClose last ++ rest) ∧
    n = 1 + byteLength body + byteLength (templateClose last)

theorem templateText_of_templateRest {c : Char} (hc : c.utf8Size = 1)
    (h : templateRest true 1 cs = some (t, n, rest)) :
    Leaves (c :: cs) n rest ∧ 0 < n ∧ TemplateText t (c :: cs) n := by
  obtain ⟨body, last, valid, rfl, rfl, rfl⟩ := templateRest_leaves h
  refine ⟨⟨c :: (body ++ templateClose last), by simp, ?_⟩, by omega, fun last' valid' heq => ?_⟩
  · rw [byteLength_cons, byteLength_append, hc]
    omega
  · cases heq
    exact ⟨c, body, rest, hc, rfl, rfl⟩

/-- A token takes the bytes that are given for it, and all but the last one take some. -/
theorem scanToken_leaves (h : scanToken cs = some (t, n, rest)) :
    Leaves cs n rest ∧ (t ≠ .done → 0 < n) ∧ TemplateText t cs n ∧
      ∀ p, t = .punct p → ∃ c tail, cs = c :: tail ∧ c.utf8Size = 1 := by
  have hplain {u : Token} (hu : ∀ last valid, u ≠ .template last valid) (cs : List Char) (n : Nat) :
      TemplateText u cs n := fun last valid heq => absurd heq (hu last valid)
  unfold scanToken at h
  split at h
  · cases h
    exact ⟨.refl [], fun hne => absurd rfl hne, hplain (by simp) _ _, by simp⟩
  · rename_i c tail
    split at h
    · rename_i hquote
      have hc : c.utf8Size = 1 := by
        rcases (show c = '"' ∨ c = '\'' by simpa using hquote) with rfl | rfl <;> decide
      obtain ⟨⟨value, m, after⟩, hscan, heq⟩ := Option.map_eq_some_iff.mp h
      cases heq
      have hguard : Text.Guarded c (List.take 0 tail) := by simp [Text.Guarded]
      obtain ⟨body, rfl, rfl, -⟩ := stringRest_eq_some hscan hguard
      refine ⟨⟨c :: (body ++ [c]), by simp, ?_⟩, fun _ => by omega, hplain (by simp) _ _, by simp⟩
      rw [byteLength_cons, byteLength_append, byteLength_cons, byteLength_nil, hc]
      omega
    · split at h
      · obtain ⟨hleaves, hpos⟩ := scanNumber_leaves h
        rcases scanNumber_token h with rfl | rfl <;>
          exact ⟨hleaves, fun _ => hpos, hplain (by simp) _ _, by simp⟩
      · split at h
        · obtain ⟨hleaves, hpos⟩ := scanNumber_leaves h
          rcases scanNumber_token h with rfl | rfl <;>
            exact ⟨hleaves, fun _ => hpos, hplain (by simp) _ _, by simp⟩
        · split at h
          · rename_i hback
            have hc : c.utf8Size = 1 := by rw [hback]; decide
            obtain ⟨hleaves, hpos, htext⟩ := templateText_of_templateRest hc h
            obtain ⟨_, _, rfl⟩ := templateRest_token h
            exact ⟨hleaves, fun _ => hpos, htext, by simp⟩
          · split at h
            · rename_i hhash
              have hc : c.utf8Size = 1 := by rw [hhash]; decide
              obtain ⟨⟨text, escaped, m, after⟩, hscan, heq⟩ := Option.map_eq_some_iff.mp h
              cases heq
              have hleaves := (scanName_leaves hscan).1.cons_one hc
              exact ⟨hleaves, fun _ => Nat.succ_pos _, hplain (by simp) _ _, by simp⟩
            · split at h
              · obtain ⟨⟨text, escaped, m, after⟩, hscan, heq⟩ := Option.map_eq_some_iff.mp h
                cases heq
                obtain ⟨hleaves, hpos⟩ := scanName_leaves hscan
                exact ⟨hleaves, fun _ => hpos, hplain (by simp) _ _, by simp⟩
              · obtain ⟨⟨p, rfl⟩, -⟩ := scanPunct_eq_some h
                obtain ⟨hleaves, hpos, hfirst⟩ := scanPunct_leaves h
                exact ⟨hleaves, fun _ => hpos, hplain (by simp) _ _, fun _ _ => hfirst⟩

/-- White space and comments are passed over byte by byte, up to a character that is none. -/
theorem skipTrivia_leaves {mode : Trivia} {fresh fresh' : Bool} {here : List Char}
    (h : skipTrivia mode n fresh cs = some (m, fresh', here)) :
    (∃ k, m = n + k ∧ Leaves cs k here) ∧ here.head? ≠ some '\n' := by
  have hslash : Char.utf8Size '/' = 1 := by decide
  have hstar : Char.utf8Size '*' = 1 := by decide
  fun_induction skipTrivia mode n fresh cs with
  | case1 => cases h
  | case2 =>
    cases h
    exact ⟨⟨0, rfl, .refl _⟩, by simp⟩
  | case3 n fresh cs ih =>
    obtain ⟨⟨k, rfl, hk⟩, hhead⟩ := ih h
    exact ⟨⟨k + 1 + 1, by omega, (hk.cons_one hslash).cons_one hslash⟩, hhead⟩
  | case4 n fresh cs ih =>
    obtain ⟨⟨k, rfl, hk⟩, hhead⟩ := ih h
    exact ⟨⟨k + 1 + 1, by omega, (hk.cons_one hstar).cons_one hslash⟩, hhead⟩
  | case7 n fresh c cs _ _ hbreak _ =>
    cases h
    refine ⟨⟨0, rfl, .refl _⟩, fun hhead => ?_⟩
    cases hhead
    exact hbreak (by decide)
  | case10 n fresh cs ih =>
    obtain ⟨⟨k, rfl, hk⟩, hhead⟩ := ih h
    exact ⟨⟨k + 1 + 1, by omega, (hk.cons_one hslash).cons_one hstar⟩, hhead⟩
  | _ =>
    rename_i ih
    obtain ⟨⟨k, rfl, hk⟩, hhead⟩ := ih h
    exact ⟨⟨_, by omega, hk.cons _⟩, hhead⟩

end Tokens

end Lexer

end EmberClasses.Script
