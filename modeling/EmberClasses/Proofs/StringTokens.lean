import EmberClasses.Proofs.TracedText
import EmberClasses.Script.Lexer

/-! String tokens. A string is read from its opening quote to the closing one. It may go on in the
next line, but only where a backslash stands before the line feed, so every line of it holds more
than blanks. -/

namespace EmberClasses

open Text

namespace Text

def Visible (c : Char) : Prop := isIndent c = false ∧ c ≠ '\n'

instance (c : Char) : Decidable (Visible c) := inferInstanceAs (Decidable (_ ∧ _))

/-- Every line feed follows a visible character; `previous` stands before the text. -/
def Guarded : Char → List Char → Prop
  | _, [] => True
  | previous, c :: cs => (c = '\n' → Visible previous) ∧ Guarded c cs

theorem guarded_of_not_mem {cs : List Char} (h : '\n' ∉ cs) (previous : Char) :
    Guarded previous cs := by
  induction cs generalizing previous with
  | nil => trivial
  | cons c cs ih =>
    rw [List.mem_cons, not_or] at h
    exact ⟨fun hc => absurd hc.symm h.1, ih h.2 c⟩

theorem Guarded.concat {previous : Char} {cs : List Char} (h : Guarded previous cs) {c : Char}
    (hc : c ≠ '\n') : Guarded previous (cs ++ [c]) := by
  induction cs generalizing previous with
  | nil => exact ⟨fun hn => absurd hn hc, trivial⟩
  | cons d cs ih => exact ⟨h.1, ih h.2⟩

/-- If the last character is visible as well, so is one in each line. The first line may have it
before its start. -/
theorem Guarded.visible_lines {previous : Char} {cs : List Char} (h : Guarded previous cs)
    (hlast : ∀ c, (previous :: cs).getLast? = some c → Visible c) :
    (Visible previous ∨ ∃ c ∈ (splitLines cs).headD [], Visible c) ∧
      ∀ line ∈ (splitLines cs).tail, ∃ c ∈ line, Visible c := by
  induction cs generalizing previous with
  | nil => exact ⟨.inl (hlast previous rfl), by simp [splitLines]⟩
  | cons c cs ih =>
    obtain ⟨hfirst, hrest⟩ := ih h.2 fun d hd => hlast d (by simpa using hd)
    by_cases hc : c = '\n'
    · have hnone : ¬ Visible c := fun hv => hv.2 hc
      have hnext := hfirst.resolve_left hnone
      rw [splitLines, if_pos hc]
      refine ⟨.inl (h.1 hc), ?_⟩
      cases hlines : splitLines cs with
      | nil => simp
      | cons first lines =>
        rw [hlines] at hnext hrest
        intro line hline
        rcases List.mem_cons.mp hline with rfl | hline
        · exact hnext
        · exact hrest line hline
    · obtain ⟨first, lines, hlines, hcons⟩ := splitLines_cons_of_ne hc cs
      rw [hlines] at hfirst hrest
      rw [hcons]
      refine ⟨.inr ?_, hrest⟩
      rcases hfirst with hv | ⟨d, hd, hv⟩
      · exact ⟨c, List.mem_cons_self, hv⟩
      · exact ⟨d, List.mem_cons_of_mem c hd, hv⟩

end Text

namespace Script.Lexer

theorem not_mem_of_all_hex {ds : List Char} (h : ds.all isHex = true) : '\n' ∉ ds := by
  intro hmem
  have hdigit := List.all_eq_true.mp h _ hmem
  revert hdigit
  decide

theorem codePoint_take {cs rest : List Char} {code k : Nat}
    (h : codePoint cs = some (code, k, rest)) : '\n' ∉ cs.take k := by
  unfold codePoint at h
  split at h
  · rename_i after
    dsimp only at h
    split at h
    · rename_i next hdrop
      split at h
      · cases h
      · cases h
        have hdigits : after.take (after.takeWhile isHex).length = after.takeWhile isHex :=
          (List.prefix_iff_eq_take.mp (List.takeWhile_prefix isHex)).symm
        have hall : '\n' ∉ after.takeWhile isHex :=
          not_mem_of_all_hex (List.all_takeWhile (p := isHex))
        have htake : after.take ((after.takeWhile isHex).length + 1) =
            after.takeWhile isHex ++ ['}'] := by
          rw [List.take_add, hdigits, hdrop]
          rfl
        rw [List.take_succ_cons, htake]
        simp [hall]
    · cases h
  · dsimp only at h
    split at h
    · rename_i hall
      cases h
      rw [Bool.and_eq_true] at hall
      exact not_mem_of_all_hex hall.2
    · cases h

/-- The line feeds of an escape follow its backslash or a carriage return. -/
theorem scanEscape_guarded {cs : List Char} {units : List Nat} {k : Nat}
    (h : scanEscape cs = some (units, k)) : Guarded '\\' (cs.take k) := by
  have hback : Visible '\\' := by decide
  unfold scanEscape at h
  split at h
  · cases h
  · cases h
    exact ⟨fun hc => absurd hc (by decide), fun _ => by decide, trivial⟩
  · rename_i rest
    dsimp only at h
    split at h
    · rename_i hall
      cases h
      rw [Bool.and_eq_true] at hall
      exact ⟨fun _ => hback, guarded_of_not_mem (not_mem_of_all_hex hall.2) 'x'⟩
    · cases h
  · rename_i rest
    obtain ⟨⟨code, j, after⟩, hcode, heq⟩ := Option.map_eq_some_iff.mp h
    cases heq
    exact ⟨fun _ => hback, guarded_of_not_mem (codePoint_take hcode) 'u'⟩
  · rename_i c rest _ _ _
    split at h
    · cases h
      exact ⟨fun _ => hback, trivial⟩
    · dsimp only at h
      split at h
      · cases h
        exact ⟨fun _ => hback, trivial⟩
      · cases h
        have hprefix : octalDigits (c :: rest) <+: c :: rest :=
          (List.takeWhile_prefix _).trans (List.take_prefix _ _)
        have hnone : '\n' ∉ octalDigits (c :: rest) := by
          intro hmem
          have hdigit := List.all_eq_true.mp List.all_takeWhile _ hmem
          revert hdigit
          decide
        rw [← List.prefix_iff_eq_take.mp hprefix]
        exact guarded_of_not_mem hnone _

/-- The rest of a string, `skip` characters of which belong to an escape: it ends at the first quote
outside of escapes. -/
theorem stringRest_eq_some {quote previous : Char} {skip n m : Nat} {rev : List Nat}
    {cs after : List Char} {value : String}
    (h : stringRest quote skip rev n cs = some (value, m, after))
    (hguard : Guarded previous (cs.take skip)) :
    ∃ body, cs = body ++ quote :: after ∧ m = n + byteLength body + 1 ∧ Guarded previous body := by
  induction cs generalizing skip rev n previous with
  | nil => cases skip <;> cases h
  | cons c cs ih =>
    cases skip with
    | succ skip =>
      rw [stringRest] at h
      obtain ⟨body, rfl, rfl, hbody⟩ := ih h hguard.2
      exact ⟨c :: body, rfl, by rw [byteLength_cons]; omega, hguard.1, hbody⟩
    | zero =>
      rw [stringRest] at h
      split at h
      · rename_i hquote
        cases h
        exact ⟨[], by rw [hquote]; rfl, rfl, trivial⟩
      · split at h
        · rename_i hback
          split at h
          · cases h
          · rename_i units k hescape
            obtain ⟨body, rfl, rfl, hbody⟩ := ih h (scanEscape_guarded hescape)
            have hsize : c.utf8Size = 1 := by rw [hback]; decide
            refine ⟨c :: body, rfl, by rw [byteLength_cons, hsize]; omega, ?_, hback ▸ hbody⟩
            exact fun hc => absurd (hback.symm.trans hc) (by decide)
        · split at h
          · cases h
          · rename_i hbreak
            have hnone : Guarded c (cs.take 0) := trivial
            obtain ⟨body, rfl, rfl, hbody⟩ := ih h hnone
            refine ⟨c :: body, rfl, by rw [byteLength_cons]; omega, fun hc => ?_, hbody⟩
            exact absurd (by simp [hc]) hbreak

theorem numberEnd_token {t u : Token} {n m : Nat} {cs rest : List Char}
    (h : numberEnd t n cs = some (u, m, rest)) : u = t := by
  unfold numberEnd at h
  split at h
  · split at h
    · cases h
    · cases h; rfl
  · cases h; rfl

theorem scanNumber_token {t : Token} {n : Nat} {cs rest : List Char}
    (h : scanNumber cs = some (t, n, rest)) : t = .number ∨ t = .bigint := by
  have hend {u : Token} {m : Nat} {cs : List Char} (hu : u = .number ∨ u = .bigint)
      (h : numberEnd u m cs = some (t, n, rest)) : t = .number ∨ t = .bigint := by
    rw [numberEnd_token h]
    exact hu
  have hfraction {o : Option (Nat × List Char)}
      (h : (o.bind fun p => numberEnd .number p.1 p.2) = some (t, n, rest)) :
      t = .number ∨ t = .bigint := by
    obtain ⟨⟨m, cs⟩, -, h⟩ := Option.bind_eq_some_iff.mp h
    exact hend (.inl rfl) h
  have hbased {ok : Char → Bool} {cs : List Char} (h : scanBased ok cs = some (t, n, rest)) :
      t = .number ∨ t = .bigint := by
    unfold scanBased at h
    split at h
    · cases h
    · exact hend (.inr rfl) h
    · exact hend (.inl rfl) h
  unfold scanNumber at h
  split at h
  iterate 6 exact hbased h
  · exact hfraction h
  · cases h
  · dsimp only at h
    split at h
    · unfold scanPadded at h
      dsimp only at h
      split at h
      · exact hfraction h
      · exact hend (.inl rfl) h
    · split at h
      · cases h
      · exact hend (.inr rfl) h
      · exact hfraction h

theorem templateRest_token {t : Token} {valid : Bool} {n m : Nat} {cs rest : List Char}
    (h : templateRest valid n cs = some (t, m, rest)) : ∃ last valid, t = .template last valid := by
  fun_induction templateRest valid n cs with
  | case1 => cases h
  | case2 => cases h; exact ⟨_, _, rfl⟩
  | case3 _ _ _ _ ih => exact ih h
  | case4 => cases h; exact ⟨_, _, rfl⟩
  | case5 _ _ _ _ _ _ _ ih => exact ih h

theorem scanString_of_scanToken {cs rest : List Char} {value : String} {n : Nat}
    (h : scanToken cs = some (.string value, n, rest)) :
    ∃ quote tail, cs = quote :: tail ∧ (quote = '"' ∨ quote = '\'') ∧
      scanString cs = some (.string value, n, rest) := by
  unfold scanToken at h
  split at h
  · cases h
  · split at h
    · rename_i hquote
      exact ⟨_, _, rfl, by simpa using hquote, h⟩
    · split at h
      · rcases scanNumber_token h with h | h <;> cases h
      · split at h
        · rcases scanNumber_token h with h | h <;> cases h
        · split at h
          · obtain ⟨_, _, h⟩ := templateRest_token h
            cases h
          · split at h
            · obtain ⟨_, _, h⟩ := Option.map_eq_some_iff.mp h
              cases h
            · split at h
              · obtain ⟨_, _, h⟩ := Option.map_eq_some_iff.mp h
                cases h
              · unfold scanPunct at h
                split at h
                · cases h
                · split at h <;> cases h
                · obtain ⟨_, _, h⟩ := Option.map_eq_some_iff.mp h
                  cases h

/-- A string token starts with a quote, has the length that is given for it, and something is seen
in each of its lines. -/
theorem scanToken_string {cs rest : List Char} {value : String} {n : Nat}
    (h : scanToken cs = some (.string value, n, rest)) :
    ∃ quote tail, Visible quote ∧ cs = (quote :: tail) ++ rest ∧ byteLength (quote :: tail) = n ∧
      ∀ line ∈ (splitLines (quote :: tail)).tail, ∃ c ∈ line, Visible c := by
  obtain ⟨quote, after, rfl, hquote, hscan⟩ := scanString_of_scanToken h
  have hvisible : Visible quote := by
    rcases hquote with rfl | rfl <;> decide
  have hsize : quote.utf8Size = 1 := by
    rcases hquote with rfl | rfl <;> decide
  obtain ⟨⟨v, m, end_⟩, hrest, heq⟩ := Option.map_eq_some_iff.mp hscan
  cases heq
  have hnone : Guarded quote (after.take 0) := trivial
  obtain ⟨body, rfl, rfl, hbody⟩ := stringRest_eq_some hrest hnone
  have hguard : Guarded quote (body ++ [quote]) := hbody.concat hvisible.2
  have hlines := hguard.visible_lines fun c hc => by
    have hlast : c = quote := by simpa [List.getLast?_cons] using hc.symm
    exact hlast ▸ hvisible
  obtain ⟨first, lines, hsplit, hcons⟩ := splitLines_cons_of_ne hvisible.2 (body ++ [quote])
  rw [hsplit] at hlines
  refine ⟨quote, body ++ [quote], hvisible, by simp, ?_, ?_⟩
  · simp only [byteLength_cons, byteLength_append, byteLength_nil, hsize]
    omega
  · rw [hcons]
    exact hlines.2

end Script.Lexer

end EmberClasses
