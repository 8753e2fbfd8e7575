import EmberClasses.Proofs.SettledNodes
import EmberClasses.Proofs.SplicedText

/-! Where the name `extend` can be read in a text. The keyword `extends` is no such place, and a
text that starts and ends with punctuation neither cuts the name off nor completes it, so what is
around such a text can be looked at with a blank in its place. -/

namespace EmberClasses

open Text

namespace Text

/-- The text goes on with `extend`, but not with `extends`, or with an escape, which could stand for
any letter. -/
def StartsExtend (text : List Char) : Prop :=
  ("extend".toList <+: text ∧ (text.drop 6).head? ≠ some 's') ∨ ['\\', 'u'] <+: text

instance (text : List Char) : Decidable (StartsExtend text) := inferInstanceAs (Decidable (_ ∨ _))

/-- The name `extend` may be read somewhere in the text. -/
def MentionsExtend (text : List Char) : Prop := ∃ rest ∈ text.tails, StartsExtend rest

instance (text : List Char) : Decidable (MentionsExtend text) :=
  inferInstanceAs (Decidable (∃ rest ∈ text.tails, _))

/-- A character that is not part of the name or of an escape. -/
def Separates (c : Char) : Prop := c ∉ "\\uextnd".toList

instance (c : Char) : Decidable (Separates c) := inferInstanceAs (Decidable (_ ∉ _))

variable {x y text rest : List Char} {c : Char}

theorem mentionsExtend_iff : MentionsExtend text ↔ ∃ rest, rest <:+ text ∧ StartsExtend rest := by
  simp [MentionsExtend]

theorem MentionsExtend.of_suffix (h : MentionsExtend x) (hxy : x <:+ y) : MentionsExtend y := by
  obtain ⟨rest, hrest, hstarts⟩ := mentionsExtend_iff.mp h
  exact mentionsExtend_iff.mpr ⟨rest, hrest.trans hxy, hstarts⟩

theorem not_mentionsExtend_nil : ¬ MentionsExtend [] := by decide

/-- What follows a text does not take the name away from it. -/
theorem StartsExtend.append (h : StartsExtend x) (hy : y.head? ≠ some 's') :
    StartsExtend (x ++ y) := by
  rcases h with ⟨⟨rest, rfl⟩, hnext⟩ | h
  · refine .inl ⟨⟨rest ++ y, by simp⟩, ?_⟩
    change (rest ++ y).head? ≠ some 's'
    cases rest with
    | nil => exact hy
    | cons c rest => exact hnext
  · exact .inr (h.trans (List.prefix_append x y))

theorem MentionsExtend.append (h : MentionsExtend x) (hy : y.head? ≠ some 's') :
    MentionsExtend (x ++ y) := by
  obtain ⟨rest, ⟨before, rfl⟩, hstarts⟩ := mentionsExtend_iff.mp h
  exact mentionsExtend_iff.mpr ⟨rest ++ y, ⟨before, by simp⟩, hstarts.append hy⟩

/-- A word that starts in `x` ends in it, if no rest of the word is what follows. -/
theorem prefix_of_prefix_append {word : List Char} (h : word <+: x ++ y) (hx : x ≠ [])
    (hy : ∀ k < word.length, 0 < k → ¬ word.drop k <+: y) : word <+: x := by
  by_contra hlong
  have hlt : x.length < word.length := by
    by_contra hle
    exact hlong (List.prefix_of_prefix_length_le h (List.prefix_append x y) (Nat.not_lt.mp hle))
  have hword := List.prefix_of_prefix_length_le (List.prefix_append x y) h hlt.le
  obtain ⟨tail, rfl⟩ := hword
  refine hy x.length hlt (List.length_pos_iff.mpr hx) ?_
  rw [List.drop_left]
  exact (List.prefix_append_right_inj x).mp h

/-- Neither the name nor an escape goes on in this text. -/
def Fresh (text : List Char) : Prop :=
  (∀ k < 6, 0 < k → ¬ "extend".toList.drop k <+: text) ∧ text.head? ≠ some 'u'

instance (text : List Char) : Decidable (Fresh text) := inferInstanceAs (Decidable (_ ∧ _))

theorem StartsExtend.of_append (h : StartsExtend (x ++ y)) (hx : x ≠ []) (hy : Fresh y) :
    StartsExtend x := by
  rcases h with ⟨hstarts, hnext⟩ | hescape
  · obtain ⟨rest, rfl⟩ := prefix_of_prefix_append hstarts hx hy.1
    refine .inl ⟨List.prefix_append _ _, fun hs => hnext ?_⟩
    change rest.head? = some 's' at hs
    change (rest ++ y).head? = some 's'
    rw [List.head?_append, hs]
    rfl
  · refine .inr (prefix_of_prefix_append hescape hx fun k hk hpos hu => hy.2 ?_)
    obtain rfl : k = 1 := by
      simp only [List.length_cons, List.length_nil] at hk
      omega
    obtain ⟨rest, rfl⟩ := hu
    rfl

/-- The name stands in one of two texts, if it can not run from the first into the second. -/
theorem MentionsExtend.of_append (h : MentionsExtend (x ++ y)) (hy : Fresh y) :
    MentionsExtend x ∨ MentionsExtend y := by
  obtain ⟨rest, ⟨before, hbefore⟩, hstarts⟩ := mentionsExtend_iff.mp h
  rcases List.append_eq_append_iff.mp hbefore with ⟨d, rfl, rfl⟩ | ⟨d, rfl, rfl⟩
  · by_cases hd : d = []
    · subst hd
      exact .inr (mentionsExtend_iff.mpr ⟨_, List.suffix_refl _, hstarts⟩)
    · exact .inl (mentionsExtend_iff.mpr ⟨d, List.suffix_append _ _, hstarts.of_append hd hy⟩)
  · exact .inr (mentionsExtend_iff.mpr ⟨rest, List.suffix_append _ _, hstarts⟩)

/-- A text that starts in another way goes on with neither. -/
theorem fresh_of_head (hc : Separates c) : Fresh (c :: y) := by
  refine ⟨fun k hk hpos h => ?_, fun hu => ?_⟩
  · have hall : ∀ k < 6, ("extend".toList.drop k).head?.any fun d => !decide (Separates d) := by
      decide
    obtain ⟨d, hd, hno⟩ := (Option.any_eq_true ..).mp (hall k hk)
    obtain ⟨tail, htail⟩ := List.head?_eq_some_iff.mp hd
    rw [htail] at h
    obtain ⟨rest, hrest⟩ := h
    cases hrest
    simp [hc] at hno
  · cases hu
    revert hc
    decide

theorem MentionsExtend.of_parted (h : MentionsExtend (x ++ c :: y)) (hc : Separates c) :
    MentionsExtend x ∨ MentionsExtend y := by
  refine (h.of_append (fresh_of_head hc)).imp_right fun h => ?_
  obtain ⟨rest, hrest, hstarts⟩ := mentionsExtend_iff.mp h
  rcases List.suffix_cons_iff.mp hrest with rfl | hrest
  · exfalso
    revert hc
    rcases hstarts with ⟨⟨tail, htail⟩, -⟩ | ⟨tail, htail⟩
    · cases htail
      decide
    · cases htail
      decide
  · exact mentionsExtend_iff.mpr ⟨rest, hrest, hstarts⟩

/-- The name is not read in this text, nor from this text on. -/
def Silent (text : List Char) : Prop := ∀ y, MentionsExtend (text ++ y) → MentionsExtend y

theorem silent_nil : Silent [] := fun _ h => h

theorem Silent.append (hx : Silent x) (hy : Silent y) : Silent (x ++ y) := by
  intro z h
  rw [List.append_assoc] at h
  exact hy z (hx _ h)

theorem silent_word (hx : ¬ MentionsExtend x) (hc : Separates c) : Silent (x ++ [c]) := by
  intro y h
  rw [List.append_assoc] at h
  exact (h.of_parted hc).resolve_left hx

theorem silent_separator (hc : Separates c) : Silent [c] := silent_word not_mentionsExtend_nil hc

theorem MentionsExtend.joinLines {line : List Char} {lines : List (List Char)}
    (h : MentionsExtend line) (hline : line ∈ lines) : MentionsExtend (joinLines lines) := by
  induction lines with
  | nil => cases hline
  | cons first lines ih =>
    cases lines with
    | nil =>
      rw [← List.mem_singleton.mp hline]
      exact h
    | cons next lines =>
      rcases List.mem_cons.mp hline with rfl | hline
      · exact h.append (by simp)
      · exact (ih hline).of_suffix (List.suffix_append_of_suffix (List.suffix_cons _ _))

end Text

namespace Script.Lexer

end Script.Lexer

namespace Text

/-- A text that the name can not run into or out of. -/
structure Walled (text : List Char) : Prop where
  fresh : ∀ y, Fresh (text ++ y)
  ends : ∃ x, text = x ++ ['}'] ∨ text = x ++ [')']

/-- The second text is the first one with a blank for each of some walled texts. -/
inductive Framed (isHole : List Char → Prop) : List Char → List Char → Prop where
  | nil : Framed isHole [] []
  | keep (c : Char) {x y : List Char} : Framed isHole x y → Framed isHole (c :: x) (c :: y)
  | hole {text x y : List Char} : Walled text → isHole text → Framed isHole x y →
      Framed isHole (text ++ x) (' ' :: y)

namespace Framed

variable {isHole : List Char → Prop} {x y x' y' : List Char}

theorem refl (text : List Char) : Framed isHole text text := by
  induction text with
  | nil => exact .nil
  | cons c text ih => exact ih.keep c

theorem append (h : Framed isHole x y) (h' : Framed isHole x' y') :
    Framed isHole (x ++ x') (y ++ y') := by
  induction h with
  | nil => exact h'
  | keep c _ ih => exact ih.keep c
  | hole hwalled hhole _ ih =>
    rw [List.append_assoc]
    exact .hole hwalled hhole ih

/-- The name stands in what is left, or in what a blank stands for. -/
theorem mentions (h : Framed isHole x y) (before : List Char)
    (hx : MentionsExtend (before ++ x)) :
    MentionsExtend (before ++ y) ∨ ∃ text, isHole text ∧ MentionsExtend text := by
  induction h generalizing before with
  | nil => exact .inl hx
  | @keep c x y _ ih =>
    have hstep := ih (before ++ [c]) (by simpa using hx)
    simpa using hstep
  | @hole text x y hwalled hhole _ ih =>
    rcases hx.of_append (hwalled.fresh x) with hx | hx
    · exact .inl (hx.append (by simp))
    · have hrest : MentionsExtend text ∨ MentionsExtend x := by
        obtain ⟨init, rfl | rfl⟩ := hwalled.ends
        · rw [List.append_assoc] at hx
          exact (hx.of_parted (by decide)).imp_left (·.append (by simp))
        · rw [List.append_assoc] at hx
          exact (hx.of_parted (by decide)).imp_left (·.append (by simp))
      rcases hrest with htext | hx
      · exact .inr ⟨text, hhole, htext⟩
      · have hstep := ih (before ++ [' '])
          (hx.of_suffix (List.suffix_append (before ++ [' ']) x))
        simpa using hstep

end Framed

end Text

namespace Edit

/-- Edits of the same spans, with a blank for each of some walled texts. -/
def Blanked (isHole : List Char → Prop) (e f : Edit) : Prop :=
  e.span = f.span ∧ (e.text = f.text ∨ f.text = [' '] ∧ Walled e.text ∧ isHole e.text)

variable {isHole : List Char → Prop} {es fs : List Edit}

theorem Blanked.refl (e : Edit) : Blanked isHole e e := ⟨rfl, .inl rfl⟩

end Edit

end EmberClasses
