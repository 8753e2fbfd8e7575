/-!
Lines of a text. A line feed separates two lines, so every text has at least one line and
`joinLines` undoes `splitLines`.
-/

namespace EmberClasses.Text

def splitLines : List Char → List (List Char)
  | [] => [[]]
  | c :: cs =>
    if c = '\n' then [] :: splitLines cs
    else match splitLines cs with
      | [] => [[c]]
      | line :: lines => (c :: line) :: lines

/-- Puts one line feed between neighbouring lines. -/
def joinLines : List (List Char) → List Char
  | [] => []
  | [line] => line
  | line :: lines => line ++ '\n' :: joinLines lines

def lineFeeds (cs : List Char) : Nat := cs.count '\n'

theorem splitLines_ne_nil (cs : List Char) : splitLines cs ≠ [] := by
  cases cs with
  | nil => simp [splitLines]
  | cons c cs =>
    unfold splitLines
    split
    · simp
    · split <;> simp

theorem joinLines_splitLines (cs : List Char) : joinLines (splitLines cs) = cs := by
  induction cs with
  | nil => rfl
  | cons c cs ih =>
    unfold splitLines
    split
    · subst c
      cases h : splitLines cs with
      | nil => exact absurd h (splitLines_ne_nil cs)
      | cons l ls => rw [h] at ih; simp [joinLines, ih]
    · split
      · exact absurd ‹_› (splitLines_ne_nil cs)
      · rename_i l ls h
        rw [h] at ih
        cases ls with
        | nil => simp [joinLines] at ih ⊢; exact ih
        | cons m ms => simp [joinLines] at ih ⊢; exact ih

theorem length_splitLines (cs : List Char) : (splitLines cs).length = lineFeeds cs + 1 := by
  induction cs with
  | nil => rfl
  | cons c cs ih =>
    unfold splitLines
    split
    · subst c; simp [lineFeeds] at ih ⊢; exact ih
    · rename_i hc
      have hne : (c == '\n') = false := by simpa using hc
      split
      · exact absurd ‹_› (splitLines_ne_nil cs)
      · rename_i l ls h
        rw [h] at ih
        simp [lineFeeds, List.count_cons, hne] at ih ⊢
        exact ih

end EmberClasses.Text
