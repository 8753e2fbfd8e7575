import EmberClasses.Text.Span
import Mathlib.Data.List.Infix

/-! Byte offsets between characters. A source is cut at such offsets only: there `takeBytes` and
`dropBytes` lose nothing, and a slice has as many bytes as its span says. -/

namespace EmberClasses.Text

/-- The offset `n` lies between two characters of the source, or at one of its ends. -/
def IsBoundary (source : List Char) (n : Nat) : Prop := byteLength (takeBytes n source) = n

instance (source : List Char) (n : Nat) : Decidable (IsBoundary source n) :=
  inferInstanceAs (Decidable (_ = _))

@[simp] theorem byteLength_nil : byteLength [] = 0 := rfl

@[simp] theorem byteLength_cons (c : Char) (cs : List Char) :
    byteLength (c :: cs) = c.utf8Size + byteLength cs := rfl

@[simp] theorem takeBytes_zero (cs : List Char) : takeBytes 0 cs = [] := by cases cs <;> rfl

@[simp] theorem dropBytes_zero (cs : List Char) : dropBytes 0 cs = cs := by cases cs <;> rfl

@[simp] theorem takeBytes_nil (n : Nat) : takeBytes n [] = [] := by cases n <;> rfl

@[simp] theorem dropBytes_nil (n : Nat) : dropBytes n [] = [] := by cases n <;> rfl

theorem byteLength_take_add_drop (n : Nat) (cs : List Char) :
    byteLength (takeBytes n cs) + byteLength (dropBytes n cs) = byteLength cs := by
  rw [← byteLength_append, takeBytes_append_dropBytes]

theorem isBoundary_zero (source : List Char) : IsBoundary source 0 := by simp [IsBoundary]

theorem IsBoundary.le {source : List Char} {n : Nat} (h : IsBoundary source n) :
    n ≤ byteLength source := by
  have hl := byteLength_take_add_drop n source
  unfold IsBoundary at h
  omega

/-- What is left after a boundary has all the bytes that were not passed over. -/
theorem IsBoundary.add_drop {source : List Char} {n : Nat} (h : IsBoundary source n) :
    n + byteLength (dropBytes n source) = byteLength source := by
  have hl := byteLength_take_add_drop n source
  unfold IsBoundary at h
  omega

/-- A boundary behind the first character is a boundary of the rest. -/
private theorem isBoundary_cons {c : Char} {cs : List Char} {n : Nat}
    (h : IsBoundary (c :: cs) (n + 1)) :
    c.utf8Size ≤ n + 1 ∧ IsBoundary cs (n + 1 - c.utf8Size) := by
  simp only [IsBoundary, takeBytes, byteLength_cons] at h
  refine ⟨by omega, ?_⟩
  unfold IsBoundary
  omega

theorem IsBoundary.dropBytes_add {source : List Char} {n : Nat} (h : IsBoundary source n)
    (k : Nat) : dropBytes (n + k) source = dropBytes k (dropBytes n source) := by
  induction source generalizing n with
  | nil => simp
  | cons c cs ih =>
    cases n with
    | zero => simp
    | succ n =>
      obtain ⟨hc, hb⟩ := isBoundary_cons h
      have hk : n + 1 + k - c.utf8Size = n + 1 - c.utf8Size + k := by omega
      rw [show n + 1 + k = n + k + 1 by omega]
      simp only [dropBytes]
      rw [show n + k + 1 = n + 1 + k by omega, hk]
      exact ih hb

theorem IsBoundary.takeBytes_add {source : List Char} {n : Nat} (h : IsBoundary source n)
    (k : Nat) :
    takeBytes (n + k) source = takeBytes n source ++ takeBytes k (dropBytes n source) := by
  induction source generalizing n with
  | nil => simp
  | cons c cs ih =>
    cases n with
    | zero => simp
    | succ n =>
      obtain ⟨hc, hb⟩ := isBoundary_cons h
      have hk : n + 1 + k - c.utf8Size = n + 1 - c.utf8Size + k := by omega
      rw [show n + 1 + k = n + k + 1 by omega]
      simp only [takeBytes, dropBytes, List.cons_append]
      rw [show n + k + 1 = n + 1 + k by omega, hk, ih hb]

/-- Boundaries add up: one of the rest of a text is one of the whole text, further on. -/
theorem IsBoundary.add_iff {source : List Char} {n : Nat} (h : IsBoundary source n) (k : Nat) :
    IsBoundary source (n + k) ↔ IsBoundary (dropBytes n source) k := by
  unfold IsBoundary at *
  rw [IsBoundary.takeBytes_add h, byteLength_append, h]
  omega

theorem isBoundary_byteLength_append (a b : List Char) : IsBoundary (a ++ b) (byteLength a) := by
  induction a with
  | nil => simpa using isBoundary_zero b
  | cons c cs ih =>
    have hc : 0 < c.utf8Size := c.utf8Size_pos
    obtain ⟨m, hm⟩ := Nat.exists_eq_add_one_of_ne_zero
      (show c.utf8Size + byteLength cs ≠ 0 by omega)
    unfold IsBoundary at *
    simp only [byteLength_cons, List.cons_append, hm, takeBytes]
    rw [← hm, Nat.add_sub_cancel_left, ih]

theorem dropBytes_byteLength_append (a b : List Char) : dropBytes (byteLength a) (a ++ b) = b := by
  induction a with
  | nil => simp
  | cons c cs ih =>
    have hc : 0 < c.utf8Size := c.utf8Size_pos
    obtain ⟨m, hm⟩ := Nat.exists_eq_add_one_of_ne_zero
      (show c.utf8Size + byteLength cs ≠ 0 by omega)
    simp only [byteLength_cons, List.cons_append, hm, dropBytes]
    rw [← hm, Nat.add_sub_cancel_left, ih]

/-- A slice and what follows it make up the text from the start of the slice on. -/
theorem IsBoundary.slice_append_drop {source : List Char} {a b : Nat} (h : IsBoundary source a)
    (hab : a ≤ b) : slice source ⟨a, b⟩ ++ dropBytes b source = dropBytes a source := by
  have hb : b = a + (b - a) := by omega
  rw [hb, h.dropBytes_add, ← hb]
  exact takeBytes_append_dropBytes _ _

theorem slice_append_slice {source : List Char} {a b c : Nat} (ha : IsBoundary source a)
    (hb : IsBoundary source b) (hab : a ≤ b) (hbc : b ≤ c) :
    slice source ⟨a, b⟩ ++ slice source ⟨b, c⟩ = slice source ⟨a, c⟩ := by
  have hac := ha.slice_append_drop (hab.trans hbc)
  rw [← ha.slice_append_drop hab, ← hb.slice_append_drop hbc, ← List.append_assoc] at hac
  exact (List.append_cancel_right hac).symm

theorem slice_whole (source : List Char) : slice source (whole source) = source := by
  have hall := (isBoundary_zero source).slice_append_drop (Nat.zero_le (byteLength source))
  have hend : dropBytes (byteLength source) source = [] := by
    simpa using dropBytes_byteLength_append source []
  rw [hend, List.append_nil, dropBytes_zero] at hall
  exact hall

theorem byteLength_slice {source : List Char} {a b : Nat} (ha : IsBoundary source a)
    (hb : IsBoundary source b) (hab : a ≤ b) : a + byteLength (slice source ⟨a, b⟩) = b := by
  have hs := congrArg byteLength (ha.slice_append_drop hab)
  rw [byteLength_append] at hs
  have h₁ := ha.add_drop
  have h₂ := hb.add_drop
  omega

/-- Of two beginnings of one text, the one with fewer bytes is a beginning of the other. -/
theorem prefix_of_byteLength_le {a b x y : List Char} (h : a ++ x = b ++ y)
    (hl : byteLength a ≤ byteLength b) : a <+: b := by
  rcases List.append_eq_append_iff.mp h with ⟨d, hb, _⟩ | ⟨d, ha, _⟩
  · exact ⟨d, hb.symm⟩
  · have hd : byteLength d = 0 := by
      rw [ha, byteLength_append] at hl
      omega
    cases d with
    | nil => exact ⟨[], by simpa using ha⟩
    | cons c cs =>
      have hc : 0 < c.utf8Size := c.utf8Size_pos
      rw [byteLength_cons] at hd
      omega

end EmberClasses.Text
