import EmberClasses.Proofs.Edits
import EmberClasses.Text.Fragment

/-! Texts whose characters know where they come from. What edits make of a source is traced
character by character; the lines of the result that start inside a template are then found by
looking at the line feeds alone, and moving lines to the left does not change which these are. -/

namespace EmberClasses

namespace Text

theorem joinLines_cons (line : List Char) (lines : List (List Char)) :
    joinLines (line :: lines) = line ++ lines.flatMap ('\n' :: ·) := by
  induction lines generalizing line with
  | nil => simp [joinLines]
  | cons next lines ih => simp [joinLines, ih]

theorem joinLines_append {a : List (List Char)} (h : a ≠ []) (b : List (List Char)) :
    joinLines (a ++ b) = joinLines a ++ b.flatMap ('\n' :: ·) := by
  cases a with
  | nil => exact absurd rfl h
  | cons line lines => simp [joinLines_cons]

theorem splitLines_cons_of_ne {c : Char} (hc : c ≠ '\n') (cs : List Char) :
    ∃ line lines, splitLines cs = line :: lines ∧ splitLines (c :: cs) = (c :: line) :: lines := by
  cases h : splitLines cs with
  | nil => exact absurd h (splitLines_ne_nil cs)
  | cons line lines => exact ⟨line, lines, rfl, by rw [splitLines, if_neg hc, h]⟩

theorem not_mem_splitLines (cs : List Char) : ∀ line ∈ splitLines cs, '\n' ∉ line := by
  induction cs with
  | nil => simp [splitLines]
  | cons c cs ih =>
    by_cases hc : c = '\n'
    · intro line hline
      rw [splitLines, if_pos hc] at hline
      rcases List.mem_cons.mp hline with rfl | hline
      · simp
      · exact ih line hline
    · obtain ⟨first, lines, hcs, hsplit⟩ := splitLines_cons_of_ne hc cs
      rw [hcs] at ih
      rw [hsplit]
      intro line hline
      rcases List.mem_cons.mp hline with rfl | hline
      · have hfirst := ih first List.mem_cons_self
        simp [hfirst, Ne.symm hc]
      · exact ih line (List.mem_cons_of_mem first hline)

private theorem splitLines_of_not_mem {line : List Char} (h : '\n' ∉ line) :
    splitLines line = [line] := by
  induction line with
  | nil => rfl
  | cons c cs ih =>
    rw [List.mem_cons, not_or] at h
    rw [splitLines, if_neg (Ne.symm h.1), ih h.2]

private theorem splitLines_append_feed {line : List Char} (h : '\n' ∉ line) (rest : List Char) :
    splitLines (line ++ '\n' :: rest) = line :: splitLines rest := by
  induction line with
  | nil => rw [List.nil_append, splitLines, if_pos rfl]
  | cons c cs ih =>
    rw [List.mem_cons, not_or] at h
    rw [List.cons_append, splitLines, if_neg (Ne.symm h.1), ih h.2]

theorem splitLines_joinLines {lines : List (List Char)} (hne : lines ≠ [])
    (h : ∀ line ∈ lines, '\n' ∉ line) : splitLines (joinLines lines) = lines := by
  induction lines with
  | nil => exact absurd rfl hne
  | cons line lines ih =>
    have hline := h line List.mem_cons_self
    cases lines with
    | nil => exact splitLines_of_not_mem hline
    | cons next lines =>
      have hrest := ih (by simp) fun l hl => h l (List.mem_cons_of_mem line hl)
      rw [joinLines, splitLines_append_feed hline, hrest]
      simp

@[simp] theorem lineFeeds_append (a b : List Char) :
    lineFeeds (a ++ b) = lineFeeds a + lineFeeds b := List.count_append

/-- A character with the byte of the source that it was copied from. Others have none. -/
structure Traced where
  char : Char
  origin : Option Nat
  deriving DecidableEq

def copiedFrom : Nat → List Char → List Traced
  | _, [] => []
  | offset, c :: cs => ⟨c, some offset⟩ :: copiedFrom (offset + c.utf8Size) cs

def generated (cs : List Char) : List Traced := cs.map fun c => ⟨c, none⟩

/-- The origins of the line feeds. Line `i + 1` of the text starts behind number `i` of them. -/
def feeds (t : List Traced) : List (Option Nat) :=
  (t.filter fun c => c.char = '\n').map Traced.origin

@[simp] theorem map_char_copiedFrom (offset : Nat) (cs : List Char) :
    (copiedFrom offset cs).map Traced.char = cs := by
  induction cs generalizing offset with
  | nil => rfl
  | cons c cs ih => simp [copiedFrom, ih]

@[simp] theorem map_char_generated (cs : List Char) : (generated cs).map Traced.char = cs := by
  simp [generated, Function.comp_def]

@[simp] theorem feeds_append (t u : List Traced) : feeds (t ++ u) = feeds t ++ feeds u := by
  simp [feeds]

theorem length_feeds (t : List Traced) :
    (feeds t).length = lineFeeds (t.map Traced.char) := by
  induction t with
  | nil => rfl
  | cons c t ih =>
    simp only [feeds, lineFeeds, List.length_map] at ih ⊢
    by_cases hc : c.char = '\n'
    · simp [hc, ih]
    · simp [hc, ih]

end Text

namespace Edit

open Text

/-- `Traces n text es out`: `out` is `text`, whose first byte has the offset `n`, with the span of
every edit replaced; each character that is left knows its offset. -/
inductive Traces : Nat → List Char → List Edit → List Traced → Prop where
  | done (n : Nat) (text : List Char) : Traces n text [] (copiedFrom n text)
  | edit {n : Nat} {gap old rest : List Char} {out : List Traced} {e : Edit} {es : List Edit} :
      n + byteLength gap = e.span.start →
      e.span.start + byteLength old = e.span.stop →
      Traces e.span.stop rest es out →
      Traces n (gap ++ (old ++ rest)) (e :: es) (copiedFrom n gap ++ (generated e.text ++ out))

end Edit

def Piece.traced : Piece → List Text.Traced
  | copied offset cs => Text.copiedFrom offset cs
  | inserted cs => Text.generated cs

theorem Piece.map_char_traced (ps : List Piece) :
    (ps.flatMap traced).map Text.Traced.char = Piece.text ps := by
  induction ps with
  | nil => rfl
  | cons p ps ih =>
    rw [List.flatMap_cons, List.map_append, ih]
    cases p <;> simp [traced, Piece.text, chars]

theorem Edit.traces_of_weave {source : List Char} {stop cursor : Nat} {es : List Edit}
    {ps : List Piece} (hc : Text.IsBoundary source cursor) (hcs : cursor ≤ stop)
    (hes : ∀ e ∈ es, e.span.start ≤ e.span.stop ∧ e.span.OnBoundaries source)
    (h : weave source stop cursor es = .ok ps) :
    Traces cursor (Text.slice source ⟨cursor, stop⟩) es (ps.flatMap Piece.traced) := by
  induction es generalizing cursor ps with
  | nil =>
    simp only [weave, Except.ok.injEq] at h
    subst h
    simpa [Piece.traced] using Traces.done cursor (Text.slice source ⟨cursor, stop⟩)
  | cons e es ih =>
    obtain ⟨hle, hstart, hstop⟩ := hes e List.mem_cons_self
    unfold weave at h
    split at h
    · cases h
    · rename_i hgood
      have hcur : cursor ≤ e.span.start := by omega
      have hend : e.span.stop ≤ stop := by omega
      cases hw : weave source stop e.span.stop es with
      | error bad => rw [hw] at h; cases h
      | ok qs =>
        rw [hw] at h
        cases h
        have hrest := ih hstop hend (fun f hf => hes f (List.mem_cons_of_mem e hf)) hw
        rw [← Text.slice_append_slice hc hstart hcur (hle.trans hend),
          ← Text.slice_append_slice hstart hstop hle hend]
        exact .edit (Text.byteLength_slice hc hstart hcur)
          (Text.byteLength_slice hstart hstop hle) hrest

namespace Fragment

open Text

private theorem narrow_eq {a : Array Nat} {line j : Nat}
    (ha : ∀ i k x y : Nat, a[i]? = some x → a[k]? = some y → i < k → x < y) (hj : a[j]? = some line)
    {fuel base size : Nat} (hbase : base ≤ j) (hsize : j < base + size)
    (hend : base + size ≤ a.size) (hfuel : size ≤ fuel + 1) : narrow a line fuel base size = j := by
  induction fuel generalizing base size with
  | zero =>
    rw [narrow]
    omega
  | succ fuel ih =>
    rw [narrow]
    by_cases hone : size ≤ 1
    · rw [if_pos hone]
      omega
    · rw [if_neg hone]
      have hmid : base + size / 2 < a.size := by omega
      have hget : a[base + size / 2]? = some a[base + size / 2] := Array.getElem?_eq_getElem hmid
      simp only [hget]
      by_cases hlt : line < a[base + size / 2]
      · have hleft : j < base + size / 2 := by
          by_contra hright
          rcases Nat.eq_or_lt_of_le (Nat.not_lt.mp hright) with heq | hgt
          · rw [← heq, hget, Option.some.injEq] at hj
            omega
          · have := ha _ _ _ _ hget hj hgt
            omega
        rw [if_pos hlt]
        exact ih hbase (by omega) (by omega) (by omega)
      · have hright : base + size / 2 ≤ j := by
          by_contra hleft
          have := ha _ _ _ _ hj hget (Nat.not_le.mp hleft)
          omega
        rw [if_neg hlt]
        exact ih hright (by omega) (by omega) (by omega)

/-- Halving an ascending list finds exactly its members. -/
theorem listed_iff_mem {lines : List Nat} (h : lines.Pairwise (· < ·)) (line : Nat) :
    listed lines line = true ↔ line ∈ lines := by
  unfold listed
  simp only [List.getElem?_toArray, beq_iff_eq]
  constructor
  · exact List.mem_of_getElem?
  · intro hmem
    obtain ⟨j, hj⟩ := List.getElem?_of_mem hmem
    have hlen : j < lines.length := (List.getElem?_eq_some_iff.mp hj).1
    have ha : ∀ i k x y : Nat, lines.toArray[i]? = some x → lines.toArray[k]? = some y →
        i < k → x < y := by
      intro i k x y hx hy hik
      rw [List.getElem?_toArray, List.getElem?_eq_some_iff] at hx hy
      obtain ⟨hi, rfl⟩ := hx
      obtain ⟨hk, rfl⟩ := hy
      exact List.pairwise_iff_getElem.mp h i k hi hk hik
    have hfind : narrow lines.toArray line lines.toArray.size 0 lines.toArray.size = j :=
      narrow_eq ha (by simpa using hj) (Nat.zero_le j) (by simpa using hlen) (by simp) (by omega)
    rw [hfind, hj]

def InQuasi (quasis : List Span) (offset : Nat) : Prop :=
  ∃ q ∈ quasis, q.start ≤ offset ∧ offset < q.stop

instance (quasis : List Span) (offset : Nat) : Decidable (InQuasi quasis offset) :=
  inferInstanceAs (Decidable (∃ q ∈ quasis, _))

theorem inTemplate_iff {quasis : List Span} (h : quasis.Pairwise Span.Before) (offset : Nat) :
    inTemplate quasis offset = true ↔ InQuasi quasis offset := by
  induction quasis with
  | nil => simp [inTemplate, InQuasi]
  | cons q qs ih =>
    obtain ⟨hfirst, hrest⟩ := List.pairwise_cons.mp h
    by_cases hq : offset < q.stop
    · have hlater : ∀ r ∈ qs, ¬ (r.start ≤ offset ∧ offset < r.stop) := by
        intro r hr hin
        have hbefore : q.stop ≤ r.start := hfirst r hr
        omega
      simp only [inTemplate, List.find?_cons_of_pos (p := fun r : Span => decide (offset < r.stop))
        (by simpa using hq), decide_eq_true_eq, InQuasi, List.mem_cons, exists_eq_or_imp]
      constructor
      · intro hstart
        exact .inl ⟨hstart, hq⟩
      · rintro (⟨hstart, -⟩ | ⟨r, hr, hin⟩)
        · exact hstart
        · exact absurd hin (hlater r hr)
    · have hskip : inTemplate (q :: qs) offset = inTemplate qs offset := by
        simp [inTemplate, hq]
      rw [hskip, ih hrest]
      simp only [InQuasi, List.mem_cons, exists_eq_or_imp]
      constructor
      · exact .inr
      · rintro (⟨-, hstop⟩ | hin)
        · exact absurd hstop hq
        · exact hin

/-- For each line feed, whether it was copied from the text of a template. -/
def marks (quasis : List Span) (t : List Traced) : List Bool :=
  (feeds t).map fun origin => origin.any fun offset => decide (InQuasi quasis offset)

@[simp] theorem marks_append (quasis : List Span) (t u : List Traced) :
    marks quasis (t ++ u) = marks quasis t ++ marks quasis u := by
  simp [marks]

def unmarked (text : List Char) : List Bool := List.replicate (lineFeeds text) false

@[simp] theorem marks_generated (quasis : List Span) (text : List Char) :
    marks quasis (generated text) = unmarked text := by
  induction text with
  | nil => rfl
  | cons c cs ih =>
    simp only [marks, unmarked, feeds, lineFeeds, generated] at ih ⊢
    by_cases hc : c = '\n'
    · simp [hc, List.replicate_succ, ih]
    · simp [hc, ih]

/-- The numbers of the lines that start at a mark, when `line` line feeds have been passed. -/
def markedFrom : Nat → List Bool → List Nat
  | _, [] => []
  | line, true :: ms => (line + 1) :: markedFrom (line + 1) ms
  | line, false :: ms => markedFrom (line + 1) ms

theorem markedFrom_append (line : Nat) (ms ns : List Bool) :
    markedFrom line (ms ++ ns) = markedFrom line ms ++ markedFrom (line + ms.length) ns := by
  induction ms generalizing line with
  | nil => simp [markedFrom]
  | cons m ms ih =>
    cases m <;> simp [markedFrom, ih, Nat.add_assoc, Nat.add_comm 1]

theorem markedFrom_shift (line k : Nat) (ms : List Bool) :
    markedFrom (line + k) ms = (markedFrom line ms).map (· + k) := by
  induction ms generalizing line with
  | nil => rfl
  | cons m ms ih =>
    have hnext : line + k + 1 = line + 1 + k := by omega
    cases m <;> simp [markedFrom, hnext, ih]

@[simp] theorem markedFrom_unmarked (line : Nat) (text : List Char) :
    markedFrom line (unmarked text) = [] := by
  unfold unmarked
  induction lineFeeds text generalizing line with
  | zero => rfl
  | succ n ih => simp [List.replicate_succ, markedFrom, ih]

theorem mem_markedFrom {line i : Nat} {ms : List Bool} :
    i ∈ markedFrom line ms ↔ ∃ k, i = line + k + 1 ∧ ms[k]? = some true := by
  induction ms generalizing line with
  | nil => simp [markedFrom]
  | cons m ms ih =>
    have hlater : (∃ k, i = line + 1 + k + 1 ∧ ms[k]? = some true) ↔
        ∃ k, i = line + (k + 1) + 1 ∧ (m :: ms)[k + 1]? = some true := by
      simp [Nat.add_assoc, Nat.add_comm 1]
    cases m with
    | true =>
      rw [markedFrom, List.mem_cons, ih, hlater]
      constructor
      · rintro (rfl | ⟨k, hk⟩)
        · exact ⟨0, by simp⟩
        · exact ⟨k + 1, hk⟩
      · rintro ⟨k, hk, hm⟩
        cases k with
        | zero => exact .inl hk
        | succ k => exact .inr ⟨k, hk, hm⟩
    | false =>
      rw [markedFrom, ih, hlater]
      constructor
      · rintro ⟨k, hk⟩
        exact ⟨k + 1, hk⟩
      · rintro ⟨k, hk, hm⟩
        cases k with
        | zero => simp at hm
        | succ k => exact ⟨k, hk, hm⟩

theorem markedFrom_ascending (line : Nat) (ms : List Bool) :
    (markedFrom line ms).Pairwise (· < ·) := by
  induction ms generalizing line with
  | nil => exact .nil
  | cons m ms ih =>
    cases m with
    | true =>
      refine .cons (fun i hi => ?_) (ih (line + 1))
      obtain ⟨k, rfl, -⟩ := mem_markedFrom.mp hi
      omega
    | false => exact ih (line + 1)

theorem listed_markedFrom (ms : List Bool) (i : Nat) :
    listed (markedFrom 0 ms) (i + 1) = (ms[i]? == some true) := by
  rw [Bool.eq_iff_iff, listed_iff_mem (markedFrom_ascending 0 ms), mem_markedFrom, beq_iff_eq]
  constructor
  · rintro ⟨k, hk, hm⟩
    have : i = k := by omega
    rwa [this]
  · intro hm
    exact ⟨i, by omega, hm⟩

theorem marks_copiedFrom_cons (quasis : List Span) (offset : Nat) (c : Char) (cs : List Char) :
    marks quasis (copiedFrom offset (c :: cs)) =
      (if c = '\n' then [decide (InQuasi quasis offset)] else []) ++
        marks quasis (copiedFrom (offset + c.utf8Size) cs) := by
  by_cases hc : c = '\n' <;> simp [copiedFrom, marks, feeds, hc]

private theorem copiedLines_eq {quasis : List Span} (h : quasis.Pairwise Span.Before)
    (line offset : Nat) (cs : List Char) :
    copiedLines quasis line offset cs = markedFrom line (marks quasis (copiedFrom offset cs)) := by
  induction cs generalizing line offset with
  | nil => rfl
  | cons c cs ih =>
    rw [copiedLines]
    rw [marks_copiedFrom_cons]
    by_cases hc : c = '\n'
    · by_cases hq : InQuasi quasis offset
      · simp [hc, (inTemplate_iff h offset).mpr hq, hq, markedFrom, ih]
      · have hno : inTemplate quasis offset = false := by
          rw [Bool.eq_false_iff]
          exact fun hin => hq ((inTemplate_iff h offset).mp hin)
        simp [hc, hno, hq, markedFrom, ih]
    · simp [hc, ih]

theorem length_marks (quasis : List Span) (t : List Traced) :
    (marks quasis t).length = lineFeeds (t.map Traced.char) := by
  rw [marks, List.length_map, length_feeds]

theorem verbatimLines_eq {quasis : List Span} (h : quasis.Pairwise Span.Before) (line : Nat)
    (ps : List Piece) :
    verbatimLines quasis line ps = markedFrom line (marks quasis (ps.flatMap Piece.traced)) := by
  induction ps generalizing line with
  | nil => rfl
  | cons p ps ih =>
    rw [List.flatMap_cons, marks_append, markedFrom_append, length_marks]
    cases p with
    | copied offset cs => simp [verbatimLines, Piece.traced, copiedLines_eq h, ih]
    | inserted cs => simp [verbatimLines, Piece.traced, ih]

theorem stripIndent_eq (columns : Nat) (line : List Char) :
    stripIndent columns line = line.drop (min columns (line.takeWhile isIndent).length) := by
  induction line generalizing columns with
  | nil => cases columns <;> simp [stripIndent]
  | cons c cs ih =>
    cases columns with
    | zero => simp [stripIndent]
    | succ n =>
      by_cases hc : isIndent c
      · simp [stripIndent, hc, ih, Nat.succ_min_succ]
      · simp [stripIndent, hc]

/-- The lines of a text that is moved to the left are those of the text, each of them moved. -/
theorem splitLines_dedentLines (columns : Nat) (keep : Nat → Bool) (text : List Char) :
    splitLines (dedentLines columns keep text) = (splitLines text).mapIdx fun i line =>
      if i = 0 || keep i then line
      else line.drop (min columns (line.takeWhile isIndent).length) := by
  simp only [dedentLines, stripIndent_eq]
  apply splitLines_joinLines
  · simp [splitLines_ne_nil]
  · intro line hline
    obtain ⟨i, hi, rfl⟩ := List.mem_mapIdx.mp hline
    have hraw := not_mem_splitLines text _ (List.getElem_mem hi)
    split
    · exact hraw
    · intro hmem
      exact hraw (List.mem_of_mem_drop hmem)

theorem lineFeeds_dedentLines (columns : Nat) (keep : Nat → Bool) (text : List Char) :
    lineFeeds (dedentLines columns keep text) = lineFeeds text := by
  have h := congrArg List.length (splitLines_dedentLines columns keep text)
  rw [List.length_mapIdx, length_splitLines, length_splitLines] at h
  omega

end Fragment

end EmberClasses
