import EmberClasses.Proofs.ClassLines
import EmberClasses.Proofs.TemplateLines

/-! Moving the lines of a text. Code is moved to the left when it is cut out and to the right when
it is printed; both are done by reading the text once, with a state that is set anew at each line
feed. So a part of the text that starts with a character other than a blank comes out as it would
alone, whatever stands around it. -/

namespace EmberClasses

open Text

/-- A way to write a text anew. The state at the start of a line depends on whether the line is
verbatim; a character is written according to the state. -/
structure LineRule (σ : Type) where
  start : Bool → σ
  step : σ → Char → List Char × σ

namespace LineRule

variable {σ : Type}

/-- What is written for a text whose line feeds have these marks. -/
def write (r : LineRule σ) : σ → List Bool → List Char → List Char
  | _, _, [] => []
  | s, ms, c :: cs =>
    if c = '\n' then '\n' :: r.write (r.start (ms.headD false)) ms.tail cs
    else (r.step s c).1 ++ r.write (r.step s c).2 ms cs

variable {r : LineRule σ}

theorem write_append (s : σ) {ms : List Bool} (ns : List Bool) {a : List Char} (b : List Char)
    (h : ms.length = lineFeeds a) :
    ∃ t, r.write s (ms ++ ns) (a ++ b) = r.write s ms a ++ r.write t ns b := by
  induction a generalizing s ms with
  | nil =>
    have hms : ms = [] := List.eq_nil_of_length_eq_zero h
    exact ⟨s, by simp [hms, write]⟩
  | cons c a ih =>
    by_cases hc : c = '\n'
    · subst hc
      cases ms with
      | nil => simp [lineFeeds] at h
      | cons m ms =>
        have hrest : ms.length = lineFeeds a := by simpa [lineFeeds] using h
        obtain ⟨t, ht⟩ := ih (r.start m) hrest
        exact ⟨t, by simp [write, ht]⟩
    · have hrest : ms.length = lineFeeds a := by simpa [lineFeeds, hc] using h
      obtain ⟨t, ht⟩ := ih (r.step s c).2 hrest
      exact ⟨t, by simp [write, hc, ht]⟩

theorem write_eq_lines (s : σ) {ms : List Bool} {text first : List Char}
    {rest : List (List Char)} (hsplit : splitLines text = first :: rest)
    (hlen : ms.length = rest.length) :
    r.write s ms text = r.write s [] first ++
      (ms.zip rest).flatMap fun line => '\n' :: r.write (r.start line.1) [] line.2 := by
  induction text generalizing s ms first rest with
  | nil =>
    cases hsplit
    simp [write]
  | cons c text ih =>
    by_cases hc : c = '\n'
    · rw [splitLines, if_pos hc] at hsplit
      cases hsplit
      cases hlines : splitLines text with
      | nil => exact absurd hlines (splitLines_ne_nil text)
      | cons next lines =>
        rw [hlines] at hlen
        cases ms with
        | nil => cases hlen
        | cons m ms =>
          have hrest := ih (r.start m) hlines (by simpa using hlen)
          simp [write, hc, hrest]
    · obtain ⟨line, lines, htext, hcons⟩ := splitLines_cons_of_ne hc text
      rw [hcons] at hsplit
      cases hsplit
      simp [write, hc, ih _ htext hlen]

theorem write_unmarked (s : σ) {text first : List Char} {rest : List (List Char)}
    (hsplit : splitLines text = first :: rest) :
    r.write s (Fragment.unmarked text) text = r.write s [] first ++
      rest.flatMap fun line => '\n' :: r.write (r.start false) [] line := by
  have hcount : lineFeeds text = rest.length := by
    have hlength := length_splitLines text
    rw [hsplit, List.length_cons] at hlength
    omega
  have hzip (l : List (List Char)) : (List.replicate l.length false).zip l = l.map (false, ·) := by
    induction l with
    | nil => rfl
    | cons line l ih => simp [List.replicate_succ, ih]
  rw [write_eq_lines s hsplit (by simp [hcount]), Fragment.unmarked, hcount, hzip,
    List.flatMap_map]

/-- In every state the character is written as it stands, behind something at most, and the state
is `s` then. -/
def Settles (r : LineRule σ) (c : Char) (s : σ) : Prop := ∀ t, ∃ x, r.step t c = (x ++ [c], s)

def Single (r : LineRule σ) : Prop := ∀ s c, c ≠ '\n' → '\n' ∉ (r.step s c).1

theorem lineFeeds_write (hr : r.Single) (s : σ) (ms : List Bool) (text : List Char) :
    lineFeeds (r.write s ms text) = lineFeeds text := by
  induction text generalizing s ms with
  | nil => rfl
  | cons c text ih =>
    by_cases hc : c = '\n'
    · have hnext := ih (r.start (ms.headD false)) ms.tail
      simp only [write, hc, if_true, lineFeeds, List.count_cons_self] at hnext ⊢
      rw [hnext]
    · have hnext := ih (r.step s c).2 ms
      have hstep : lineFeeds (r.step s c).1 = 0 := List.count_eq_zero.mpr (hr s c hc)
      rw [write, if_neg hc, lineFeeds_append, hstep, hnext, Nat.zero_add]
      simp [lineFeeds, hc]

/-- A part that starts with a character which settles the state is written on its own. -/
theorem write_part {c : Char} {t : σ} (hc : r.Settles c t) (hne : c ≠ '\n') (s : σ)
    {ms ns : List Bool} (ls : List Bool) {a part : List Char} (b : List Char)
    (hms : ms.length = lineFeeds a) (hns : ns.length = lineFeeds (c :: part)) :
    ∃ x y, r.write s (ms ++ (ns ++ ls)) (a ++ ((c :: part) ++ b)) =
        x ++ ((c :: r.write t ns part) ++ y) ∧ (r.Single → lineFeeds x = lineFeeds a) := by
  have hpart : ns.length = lineFeeds part := by simpa [lineFeeds, hne] using hns
  obtain ⟨u, hu⟩ := r.write_append s (ns ++ ls) ((c :: part) ++ b) hms
  obtain ⟨v, hv⟩ := r.write_append t ls b hpart
  obtain ⟨x, hx⟩ := hc u
  refine ⟨r.write s ms a ++ x, r.write v ls b, ?_, fun hr => ?_⟩
  · rw [hu, List.cons_append, write, if_neg hne, hx, hv]
    simp
  · have hfeed : lineFeeds x = 0 := by
      have hstep := hr u c hne
      rw [hx] at hstep
      exact List.count_eq_zero.mpr fun hmem => hstep (List.mem_append_left _ hmem)
    rw [lineFeeds_append, lineFeeds_write hr, hfeed, Nat.add_zero]

end LineRule

/-- Takes up to `columns` blanks and tabs from the start of a line that is not verbatim. The state
is the number of those that may still be taken. -/
def dedenting (columns : Nat) : LineRule Nat where
  start verbatim := if verbatim then 0 else columns
  step n c := if 0 < n ∧ isIndent c then ([], n - 1) else ([c], 0)

/-- Puts `pad` in front of a line that is neither verbatim nor empty. The state tells whether this
is still to be done. -/
def padding (pad : List Char) : LineRule Bool where
  start verbatim := !verbatim
  step waiting c := if waiting then (pad ++ [c], false) else ([c], false)

section Rules

variable {columns : Nat} {pad : List Char}

theorem dedenting_single : (dedenting columns).Single := by
  intro n c hc
  unfold dedenting
  dsimp only
  split
  · simp
  · simpa using Ne.symm hc

theorem dedenting_settles {c : Char} (hc : isIndent c = false) :
    (dedenting columns).Settles c 0 := by
  intro n
  exact ⟨[], by simp [dedenting, hc]⟩

theorem padding_settles (c : Char) : (padding pad).Settles c false := by
  intro waiting
  cases waiting with
  | false => exact ⟨[], rfl⟩
  | true => exact ⟨pad, rfl⟩

theorem write_dedenting_line (n : Nat) {line : List Char} (h : '\n' ∉ line) :
    (dedenting columns).write n [] line = Fragment.stripIndent n line := by
  induction line generalizing n with
  | nil => cases n <;> rfl
  | cons c line ih =>
    rw [List.mem_cons, not_or] at h
    rw [LineRule.write, if_neg (Ne.symm h.1)]
    have hzero : (dedenting columns).write 0 [] line = line := by
      rw [ih 0 h.2]
      cases line <;> rfl
    cases n with
    | zero => simp [dedenting, Fragment.stripIndent] at hzero ⊢; exact hzero
    | succ n =>
      by_cases hc : isIndent c
      · simpa [dedenting, Fragment.stripIndent, hc] using ih n h.2
      · simp [dedenting, Fragment.stripIndent, hc] at hzero ⊢; exact hzero

theorem write_padding_line (waiting : Bool) {line : List Char} (h : '\n' ∉ line) :
    (padding pad).write waiting [] line =
      if waiting = true ∧ line ≠ [] then pad ++ line else line := by
  induction line generalizing waiting with
  | nil => simp [LineRule.write]
  | cons c line ih =>
    rw [List.mem_cons, not_or] at h
    have hrest : (padding pad).write false [] line = line := by simpa using ih false h.2
    rw [LineRule.write, if_neg (Ne.symm h.1)]
    cases waiting with
    | false => simpa [padding] using hrest
    | true => simpa [padding] using hrest

end Rules

namespace Text

theorem copiedFrom_append (n : Nat) (a b : List Char) :
    copiedFrom n (a ++ b) = copiedFrom n a ++ copiedFrom (n + byteLength a) b := by
  induction a generalizing n with
  | nil => simp [copiedFrom]
  | cons c a ih => simp [copiedFrom, ih, Nat.add_assoc]

end Text

/-- A part of the text that no edit touches is copied, and its characters know where they stood. -/
theorem Edit.Traces.copied_part {n : Nat} {text : List Char} {es : List Edit} {out : List Traced}
    (h : Traces n text es out) {pre mid post : List Char} (htext : text = pre ++ (mid ++ post))
    (hap : ∀ e ∈ es, (⟨n + byteLength pre, n + byteLength pre + byteLength mid⟩ : Span).Apart
      e.span) : ∃ x y, out = x ++ (copiedFrom (n + byteLength pre) mid ++ y) := by
  induction h generalizing pre with
  | done n text => exact ⟨copiedFrom n pre, _, by rw [htext, copiedFrom_append, copiedFrom_append]⟩
  | @edit n gap old rest out e es hgap hold _ ih =>
    rcases hap e List.mem_cons_self with hbefore | hafter
    · have hle : byteLength (pre ++ mid) ≤ byteLength gap := by
        rw [byteLength_append]; simp only [Span.Before] at hbefore; omega
      obtain ⟨d, hd⟩ := prefix_of_byteLength_le (y := old ++ rest)
        (by rw [htext]; simp : (pre ++ mid) ++ post = gap ++ (old ++ rest)) hle
      refine ⟨copiedFrom n pre,
        copiedFrom (n + byteLength (pre ++ mid)) d ++ (generated e.text ++ out), ?_⟩
      rw [← hd, copiedFrom_append, copiedFrom_append]
      simp only [List.append_assoc]
    · have hle : byteLength (gap ++ old) ≤ byteLength pre := by
        rw [byteLength_append]; simp only [Span.Before] at hafter; omega
      obtain ⟨d, hd⟩ := prefix_of_byteLength_le (x := rest) (y := mid ++ post)
        (by rw [← htext]; simp) hle
      have hlen : n + byteLength pre = e.span.stop + byteLength d := by
        rw [← hd, byteLength_append, byteLength_append]; omega
      have hrest : rest = d ++ (mid ++ post) := by
        rw [← hd] at htext
        simpa using htext
      obtain ⟨x, y, hout⟩ := ih hrest fun f hf => by
        rw [← hlen]; exact hap f (List.mem_cons_of_mem e hf)
      refine ⟨copiedFrom n gap ++ (generated e.text ++ x), y, ?_⟩
      rw [hout, hlen]
      simp only [List.append_assoc]

namespace Fragment

theorem dedentLines_eq_write (columns : Nat) {keep : Nat → Bool} {ms : List Bool}
    {text : List Char} (hlen : ms.length = lineFeeds text)
    (hkeep : ∀ i, keep (i + 1) = (ms[i]? == some true)) :
    dedentLines columns keep text = (dedenting columns).write 0 ms text := by
  cases hsplit : splitLines text with
  | nil => exact absurd hsplit (splitLines_ne_nil text)
  | cons first rest =>
    have hrest : ms.length = rest.length := by
      have hcount := length_splitLines text
      rw [hsplit, List.length_cons] at hcount
      omega
    have hfeed : ∀ line ∈ first :: rest, '\n' ∉ line := hsplit ▸ not_mem_splitLines text
    have hlines : (rest.mapIdx fun i line =>
        if decide (i + 1 = 0) || keep (i + 1) then line else stripIndent columns line) =
        (ms.zip rest).map fun l =>
          (dedenting columns).write ((dedenting columns).start l.1) [] l.2 := by
      apply List.ext_getElem
      · simp [hrest]
      · intro i hi _
        have hms : i < ms.length := by simpa [hrest] using hi
        have hline := hfeed _ (List.mem_cons_of_mem first (List.getElem_mem (hrest ▸ hms)))
        have hmark : keep (i + 1) = ms[i] := by
          rw [hkeep, List.getElem?_eq_getElem hms]
          cases ms[i] <;> rfl
        rw [List.getElem_mapIdx, List.getElem_map, List.getElem_zip, write_dedenting_line _ hline,
          hmark]
        cases ms[i] with
        | false => rfl
        | true => simp [dedenting, stripIndent]
    rw [LineRule.write_eq_lines 0 hsplit hrest,
      write_dedenting_line 0 (hfeed first List.mem_cons_self)]
    unfold dedentLines
    rw [hsplit, List.mapIdx_cons, joinLines_cons, hlines, List.flatMap_map]
    simp [stripIndent]

theorem dedentTail_eq_write (columns : Nat) (text : List Char) :
    dedentTail columns text = (dedenting columns).write 0 (unmarked text) text :=
  dedentLines_eq_write columns (length_unmarked text) fun i => by
    simp [unmarked, List.getElem?_replicate]

theorem dedentTail_cons (columns : Nat) {c : Char} (hc : c ≠ '\n') (rest : List Char) :
    dedentTail columns (c :: rest) =
      c :: (dedenting columns).write 0 (unmarked (c :: rest)) rest := by
  rw [dedentTail_eq_write, LineRule.write, if_neg hc]
  simp [dedenting]

theorem marks_copiedFrom_of_apart {quasis : List Span} {offset : Nat} {cs : List Char}
    (h : ∀ q ∈ quasis, (⟨offset, offset + byteLength cs⟩ : Span).Apart q) :
    marks quasis (copiedFrom offset cs) = unmarked cs := by
  induction cs generalizing offset with
  | nil => rfl
  | cons c cs ih =>
    have hsize : 0 < c.utf8Size := c.utf8Size_pos
    have hrest : marks quasis (copiedFrom (offset + c.utf8Size) cs) = unmarked cs := by
      refine ih fun q hq => (h q hq).mono ⟨Nat.le_add_right _ _, ?_⟩
      rw [byteLength_cons, Nat.add_assoc]
    have hout : ¬ InQuasi quasis offset := by
      rintro ⟨q, hq, hstart, hstop⟩
      have hap := h q hq
      simp only [Span.Apart, Span.Before, byteLength_cons] at hap
      omega
    rw [marks_copiedFrom_cons, hrest, decide_eq_false hout]
    by_cases hc : c = '\n'
    · simp [hc, unmarked, lineFeeds, List.replicate_succ]
    · simp [hc, unmarked, lineFeeds]

end Fragment

end EmberClasses
