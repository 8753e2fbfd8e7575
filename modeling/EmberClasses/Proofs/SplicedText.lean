import EmberClasses.Proofs.Edits
import EmberClasses.Text.Fragment

/-! The text that edits leave, read off the source character by character. A character stays unless
an edit covers it, and the text of an edit stands where its span starts. Nothing in this depends on
the order of the edits, except that insertions at one place keep theirs. -/

namespace EmberClasses

theorem Span.eq_of_ends {a b : Span} (hstart : a.start = b.start) (hstop : a.stop = b.stop) :
    a = b := by
  cases a
  cases b
  cases hstart
  cases hstop
  rfl

namespace Edit

/-- What edits put in at byte offset `n`: insertions first, then what takes the place of code. -/
def textAt (edits : List Edit) (n : Nat) : List Char :=
  (edits.filter fun e => e.span = .point n).flatMap text ++
    (edits.filter fun e => e.span.start = n ∧ n < e.span.stop).flatMap text

/-- Whether an edit takes the character at byte offset `n` away. -/
def covers (edits : List Edit) (n : Nat) : Bool :=
  edits.any fun e => e.span.start ≤ n ∧ n < e.span.stop

/-- A text, the first byte of which has the offset `n`, with the span of every edit replaced. -/
def spliced (edits : List Edit) : Nat → List Char → List Char
  | n, [] => textAt edits n
  | n, c :: cs =>
    textAt edits n ++ (if covers edits n then [] else [c]) ++ spliced edits (n + c.utf8Size) cs

theorem textAt_eq_nil {edits : List Edit} {n : Nat} (h : ∀ e ∈ edits, e.span.start ≠ n) :
    textAt edits n = [] := by
  have hpoint : (edits.filter fun e => e.span = .point n) = [] := by
    apply List.filter_eq_nil_iff.mpr
    intro e he heq
    exact h e he (by simpa [Span.point] using congrArg Span.start (of_decide_eq_true heq))
  have hstart : (edits.filter fun e => e.span.start = n ∧ n < e.span.stop) = [] := by
    apply List.filter_eq_nil_iff.mpr
    intro e he heq
    exact h e he (of_decide_eq_true heq).1
  rw [textAt, hpoint, hstart]
  rfl

theorem covers_eq_false {edits : List Edit} {n : Nat} (h : ∀ e ∈ edits, n < e.span.start) :
    covers edits n = false := by
  apply List.any_eq_false.mpr
  intro e he
  have := h e he
  simp only [decide_eq_true_eq]
  omega

theorem covers_of_mem {edits : List Edit} {e : Edit} {n : Nat} (he : e ∈ edits)
    (hstart : e.span.start ≤ n) (hstop : n < e.span.stop) : covers edits n = true :=
  List.any_eq_true.mpr ⟨e, he, decide_eq_true ⟨hstart, hstop⟩⟩

theorem textAt_cons_insertion {e : Edit} {n : Nat} (h : e.span = .point n) (es : List Edit) :
    textAt (e :: es) n = e.text ++ textAt es n := by
  simp [textAt, h, Span.point]

theorem textAt_cons_replacement {e : Edit} {n : Nat} {es : List Edit} (hstart : e.span.start = n)
    (hstop : n < e.span.stop) (h : ∀ f ∈ es, f.span.start ≠ n) : textAt (e :: es) n = e.text := by
  have hpoint : e.span ≠ .point n := by
    intro heq
    rw [heq] at hstop
    exact Nat.lt_irrefl n hstop
  have hnil := textAt_eq_nil h
  rw [textAt, List.append_eq_nil_iff] at hnil
  rw [textAt, List.filter_cons_of_neg (by simpa using hpoint), hnil.1,
    List.filter_cons_of_pos (by simp [hstart, hstop]), List.flatMap_cons, hnil.2]
  simp

theorem textAt_cons_of_ne {e : Edit} {n : Nat} (h : e.span.start ≠ n) (es : List Edit) :
    textAt (e :: es) n = textAt es n := by
  have hpoint : e.span ≠ .point n := by
    intro heq
    exact h (congrArg Span.start heq)
  simp [textAt, hpoint, h]

/-- Behind an edit, the text depends on the others only. -/
theorem spliced_cons_behind {e : Edit} {n : Nat} (hstart : e.span.start < n)
    (hstop : e.span.stop ≤ n) (es : List Edit) (cs : List Char) :
    spliced (e :: es) n cs = spliced es n cs := by
  induction cs generalizing n with
  | nil => exact textAt_cons_of_ne (Nat.ne_of_lt hstart) es
  | cons c cs ih =>
    have hcovers : covers (e :: es) n = covers es n := by
      simp only [covers, List.any_cons]
      rw [decide_eq_false (by omega), Bool.false_or]
    rw [spliced, spliced, textAt_cons_of_ne (Nat.ne_of_lt hstart), hcovers,
      ih (by omega) (by omega)]

theorem spliced_cons_insertion {e : Edit} {n : Nat} (h : e.span = .point n) (es : List Edit)
    (cs : List Char) : spliced (e :: es) n cs = e.text ++ spliced es n cs := by
  cases cs with
  | nil => exact textAt_cons_insertion h es
  | cons c cs =>
    have hcovers : covers (e :: es) n = covers es n := by
      simp [covers, h, Span.point]
    have hpos := c.utf8Size_pos
    have hstart : e.span.start < n + c.utf8Size := by
      simp only [h, Span.point]
      omega
    have hstop : e.span.stop ≤ n + c.utf8Size := by
      simp only [h, Span.point]
      omega
    rw [spliced, spliced, textAt_cons_insertion h, hcovers, spliced_cons_behind hstart hstop]
    simp only [List.append_assoc]

theorem spliced_before {es : List Edit} {n : Nat} {gap : List Char}
    (h : ∀ e ∈ es, n + Text.byteLength gap ≤ e.span.start) (cs : List Char) :
    spliced es n (gap ++ cs) = gap ++ spliced es (n + Text.byteLength gap) cs := by
  induction gap generalizing n with
  | nil => simp
  | cons c gap ih =>
    have hpos := c.utf8Size_pos
    rw [Text.byteLength_cons] at h ⊢
    have hafter : ∀ e ∈ es, n < e.span.start := by
      intro e he
      have := h e he
      omega
    rw [List.cons_append, spliced, textAt_eq_nil fun e he => (hafter e he).ne',
      covers_eq_false hafter, ih (by simpa [Nat.add_assoc] using h), Nat.add_assoc]
    simp

theorem spliced_within {e : Edit} {es : List Edit} {n : Nat} {old : List Char}
    (hstart : e.span.start < n) (hstop : n + Text.byteLength old = e.span.stop)
    (h : ∀ f ∈ es, e.span.stop ≤ f.span.start) (cs : List Char) :
    spliced (e :: es) n (old ++ cs) = spliced es e.span.stop cs := by
  induction old generalizing n with
  | nil =>
    rw [Text.byteLength_nil, Nat.add_zero] at hstop
    rw [List.nil_append, hstop]
    exact spliced_cons_behind (by omega) le_rfl es cs
  | cons c old ih =>
    have hpos := c.utf8Size_pos
    rw [Text.byteLength_cons] at hstop
    have hnil : textAt es n = [] := by
      apply textAt_eq_nil
      intro f hf
      have := h f hf
      omega
    rw [List.cons_append, spliced, textAt_cons_of_ne hstart.ne, hnil,
      covers_of_mem List.mem_cons_self hstart.le (by omega), ih (by omega) (by omega)]
    rfl

theorem Splices.le_start {n : Nat} {text out : List Char} {es : List Edit}
    (h : Splices n text es out) : ∀ e ∈ es, n ≤ e.span.start := by
  induction h with
  | done => simp
  | @edit n gap old rest out e es hgap hold _ ih =>
    intro f hf
    rcases List.mem_cons.mp hf with rfl | hf
    · omega
    · have := ih f hf
      omega

/-- Edits applied one after the other leave the spliced text. -/
theorem Splices.eq_spliced {n : Nat} {text out : List Char} {es : List Edit}
    (h : Splices n text es out) : out = spliced es n text := by
  induction h with
  | done n text =>
    have hall : spliced [] n (text ++ []) = text ++ spliced [] (n + Text.byteLength text) [] :=
      spliced_before (by simp) []
    rw [List.append_nil] at hall
    simp [hall, spliced, textAt]
  | @edit n gap old rest out e es hgap hold hrest ih =>
    have hbehind := hrest.le_start
    have hfrom : ∀ f ∈ e :: es, n + Text.byteLength gap ≤ f.span.start := by
      intro f hf
      rcases List.mem_cons.mp hf with rfl | hf
      · exact hgap.le
      · have := hbehind f hf
        omega
    rw [spliced_before hfrom, hgap, ih]
    congr 1
    cases old with
    | nil =>
      have hpoint : e.span = .point e.span.start := by
        rw [Text.byteLength_nil, Nat.add_zero] at hold
        rw [Span.point, Span.mk.injEq]
        exact ⟨rfl, hold.symm⟩
      rw [List.nil_append, spliced_cons_insertion hpoint]
      rw [Text.byteLength_nil, Nat.add_zero] at hold
      rw [hold]
    | cons c old =>
      have hpos := c.utf8Size_pos
      rw [Text.byteLength_cons] at hold
      have hne : ∀ f ∈ es, f.span.start ≠ e.span.start := by
        intro f hf
        have := hbehind f hf
        omega
      rw [List.cons_append, spliced, textAt_cons_replacement rfl (by omega) hne,
        covers_of_mem List.mem_cons_self le_rfl (by omega),
        spliced_within (by omega) (by omega) hbehind]
      simp

/-- Of two edits that are apart, only one can take the place of the code at an offset. -/
private theorem replacement_unique {edits : List Edit}
    (h : edits.Pairwise fun a b => a.span.Apart b.span) (n : Nat) :
    (edits.filter fun e => e.span.start = n ∧ n < e.span.stop).Pairwise fun _ _ => False := by
  refine (h.filter _).imp_of_mem fun {a b} ha hb hab => ?_
  have ha := of_decide_eq_true (List.mem_filter.mp ha).2
  have hb := of_decide_eq_true (List.mem_filter.mp hb).2
  rcases hab with hab | hab <;> unfold Span.Before at hab <;> omega

private theorem eq_of_perm_of_unique {l l' : List Edit} (hperm : l.Perm l')
    (h : l.Pairwise fun _ _ => False) : l = l' :=
  hperm.eq_of_pairwise (fun _ _ _ _ hab _ => hab.elim) h ((hperm.pairwise_iff id).mp h)

private theorem spliced_congr {es es' : List Edit} (htext : ∀ n, textAt es n = textAt es' n)
    (hcovers : ∀ n, covers es n = covers es' n) (n : Nat) (cs : List Char) :
    spliced es n cs = spliced es' n cs := by
  induction cs generalizing n with
  | nil => exact htext n
  | cons c cs ih => rw [spliced, spliced, htext, hcovers, ih]

theorem spliced_sorted {edits : List Edit} (h : edits.Pairwise fun a b => a.span.Apart b.span)
    (n : Nat) (cs : List Char) : spliced (sorted edits) n cs = spliced edits n cs := by
  have hperm := sorted_perm edits
  apply spliced_congr
  · intro m
    have hpoint : (sorted edits).filter (fun e => e.span = .point m) =
        edits.filter fun e => e.span = .point m := by
      apply filter_sorted
      intro a b ha hb
      rw [le_iff, of_decide_eq_true ha, of_decide_eq_true hb]
      exact .inr ⟨rfl, le_rfl⟩
    rw [textAt, textAt, hpoint,
      eq_of_perm_of_unique (hperm.symm.filter _) (replacement_unique h m)]
  · intro m
    exact hperm.any_eq

theorem eq_spliced_of_apply {source out : List Char} {edits : List Edit}
    (hedits : ∀ e ∈ edits, e.span.start ≤ e.span.stop ∧ e.span.OnBoundaries source)
    (h : apply source edits = .ok out) : out = spliced edits 0 source := by
  have hap := apart_of_apply (fun e he => (hedits e he).1) h
  rw [(splices_of_apply hedits h).eq_spliced, spliced_sorted hap]

/-- Edits of different spans can be listed in any order. -/
theorem spliced_perm {es es' : List Edit} (hperm : es.Perm es')
    (hap : es.Pairwise fun a b => a.span.Apart b.span)
    (hne : es.Pairwise fun a b => a.span ≠ b.span) (n : Nat) (cs : List Char) :
    spliced es n cs = spliced es' n cs := by
  have hpoint (m : Nat) : (es.filter fun e => e.span = .point m).Pairwise fun _ _ => False := by
    refine (hne.filter _).imp_of_mem fun {a b} ha hb hab => ?_
    exact hab ((of_decide_eq_true (List.mem_filter.mp ha).2).trans
      (of_decide_eq_true (List.mem_filter.mp hb).2).symm)
  apply spliced_congr
  · intro m
    rw [textAt, textAt, eq_of_perm_of_unique (hperm.filter _) (hpoint m),
      eq_of_perm_of_unique (hperm.filter _) (replacement_unique hap m)]
  · intro m
    exact hperm.any_eq

/-- Edits of different spans are applied in one order, whatever order they are listed in. -/
theorem sorted_eq_sorted {es es' : List Edit} (hperm : es'.Perm es)
    (hne : es.Pairwise fun a b => a.span ≠ b.span) : sorted es' = sorted es := by
  apply sorted_eq_of_perm (sorted es) (hperm.trans (sorted_perm es).symm)
  have hne' : (sorted es).Pairwise fun a b => a.span ≠ b.span :=
    ((sorted_perm es).pairwise_iff Ne.symm).mpr hne
  refine (hne'.and (sorted_pairwise es)).imp fun {a b} hab => ⟨hab.2, ?_⟩
  rw [Bool.eq_false_iff]
  intro hba
  obtain ⟨hab, hle⟩ := hab
  rw [le_iff] at hle hba
  exact hab (Span.eq_of_ends (by omega) (by omega))

theorem pieces_perm (source : List Char) (span : Span) {es es' : List Edit} (hperm : es'.Perm es)
    (hne : es.Pairwise fun a b => a.span ≠ b.span) :
    pieces source span es' = pieces source span es := by
  rw [pieces, pieces, sorted_eq_sorted hperm hne]

/-- The pieces that edits leave make up the spliced text. -/
theorem text_pieces {source : List Char} {span : Span} {edits : List Edit} {ps : List Piece}
    (hspan : span.start ≤ span.stop) (hstart : Text.IsBoundary source span.start)
    (hedits : ∀ e ∈ edits, e.span.start ≤ e.span.stop ∧ e.span.OnBoundaries source)
    (h : pieces source span edits = .ok ps) :
    Piece.text ps = spliced edits span.start (Text.slice source span) := by
  have hap := ((pieces_ok_iff source span fun e he => (hedits e he).1).mp ⟨ps, h⟩).2
  have hsplices := splices_of_weave hstart hspan
    (fun e he => hedits e ((sorted_perm edits).mem_iff.mp he)) h
  rw [hsplices.eq_spliced, spliced_sorted hap]

end Edit

namespace Fragment

theorem stripIndent_zero (line : List Char) : stripIndent 0 line = line := by
  cases line <;> rfl

theorem dedentLines_zero (keep : Nat → Bool) (text : List Char) :
    dedentLines 0 keep text = text := by
  have hlines : ((Text.splitLines text).mapIdx fun i line =>
      if i = 0 || keep i then line else stripIndent 0 line) = Text.splitLines text := by
    apply List.ext_getElem
    · simp
    · simp [stripIndent_zero]
  rw [dedentLines, hlines, Text.joinLines_splitLines]

theorem cut_eq_ok {source : List Char} {span : Span} {edits : List Edit} {quasis : List Span}
    {columns : Nat} {f : Fragment} : cut source span edits quasis columns = .ok f ↔
      ∃ ps, Edit.pieces source span edits = .ok ps ∧
        f = ⟨dedentLines columns (listed (verbatimLines quasis 0 ps)) (Piece.text ps),
          verbatimLines quasis 0 ps⟩ := by
  unfold cut
  cases Edit.pieces source span edits with
  | error bad => simp
  | ok ps => simp [eq_comm]

theorem applyIn_eq_cut (source : List Char) (span : Span) (edits : List Edit) :
    Edit.applyIn source span edits = (cut source span edits [] 0).map text := by
  unfold Edit.applyIn cut
  cases Edit.pieces source span edits with
  | error bad => rfl
  | ok ps => simp [Except.map, dedentLines_zero]

/-- What is cut is the spliced text, moved to the left. -/
theorem text_of_cut {source : List Char} {span : Span} {edits : List Edit} {quasis : List Span}
    {columns : Nat} {f : Fragment} (hspan : span.start ≤ span.stop)
    (hstart : Text.IsBoundary source span.start)
    (hedits : ∀ e ∈ edits, e.span.start ≤ e.span.stop ∧ e.span.OnBoundaries source)
    (h : cut source span edits quasis columns = .ok f) :
    f.text = dedentLines columns f.isVerbatim
      (Edit.spliced edits span.start (Text.slice source span)) := by
  obtain ⟨ps, hps, rfl⟩ := cut_eq_ok.mp h
  rw [← Edit.text_pieces hspan hstart hedits hps]
  rfl

/-- Edits are applied exactly if they lie in the span and do not overlap. Then the text of the span
has all of their texts in place of their spans and is otherwise as it was, before its lines are
moved to the left. If no two of them have the same span, their order does not matter. -/
theorem applied_iff_apart (source : List Char) (span : Span) (edits : List Edit)
    (hspan : span.start ≤ span.stop) (hsource : span.OnBoundaries source)
    (hedits : ∀ e ∈ edits, e.span.start ≤ e.span.stop ∧ e.span.OnBoundaries source)
    (quasis : List Span) (columns : Nat) :
    let fits := (∀ e ∈ edits, e.span.Inside span) ∧
      edits.Pairwise fun a b => a.span.Apart b.span
    let result := Edit.spliced edits span.start (Text.slice source span)
    ((∃ f, cut source span edits quasis columns = .ok f) ↔ fits) ∧
      (∀ f, cut source span edits quasis columns = .ok f →
        f.text = dedentLines columns f.isVerbatim result ∧ (columns = 0 → f.text = result)) ∧
      (∀ out, Edit.applyIn source span edits = .ok out ↔ fits ∧ out = result) ∧
      ((edits.Pairwise fun a b => a.span ≠ b.span) → ∀ edits', edits'.Perm edits →
        cut source span edits' quasis columns = cut source span edits quasis columns ∧
        Edit.applyIn source span edits' = Edit.applyIn source span edits) := by
  intro fits result
  have hok (qs : List Span) (n : Nat) : (∃ f, cut source span edits qs n = .ok f) ↔ fits := by
    rw [show fits ↔ ∃ ps, Edit.pieces source span edits = .ok ps from
      (Edit.pieces_ok_iff source span fun e he => (hedits e he).1).symm]
    constructor
    · rintro ⟨f, hf⟩
      obtain ⟨ps, hps, -⟩ := cut_eq_ok.mp hf
      exact ⟨ps, hps⟩
    · rintro ⟨ps, hps⟩
      exact ⟨_, cut_eq_ok.mpr ⟨ps, hps, rfl⟩⟩
  have hzero {qs : List Span} {f : Fragment} (hf : cut source span edits qs 0 = .ok f) :
      f.text = result := by
    rw [text_of_cut hspan hsource.1 hedits hf, dedentLines_zero]
  refine ⟨hok quasis columns, fun f hf => ⟨text_of_cut hspan hsource.1 hedits hf, ?_⟩,
    fun out => ?_, fun hne edits' hperm => ?_⟩
  · rintro rfl
    exact hzero hf
  · rw [applyIn_eq_cut, ← hok [] 0]
    cases hcut : cut source span edits [] 0 with
    | error bad => simp [Except.map]
    | ok f => simp [Except.map, hzero hcut, eq_comm]
  · have hpieces := Edit.pieces_perm source span hperm hne
    exact ⟨by rw [cut, cut, hpieces], by rw [Edit.applyIn, Edit.applyIn, hpieces]⟩

/-- Two insertions at the ends of a replacement, and an edit further on, in either order. -/
theorem applied_in_either_order :
    let source := "const a = 1; const b = 2;".toList
    let edits : List Edit := [⟨⟨19, 20⟩, "c".toList⟩, .insert 7 "\n".toList, ⟨⟨6, 7⟩, "y".toList⟩,
      .insert 6 "x".toList]
    (Text.whole source).OnBoundaries source ∧
      (∀ e ∈ edits, e.span.start ≤ e.span.stop ∧ e.span.OnBoundaries source) ∧
      (edits.Pairwise fun a b => a.span ≠ b.span) ∧
      Edit.applyIn source (Text.whole source) edits = .ok "const xy\n = 1; const c = 2;".toList ∧
      Edit.applyIn source (Text.whole source) edits.reverse =
        .ok "const xy\n = 1; const c = 2;".toList := by
  intro source edits
  have hsource : (Text.whole source).OnBoundaries source := by decide
  have hedits : ∀ e ∈ edits, e.span.start ≤ e.span.stop ∧ e.span.OnBoundaries source := by decide
  have hne : edits.Pairwise fun a b => a.span ≠ b.span := by decide
  obtain ⟨-, -, happly, horder⟩ := applied_iff_apart source (Text.whole source) edits (by decide)
    hsource hedits [] 0
  have hout := (happly "const xy\n = 1; const c = 2;".toList).mpr (by decide)
  refine ⟨hsource, hedits, hne, hout, ?_⟩
  rw [(horder hne edits.reverse (List.reverse_perm edits)).2, hout]

end Fragment

end EmberClasses
