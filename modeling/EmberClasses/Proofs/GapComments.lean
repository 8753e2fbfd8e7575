import EmberClasses.Proofs.ClassOpening
import EmberClasses.Proofs.Reindentation
import EmberClasses.Text.Comment
import Mathlib.Data.List.TakeWhile

/-! The comments in a gap between two pieces of code. A gap is made of parts: white space, commas
and comments, each of which is written in one way only. The reader finds all comments in them, but
takes the slash behind an opening `/*` for the end of the comment. -/

namespace EmberClasses.Comment

open Text

inductive Part where
  | filler (c : Char)
  /-- What stands behind the two slashes. -/
  | line (body : List Char)
  /-- What stands between the opening and the end. -/
  | block (body : List Char)
  deriving DecidableEq

namespace Part

def text : Part → List Char
  | filler c => [c]
  | line body => '/' :: '/' :: body
  | block body => '/' :: '*' :: (body ++ ['*', '/'])

/-- A line comment stays in its line, and a block comment ends where it is ended first. -/
def Proper : Part → Prop
  | filler c => isBlank c ∨ c = ','
  | line body => '\n' ∉ body
  | block body => ¬ ['*', '/'] <:+: body

instance : (p : Part) → Decidable p.Proper
  | filler c => inferInstanceAs (Decidable (isBlank c ∨ c = ','))
  | line body => inferInstanceAs (Decidable ('\n' ∉ body))
  | block body => inferInstanceAs (Decidable (¬ ['*', '/'] <:+: body))

def EndsBefore : Part → List Char → Prop
  | line _, rest => rest = [] ∨ rest.head? = some '\n'
  | _, _ => True

/-- How a comment is printed that starts at a byte offset of the source. -/
def comment? (source : List Char) (offset : Nat) : Part → Option (List Char)
  | filler _ => none
  | line body => some (trimEnd (line body).text)
  | block body => some (Fragment.dedentTail (column source offset) (block body).text)

theorem text_ne_nil (p : Part) : p.text ≠ [] := by
  cases p <;> exact List.cons_ne_nil _ _

end Part

def Stops (cs : List Char) : Prop := ∀ p : Part, p.Proper → ∀ rest, cs ≠ p.text ++ rest

/-- The text consists of parts, and a rest that no further part starts in. -/
inductive Consists : List Char → List Part → List Char → Prop where
  | stop {cs : List Char} : Stops cs → Consists cs [] cs
  | part {p : Part} {cs : List Char} {parts : List Part} {rest : List Char} :
      p.Proper → p.EndsBefore cs → Consists cs parts rest →
      Consists (p.text ++ cs) (p :: parts) rest

/-- The comments among the parts of a gap that starts at a byte offset of the source. -/
def comments (source : List Char) : Nat → List Part → List (List Char)
  | _, [] => []
  | n, p :: parts => (p.comment? source n).toList ++ comments source (n + byteLength p.text) parts

/-- The text is a whole comment. -/
def Terminated (text : List Char) : Prop :=
  (['/', '/'] <+: text ∧ '\n' ∉ text) ∨ ∃ body, text = '/' :: '*' :: (body ++ ['*', '/'])

/-- Nowhere does a slash follow the opening of a block comment. -/
def Tight (parts : List Part) (rest : List Char) : Prop :=
  (∀ p ∈ parts, ¬ ['/', '*', '/'] <+: p.text) ∧ ¬ ['/', '*', '/'] <+: rest

section Decomposition

/-- Where a text has an end of a comment, it has a first one. -/
theorem exists_first_end {cs : List Char} (h : ['*', '/'] <:+: cs) :
    ∃ body rest, cs = body ++ '*' :: '/' :: rest ∧ ¬ ['*', '/'] <:+: body := by
  induction cs with
  | nil => simp at h
  | cons c cs ih =>
    by_cases hstart : ['*', '/'] <+: c :: cs
    · obtain ⟨rest, hrest⟩ := hstart
      exact ⟨[], rest, hrest.symm, by simp⟩
    · obtain ⟨body, rest, rfl, hbody⟩ := ih ((List.infix_cons_iff.mp h).resolve_left hstart)
      refine ⟨c :: body, rest, rfl, fun hin => ?_⟩
      rcases List.infix_cons_iff.mp hin with hpre | hin
      · exact hstart (hpre.trans (List.prefix_append (c :: body) _))
      · exact hbody hin

private theorem first_end_le {body body' rest rest' : List Char}
    (h : body ++ '*' :: '/' :: rest = body' ++ '*' :: '/' :: rest')
    (hbody : ¬ ['*', '/'] <:+: body') (hle : body.length ≤ body'.length) : body = body' := by
  obtain ⟨d, rfl⟩ : body <+: body' :=
    List.prefix_of_prefix_length_le ⟨_, h⟩ ⟨_, rfl⟩ hle
  rw [List.append_assoc, List.append_cancel_left_eq] at h
  match d, h with
  | [], _ => simp
  | [c], h => simp at h
  | c :: e :: d, h =>
    simp only [List.cons_append, List.cons.injEq] at h
    obtain ⟨rfl, rfl, -⟩ := h
    exact absurd ⟨body, d, by simp⟩ hbody

theorem first_end_unique {body body' rest rest' : List Char}
    (h : body ++ '*' :: '/' :: rest = body' ++ '*' :: '/' :: rest')
    (hbody : ¬ ['*', '/'] <:+: body) (hbody' : ¬ ['*', '/'] <:+: body') :
    body = body' ∧ rest = rest' := by
  have heq : body = body' := by
    rcases Nat.le_total body.length body'.length with hle | hle
    · exact first_end_le h hbody' hle
    · exact (first_end_le h.symm hbody hle).symm
  subst heq
  simpa using h

private theorem line_le {body body' rest rest' : List Char} (h : body ++ rest = body' ++ rest')
    (hbody : '\n' ∉ body') (hends : rest = [] ∨ rest.head? = some '\n')
    (hle : body.length ≤ body'.length) : body = body' := by
  obtain ⟨d, rfl⟩ : body <+: body' :=
    List.prefix_of_prefix_length_le ⟨_, h⟩ ⟨_, rfl⟩ hle
  rw [List.append_assoc, List.append_cancel_left_eq] at h
  cases d with
  | nil => simp
  | cons c d =>
    subst h
    obtain hnil | hfeed := hends
    · cases hnil
    · cases hfeed
      simp at hbody

theorem line_unique {body body' rest rest' : List Char} (h : body ++ rest = body' ++ rest')
    (hbody : '\n' ∉ body) (hbody' : '\n' ∉ body') (hends : rest = [] ∨ rest.head? = some '\n')
    (hends' : rest' = [] ∨ rest'.head? = some '\n') : body = body' ∧ rest = rest' := by
  have heq : body = body' := by
    rcases Nat.le_total body.length body'.length with hle | hle
    · exact line_le h hbody' hends hle
    · exact (line_le h.symm hbody hends' hle).symm
  subst heq
  simpa using h

private theorem filler_ne_slash {c : Char} (h : (Part.filler c).Proper) : c ≠ '/' := by
  rintro rfl
  rcases h with h | h <;> revert h <;> decide

theorem part_unique {p q : Part} {a b : List Char} (h : p.text ++ a = q.text ++ b)
    (hp : p.Proper) (hq : q.Proper) (ha : p.EndsBefore a) (hb : q.EndsBefore b) :
    p = q ∧ a = b := by
  cases p with
  | filler c =>
    have hc := filler_ne_slash hp
    cases q with
    | filler d => simpa [Part.text] using h
    | line body => simp [Part.text, hc] at h
    | block body => simp [Part.text, hc] at h
  | line body =>
    cases q with
    | filler d =>
      have hd := filler_ne_slash hq
      simp [Part.text, hd.symm] at h
    | line body' =>
      simp only [Part.text, List.cons_append, List.cons.injEq, true_and] at h
      obtain ⟨rfl, rfl⟩ := line_unique h hp hq ha hb
      exact ⟨rfl, rfl⟩
    | block body' => simp [Part.text] at h
  | block body =>
    cases q with
    | filler d =>
      have hd := filler_ne_slash hq
      simp [Part.text, hd.symm] at h
    | line body' => simp [Part.text] at h
    | block body' =>
      simp only [Part.text, List.cons_append, List.append_assoc, List.cons.injEq, true_and] at h
      obtain ⟨rfl, rfl⟩ := first_end_unique h hp hq
      exact ⟨rfl, rfl⟩

/-- Where a part starts, there is one that ends as it should. -/
theorem exists_part {cs : List Char} (h : ¬ Stops cs) :
    ∃ (p : Part) (rest : List Char), p.Proper ∧ p.EndsBefore rest ∧ cs = p.text ++ rest := by
  simp only [Stops, not_forall, not_not] at h
  obtain ⟨p, hp, rest, rfl⟩ := h
  cases p with
  | filler c => exact ⟨.filler c, rest, hp, trivial, rfl⟩
  | block body => exact ⟨.block body, rest, hp, trivial, rfl⟩
  | line body =>
    have hsplit := List.takeWhile_append_dropWhile (p := (· != '\n')) (l := rest)
    refine ⟨.line (body ++ rest.takeWhile (· != '\n')), rest.dropWhile (· != '\n'), ?_, ?_, ?_⟩
    · intro hmem
      rcases List.mem_append.mp hmem with hmem | hmem
      · exact hp hmem
      · simpa using List.mem_takeWhile_imp hmem
    · have hhead := List.head?_dropWhile_not (· != '\n') rest
      cases hrest : rest.dropWhile (· != '\n') with
      | nil => exact .inl rfl
      | cons c tail =>
        rw [hrest] at hhead
        exact .inr (by simpa using hhead)
    · simp [Part.text, hsplit]

theorem exists_consists (cs : List Char) : ∃ parts rest, Consists cs parts rest := by
  induction hn : cs.length using Nat.strong_induction_on generalizing cs with
  | _ n ih =>
    by_cases hstop : Stops cs
    · exact ⟨[], cs, .stop hstop⟩
    · obtain ⟨p, tail, hp, hends, rfl⟩ := exists_part hstop
      have hpos := List.length_pos_iff.mpr p.text_ne_nil
      rw [List.length_append] at hn
      obtain ⟨parts, rest, htail⟩ := ih tail.length (by omega) tail rfl
      exact ⟨p :: parts, rest, .part hp hends htail⟩

theorem Consists.unique {cs : List Char} {parts parts' : List Part} {rest rest' : List Char}
    (h : Consists cs parts rest) (h' : Consists cs parts' rest') :
    parts' = parts ∧ rest' = rest := by
  induction h generalizing parts' rest' with
  | stop hstop =>
    cases h' with
    | stop => exact ⟨rfl, rfl⟩
    | part hp => exact absurd rfl (hstop _ hp _)
  | @part p cs parts rest hp hends _ ih =>
    generalize hcs : p.text ++ cs = text at h'
    cases h' with
    | stop hstop => exact absurd hcs.symm (hstop p hp cs)
    | part hq hends' hrest =>
      obtain ⟨rfl, rfl⟩ := part_unique hcs hp hq hends hends'
      obtain ⟨rfl, rfl⟩ := ih hrest
      exact ⟨rfl, rfl⟩

end Decomposition

section Reading

variable {source : List Char}

/-! One step of the reader. -/

theorem scan_slashes (n : Nat) (cs : List Char) :
    scan source .between n ('/' :: '/' :: cs) = scan source (.line ['/', '/']) (n + 2) cs := rfl

theorem scan_opening (n : Nat) (cs : List Char) :
    scan source .between n ('/' :: '*' :: cs) =
      scan source (.block (column source n) ['*', '/']) (n + 2) cs := rfl

theorem scan_other {c : Char} {cs : List Char} (hline : ∀ t, c :: cs ≠ '/' :: '/' :: t)
    (hblock : ∀ t, c :: cs ≠ '/' :: '*' :: t) (n : Nat) :
    scan source .between n (c :: cs) =
      if isBlank c || c == ',' then scan source .between (n + c.utf8Size) cs else [] := by
  conv_lhs => unfold scan
  split <;> simp_all

theorem scan_line_cons (rev : List Char) (n : Nat) (c : Char) (cs : List Char) :
    scan source (.line rev) n (c :: cs) =
      if c = '\n' then trimEnd rev.reverse :: scan source .between (n + 1) cs
      else scan source (.line (c :: rev)) (n + c.utf8Size) cs := rfl

theorem scan_block_cons (column : Nat) (rev : List Char) (n : Nat) (c : Char) (cs : List Char) :
    scan source (.block column rev) n (c :: cs) =
      if c = '/' && rev.head? == some '*' then
        Fragment.dedentTail column (c :: rev).reverse :: scan source .between (n + 1) cs
      else scan source (.block column (c :: rev)) (n + c.utf8Size) cs := rfl

theorem scan_filler {c : Char} (h : (Part.filler c).Proper) (n : Nat) (cs : List Char) :
    scan source .between n (c :: cs) = scan source .between (n + c.utf8Size) cs := by
  have hc := filler_ne_slash h
  have hskip : (isBlank c || c == ',') = true := by simpa [Part.Proper] using h
  rw [scan_other (by simp [hc]) (by simp [hc]), if_pos hskip]

theorem scan_line {rev body cs : List Char} (hbody : '\n' ∉ body)
    (hends : cs = [] ∨ cs.head? = some '\n') (n : Nat) :
    scan source (.line rev) n (body ++ cs) =
      trimEnd (rev.reverse ++ body) :: scan source .between (n + byteLength body) cs := by
  induction body generalizing rev n with
  | nil =>
    rw [List.nil_append, List.append_nil, byteLength_nil, Nat.add_zero]
    cases cs with
    | nil => rfl
    | cons c cs =>
      obtain rfl : c = '\n' := by simpa using hends
      rw [scan_line_cons, if_pos rfl, scan_filler (.inl (by decide))]
      rfl
  | cons c body ih =>
    rw [List.mem_cons, not_or] at hbody
    rw [List.cons_append, scan_line_cons, if_neg (Ne.symm hbody.1), ih hbody.2, List.reverse_cons,
      List.append_assoc, byteLength_cons, Nat.add_assoc]
    rfl

/-- What has been read of a block comment, and what comes next, is not the end of it. -/
private theorem not_end {rev : List Char} {c : Char} (cs : List Char)
    (h : rev.head? = some '*' → (c :: cs).head? ≠ some '/') :
    (decide (c = '/') && rev.head? == some '*') = false := by
  by_cases hc : c = '/'
  · have hrev : rev.head? ≠ some '*' := fun hr => h hr (by simp [hc])
    simp [hrev]
  · simp [hc]

private theorem no_end_across {c : Char} {cs : List Char} (h : ¬ ['*', '/'] <:+: c :: cs) :
    (c = '*' → cs.head? ≠ some '/') ∧ ¬ ['*', '/'] <:+: cs := by
  rw [List.infix_cons_iff, not_or] at h
  refine ⟨?_, h.2⟩
  rintro rfl hhead
  cases cs with
  | nil => cases hhead
  | cons d cs =>
    cases hhead
    exact h.1 ⟨cs, rfl⟩

theorem scan_block {column : Nat} {rev body : List Char} (cs : List Char)
    (hbody : ¬ ['*', '/'] <:+: body) (hrev : rev.head? = some '*' → body.head? ≠ some '/')
    (n : Nat) :
    scan source (.block column rev) n (body ++ '*' :: '/' :: cs) =
      Fragment.dedentTail column (rev.reverse ++ (body ++ ['*', '/'])) ::
        scan source .between (n + byteLength (body ++ ['*', '/'])) cs := by
  induction body generalizing rev n with
  | nil =>
    rw [List.nil_append, scan_block_cons, if_neg (by simp), scan_block_cons, if_pos (by simp),
      List.reverse_cons, List.reverse_cons]
    simp only [List.append_assoc]
    rfl
  | cons c body ih =>
    obtain ⟨hnext, hrest⟩ := no_end_across hbody
    rw [List.cons_append, scan_block_cons, not_end body hrev, if_neg (by simp),
      ih hrest (by simpa using hnext), List.reverse_cons]
    simp [Nat.add_assoc]

theorem scan_unended {column : Nat} {rev cs : List Char} (h : ¬ ['*', '/'] <:+: cs)
    (hrev : rev.head? = some '*' → cs.head? ≠ some '/') (n : Nat) :
    scan source (.block column rev) n cs = [] := by
  induction cs generalizing rev n with
  | nil => rfl
  | cons c cs ih =>
    obtain ⟨hnext, hrest⟩ := no_end_across h
    rw [scan_block_cons, not_end cs hrev, if_neg (by simp), ih hrest (by simpa using hnext)]

/-- A slash behind the opening of a block comment is taken for its end. -/
theorem scan_slash (n : Nat) (cs : List Char) : scan source .between n ('/' :: '*' :: '/' :: cs) =
    ['/', '*', '/'] :: scan source .between (n + 3) cs := by
  have hopen : Fragment.dedentTail (column source n) ['/', '*', '/'] = ['/', '*', '/'] := by
    simp [Fragment.dedentTail, Fragment.dedentLines, splitLines, joinLines, List.mapIdx_cons]
  rw [scan_opening, scan_block_cons, if_pos (by simp)]
  exact congrArg (· :: scan source .between (n + 3) cs) hopen

theorem scan_part {p : Part} {cs : List Char} (hp : p.Proper) (hends : p.EndsBefore cs)
    (htight : ¬ ['/', '*', '/'] <+: p.text) (n : Nat) :
    scan source .between n (p.text ++ cs) =
      (p.comment? source n).toList ++ scan source .between (n + byteLength p.text) cs := by
  have hsize : '/'.utf8Size = 1 ∧ '*'.utf8Size = 1 := by decide
  cases p with
  | filler c => exact scan_filler hp n cs
  | line body =>
    have hlen : n + byteLength (Part.line body).text = n + 2 + byteLength body := by
      simp only [Part.text, byteLength_cons, hsize]
      omega
    rw [hlen, Part.text, List.cons_append, List.cons_append, scan_slashes]
    exact scan_line hp hends (n + 2)
  | block body =>
    have hlen : n + byteLength (Part.block body).text =
        n + 2 + byteLength (body ++ ['*', '/']) := by
      simp only [Part.text, byteLength_cons, hsize]
      omega
    have hhead : body.head? ≠ some '/' := by
      intro hhead
      cases body with
      | nil => cases hhead
      | cons c body =>
        cases hhead
        exact htight ⟨body ++ ['*', '/'], rfl⟩
    rw [hlen, Part.text, List.cons_append, List.cons_append, scan_opening, List.append_assoc]
    exact scan_block cs hp (fun _ => hhead) (n + 2)

theorem scan_stop {cs : List Char} (h : Stops cs) (htight : ¬ ['/', '*', '/'] <+: cs) (n : Nat) :
    scan source .between n cs = [] := by
  cases cs with
  | nil => rfl
  | cons c cs =>
    have hline : ∀ t, c :: cs ≠ '/' :: '/' :: t := h (.line []) (by simp [Part.Proper])
    by_cases hblock : ∃ t, c :: cs = '/' :: '*' :: t
    · -- The comment has no end, or the one that shares its star with the opening.
      obtain ⟨t, heq⟩ := hblock
      rw [heq] at h htight ⊢
      rw [scan_opening]
      apply scan_unended
      · intro hin
        obtain ⟨body, rest, rfl, hbody⟩ := exists_first_end hin
        exact h (.block body) hbody rest (by simp [Part.text])
      · intro _ hhead
        obtain ⟨rest, rfl⟩ := List.head?_eq_some_iff.mp hhead
        exact htight ⟨rest, rfl⟩
    · have hc : (isBlank c || c == ',') = false := by
        rw [Bool.eq_false_iff]
        intro hskip
        exact h (.filler c) (by simpa [Part.Proper] using hskip) cs rfl
      rw [scan_other hline (not_exists.mp hblock), hc]
      rfl

/-- Nothing but comments is read from a gap in which no slash follows an opening. -/
theorem Consists.scan_eq {cs : List Char} {parts : List Part} {rest : List Char}
    (h : Consists cs parts rest) (htight : Tight parts rest) (n : Nat) :
    scan source .between n cs = comments source n parts := by
  induction h generalizing n with
  | stop hstop => exact scan_stop hstop htight.2 n
  | part hp hends _ ih =>
    have hpart := htight.1 _ List.mem_cons_self
    have hrest : Tight _ _ := ⟨fun q hq => htight.1 q (List.mem_cons_of_mem _ hq), htight.2⟩
    rw [scan_part hp hends hpart, ih hrest, comments]

/-- Where a slash follows an opening, the two are read as a comment. -/
theorem Consists.slash_mem_scan {cs : List Char} {parts : List Part} {rest : List Char}
    (h : Consists cs parts rest) (htight : ¬ Tight parts rest) (n : Nat) :
    ['/', '*', '/'] ∈ scan source .between n cs := by
  induction h generalizing n with
  | @stop cs _ =>
    obtain ⟨tail, rfl⟩ : ['/', '*', '/'] <+: cs := by simpa [Tight] using htight
    exact scan_slash n tail ▸ List.mem_cons_self
  | @part p cs parts rest hp hends _ ih =>
    by_cases hpart : ['/', '*', '/'] <+: p.text
    · obtain ⟨tail, htail⟩ := hpart
      rw [← htail, List.append_assoc]
      exact scan_slash n (tail ++ cs) ▸ List.mem_cons_self
    · have hrest : ¬ Tight parts rest := by
        rintro ⟨hparts, hstop⟩
        exact htight ⟨List.forall_mem_cons.mpr ⟨hpart, hparts⟩, hstop⟩
      rw [scan_part hp hends hpart]
      exact List.mem_append_right _ (ih hrest _)

end Reading

section Printing

variable {source : List Char}

private theorem terminated_line {body : List Char} (h : '\n' ∉ body) :
    Terminated (trimEnd ('/' :: '/' :: body)) := by
  have hsub : (trimEnd ('/' :: '/' :: body)).Sublist ('/' :: '/' :: body) := by
    rw [← List.reverse_sublist, trimEnd, List.reverse_reverse]
    exact List.dropWhile_sublist _
  refine .inl ⟨prefix_trimEnd ⟨body, rfl⟩, fun hmem => ?_⟩
  have hin := hsub.subset hmem
  simp at hin
  exact h hin

private theorem terminated_block (columns : Nat) (body : List Char) :
    Terminated (Fragment.dedentTail columns ('/' :: '*' :: (body ++ ['*', '/']))) := by
  have hmarks : Fragment.unmarked ('/' :: '*' :: (body ++ ['*', '/'])) =
      Fragment.unmarked ('/' :: '*' :: body) ++ [] := by
    simp [Fragment.unmarked, lineFeeds]
  -- The state at the end of the comment matters not: its last two characters are no blanks.
  obtain ⟨t, ht⟩ := (dedenting columns).write_append 0 [] ['*', '/']
    (Fragment.length_unmarked ('/' :: '*' :: body))
  have hopen : ∀ ms, (dedenting columns).write 0 ms ('/' :: '*' :: body) =
      '/' :: '*' :: (dedenting columns).write 0 ms body := fun ms => by
    simp [LineRule.write, dedenting]
  have hclose : (dedenting columns).write t [] ['*', '/'] = ['*', '/'] := by
    simp [LineRule.write, dedenting, isIndent]
  rw [hopen, hclose] at ht
  rw [Fragment.dedentTail_eq_write, hmarks]
  exact .inr ⟨_, ht⟩

theorem terminated_of_mem_comments {parts : List Part} (h : ∀ p ∈ parts, p.Proper) (n : Nat) :
    ∀ c ∈ comments source n parts, Terminated c := by
  induction parts generalizing n with
  | nil => simp [comments]
  | cons p parts ih =>
    obtain ⟨hp, hparts⟩ := List.forall_mem_cons.mp h
    intro c hc
    rcases List.mem_append.mp hc with hc | hc
    · cases p with
      | filler d => cases hc
      | line body => exact List.mem_singleton.mp hc ▸ terminated_line hp
      | block body => exact List.mem_singleton.mp hc ▸ terminated_block _ body
    · exact ih hparts _ c hc

theorem Consists.proper {cs : List Char} {parts : List Part} {rest : List Char}
    (h : Consists cs parts rest) : ∀ p ∈ parts, p.Proper := by
  induction h with
  | stop => simp
  | part hp _ _ ih => exact List.forall_mem_cons.mpr ⟨hp, ih⟩

theorem slash_not_terminated : ¬ Terminated ['/', '*', '/'] := by
  rintro (⟨hpre, -⟩ | ⟨body, heq⟩)
  · revert hpre
    decide
  · have hlen := congrArg List.length heq
    simp at hlen

end Printing

/-- A gap is made of parts in one way. The comments among them are found, each as a whole, unless a
slash follows the opening of a block comment; then the reader gives a comment that does not end. -/
theorem between_complete_iff (source : List Char) (gap : Span) :
    ∃ parts rest, Consists (slice source gap) parts rest ∧
      (∀ parts' rest', Consists (slice source gap) parts' rest' → parts' = parts ∧ rest' = rest) ∧
      (between source gap = comments source gap.start parts ↔ Tight parts rest) ∧
      ((∀ c ∈ between source gap, Terminated c) ↔ Tight parts rest) := by
  obtain ⟨parts, rest, hcons⟩ := exists_consists (slice source gap)
  have hwhole : between source gap = comments source gap.start parts →
      ∀ c ∈ between source gap, Terminated c := fun heq =>
    heq ▸ terminated_of_mem_comments hcons.proper gap.start
  have htight : (∀ c ∈ between source gap, Terminated c) → Tight parts rest := fun hall =>
    by_contra fun hloose =>
      slash_not_terminated (hall _ (hcons.slash_mem_scan hloose gap.start))
  have hread : Tight parts rest → between source gap = comments source gap.start parts := fun h =>
    hcons.scan_eq h gap.start
  exact ⟨parts, rest, hcons, fun _ _ => hcons.unique, ⟨htight ∘ hwhole, hread⟩,
    ⟨htight, hwhole ∘ hread⟩⟩

/-- The comment is cut off behind the slash that follows its opening. -/
theorem between_cuts_comment :
    let source := "/*/ a */".toList
    Consists (slice source ⟨0, 8⟩) [.block "/ a ".toList] [] ∧
      comments source 0 [.block "/ a ".toList] = ["/*/ a */".toList] ∧
      between source ⟨0, 8⟩ = ["/*/".toList] ∧
      ¬ ∀ c ∈ between source ⟨0, 8⟩, Terminated c := by
  have hread : between "/*/ a */".toList ⟨0, 8⟩ = ["/*/".toList] := by decide +kernel
  refine ⟨?_, by decide +kernel, hread, fun hall => ?_⟩
  · have hstop : Consists [] [] [] := .stop fun p _ rest heq =>
      p.text_ne_nil (List.append_eq_nil_iff.mp heq.symm).1
    exact .part (p := .block "/ a ".toList) (by decide) trivial hstop
  · exact slash_not_terminated (hall _ (hread ▸ List.mem_singleton_self _))

end EmberClasses.Comment
