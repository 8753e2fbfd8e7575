import EmberClasses.Proofs.Bytes
import EmberClasses.Text.Edit
import Mathlib.Data.List.Pairwise

/-! When a list of edits can be applied, and what comes out. Edits that are pairwise apart can be
applied in any order they were collected in; the result is the source with their spans replaced. -/

namespace EmberClasses

namespace Span

/-- The spans do not overlap. They may touch, and an empty span may touch from either side. -/
def Apart (a b : Span) : Prop := a.Before b ∨ b.Before a

instance (a b : Span) : Decidable (a.Apart b) := inferInstanceAs (Decidable (_ ∨ _))

theorem Apart.symm {a b : Span} (h : a.Apart b) : b.Apart a := Or.symm h

theorem Inside.refl (a : Span) : a.Inside a := ⟨le_rfl, le_rfl⟩

theorem Inside.trans {a b c : Span} (h : a.Inside b) (k : b.Inside c) : a.Inside c :=
  ⟨k.1.trans h.1, h.2.trans k.2⟩

theorem Apart.mono {a b c : Span} (h : a.Apart b) (hc : c.Inside a) : c.Apart b := by
  obtain ⟨h₁, h₂⟩ := hc
  rcases h with h | h
  · exact Or.inl (le_trans h₂ h)
  · exact Or.inr (le_trans h h₁)

theorem Inside.not_apart {a b : Span} (h : a.Inside b) (ha : a.start < a.stop) : ¬ a.Apart b := by
  obtain ⟨h₁, h₂⟩ := h
  rintro (h | h) <;> simp only [Before] at h <;> omega

/-- Both ends lie between two characters of the source. -/
def OnBoundaries (source : List Char) (s : Span) : Prop :=
  Text.IsBoundary source s.start ∧ Text.IsBoundary source s.stop

instance (source : List Char) (s : Span) : Decidable (s.OnBoundaries source) :=
  inferInstanceAs (Decidable (_ ∧ _))

end Span

theorem infix_intercalate {α : Type} (sep : List α) {part : List α} {parts : List (List α)}
    (h : part ∈ parts) : part <:+: sep.intercalate parts := by
  induction parts with
  | nil => cases h
  | cons first rest ih =>
    cases rest with
    | nil =>
      rw [List.mem_singleton.mp h]
      simp
    | cons next rest =>
      rw [List.intercalate_cons_cons]
      rcases List.mem_cons.mp h with rfl | h
      · exact ⟨[], _, by simp; rfl⟩
      · exact (ih h).trans (List.suffix_append _ _).isInfix

namespace Edit

/-- Each edit starts where the one before it has ended, and none ends after `stop`. -/
def Chained (stop : Nat) : Nat → List Edit → Prop
  | _, [] => True
  | cursor, e :: es => cursor ≤ e.span.start ∧ e.span.stop ≤ stop ∧ Chained stop e.span.stop es

theorem weave_ok_iff (source : List Char) (stop cursor : Nat) (es : List Edit) :
    (∃ ps, weave source stop cursor es = .ok ps) ↔ Chained stop cursor es := by
  induction es generalizing cursor with
  | nil => simp [weave, Chained]
  | cons e es ih =>
    unfold weave Chained
    by_cases hbad : e.span.start < cursor ∨ stop < e.span.stop
    · rw [if_pos hbad]
      constructor
      · rintro ⟨ps, h⟩; cases h
      · rintro ⟨h₁, h₂, _⟩; omega
    · rw [if_neg hbad]
      have hgood : cursor ≤ e.span.start ∧ e.span.stop ≤ stop := by omega
      rw [← ih e.span.stop]
      cases hw : weave source stop e.span.stop es with
      | error bad => simp
      | ok ps => simp [hgood]

theorem le_iff (a b : Edit) :
    le a b = true ↔ a.span.start < b.span.start ∨
      (a.span.start = b.span.start ∧ a.span.stop ≤ b.span.stop) := by
  simp [le]

theorem le_of_le_of_le (a b c : Edit) (hab : le a b = true) (hbc : le b c = true) :
    le a c = true := by
  rw [le_iff] at *
  omega

theorem le_or_le (a b : Edit) : (le a b || le b a) = true := by
  rw [Bool.or_eq_true, le_iff, le_iff]
  omega

theorem sorted_pairwise (edits : List Edit) : (sorted edits).Pairwise fun a b => le a b = true :=
  List.pairwise_mergeSort le_of_le_of_le le_or_le edits

/-- Sorting keeps the order of edits that have one span. -/
theorem filter_sorted {p : Edit → Bool} (h : ∀ a b, p a → p b → le a b = true)
    (edits : List Edit) : (sorted edits).filter p = edits.filter p := by
  have hpair : (edits.filter p).Pairwise fun a b => le a b = true := by
    apply List.pairwise_of_forall_mem_list
    intro a ha b hb
    exact h a b (List.mem_filter.mp ha).2 (List.mem_filter.mp hb).2
  have hsub : (edits.filter p).Sublist (sorted edits) :=
    List.sublist_mergeSort le_of_le_of_le le_or_le hpair List.filter_sublist
  have hsame := hsub.filter p
  rw [List.filter_filter] at hsame
  simp only [Bool.and_self] at hsame
  exact (hsame.eq_of_length ((List.mergeSort_perm edits le).filter p).length_eq.symm).symm

theorem sorted_perm (edits : List Edit) : (sorted edits).Perm edits := List.mergeSort_perm edits le

theorem sorted_of_pairwise {edits : List Edit} (h : edits.Pairwise fun a b => le a b = true) :
    sorted edits = edits :=
  List.mergeSort_of_pairwise h

theorem sorted_eq_of_perm {edits : List Edit} (target : List Edit) (hperm : edits.Perm target)
    (h : target.Pairwise fun a b => le a b = true ∧ le b a = false) : sorted edits = target := by
  have hle : target.Pairwise fun a b => le a b = true := h.imp And.left
  have hsymm : Std.Symm fun a b : Edit => ¬ (le a b = true ∧ le b a = true) :=
    ⟨fun a b hab hba => hab hba.symm⟩
  have hdiffer : target.Pairwise fun a b => ¬ (le a b = true ∧ le b a = true) :=
    h.imp fun hab hboth => by simp [hab.2] at hboth
  have hsorted := (sorted_perm edits).trans hperm
  refine hsorted.eq_of_pairwise (fun a b ha hb hab hba => ?_) (sorted_pairwise edits) hle
  by_contra hne
  exact hdiffer.forall (hsorted.mem_iff.mp ha) hb hne ⟨hab, hba⟩

/-- The empty span may be the one that comes first, so the order by start alone is not enough. -/
private theorem before_of_apart_of_le {a b : Edit} (hb : b.span.start ≤ b.span.stop)
    (hap : a.span.Apart b.span) (hle : le a b = true) : a.span.stop ≤ b.span.start := by
  rw [le_iff] at hle
  rcases hap with h | h
  · exact h
  · unfold Span.Before at h; omega

private theorem chained_of_pairwise {stop cursor : Nat} {es : List Edit}
    (horder : es.Pairwise fun a b => a.span.stop ≤ b.span.start)
    (hin : ∀ e ∈ es, cursor ≤ e.span.start ∧ e.span.stop ≤ stop) : Chained stop cursor es := by
  induction es generalizing cursor with
  | nil => trivial
  | cons e es ih =>
    obtain ⟨hfirst, hrest⟩ := List.pairwise_cons.mp horder
    obtain ⟨h₁, h₂⟩ := hin e List.mem_cons_self
    refine ⟨h₁, h₂, ih hrest fun f hf => ⟨hfirst f hf, (hin f (List.mem_cons_of_mem e hf)).2⟩⟩

/-- Edits that are pairwise apart and lie in a span are chained once they are sorted. -/
theorem chained_sorted {span : Span} {edits : List Edit}
    (hap : edits.Pairwise fun a b => a.span.Apart b.span)
    (hin : ∀ e ∈ edits, e.span.start ≤ e.span.stop ∧ e.span.Inside span) :
    Chained span.stop span.start (sorted edits) := by
  have hperm := sorted_perm edits
  have hap' : (sorted edits).Pairwise fun a b => a.span.Apart b.span :=
    (hperm.pairwise_iff fun h => h.symm).mpr hap
  have hin' : ∀ e ∈ sorted edits, e.span.start ≤ e.span.stop ∧ e.span.Inside span :=
    fun e he => hin e (hperm.mem_iff.mp he)
  apply chained_of_pairwise
  · apply List.Pairwise.imp_of_mem _ (hap'.and (sorted_pairwise edits))
    intro a b _ hb hab
    exact before_of_apart_of_le (hin' b hb).1 hab.1 hab.2
  · intro e he
    exact (hin' e he).2

theorem pieces_ok_of_apart (source : List Char) (span : Span) {edits : List Edit}
    (hap : edits.Pairwise fun a b => a.span.Apart b.span)
    (hin : ∀ e ∈ edits, e.span.start ≤ e.span.stop ∧ e.span.Inside span) :
    ∃ ps, pieces source span edits = .ok ps :=
  (weave_ok_iff source span.stop span.start (sorted edits)).mpr (chained_sorted hap hin)

private theorem Chained.pairwise {stop cursor : Nat} {es : List Edit}
    (hle : ∀ e ∈ es, e.span.start ≤ e.span.stop) (h : Chained stop cursor es) :
    (∀ e ∈ es, e.span.Inside ⟨cursor, stop⟩) ∧
      es.Pairwise fun a b => a.span.Before b.span := by
  induction es generalizing cursor with
  | nil => exact ⟨by simp, .nil⟩
  | cons e es ih =>
    obtain ⟨h₁, h₂, hrest⟩ := h
    obtain ⟨hin, hpair⟩ := ih (fun f hf => hle f (List.mem_cons_of_mem e hf)) hrest
    refine ⟨fun f hf => ?_, .cons (fun f hf => (hin f hf).1) hpair⟩
    rcases List.mem_cons.mp hf with rfl | hf
    · exact ⟨h₁, h₂⟩
    · exact ⟨h₁.trans ((hle e List.mem_cons_self).trans (hin f hf).1), (hin f hf).2⟩

/-- Edits can be applied if they lie in the span and do not overlap, and only then. -/
theorem pieces_ok_iff (source : List Char) (span : Span) {edits : List Edit}
    (hle : ∀ e ∈ edits, e.span.start ≤ e.span.stop) :
    (∃ ps, pieces source span edits = .ok ps) ↔
      (∀ e ∈ edits, e.span.Inside span) ∧
        edits.Pairwise fun a b => a.span.Apart b.span := by
  constructor
  · intro hok
    have hperm := sorted_perm edits
    obtain ⟨hin, hpair⟩ := Chained.pairwise (fun e he => hle e (hperm.mem_iff.mp he))
      ((weave_ok_iff _ _ _ _).mp hok)
    exact ⟨fun e he => hin e (hperm.mem_iff.mpr he),
      (hperm.pairwise_iff fun h => h.symm).mp (hpair.imp .inl)⟩
  · rintro ⟨hin, hap⟩
    exact pieces_ok_of_apart source span hap fun e he => ⟨hle e he, hin e he⟩

theorem apart_of_apply {source out : List Char} {edits : List Edit}
    (hle : ∀ e ∈ edits, e.span.start ≤ e.span.stop) (h : apply source edits = .ok out) :
    edits.Pairwise fun a b => a.span.Apart b.span := by
  unfold apply applyIn at h
  cases hps : pieces source (Text.whole source) edits with
  | error bad => rw [hps] at h; cases h
  | ok ps => exact ((pieces_ok_iff _ _ hle).mp ⟨ps, hps⟩).2

/-- `Splices n text es out`: `out` is `text`, whose first byte has the offset `n`, with the span of
every edit replaced and all the characters between two spans kept in order. -/
inductive Splices : Nat → List Char → List Edit → List Char → Prop where
  | done (n : Nat) (text : List Char) : Splices n text [] text
  | edit {n : Nat} {gap old rest out : List Char} {e : Edit} {es : List Edit} :
      n + Text.byteLength gap = e.span.start →
      e.span.start + Text.byteLength old = e.span.stop →
      Splices e.span.stop rest es out →
      Splices n (gap ++ (old ++ rest)) (e :: es) (gap ++ (e.text ++ out))

theorem splices_of_weave {source : List Char} {stop cursor : Nat} {es : List Edit}
    {ps : List Piece} (hc : Text.IsBoundary source cursor) (hle : cursor ≤ stop)
    (hes : ∀ e ∈ es, e.span.start ≤ e.span.stop ∧ e.span.OnBoundaries source)
    (h : weave source stop cursor es = .ok ps) :
    Splices cursor (Text.slice source ⟨cursor, stop⟩) es (Piece.text ps) := by
  induction es generalizing cursor ps with
  | nil =>
    simp only [weave, Except.ok.injEq] at h
    subst h
    simp only [Piece.text, List.flatMap_cons, List.flatMap_nil, Piece.chars, List.append_nil]
    exact .done _ _
  | cons e es ih =>
    obtain ⟨hspan, hstart, hstop⟩ := hes e List.mem_cons_self
    unfold weave at h
    split at h
    · cases h
    · rename_i hgood
      cases hw : weave source stop e.span.stop es with
      | error bad => rw [hw] at h; cases h
      | ok qs =>
        rw [hw] at h
        cases h
        have hcur : cursor ≤ e.span.start := by omega
        have hend : e.span.stop ≤ stop := by omega
        have hrest := ih hstop hend (fun f hf => hes f (List.mem_cons_of_mem e hf)) hw
        rw [← Text.slice_append_slice hc hstart hcur (hspan.trans hend),
          ← Text.slice_append_slice hstart hstop hspan hend]
        exact .edit (Text.byteLength_slice hc hstart hcur)
          (Text.byteLength_slice hstart hstop hspan) hrest

/-- What comes out of edits is the source with their spans replaced. -/
theorem splices_of_apply {source out : List Char} {edits : List Edit}
    (hes : ∀ e ∈ edits, e.span.start ≤ e.span.stop ∧ e.span.OnBoundaries source)
    (h : apply source edits = .ok out) : Splices 0 source (sorted edits) out := by
  unfold apply applyIn at h
  cases hps : pieces source (Text.whole source) edits with
  | error bad => rw [hps] at h; cases h
  | ok ps =>
    rw [hps] at h
    cases h
    have hs := splices_of_weave (Text.isBoundary_zero source) (Nat.zero_le _)
      (fun e he => hes e ((sorted_perm edits).mem_iff.mp he)) hps
    rwa [show (⟨0, (Text.whole source).stop⟩ : Span) = Text.whole source from rfl,
      Text.slice_whole] at hs

theorem apply_ok {source : List Char} {edits : List Edit}
    (hap : edits.Pairwise fun a b => a.span.Apart b.span)
    (hes : ∀ e ∈ edits, e.span.start ≤ e.span.stop ∧ e.span.OnBoundaries source) :
    ∃ out, apply source edits = .ok out := by
  obtain ⟨ps, hps⟩ := pieces_ok_of_apart source (Text.whole source) hap
    fun e he => ⟨(hes e he).1, Nat.zero_le _, (hes e he).2.2.le⟩
  exact ⟨Piece.text ps, by simp [apply, applyIn, hps, Except.map]⟩

/-- A part of the text that no edit touches is still there. -/
theorem Splices.infix_of_apart {n : Nat} {text out : List Char} {es : List Edit}
    (h : Splices n text es out) {pre mid post : List Char} (htext : text = pre ++ (mid ++ post))
    (hap : ∀ e ∈ es, (⟨n + Text.byteLength pre,
      n + Text.byteLength pre + Text.byteLength mid⟩ : Span).Apart e.span) : mid <:+: out := by
  induction h generalizing pre with
  | done n text => exact ⟨pre, post, by simp [htext]⟩
  | @edit n gap old rest out e es hgap hold _ ih =>
    rcases hap e List.mem_cons_self with hbefore | hafter
    · have hle : Text.byteLength (pre ++ mid) ≤ Text.byteLength gap := by
        rw [Text.byteLength_append]; simp only [Span.Before] at hbefore; omega
      obtain ⟨d, hd⟩ := Text.prefix_of_byteLength_le (y := old ++ rest)
        (by rw [htext]; simp : (pre ++ mid) ++ post = gap ++ (old ++ rest)) hle
      exact ⟨pre, d ++ (e.text ++ out), by rw [← hd]; simp⟩
    · have hle : Text.byteLength (gap ++ old) ≤ Text.byteLength pre := by
        rw [Text.byteLength_append]; simp only [Span.Before] at hafter; omega
      obtain ⟨d, hd⟩ := Text.prefix_of_byteLength_le (x := rest) (y := mid ++ post)
        (by rw [← htext]; simp) hle
      have hlen : n + Text.byteLength pre = e.span.stop + Text.byteLength d := by
        rw [← hd, Text.byteLength_append, Text.byteLength_append]; omega
      have hrest : rest = d ++ (mid ++ post) := by
        rw [← hd] at htext
        simpa using htext
      have hin : mid <:+: out := ih hrest fun f hf => by
        rw [← hlen]; exact hap f (List.mem_cons_of_mem e hf)
      exact hin.trans ⟨gap ++ e.text, [], by simp⟩

theorem Splices.text_infix {n : Nat} {text out : List Char} {es : List Edit}
    (h : Splices n text es out) {e : Edit} (he : e ∈ es) : e.text <:+: out := by
  induction h with
  | done => cases he
  | @edit n gap old rest out f es hgap hold hrest ih =>
    rcases List.mem_cons.mp he with rfl | he
    · exact ⟨gap, out, by simp⟩
    · exact (ih he).trans ((List.suffix_append _ _).trans (List.suffix_append _ _)).isInfix

/-- A span of the source that no edit touches is found in the result, byte for byte. -/
theorem Splices.slice_infix {source out : List Char} {es : List Edit} {s : Span}
    (h : Splices 0 source es out) (hs : s.OnBoundaries source) (hle : s.start ≤ s.stop)
    (hap : ∀ e ∈ es, s.Apart e.span) : Text.slice source s <:+: out := by
  have hsplit := Text.takeBytes_append_dropBytes s.start source
  rw [← hs.1.slice_append_drop hle] at hsplit
  apply h.infix_of_apart hsplit.symm
  have hstart : Text.byteLength (Text.takeBytes s.start source) = s.start := hs.1
  rw [Nat.zero_add, hstart, Text.byteLength_slice hs.1 hs.2 hle]
  exact hap

end Edit

end EmberClasses
