import EmberClasses.Proofs.ClassOpening
import EmberClasses.Proofs.CopiedParts
import EmberClasses.Proofs.ExtendMentions

/-! Where the name `extend` can be read in the text of a class. What is written around the parts of
a class does not hold the name, so one of the parts does. -/

namespace EmberClasses

open Text

namespace Fragment

theorem mentions_of_foldl {acc : Fragment} {parts : List Fragment}
    (h : MentionsExtend
      (parts.foldl (fun acc part => (acc.push [',', ' ']).append part) acc).text) :
    MentionsExtend acc.text ∨ ∃ f ∈ parts, MentionsExtend f.text := by
  induction parts generalizing acc with
  | nil => exact .inl h
  | cons f parts ih =>
    rcases ih h with h | ⟨g, hg, h⟩
    · have htext : ((acc.push [',', ' ']).append f).text =
          acc.text ++ ',' :: ([' '] ++ f.text) := by
        simp [push, append]
      rw [htext] at h
      rcases h.of_parted (by decide) with h | h
      · exact .inl h
      · exact .inr ⟨f, List.mem_cons_self, silent_separator (by decide) _ h⟩
    · exact .inr ⟨g, List.mem_cons_of_mem f hg, h⟩

theorem mentions_of_join {parts : List Fragment}
    (h : MentionsExtend (join parts [',', ' ']).text) : ∃ f ∈ parts, MentionsExtend f.text := by
  cases parts with
  | nil => exact absurd h not_mentionsExtend_nil
  | cons first rest =>
    rcases mentions_of_foldl h with h | ⟨f, hf, h⟩
    · exact ⟨first, List.mem_cons_self, h⟩
    · exact ⟨f, List.mem_cons_of_mem first hf, h⟩

theorem mentions_of_linesAt {f : Fragment} {level : Nat} {line : PrintedLine}
    (hline : line ∈ f.linesAt level) (h : MentionsExtend line.text) : MentionsExtend f.text := by
  obtain ⟨i, hi, rfl⟩ := List.mem_mapIdx.mp hline
  rw [← joinLines_splitLines f.text]
  exact h.joinLines (List.getElem_mem hi)

end Fragment

theorem AppliedDecorator.mentions_of_toFragment {d : AppliedDecorator}
    (h : MentionsExtend d.toFragment.text) :
    MentionsExtend d.name.toList ∨ ∃ f ∈ d.args, MentionsExtend f.text := by
  unfold toFragment at h
  dsimp only at h
  split at h
  · exact .inl (silent_separator (by decide) _ h)
  · have htext : ((((⟨'@' :: d.name.toList, []⟩ : Fragment).push ['(']).append
        (Fragment.join d.args [',', ' '])).push [')']).text =
          ['@'] ++ (d.name.toList ++ '(' :: ((Fragment.join d.args [',', ' ']).text ++ [')'])) := by
      simp [Fragment.push, Fragment.append]
    rw [htext] at h
    rcases (silent_separator (by decide) _ h).of_parted (by decide) with h | h
    · exact .inl h
    · rcases h.of_parted (by decide) with h | h
      · exact .inr (Fragment.mentions_of_join h)
      · exact absurd h not_mentionsExtend_nil

/-- The names that a member is written with, and its comments. -/
def Member.words (m : Member) : List (List Char) :=
  m.key.toList :: (m.comments ++ m.decorators.map (·.name.toList))

theorem mentions_of_silent {modifiers kind star key y : List Char} (hmodifiers : Silent modifiers)
    (hkind : Silent kind) (hstar : Silent star)
    (h : MentionsExtend (modifiers ++ kind ++ star ++ key ++ ['('] ++ y)) :
    MentionsExtend key ∨ MentionsExtend y := by
  simp only [List.append_assoc] at h
  exact (hstar _ (hkind _ (hmodifiers _ h))).of_parted (by decide)

theorem Method.mentions_of_head {m : Method} {key : String} {y : List Char}
    (h : MentionsExtend (m.head key ++ y)) : MentionsExtend key.toList ∨ MentionsExtend y := by
  unfold Method.head at h
  refine mentions_of_silent ?_ ?_ ?_ h
  · split
    · exact silent_word (x := "async".toList) (by decide) (by decide)
    · exact silent_nil
  · cases m.kind with
    | getter => exact silent_word (x := "get".toList) (by decide) (by decide)
    | setter => exact silent_word (x := "set".toList) (by decide) (by decide)
    | method => exact silent_nil
  · split
    · exact silent_separator (by decide)
    · exact silent_nil

theorem mentions_of_commentLines {level : Nat} {comments : List (List Char)} {line : PrintedLine}
    (hline : line ∈ commentLines level comments) (h : MentionsExtend line.text) :
    ∃ c ∈ comments, MentionsExtend c := by
  obtain ⟨c, hc, hline⟩ := List.mem_flatMap.mp hline
  exact ⟨c, hc, Fragment.mentions_of_linesAt hline h⟩

theorem mentions_of_decoratorLines {level : Nat} {ds : List AppliedDecorator} {line : PrintedLine}
    (hline : line ∈ decoratorLines level ds) (h : MentionsExtend line.text) :
    (∃ w ∈ ds.map (·.name.toList), MentionsExtend w) ∨
      ∃ f ∈ ds.flatMap AppliedDecorator.args, MentionsExtend f.text := by
  obtain ⟨d, hd, hline⟩ := List.mem_flatMap.mp hline
  rcases d.mentions_of_toFragment (Fragment.mentions_of_linesAt hline h) with h | ⟨f, hf, h⟩
  · exact .inl ⟨_, List.mem_map_of_mem hd, h⟩
  · exact .inr ⟨f, List.mem_flatMap.mpr ⟨d, hd, hf⟩, h⟩

theorem Member.mentions_of_body {m : Member} {level : Nat} {line : PrintedLine}
    (hline : line ∈ m.body.linesAt level m.key) (h : MentionsExtend line.text) :
    MentionsExtend m.key.toList ∨ ∃ f ∈ m.fragments, MentionsExtend f.text := by
  unfold Member.fragments
  cases hbody : m.body with
  | field value =>
    rw [hbody] at hline
    cases value with
    | none =>
      rw [List.mem_singleton.mp hline] at h
      exact .inl ((h.of_parted (by decide)).resolve_right not_mentionsExtend_nil)
    | some value =>
      have h := Fragment.mentions_of_linesAt hline h
      have htext : (Fragment.ofField m.key value).text =
          m.key.toList ++ ' ' :: (['='] ++ ([' '] ++ (value.text ++ [';']))) := by
        simp [Fragment.ofField, Fragment.push, Fragment.append]
      rw [htext] at h
      rcases h.of_parted (by decide) with h | h
      · exact .inl h
      · have h := silent_separator (by decide) _ (silent_separator (by decide) _ h)
        exact .inr ⟨value, by simp,
          (h.of_parted (by decide)).resolve_right not_mentionsExtend_nil⟩
  | method f =>
    rw [hbody] at hline
    have h := Fragment.mentions_of_linesAt hline h
    have htext : (Fragment.ofMethod m.key f).text = f.head m.key ++
        ((Fragment.join f.params [',', ' ']).text ++ ')' :: ([' '] ++ f.body.text)) := by
      simp [Fragment.ofMethod, Fragment.push, Fragment.append]
    rw [htext] at h
    rcases Method.mentions_of_head h with h | h
    · exact .inl h
    · rcases h.of_parted (by decide) with h | h
      · obtain ⟨g, hg, h⟩ := Fragment.mentions_of_join h
        exact .inr ⟨g, by simp [hg], h⟩
      · exact .inr ⟨f.body, by simp, silent_separator (by decide) _ h⟩

theorem Member.mentions_of_linesAt {m : Member} {level : Nat} {line : PrintedLine}
    (hline : line ∈ m.linesAt level) (h : MentionsExtend line.text) :
    (∃ w ∈ m.words, MentionsExtend w) ∨ ∃ f ∈ m.fragments, MentionsExtend f.text := by
  simp only [Member.linesAt, List.mem_append] at hline
  rcases hline with (hline | hline) | hline
  · obtain ⟨c, hc, h⟩ := mentions_of_commentLines hline h
    exact .inl ⟨c, by simp [Member.words, hc], h⟩
  · rcases mentions_of_decoratorLines hline h with ⟨w, hw, h⟩ | ⟨f, hf, h⟩
    · exact .inl ⟨w, List.mem_cons_of_mem _ (List.mem_append_right _ hw), h⟩
    · exact .inr ⟨f, List.mem_append_left _ hf, h⟩
  · exact (m.mentions_of_body hline h).imp_left fun h => ⟨_, List.mem_cons_self, h⟩

namespace ClassDecl

variable {c : ClassDecl} {lead : List Char}

/-- The heritage of a class, its names and its comments. With the fragments, this is all that
differs from class to class. -/
def words (c : ClassDecl) : List (List Char) :=
  c.name.toList :: c.superclass :: (c.leading ++ c.trailing ++
    c.decorators.map (·.name.toList) ++ c.members.flatMap Member.words)

end ClassDecl

end EmberClasses
