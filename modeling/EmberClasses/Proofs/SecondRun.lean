import EmberClasses.Proofs.ClassMentions

/-! Converting a file that has been converted. A file is left unchanged exactly if it holds no
definition that no class extends. A first run leaves none of those of the source outside of what it
replaced, but what it copied into the classes may hold more of them. The classes add none: where
neither the parts of the classes nor what is left around them hold the name `extend`, a second run
leaves the file unchanged. -/

namespace EmberClasses

open Script (Node Kind)
open Text

namespace Definition

theorem tidy_script {script : Node} (hs : script.Formed) (hn : PlainNames script) :
    Tidy [(.plain, script)] := by
  constructor
  · refine ⟨fun e he => ?_, List.pairwise_singleton _ _⟩
    rw [List.mem_singleton.mp he]
    exact ⟨hs, .refl _⟩
  · intro e he
    rw [List.mem_singleton.mp he]
    exact hn

section Script

variable {script : Node} {answers : List (Definition × Bool)}

/-- A call of the form of a definition that no class extends was come to, or stands in a definition
that was replaced. -/
theorem Visits.covers (h : Visits [(.plain, script)] answers) (hs : script.Formed)
    (hn : PlainNames script) {n : Node} {base : String} (hmem : n ∈ script.preorder)
    (hform : IsExtend n base) (hfree : ¬ IsSuperclass script n) :
    ∃ a ∈ answers, (a.1.span = n.span ∨ a.2 = true) ∧ n.span.Inside a.1.span := by
  obtain ⟨site, hreach⟩ := exists_reaches script hmem .plain
  have hsolid : n.kind.isSolid := by rw [hform.call]; rfl
  have hsite : site ≠ .heritage := fun heq =>
    hfree ((site_eq_heritage_iff hs hsolid hreach).mp heq)
  obtain ⟨d, hd, -⟩ := at?_eq_some_iff.mpr ⟨hform, hsite⟩
  have hspan : d.span = n.span := (at?_eq_some hd).2.1
  have hmeets : Meets [(.plain, script)] (site, n) := ⟨_, List.mem_singleton_self _, hreach⟩
  cases h.logs.complete (tidy_script hs hn) hmeets hd with
  | handed hlog =>
    obtain ⟨a, ha, heq⟩ := List.mem_map.mp hlog
    cases heq
    exact ⟨a, ha, .inl hspan, by rw [hspan]; exact .refl _⟩
  | covered hlog htrue hinside hne =>
    obtain ⟨a, ha, rfl⟩ := List.mem_map.mp hlog
    exact ⟨a, ha, .inr (Option.some.inj htrue), hinside⟩
  | unseen hlog hnone hlt =>
    obtain ⟨a, -, rfl⟩ := List.mem_map.mp hlog
    cases hnone

end Script

end Definition

namespace Conversion

variable {o : Options} {telemetry : Telemetry} {path : Path} {source : List Char} {report : Report}

namespace Job

variable {j : Job} {d : Definition} {c : ClassDecl}

/-- The file with a blank for every class. -/
def frame (j : Job) (imports : List Import.Declaration) (p : Progress) : List Char :=
  Edit.spliced (editsOf j imports { p with edits := p.edits.map fun e => ⟨e.span, [' ']⟩ }) 0
    j.source

end Job

end Conversion

end EmberClasses
