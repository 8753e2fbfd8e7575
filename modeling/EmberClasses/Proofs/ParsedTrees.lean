import EmberClasses.Proofs.CutSpans
import EmberClasses.Proofs.DefinitionCoverage
import EmberClasses.Proofs.ScriptNodes

/-! What holds of the tree of every script that is read: where its nodes lie, and how names and
texts of templates stand in it. -/

namespace EmberClasses.Script

open EmberClasses.Script.Parser
open Text (IsBoundary dropBytes)
open Lexer (Leaves)

/-- The first cursor is in the source, also behind a first line that is passed over. -/
theorem Cursor.placed_of_start {source : List Char} {c : Cursor} (h : Cursor.start source = .ok c) :
    c.Placed source := by
  unfold Cursor.start at h
  split at h
  · rename_i cs
    split at h
    · cases h
    · rename_i offset fresh rest hskip
      obtain ⟨⟨k, rfl, hk⟩, -⟩ := Lexer.skipTrivia_leaves hskip
      have hmark : Leaves ('#' :: '!' :: cs) 2 cs := ⟨['#', '!'], rfl, rfl⟩
      obtain ⟨htwo, hcs⟩ := leaves_boundary (Text.isBoundary_zero _) (Text.dropBytes_zero _) hmark
      obtain ⟨hboundary, hrest⟩ := leaves_boundary htwo hcs hk
      exact (placed_of_read h (Nat.zero_le _) (Text.isBoundary_zero _) hboundary hrest).1
  · exact (placed_of_read h le_rfl (Text.isBoundary_zero _) (Text.isBoundary_zero _)
      (Text.dropBytes_zero _)).1

section Parse

variable {dialect : Dialect} {source : List Char} {script : Node}

theorem row_of_parse (h : parse dialect source = .ok script) : ∃ stop items,
    script = ⟨.program, ⟨0, stop⟩, items⟩ ∧ IsBoundary source stop ∧ Row source 0 stop items := by
  obtain ⟨c, c', hstart, hprogram, -⟩ := parse_eq_ok.mp h
  obtain ⟨items, hitems, -, rfl⟩ := program_eq_ok.mp hprogram
  have hplaced := Cursor.placed_of_start hstart
  have hitem : Gathers source false (scriptItem (rules (8 * (source.length + 4)))) false
      .statement := fun _ =>
    .look fun _ => .ite (fun _ => .nil) fun _ =>
      .give (.call (settles_rules source _ (.statement false)))
  have hend := Gathers.manyLoop hitem _ _ _ c items c' (.of_placed hplaced) hitems
  exact ⟨c'.last, items, rfl, hend.placed.last_boundary, hend.row.start_le (Nat.zero_le _)⟩

/-- Every node of a script is the script or right in itself. -/
theorem settled_of_parse (h : parse dialect source = .ok script) {n : Node}
    (hn : n ∈ script.preorder) :
    n = script ∨ n.Settled source ∧ ∀ m ∈ n.preorder, m.Settled source := by
  obtain ⟨stop, items, rfl, -, hrow⟩ := row_of_parse h
  rw [Node.preorder] at hn
  rcases List.mem_cons.mp hn with rfl | hn
  · exact .inl rfl
  · exact .inr ⟨hrow.settled n hn,
      fun m hm => hrow.settled m (Node.mem_preorderAll_trans items hn hm)⟩

theorem formed_of_parse (h : parse dialect source = .ok script) : script.Formed := by
  refine ⟨?_, fun n hn hk => ?_⟩
  · obtain ⟨stop, items, rfl, -, hrow⟩ := row_of_parse h
    rw [Node.WellNested]
    exact ⟨Nat.zero_le stop, hrow.nested⟩
  · rcases settled_of_parse h hn with rfl | ⟨hsettled, -⟩
    · obtain ⟨stop, items, rfl, -, -⟩ := row_of_parse h
      cases hk
    · exact (hsettled.solid hk).1

/-- The tree of a script that is read describes the source. -/
theorem faithful_of_parse (h : parse dialect source = .ok script) : script.Faithful source := by
  obtain ⟨stop, items, rfl, hstop, hrow⟩ := row_of_parse h
  refine ⟨formed_of_parse h, rfl, fun n hn => ?_, fun n hn hk => ?_, fun n hn hk m hm => ?_⟩
  · rcases settled_of_parse h hn with rfl | ⟨hsettled, -⟩
    · exact ⟨Text.isBoundary_zero source, hstop⟩
    · exact hsettled.boundaries
  · rcases settled_of_parse h hn with rfl | ⟨hsettled, -⟩
    · cases hk
    · exact (hsettled.solid hk).2.visible
  · have hmem := Node.mem_preorderAll.mpr ⟨n, hn, n.mem_preorder_self⟩
    have haccepts := (hrow.settled n hmem).accepts
    cases hkind : n.kind with
    | importDeclaration typeOnly =>
      rw [hkind] at haccepts
      rcases Node.mem_preorder.mp hm with rfl | ⟨c, hc, hm⟩
      · simp [hkind]
      · exact haccepts c hc m hm
    | _ =>
      rw [hkind] at hk
      cases hk

theorem plainQuasis_of_parse (h : parse dialect source = .ok script) : script.PlainQuasis := by
  intro n hn hkind
  rcases settled_of_parse h hn with rfl | ⟨hsettled, -⟩
  · obtain ⟨stop, items, rfl, -, -⟩ := row_of_parse h
    cases hkind
  · have haccepts := hsettled.accepts
    rw [hkind] at haccepts
    exact haccepts

end Parse

end EmberClasses.Script
