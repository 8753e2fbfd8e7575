import EmberClasses.Proofs.ImportGrammar
import EmberClasses.Proofs.ImportRevision
import EmberClasses.Proofs.TokenTexts

/-! All that an import of a script says, attributes and marks of single types included; a
declaration keeps only part of it. The names that an import binds are words that can stand for
variables, since the grammar takes no others. -/

namespace EmberClasses.Import

open Script (Node Kind Token Context Cursor Dialect topContext)
open Script.Lexer (isName)
open Script.Parser (usable)

structure Specifier extends Named where
  typeOnly : Bool
  deriving DecidableEq

structure Content where
  module : String := ""
  defaultName : Option String := none
  namespaceName : Option String := none
  specifiers : List Specifier := []
  attributes : List (String × String) := []
  typeOnly : Bool := false
  deriving DecidableEq

namespace Content

def text? (n : Node) : Option String :=
  match n.kind with
  | .identifier text => some text
  | .string text => some text
  | _ => none

def attribute? (parts : List Node) : Option (String × String) :=
  match parts with
  | [key, value] => do return (← text? key, ← text? value)
  | _ => none

def read (x : Content) (part : Node) : Content :=
  match part.kind with
  | .importDefault name => { x with defaultName := some name }
  | .importNamespace name => { x with namespaceName := some name }
  | .importNamed imported name typeOnly =>
    { x with specifiers := x.specifiers ++ [⟨⟨imported, name⟩, typeOnly⟩] }
  | .string module => { x with module := module }
  | .clause => { x with attributes := x.attributes ++ (attribute? part.children).toList }
  | _ => x

def ofStatement? (n : Node) : Option Content :=
  match n.kind with
  | .importDeclaration typeOnly => some (n.children.foldl read { typeOnly })
  | _ => none

def ofScript (script : Node) : List Content := script.children.filterMap ofStatement?

def declaration (x : Content) (span : Span) : Declaration :=
  { span, module := x.module, defaultName := x.defaultName, namespaceName := x.namespaceName,
    named := x.specifiers.map (·.toNamed), typeOnly := x.typeOnly }

def without (x : Content) (names : List String) : Content :=
  { x with
    defaultName := x.defaultName.filter (!names.contains ·)
    specifiers := x.specifiers.filter (!names.contains ·.localName) }

def add (x : Content) (r : Requirement) : Content :=
  match r.imported with
  | none => { x with defaultName := some r.localName }
  | some imported => { x with specifiers := x.specifiers ++ [⟨⟨imported, r.localName⟩, false⟩] }

variable {x : Content} {span : Span}

theorem declaration_read (x : Content) (span : Span) (part : Node) :
    (x.read part).declaration span = (x.declaration span).read part := by
  unfold read Declaration.read
  split <;> simp_all [declaration]

theorem declaration_foldl (parts : List Node) (x : Content) (span : Span) :
    (parts.foldl read x).declaration span = parts.foldl Declaration.read (x.declaration span) := by
  induction parts generalizing x with
  | nil => rfl
  | cons part parts ih => rw [List.foldl_cons, List.foldl_cons, ih, declaration_read]

theorem ofStatement?_declaration (n : Node) :
    Declaration.ofStatement? n = (ofStatement? n).map (·.declaration n.span) := by
  unfold Declaration.ofStatement? ofStatement?
  cases n.kind with
  | importDeclaration typeOnly =>
    exact congrArg some (declaration_foldl n.children { typeOnly } n.span).symm
  | _ => rfl

theorem declaration_without (names : List String) :
    (x.without names).declaration span = (x.declaration span).without names := by
  simp [without, declaration, Declaration.without, List.filter_map, Function.comp_def]

theorem declaration_addAll (rs : List Requirement) :
    (rs.foldl add x).declaration span = rs.foldl Declaration.add (x.declaration span) := by
  induction rs generalizing x with
  | nil => rfl
  | cons r rs ih =>
    have hadd : (x.add r).declaration span = (x.declaration span).add r := by
      unfold add Declaration.add
      cases r.imported <;> simp [declaration]
    rw [List.foldl_cons, List.foldl_cons, ih, hadd]

end Content

def IsLocal (name : String) : Prop :=
  isName name.toList = true ∧ usable (topContext ⟨false⟩ 0) name = true

instance (name : String) : Decidable (IsLocal name) := inferInstanceAs (Decidable (_ ∧ _))

/-- A declaration that the grammar could have read, as far as its local names go. -/
structure Declaration.Usual (d : Declaration) : Prop where
  names : ∀ name ∈ d.localNames, IsLocal name
  alone : d.namespaceName = none ∨ d.named = []

section Reading

open Script.Grammar

variable {dialect : Dialect} {size : Nat} {c c' : Cursor}

/-- The token is a word, and the word can stand for a variable. -/
theorem isLocal_of_token {name : String} {escaped : Bool} (hc : c.At c.here)
    (htoken : c.token = .name name escaped) (h : usable (topContext dialect size) name = true) :
    IsLocal name := by
  obtain ⟨n, hscan⟩ := hc.scan
  rw [htoken] at hscan
  exact ⟨(Script.Lexer.name_of_scanToken hscan).1, h⟩

theorem isLocal_of_specifier {n : Node} (hc : c.At c.here)
    (h : importSpecifier (topContext dialect size) c = .ok (n, c')) :
    (∃ imported name typeOnly, n.kind = .importNamed imported name typeOnly ∧ IsLocal name) ∧
      c'.At c'.here := by
  obtain ⟨typeOnly, imported, name, c₁, c₂, hfirst, -, hnext, hkind, -, husable, hrest⟩ :=
    importSpecifier_eq_ok h
  have hc₁ : c₁.At c₁.here := by
    rcases hfirst with rfl | ⟨-, hfirst⟩
    · exact hc
    · exact (Cursor.advance_eq_ok hfirst).1
  have hc₂ := (Cursor.advance_eq_ok hnext).1
  rcases hrest with ⟨c₃, escaped, -, hafter, htoken, hlast⟩ | ⟨⟨escaped, htoken⟩, -, rfl⟩
  · have hlocal := isLocal_of_token (Cursor.advance_eq_ok hafter).1 htoken husable
    exact ⟨⟨imported, name, typeOnly, hkind, hlocal⟩, (Cursor.advance_eq_ok hlast).1⟩
  · exact ⟨⟨imported, name, typeOnly, hkind, isLocal_of_token hc₁ htoken husable⟩, hc₂⟩

def bound? (part : Node) : Option String :=
  match part.kind with
  | .importDefault name => some name
  | .importNamespace name => some name
  | .importNamed _ name _ => some name
  | _ => none

/-- The parts of an import bind names that can stand for variables, and a namespace does not stand
beside names in braces. -/
structure UsualParts (parts : List Node) : Prop where
  names : ∀ n ∈ parts, ∀ name, bound? n = some name → IsLocal name
  alone : (∀ n ∈ parts, ∀ name, n.kind ≠ .importNamespace name) ∨
    ∀ n ∈ parts, ∀ imported name typeOnly, n.kind ≠ .importNamed imported name typeOnly

def IsAside (n : Node) : Prop :=
  (∃ name, n.kind = .importDefault name ∧ IsLocal name) ∨ (∃ module, n.kind = .string module) ∨
    n.kind = .clause

theorem UsualParts.append {first parts last : List Node} (h : UsualParts parts)
    (hfirst : ∀ n ∈ first, IsAside n) (hlast : ∀ n ∈ last, IsAside n) :
    UsualParts (first ++ parts ++ last) := by
  have haside {n : Node} (hn : IsAside n) : (∀ name, bound? n = some name → IsLocal name) ∧
      (∀ name, n.kind ≠ .importNamespace name) ∧
      ∀ imported name typeOnly, n.kind ≠ .importNamed imported name typeOnly := by
    rcases hn with ⟨name, hk, hlocal⟩ | ⟨module, hk⟩ | hk
    · simp [bound?, hk, hlocal]
    · simp [bound?, hk]
    · simp [bound?, hk]
  have hmem {n : Node} (hn : n ∈ first ++ parts ++ last) : n ∈ parts ∨ IsAside n := by
    rw [List.mem_append, List.mem_append] at hn
    rcases hn with (hn | hn) | hn
    · exact .inr (hfirst n hn)
    · exact .inl hn
    · exact .inr (hlast n hn)
  constructor
  · intro n hn
    rcases hmem hn with hn | hn
    · exact h.names n hn
    · exact (haside hn).1
  · rcases h.alone with halone | halone
    · left
      intro n hn
      rcases hmem hn with hn | hn
      · exact halone n hn
      · exact (haside hn).2.1
    · right
      intro n hn
      rcases hmem hn with hn | hn
      · exact halone n hn
      · exact (haside hn).2.2

theorem usualParts_of_rest {first names : List Node} {c c' : Cursor}
    (h : importRest first (topContext dialect size) c = .ok (names, c')) :
    ∃ rest, names = first ++ rest ∧ UsualParts rest := by
  rcases importRest_eq_ok h with
    ⟨name, escaped, n, c₁, c₂, -, -, -, hnext, htoken, husable, -, hkind, -, rfl⟩ |
    ⟨ns, c₁, -, hnext, hlist, rfl⟩
  · have hlocal := isLocal_of_token (Cursor.advance_eq_ok hnext).1 htoken husable
    refine ⟨[n], rfl, ?_, .inr ?_⟩
    · intro m hm name' hname'
      rw [List.mem_singleton.mp hm, bound?, hkind, Option.some.injEq] at hname'
      exact hname' ▸ hlocal
    · intro m hm
      rw [List.mem_singleton.mp hm, hkind]
      simp
  · have hns := Script.Parser.forall_of_commaList
      (fun c c' n hc hn => isLocal_of_specifier hc hn)
      (fun c c' _ hnext => (Cursor.advance_eq_ok hnext).1) (Cursor.advance_eq_ok hnext).1 hlist
    refine ⟨ns, rfl, ?_, .inl ?_⟩
    · intro n hn name hname
      obtain ⟨imported, name', typeOnly, hkind, hlocal⟩ := hns n hn
      rw [bound?, hkind, Option.some.injEq] at hname
      exact hname ▸ hlocal
    · intro n hn name
      obtain ⟨imported, name', typeOnly, hkind, hlocal⟩ := hns n hn
      rw [hkind]
      simp

theorem aside_of_moduleName {source : List Node}
    (h : moduleName (topContext dialect size) c = .ok (source, c')) : ∀ n ∈ source, IsAside n := by
  obtain ⟨value, n, attributes, c₁, -, -, hkind, -, rfl, hattributes⟩ := moduleName_eq_ok h
  intro m hm
  rcases List.mem_cons.mp hm with rfl | hm
  · exact .inr (.inl ⟨value, hkind⟩)
  · exact .inr (.inr (importAttributes_eq_ok hattributes m hm))

theorem usualParts_of_clause {names last : List Node} (hc : c.At c.here)
    (h : importClause (topContext dialect size) c = .ok (names, c'))
    (hlast : ∀ n ∈ last, IsAside n) : UsualParts (names ++ last) := by
  have hnil : UsualParts [] := ⟨by simp, .inl (by simp)⟩
  rcases importClause_eq_ok h with
    ⟨name, escaped, n, c₁, htoken, husable, -, hkind, -, hend⟩ | ⟨-, hend⟩
  · have hfirst : ∀ m ∈ [n], IsAside m := by
      intro m hm
      rw [List.mem_singleton.mp hm]
      exact .inl ⟨name, hkind, isLocal_of_token hc htoken husable⟩
    rcases hend with ⟨-, rfl, rfl⟩ | ⟨c₂, -, -, hend⟩
    · exact hnil.append hfirst hlast
    · obtain ⟨rest, rfl, hrest⟩ := usualParts_of_rest hend
      exact hrest.append hfirst hlast
  · obtain ⟨rest, rfl, hrest⟩ := usualParts_of_rest hend
    exact hrest.append (List.forall_mem_nil IsAside) hlast

theorem usualParts_of_parse {source : List Char} {script n : Node} {typeOnly : Bool}
    (h : Script.parse dialect source = .ok script) (hn : n ∈ script.children)
    (hk : n.kind = .importDeclaration typeOnly) : UsualParts n.children := by
  obtain ⟨c, c', himport⟩ := Script.importDeclaration_of_parse h hn hk
  obtain ⟨c₁, -, hnext, hrest⟩ := importDeclaration_eq_ok himport
  have hnil : UsualParts [] := ⟨by simp, .inl (by simp)⟩
  rcases hrest with hmodule | ⟨source, c₂, hsource, -, hchildren⟩ |
    ⟨typeOnly', start, c₀, c₂, hmoved, hbody⟩
  · rw [hk] at hmodule
    cases hmodule
  · rw [hchildren]
    exact hnil.append (List.forall_mem_nil IsAside) (aside_of_moduleName hsource)
  · obtain ⟨names, source, c₃, c₄, c₅, hnames, -, -, hsource, -, hchildren⟩ :=
      importBody_eq_ok hbody
    rw [hchildren]
    exact usualParts_of_clause (Cursor.advance_eq_ok hmoved).1 hnames (aside_of_moduleName hsource)

theorem localNames_read {d : Declaration} {part : Node} {name : String}
    (h : name ∈ (d.read part).localNames) : name ∈ d.localNames ∨ bound? part = some name := by
  unfold Declaration.read at h
  unfold bound?
  split at h
  all_goals
    rename_i hk
    simp only [Declaration.localNames, List.mem_append, Option.mem_toList, List.map_append,
      List.map_cons, List.map_nil, List.mem_singleton, Option.some.injEq] at h ⊢
    grind

/-- The declarations of a script bind names that can stand for variables. -/
theorem usual_of_parse {source : List Char} {script : Node} {d : Declaration}
    (h : Script.parse dialect source = .ok script) (hd : d ∈ Declaration.ofScript script) :
    d.Usual := by
  obtain ⟨n, hn, hd⟩ := List.mem_filterMap.mp hd
  unfold Declaration.ofStatement? at hd
  split at hd
  · rename_i typeOnly hk
    cases hd
    obtain ⟨hnames, halone⟩ := usualParts_of_parse h hn hk
    constructor
    · refine List.foldlRecOn (motive := fun d : Declaration => ∀ name ∈ d.localNames, IsLocal name)
        _ _ (by simp [Declaration.localNames]) fun d hd part hpart name hname => ?_
      rcases localNames_read hname with hname | hname
      · exact hd name hname
      · exact hnames part hpart name hname
    · rcases halone with halone | halone
      · left
        refine List.foldlRecOn (motive := fun d : Declaration => d.namespaceName = none)
          _ _ rfl fun d hd part hpart => ?_
        unfold Declaration.read
        split
        · exact hd
        · rename_i hk
          exact absurd hk (halone part hpart _)
        all_goals exact hd
      · right
        refine List.foldlRecOn (motive := fun d : Declaration => d.named = [])
          _ _ rfl fun d hd part hpart => ?_
        unfold Declaration.read
        split
        · exact hd
        · exact hd
        · rename_i hk
          exact absurd hk (halone part hpart _ _ _)
        all_goals exact hd
  · cases hd

end Reading

end EmberClasses.Import
