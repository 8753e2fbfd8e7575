import EmberClasses.Proofs.ClassBuild

/-! What a class is made of. Apart from what is generated, every piece of code in a class was cut
from the source, as it stands there or with the super calls of a function rewritten. The cuts of a
class are listed here without building it. -/

namespace EmberClasses

/-- A part of the source that a class takes over. -/
inductive Cut where
  /-- Code that is copied as it stands. -/
  | plain (span : Span)
  /-- The body of a function, with edits. -/
  | body (span : Span) (edits : List Edit)

namespace Cut

def span : Cut → Span
  | plain span => span
  | body span _ => span

def edits : Cut → List Edit
  | plain _ => []
  | body _ edits => edits

/-- The fragment is what comes of the cut when lines are moved to the left by `columns`. -/
def MakesAt (c : Copy) (columns : Nat) (k : Cut) (f : Fragment) : Prop :=
  c.edited k.span k.edits columns = .ok f

/-- The fragment is what comes of the cut. -/
def Makes (c : Copy) (k : Cut) (f : Fragment) : Prop :=
  ∃ columns, c.edited k.span k.edits columns = .ok f

theorem MakesAt.makes {c : Copy} {columns : Nat} {k : Cut} {f : Fragment}
    (h : k.MakesAt c columns f) : k.Makes c f := ⟨columns, h⟩

/-- The cut copies a part of the source as it stands. -/
def Copies (k : Cut) (s : Span) : Prop := s.Inside k.span ∧ ∀ e ∈ k.edits, s.Apart e.span

instance (k : Cut) (s : Span) : Decidable (k.Copies s) :=
  inferInstanceAs (Decidable (_ ∧ ∀ e ∈ k.edits, _))

end Cut

theorem Except.bind_eq_ok {α β ε : Type} {x : Except ε α} {f : α → Except ε β} {b : β}
    (h : x >>= f = .ok b) : ∃ a, x = .ok a ∧ f a = .ok b :=
  match x, h with
  | .ok a, h => ⟨a, rfl, h⟩

theorem Except.ok_of_mapError {α ε ε' : Type} {f : ε → ε'} {x : Except ε α} {a : α}
    (h : x.mapError f = .ok a) : x = .ok a := by
  cases x with
  | error e => cases h
  | ok b => cases h; rfl

theorem Copy.edited_eq_ok {c : Copy} {span : Span} {edits : List Edit} {columns : Nat}
    {f : Fragment} (h : c.edited span edits columns = .ok f) :
    Fragment.cut c.source span edits c.quasis columns = .ok f :=
  Except.ok_of_mapError h

theorem Except.exists_of_mem_mapM {α β ε : Type} {f : α → Except ε β} {l : List α} {bs : List β}
    (h : l.mapM f = .ok bs) {b : β} (hb : b ∈ bs) : ∃ a ∈ l, f a = .ok b := by
  induction l generalizing bs with
  | nil => cases h; cases hb
  | cons a l ih =>
    rw [List.mapM_cons] at h
    obtain ⟨b', hb', h⟩ := Except.bind_eq_ok h
    obtain ⟨bs', hbs', h⟩ := Except.bind_eq_ok h
    cases h
    rcases List.mem_cons.mp hb with rfl | hb
    · exact ⟨a, List.mem_cons_self, hb'⟩
    · obtain ⟨x, hx, hfx⟩ := ih hbs' hb
      exact ⟨x, List.mem_cons_of_mem a hx, hfx⟩

/-- The fragments are those of the cuts, and generated ones. -/
structure Composed (c : Copy) (cuts : List Cut) (generated fragments : List Fragment) : Prop where
  all : ∀ k ∈ cuts, ∃ f ∈ fragments, k.Makes c f
  only : ∀ f ∈ fragments, f ∈ generated ∨ ∃ k ∈ cuts, k.Makes c f

structure ComposedBy {α : Type} (makes : α → Fragment → Prop) (cuts : List α)
    (generated fragments : List Fragment) : Prop where
  all : ∀ k ∈ cuts, ∃ f ∈ fragments, makes k f
  only : ∀ f ∈ fragments, f ∈ generated ∨ ∃ k ∈ cuts, makes k f

namespace ComposedBy

variable {α : Type} {makes : α → Fragment → Prop} {cuts cuts' : List α}
  {generated generated' fragments fragments' : List Fragment}

theorem nil : ComposedBy makes [] [] [] := ⟨by simp, by simp⟩

theorem of_generated (fs : List Fragment) : ComposedBy makes [] fs fs :=
  ⟨by simp, fun _ hf => .inl hf⟩

theorem map {β : Type} {makes' : β → Fragment → Prop}
    (h : ComposedBy makes cuts generated fragments) {g : α → β}
    (hg : ∀ k f, makes k f → makes' (g k) f) :
    ComposedBy makes' (cuts.map g) generated fragments := by
  constructor
  · intro _ hmem
    obtain ⟨k, hk, rfl⟩ := List.mem_map.mp hmem
    obtain ⟨f, hf, hm⟩ := h.all k hk
    exact ⟨f, hf, hg k f hm⟩
  · intro f hf
    rcases h.only f hf with hf | ⟨k, hk, hm⟩
    · exact .inl hf
    · exact .inr ⟨g k, List.mem_map_of_mem hk, hg k f hm⟩

theorem composed_iff {c : Copy} {cuts : List Cut} :
    Composed c cuts generated fragments ↔ ComposedBy (Cut.Makes c) cuts generated fragments :=
  ⟨fun h => ⟨h.all, h.only⟩, fun h => ⟨h.all, h.only⟩⟩

theorem append (h : ComposedBy makes cuts generated fragments)
    (h' : ComposedBy makes cuts' generated' fragments') :
    ComposedBy makes (cuts ++ cuts') (generated ++ generated') (fragments ++ fragments') := by
  constructor
  · intro k hk
    rcases List.mem_append.mp hk with hk | hk
    · obtain ⟨f, hf, hm⟩ := h.all k hk
      exact ⟨f, List.mem_append_left _ hf, hm⟩
    · obtain ⟨f, hf, hm⟩ := h'.all k hk
      exact ⟨f, List.mem_append_right _ hf, hm⟩
  · intro f hf
    rcases List.mem_append.mp hf with hf | hf
    · rcases h.only f hf with hg | ⟨k, hk, hm⟩
      · exact .inl (List.mem_append_left _ hg)
      · exact .inr ⟨k, List.mem_append_left _ hk, hm⟩
    · rcases h'.only f hf with hg | ⟨k, hk, hm⟩
      · exact .inl (List.mem_append_right _ hg)
      · exact .inr ⟨k, List.mem_append_right _ hk, hm⟩

theorem congr (h : ComposedBy makes cuts generated fragments)
    (hf : ∀ f, f ∈ fragments' ↔ f ∈ fragments) : ComposedBy makes cuts generated fragments' := by
  refine ⟨fun k hk => ?_, fun f hmem => h.only f ((hf f).mp hmem)⟩
  obtain ⟨f, hmem, hm⟩ := h.all k hk
  exact ⟨f, (hf f).mpr hmem, hm⟩

theorem of_mapM {β γ : Type} {g : β → Except Breach γ} (cutsOf : β → List α)
    (generatedOf : β → List Fragment) (fragmentsOf : γ → List Fragment) {l : List β} {bs : List γ}
    (hg : ∀ a ∈ l, ∀ b, g a = .ok b → ComposedBy makes (cutsOf a) (generatedOf a) (fragmentsOf b))
    (h : l.mapM g = .ok bs) :
    ComposedBy makes (l.flatMap cutsOf) (l.flatMap generatedOf) (bs.flatMap fragmentsOf) := by
  induction l generalizing bs with
  | nil => cases h; exact nil
  | cons a l ih =>
    rw [List.mapM_cons] at h
    obtain ⟨b, hb, h⟩ := Except.bind_eq_ok h
    obtain ⟨bs', hbs, h⟩ := Except.bind_eq_ok h
    cases h
    exact (hg a List.mem_cons_self b hb).append
      (ih (fun x hx => hg x (List.mem_cons_of_mem a hx)) hbs)

theorem of_mapM_cuts {β γ : Type} {g : β → Except Breach γ} (cutsOf : β → List α)
    (fragmentsOf : γ → List Fragment) {l : List β} {bs : List γ}
    (hg : ∀ a ∈ l, ∀ b, g a = .ok b → ComposedBy makes (cutsOf a) [] (fragmentsOf b))
    (h : l.mapM g = .ok bs) : ComposedBy makes (l.flatMap cutsOf) [] (bs.flatMap fragmentsOf) := by
  have hnone : (l.flatMap fun _ => ([] : List Fragment)) = [] := by simp
  have hcomposed := of_mapM cutsOf (fun _ => []) fragmentsOf hg h
  rwa [hnone] at hcomposed

theorem of_makes {k : α} {f : Fragment} (h : makes k f) : ComposedBy makes [k] [] [f] :=
  ⟨fun _ hk => ⟨f, List.mem_cons_self, List.mem_singleton.mp hk ▸ h⟩,
    fun _ hg => .inr ⟨_, List.mem_cons_self, List.mem_singleton.mp hg ▸ h⟩⟩

theorem of_snippets {c : Copy} {columns : Nat} {spans : List Span} {fs : List Fragment}
    (h : spans.mapM (c.snippet columns) = .ok fs) :
    ComposedBy (Cut.MakesAt c columns) (spans.map Cut.plain) [] fs := by
  have hcomposed : ComposedBy (Cut.MakesAt c columns) (spans.flatMap fun s => [Cut.plain s]) []
      (fs.flatMap fun f => [f]) :=
    of_mapM_cuts (fun s => [Cut.plain s]) (fun f => [f]) (fun s _ f hf => of_makes hf) h
  rwa [List.flatMap_singleton', ← List.map_eq_flatMap] at hcomposed

end ComposedBy

def Member.fragments (m : Member) : List Fragment :=
  m.decorators.flatMap AppliedDecorator.args ++
    match m.body with
    | .field value => value.toList
    | .method f => f.body :: f.params

def ClassDecl.fragments (d : ClassDecl) : List Fragment :=
  d.decorators.flatMap AppliedDecorator.args ++ d.members.flatMap Member.fragments

/-- Every object of accessors has one. -/
def Chain.Complete (chain : Chain) : Prop :=
  ∀ a, Argument.accessors a ∈ chain.args → a.getter.isSome ∨ a.setter.isSome

def Property.Complete (p : Property) : Prop := ∀ chain, p.shape = .call chain → chain.Complete

namespace Member

/-- What a property becomes: its actions, one method or field with the recorded decorators, or what
its call comes to. -/
inductive Becomes (c : Copy) (p : Property) : List Member → Prop where
  | actions {ms : List Member} : p.isActions → p.actions.mapM (ofAction c) = .ok ms →
      Becomes c p ms
  | function {f : Callable} {m : Member} : ¬ p.isActions → p.shape = .function f →
      ofFunction c (c.columnsOf p.span) p.name (if p.kind = .getter then .getter else .method)
        (superRule p) 0 f = .ok m →
      Becomes c p [{ m with decorators := recordedDecorators c.quote p }]
  | call {chain : Chain} {ms : List Member} : ¬ p.isActions → p.shape = .call chain →
      ofCall c (c.columnsOf p.span) p chain = .ok ms → Becomes c p ms
  | field {span : Span} {m : Member} : ¬ p.isActions → p.shape.isPlain →
      p.shape.span? = some span → field c (c.columnsOf p.span) p span = .ok m →
      Becomes c p [{ m with decorators := recordedDecorators c.quote p }]

theorem becomes_of_bodies {c : Copy} {p : Property} {ms : List Member}
    (h : bodies c p = .ok ms) : Becomes c p ms := by
  have hplain {span : Span} (hactions : ¬ p.isActions) (hshape : p.shape.isPlain)
      (hspan : p.shape.span? = some span)
      (h : (do return [{ ← field c (c.columnsOf p.span) p span with
        decorators := recordedDecorators c.quote p }]) = .ok ms) : Becomes c p ms := by
    obtain ⟨m, hm, h⟩ := Except.bind_eq_ok h
    cases h
    exact .field hactions hshape hspan hm
  unfold bodies at h
  dsimp only at h
  split at h
  · exact .actions ‹_› h
  · rename_i hactions
    cases hshape : p.shape with
    | function f =>
      rw [hshape] at h
      obtain ⟨m, hm, h⟩ := Except.bind_eq_ok h
      cases h
      exact .function hactions hshape hm
    | call chain => rw [hshape] at h; exact .call hactions hshape h
    | unsupported reason => rw [hshape] at h; cases h
    | literal s => rw [hshape] at h hplain; exact hplain hactions rfl rfl h
    | identifier n s => rw [hshape] at h hplain; exact hplain hactions rfl rfl h
    | array s es => rw [hshape] at h hplain; exact hplain hactions rfl rfl h
    | object s => rw [hshape] at h hplain; exact hplain hactions rfl rfl h
    | expression s => rw [hshape] at h hplain; exact hplain hactions rfl rfl h

/-- The comments of the property are all that is added then. -/
theorem becomes_of_ofProperty {c : Copy} {p : Property} {ms : List Member}
    (h : ofProperty c p = .ok ms) :
    ∃ members, Becomes c p members ∧ ms = commentFirst p.comments members := by
  unfold ofProperty at h
  cases hbodies : bodies c p with
  | error e => rw [hbodies] at h; cases h
  | ok members =>
    rw [hbodies] at h
    cases h
    exact ⟨members, becomes_of_bodies hbodies, rfl⟩

/-- A method takes over the body of a function with edits, and its parameters without. -/
def functionCuts (source : List Char) (name : String) (rule : SuperRule) (skip : Nat)
    (f : Callable) : List Cut :=
  .body f.body (bodyEdits source name rule f) :: (f.params.drop skip).map Cut.plain

theorem ofFunction_composed {c : Copy} {columns : Nat} {name : String} {kind : MethodKind}
    {rule : SuperRule} {skip : Nat} {f : Callable} {m : Member}
    (h : ofFunction c columns name kind rule skip f = .ok m) :
    m.decorators = [] ∧
      ComposedBy (Cut.MakesAt c columns) (functionCuts c.source name rule skip f) []
        m.fragments := by
  unfold ofFunction at h
  obtain ⟨body, hbody, h⟩ := Except.bind_eq_ok h
  obtain ⟨params, hparams, h⟩ := Except.bind_eq_ok h
  cases h
  exact ⟨rfl, (ComposedBy.of_makes hbody).append (ComposedBy.of_snippets hparams)⟩

def fieldCuts (p : Property) (span : Span) : List Cut :=
  if p.keepsValue then [Cut.plain span] else []

theorem field_composed {c : Copy} {columns : Nat} {p : Property} {span : Span} {m : Member}
    (h : field c columns p span = .ok m) :
    m.decorators = [] ∧
      ComposedBy (Cut.MakesAt c columns) (fieldCuts p span) [] m.fragments := by
  unfold field at h
  unfold fieldCuts
  split at h
  · rename_i hkeeps
    rw [if_pos hkeeps]
    cases hs : c.snippet columns span with
    | error e => rw [hs] at h; cases h
    | ok f =>
      rw [hs] at h
      cases h
      exact ⟨rfl, ComposedBy.of_makes hs⟩
  · rename_i hkeeps
    rw [if_neg hkeeps]
    cases h
    exact ⟨rfl, ComposedBy.nil⟩

def decoratorCuts (p : Property) (chain : Chain) : List Cut :=
  if p.keepsCallDecorator && p.decorators.any Decorator.isFromCall then
    (decoratorArgs p chain).map fun a => Cut.plain a.span
  else []

theorem callDecorators_composed {c : Copy} {columns : Nat} {p : Property} {chain : Chain}
    {ds : List AppliedDecorator} (h : callDecorators c columns p chain = .ok ds) :
    ComposedBy (Cut.MakesAt c columns) (decoratorCuts p chain) []
      (ds.flatMap AppliedDecorator.args) := by
  unfold callDecorators at h
  unfold decoratorCuts
  split at h
  · rename_i hkeeps
    obtain ⟨args, hargs, h⟩ := Except.bind_eq_ok h
    have hmap :
        ((decoratorArgs p chain).map Argument.span).mapM (c.snippet columns) = .ok args := by
      rw [List.mapM_map]
      exact hargs
    have hcomposed := ComposedBy.of_snippets hmap
    rw [List.map_map] at hcomposed
    cases h
    rw [hkeeps, Bool.true_and]
    have hread : (if p.isReadOnly && !p.isVolatile then [(⟨"readOnly", []⟩ : AppliedDecorator)]
        else []).flatMap AppliedDecorator.args = [] := by
      split <;> rfl
    rw [List.flatMap_append, hread, List.append_nil, List.flatMap_map]
    by_cases hany : p.decorators.any Decorator.isFromCall
    · rw [if_pos hany]
      obtain ⟨d, hd, hcall⟩ := List.any_eq_true.mp hany
      refine hcomposed.congr fun f => ?_
      simp only [List.mem_flatMap, List.mem_filter]
      exact ⟨fun ⟨_, _, hf⟩ => hf, fun hf => ⟨d, ⟨hd, hcall⟩, hf⟩⟩
    · have hnone : p.decorators.filter Decorator.isFromCall = [] := by
        simpa [List.filter_eq_nil_iff] using hany
      rw [if_neg hany, hnone]
      exact ComposedBy.nil
  · rename_i hkeeps
    cases h
    rw [if_neg (by simp [hkeeps])]
    exact ComposedBy.nil

/-- What the call of a property becomes, its decorators apart. -/
def callCuts (source : List Char) (p : Property) (chain : Chain) : List Cut :=
  let function := functionCuts source p.name (superRule p)
  match p.kind, chain.args.getLast? with
  | .method, some (.function f) => function 0 f
  | .getter, some (.function f) => function 0 f
  | .getter, some (.accessors a) =>
    a.getter.toList.flatMap (function 0) ++ a.setter.toList.flatMap (function 1)
  | _, _ => fieldCuts p chain.span

theorem callBodies_composed {c : Copy} {columns : Nat} {p : Property} {chain : Chain}
    {ms : List Member} (h : callBodies c columns p chain = .ok ms) :
    (∀ m ∈ ms, m.decorators = []) ∧
      ComposedBy (Cut.MakesAt c columns) (callCuts c.source p chain) []
        (ms.flatMap Member.fragments) := by
  have hone {x : Except Breach Member} {cuts : List Cut} {ms : List Member}
      (hx : ∀ m, x = .ok m → m.decorators = [] ∧
        ComposedBy (Cut.MakesAt c columns) cuts [] m.fragments)
      (h : (do return [← x]) = .ok ms) :
      (∀ m ∈ ms, m.decorators = []) ∧
        ComposedBy (Cut.MakesAt c columns) cuts [] (ms.flatMap Member.fragments) := by
    obtain ⟨m, hm, h⟩ := Except.bind_eq_ok h
    cases h
    obtain ⟨hd, hc⟩ := hx m hm
    exact ⟨fun n hn => by rw [List.mem_singleton.mp hn]; exact hd, by simpa using hc⟩
  have hmany {kind : MethodKind} {skip : Nat} {fs : List Callable} {ms : List Member}
      (h : fs.mapM (ofFunction c columns p.name kind (superRule p) skip) = .ok ms) :
      (∀ m ∈ ms, m.decorators = []) ∧
        ComposedBy (Cut.MakesAt c columns)
          (fs.flatMap (functionCuts c.source p.name (superRule p) skip)) []
          (ms.flatMap Member.fragments) := by
    refine ⟨fun m hm => ?_, ?_⟩
    · obtain ⟨f, -, hf⟩ := Except.exists_of_mem_mapM h hm
      exact (ofFunction_composed hf).1
    · exact ComposedBy.of_mapM_cuts _ _ (fun f _ m hm => (ofFunction_composed hm).2) h
  -- The goal is opened only after the split, which would otherwise take both sides apart.
  unfold callBodies at h
  dsimp only at h
  split at h
  · rename_i f hkind hlast
    simp only [callCuts, hkind, hlast]
    exact hone (fun m hm => ofFunction_composed hm) h
  · rename_i f hkind hlast
    simp only [callCuts, hkind, hlast]
    exact hone (fun m hm => ofFunction_composed hm) h
  · rename_i a hkind hlast
    simp only [callCuts, hkind, hlast]
    obtain ⟨getter, hgetter, h⟩ := Except.bind_eq_ok h
    obtain ⟨setter, hsetter, h⟩ := Except.bind_eq_ok h
    cases h
    obtain ⟨hg, hgc⟩ := hmany hgetter
    obtain ⟨hs, hsc⟩ := hmany hsetter
    refine ⟨fun m hm => (List.mem_append.mp hm).elim (hg m) (hs m), ?_⟩
    rw [List.flatMap_append]
    exact hgc.append hsc
  · rename_i hmethod hgetter haccessors
    unfold callCuts
    dsimp only
    split
    · exact (hmethod _ ‹_› ‹_›).elim
    · exact (hgetter _ ‹_› ‹_›).elim
    · exact (haccessors _ ‹_› ‹_›).elim
    · exact hone (fun m hm => field_composed hm) h

theorem fragments_decorated {m : Member} (hm : m.decorators = []) (comments : List (List Char))
    (ds : List AppliedDecorator) :
    ({ m with comments, decorators := ds } : Member).fragments =
      ds.flatMap AppliedDecorator.args ++ m.fragments := by
  simp [fragments, hm]

theorem flatMap_fragments_decorateFirst {ms : List Member} (hne : ms ≠ [])
    (hms : ∀ m ∈ ms, m.decorators = []) (ds : List AppliedDecorator) :
    (decorateFirst ds ms).flatMap fragments =
      ds.flatMap AppliedDecorator.args ++ ms.flatMap fragments := by
  cases ms with
  | nil => exact absurd rfl hne
  | cons m ms =>
    rw [decorateFirst, List.flatMap_cons, List.flatMap_cons,
      fragments_decorated (hms m List.mem_cons_self), List.append_assoc]

theorem flatMap_fragments_commentFirst (comments : List (List Char)) (ms : List Member) :
    (commentFirst comments ms).flatMap fragments = ms.flatMap fragments := by
  cases ms <;> rfl

def recordedCode (quote : Quote) (p : Property) : List Fragment :=
  (recordedDecorators quote p).flatMap AppliedDecorator.args

theorem callBodies_ne_nil {c : Copy} {columns : Nat} {p : Property} {chain : Chain}
    {ms : List Member} (hchain : chain.Complete) (h : callBodies c columns p chain = .ok ms) :
    ms ≠ [] := by
  have hone {x : Except Breach Member} {ms : List Member} (h : (do return [← x]) = .ok ms) :
      ms ≠ [] := by
    obtain ⟨m, -, h⟩ := Except.bind_eq_ok h
    cases h
    simp
  have hmany {g : Callable → Except Breach Member} {f : Option Callable} {ms : List Member}
      (hf : f.isSome) (h : f.toList.mapM g = .ok ms) : ms ≠ [] := by
    obtain ⟨f, rfl⟩ := Option.isSome_iff_exists.mp hf
    rw [Option.toList_some, List.mapM_cons] at h
    obtain ⟨m, -, h⟩ := Except.bind_eq_ok h
    obtain ⟨_, -, h⟩ := Except.bind_eq_ok h
    cases h
    simp
  unfold callBodies at h
  dsimp only at h
  split at h
  · exact hone h
  · exact hone h
  · rename_i a _ hlast
    obtain ⟨getter, hgetter, h⟩ := Except.bind_eq_ok h
    obtain ⟨setter, hsetter, h⟩ := Except.bind_eq_ok h
    cases h
    rcases hchain a (List.mem_of_getLast? hlast) with hsome | hsome
    · exact List.append_ne_nil_of_left_ne_nil (hmany hsome hgetter) _
    · exact List.append_ne_nil_of_right_ne_nil _ (hmany hsome hsetter)
  · exact hone h

theorem ofCall_composed {c : Copy} {columns : Nat} {p : Property} {chain : Chain}
    {ms : List Member} (hchain : chain.Complete) (h : ofCall c columns p chain = .ok ms) :
    ComposedBy (Cut.MakesAt c columns) (decoratorCuts p chain ++ callCuts c.source p chain)
      (recordedCode c.quote p) (ms.flatMap fragments) := by
  unfold ofCall at h
  obtain ⟨called, hcalled, h⟩ := Except.bind_eq_ok h
  obtain ⟨bodies, hbodies, h⟩ := Except.bind_eq_ok h
  cases h
  obtain ⟨hplain, hcomposed⟩ := callBodies_composed hbodies
  rw [flatMap_fragments_decorateFirst (callBodies_ne_nil hchain hbodies) hplain,
    List.flatMap_append, List.append_assoc]
  have := (ComposedBy.of_generated (recordedCode c.quote p)).append
    ((callDecorators_composed hcalled).append hcomposed)
  simpa [recordedCode] using this

def actionCuts (source : List Char) (a : Action) : List Cut :=
  match a.value with
  | .function f =>
    functionCuts source a.name (if a.superIsUndefined then .undefined else .parent true) 0 f
  | _ => []

def actionCode (a : Action) : List Fragment :=
  match a.value with
  | .identifier reference =>
    [.ofString ("\x7b\n  return " ++ reference ++ ".call(this, ...arguments);\n\x7d")]
  | _ => []

theorem ofAction_composed {c : Copy} {a : Action} {m : Member} (h : ofAction c a = .ok m) :
    ComposedBy (Cut.MakesAt c (c.columnsOf a.span)) (actionCuts c.source a) (actionCode a)
      m.fragments := by
  unfold ofAction at h
  unfold actionCuts actionCode
  dsimp only at h
  cases hv : a.value with
  | function f =>
    rw [hv] at h
    obtain ⟨m', hm', h⟩ := Except.bind_eq_ok h
    cases h
    obtain ⟨hplain, hcomposed⟩ := ofFunction_composed hm'
    rw [fragments_decorated hplain]
    exact hcomposed
  | identifier reference =>
    rw [hv] at h
    cases h
    exact ComposedBy.of_generated _
  | unsupported reason => rw [hv] at h; cases h

def cuts (source : List Char) (p : Property) : List Cut :=
  if p.isActions then p.actions.flatMap (actionCuts source)
  else
    match p.shape with
    | .function f => functionCuts source p.name (superRule p) 0 f
    | .call chain => decoratorCuts p chain ++ callCuts source p chain
    | .unsupported _ => []
    | .literal span => fieldCuts p span
    | .identifier _ span => fieldCuts p span
    | .array span _ => fieldCuts p span
    | .object span => fieldCuts p span
    | .expression span => fieldCuts p span

def code (quote : Quote) (p : Property) : List Fragment :=
  if p.isActions then p.actions.flatMap actionCode else recordedCode quote p

/-- The cuts of a property, each with the number of columns that its lines move to the left. -/
def cutsAt (c : Copy) (p : Property) : List (Cut × Nat) :=
  if p.isActions then
    p.actions.flatMap fun a => (actionCuts c.source a).map (·, c.columnsOf a.span)
  else (cuts c.source p).map (·, c.columnsOf p.span)

theorem map_fst_cutsAt (c : Copy) (p : Property) :
    (cutsAt c p).map Prod.fst = cuts c.source p := by
  unfold cutsAt
  split
  · rename_i hactions
    simp [cuts, hactions, List.map_flatMap, Function.comp_def]
  · simp [Function.comp_def]

theorem cuts_of_isPlain {source : List Char} {p : Property} {span : Span}
    (hactions : ¬ p.isActions) (hplain : p.shape.isPlain) (hspan : p.shape.span? = some span) :
    cuts source p = fieldCuts p span := by
  rw [cuts, if_neg hactions]
  cases hshape : p.shape <;> simp_all [Shape.isPlain, Shape.span?]

theorem Becomes.composed {c : Copy} {p : Property} {ms : List Member} (hp : p.Complete)
    (h : Becomes c p ms) :
    ComposedBy (fun k => k.1.MakesAt c k.2) (cutsAt c p) (code c.quote p)
      (ms.flatMap fragments) := by
  have hone {m : Member} {cs : List Cut} (hm : m.decorators = [] ∧
      ComposedBy (Cut.MakesAt c (c.columnsOf p.span)) cs [] m.fragments) :
      ComposedBy (Cut.MakesAt c (c.columnsOf p.span)) cs (recordedCode c.quote p)
        ([{ m with decorators := recordedDecorators c.quote p }].flatMap fragments) := by
    rw [List.flatMap_singleton, fragments_decorated hm.1]
    simpa [recordedCode] using (ComposedBy.of_generated (recordedCode c.quote p)).append hm.2
  have hmove (hactions : ¬ p.isActions) (hcuts : ComposedBy (Cut.MakesAt c (c.columnsOf p.span))
      (cuts c.source p) (recordedCode c.quote p) (ms.flatMap fragments)) :
      ComposedBy (fun k => k.1.MakesAt c k.2) (cutsAt c p) (code c.quote p)
        (ms.flatMap fragments) := by
    rw [cutsAt, code, if_neg hactions, if_neg hactions]
    exact hcuts.map fun _ _ hmakes => hmakes
  cases h with
  | actions hactions hms =>
    rw [cutsAt, code, if_pos hactions, if_pos hactions]
    exact ComposedBy.of_mapM _ _ _
      (fun a _ m hm => (ofAction_composed hm).map fun _ _ hmakes => hmakes) hms
  | function hactions hshape hm =>
    apply hmove hactions
    rw [cuts, if_neg hactions, hshape]
    exact hone (ofFunction_composed hm)
  | call hactions hshape hms =>
    apply hmove hactions
    rw [cuts, if_neg hactions, hshape]
    exact ofCall_composed (hp _ hshape) hms
  | field hactions hplain hspan hm =>
    apply hmove hactions
    rw [cuts_of_isPlain hactions hplain hspan]
    exact hone (field_composed hm)

theorem ofProperty_composedAt {c : Copy} {p : Property} {ms : List Member}
    (hp : p.Complete) (h : ofProperty c p = .ok ms) :
    ComposedBy (fun k => k.1.MakesAt c k.2) (cutsAt c p) (code c.quote p)
      (ms.flatMap fragments) := by
  obtain ⟨members, hmembers, rfl⟩ := becomes_of_ofProperty h
  rw [flatMap_fragments_commentFirst]
  exact hmembers.composed hp

theorem ofProperty_composed {c : Copy} {p : Property} {ms : List Member}
    (hp : p.Complete) (h : ofProperty c p = .ok ms) :
    Composed c (cuts c.source p) (code c.quote p) (ms.flatMap fragments) := by
  rw [← map_fst_cutsAt]
  have hcomposed := (ofProperty_composedAt hp h).map fun _ _ hmakes => hmakes.makes
  exact ComposedBy.composed_iff.mpr hcomposed

end Member

namespace Blueprint

def decoratorCuts (p : Property) : List Cut :=
  match p.shape with
  | .array _ elements => elements.map Cut.plain
  | .literal span => [Cut.plain span]
  | .expression span => [Cut.plain span]
  | .identifier _ span => [Cut.plain span]
  | _ => []

theorem classDecorator_composed {c : Copy} {p : Property} {name : String} {d : AppliedDecorator}
    (h : classDecorator c p name = .ok d) :
    ComposedBy (Cut.MakesAt c (c.columnsOf p.span)) (decoratorCuts p) [] d.args := by
  have hspans {spans : List Span} (h : (do
      let args ← spans.mapM (c.snippet (c.columnsOf p.span))
      return (⟨name, args⟩ : AppliedDecorator)) = .ok d) :
      ComposedBy (Cut.MakesAt c (c.columnsOf p.span)) (spans.map Cut.plain) [] d.args := by
    obtain ⟨args, hargs, h⟩ := Except.bind_eq_ok h
    cases h
    exact ComposedBy.of_snippets hargs
  unfold classDecorator at h
  unfold decoratorCuts
  dsimp only at h
  cases hshape : p.shape with
  | array span elements => rw [hshape] at h; exact hspans h
  | literal span => rw [hshape] at h; exact hspans h
  | expression span => rw [hshape] at h; exact hspans h
  | identifier value span => rw [hshape] at h; exact hspans h
  | call chain => rw [hshape] at h; cases h
  | function f => rw [hshape] at h; cases h
  | object span => rw [hshape] at h; cases h
  | unsupported reason => rw [hshape] at h; cases h

def cutsOf (source : List Char) (p : Property) : List Cut :=
  if p.classDecorator?.isSome then decoratorCuts p else Member.cuts source p

def codeOf (quote : Quote) (p : Property) : List Fragment :=
  if p.classDecorator?.isSome then [] else Member.code quote p

/-- A class consists of the cuts of its properties and of generated code. -/
theorem build_composed {b : Blueprint} {o : Options} {c : Copy} {d : ClassDecl}
    (hps : ∀ p ∈ b.properties, p.Complete) (h : b.build o c = .ok d) :
    Composed c (b.properties.flatMap (cutsOf c.source)) (b.properties.flatMap (codeOf c.quote))
      d.fragments := by
  refine ComposedBy.composed_iff.mpr (Except.foldlM_inv (fun (ps : List Property) (d : ClassDecl) =>
      (∀ p ∈ ps, p.Complete) → ComposedBy (Cut.Makes c) (ps.flatMap (cutsOf c.source))
        (ps.flatMap (codeOf c.quote)) d.fragments)
    (fun ps p d d' hd hstep hps => ?_) [] (fun _ => ?_) h hps)
  · have hearlier := hd fun q hq => hps q (List.mem_append_left _ hq)
    rw [List.flatMap_append, List.flatMap_append, List.flatMap_singleton, List.flatMap_singleton]
    obtain ⟨-, ⟨name, decorator, hname, hdec, hds, hms⟩ | ⟨ms, hname, hprop, hds, hms⟩⟩ :=
      addProperty_eq_ok hstep
    · have hnew := (classDecorator_composed hdec).map (g := id) fun _ _ hmakes => hmakes.makes
      rw [List.map_id] at hnew
      simp only [cutsOf, codeOf, hname, Option.isSome_some, if_true]
      refine (hearlier.append hnew).congr fun f => ?_
      simp only [ClassDecl.fragments, hds, hms, List.flatMap_append, List.flatMap_singleton,
        List.mem_append]
      tauto
    · have hnew := ComposedBy.composed_iff.mp (Member.ofProperty_composed (hps p (by simp)) hprop)
      simp only [cutsOf, codeOf, hname, Option.isSome_none, Bool.false_eq_true, if_false]
      refine (hearlier.append hnew).congr fun f => ?_
      simp only [ClassDecl.fragments, hds, hms, List.flatMap_append, List.mem_append]
      tauto
  · have hnone : (b.frame o).fragments = [] := by
      unfold frame ClassDecl.fragments
      cases o.classicDecorator <;> rfl
    rw [hnone]
    exact ComposedBy.nil

end Blueprint

end EmberClasses
