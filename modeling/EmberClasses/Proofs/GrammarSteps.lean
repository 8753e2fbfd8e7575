import EmberClasses.Proofs.ParserRuns
import EmberClasses.Proofs.SettledNodes

/-! How a rule of the grammar goes on. A rule reads tokens and gathers the nodes of other rules, in
order; each step has a lemma here, and the last one makes a node of the row that was gathered. What
a rule says of its result is put together from these steps in the order in which the rule is
written. -/

namespace EmberClasses.Script

open Text (IsBoundary dropBytes byteLength byteLength_cons byteLength_append)
open Lexer (Leaves TemplateText)

namespace Cursor

/-- The cursor is in a source: its spans are those of the token and the text around it. -/
structure Placed (source : List Char) (c : Cursor) : Prop where
  last_le : c.last ≤ c.span.start
  last_boundary : IsBoundary source c.last
  boundary : IsBoundary source c.span.start
  here : dropBytes c.span.start source = c.here
  visible : c.here.head? ≠ some '\n'
  rest : ∃ n, c.span.stop = c.span.start + n ∧ Leaves c.here n c.rest ∧
    TemplateText c.token c.here n ∧ (c.token ≠ .done → 0 < n)
  first : ∀ p, c.token = .punct p → ∃ x tail, c.here = x :: tail ∧ x.utf8Size = 1
  named : ∀ text escaped, c.token = .name text escaped → HasName source text

variable {source : List Char} {c c' : Cursor}

theorem Placed.begins (h : c.Placed source) : Begins source c.span.start :=
  ⟨h.boundary, h.here ▸ h.visible⟩

theorem leaves_boundary {n k : Nat} {cs rest : List Char} (hn : IsBoundary source n)
    (hcs : dropBytes n source = cs) (h : Leaves cs k rest) :
    IsBoundary source (n + k) ∧ dropBytes (n + k) source = rest := by
  obtain ⟨taken, htaken, rfl⟩ := h
  rw [htaken] at hcs
  constructor
  · rw [hn.add_iff, hcs]
    exact Text.isBoundary_byteLength_append taken rest
  · rw [hn.dropBytes_add, hcs, Text.dropBytes_byteLength_append]

theorem Placed.stop (h : c.Placed source) : c.span.start ≤ c.span.stop ∧
    IsBoundary source c.span.stop ∧ dropBytes c.span.stop source = c.rest := by
  obtain ⟨n, hn, hleaves, -⟩ := h.rest
  rw [hn]
  exact ⟨Nat.le_add_right _ _, leaves_boundary h.boundary h.here hleaves⟩

theorem placed_of_read {offset last : Nat} {text : List Char} (h : read offset last text = .ok c)
    (hlast : last ≤ offset) (hl : IsBoundary source last) (ho : IsBoundary source offset)
    (htext : dropBytes offset source = text) :
    c.Placed source ∧ offset ≤ c.span.start ∧ c.last = last := by
  unfold read at h
  split at h
  · cases h
  · rename_i start fresh here hskip
    obtain ⟨⟨k, rfl, hk⟩, hhead⟩ := Lexer.skipTrivia_leaves hskip
    obtain ⟨hb, hdrop⟩ := leaves_boundary ho htext hk
    split at h
    · cases h
    · rename_i token n rest hscan
      cases h
      obtain ⟨hleaves, hpos, htemplate, hfirst⟩ := Lexer.scanToken_leaves hscan
      refine ⟨⟨hlast.trans (Nat.le_add_right _ _), hl, hb, hdrop, hhead,
        ⟨n, rfl, hleaves, htemplate, hpos⟩, hfirst, fun text escaped htoken => ?_⟩,
        Nat.le_add_right _ _, rfl⟩
      have hsource := (Text.takeBytes_append_dropBytes (offset + k) source).symm
      rw [hdrop] at hsource
      exact ⟨_, here, escaped, n, rest, hsource, htoken ▸ hscan⟩

theorem Placed.advance (h : c.Placed source) (hnext : c.advance = .ok c') :
    c'.Placed source ∧ c.span.stop ≤ c'.span.start ∧ c'.last = c.span.stop := by
  obtain ⟨-, hb, hdrop⟩ := h.stop
  exact placed_of_read hnext le_rfl hb hb hdrop

theorem Placed.reread (h : c.Placed source) {scan : List Char → Option (Token × Nat × List Char)}
    (hread : c.reread scan = .ok c')
    (hscan : ∀ t n rest, scan c.here = some (t, n, rest) → Leaves c.here n rest ∧ 0 < n ∧
      TemplateText t c.here n ∧ ∀ p, t = .punct p → ∃ x tail, c.here = x :: tail ∧ x.utf8Size = 1)
    (hnone : ∀ t n rest, scan c.here = some (t, n, rest) → ∀ text escaped,
      t ≠ .name text escaped) :
    c'.Placed source ∧ c'.span.start = c.span.start ∧ c'.last = c.last ∧
      c'.span.start < c'.span.stop ∧ ∃ n rest, scan c.here = some (c'.token, n, rest) := by
  unfold Cursor.reread at hread
  split at hread
  · cases hread
  · rename_i t n rest hsome
    cases hread
    obtain ⟨hleaves, hpos, htemplate, hfirst⟩ := hscan t n rest hsome
    exact ⟨⟨h.last_le, h.last_boundary, h.boundary, h.here, h.visible,
      ⟨n, rfl, hleaves, htemplate, fun _ => hpos⟩, hfirst,
      fun text escaped heq => absurd heq (hnone t n rest hsome text escaped)⟩, rfl, rfl,
      Nat.lt_add_of_pos_right hpos, n, rest, hsome⟩

end Cursor

namespace Parser

variable {α β : Type} {source : List Char}

/-- What a rule has behind it at a cursor: the nodes that it has gathered since the offset `start`,
where a token starts. `moved` tells that tokens were passed since then, `live` that the token at the
cursor is not the end of the script. -/
structure Stage (source : List Char) (start : Nat) (moved live : Bool) (ns : List Node)
    (c : Cursor) : Prop where
  placed : c.Placed source
  begins : Begins source start
  row : Row source start c.last ns
  start_le : start ≤ c.span.start
  moved : moved = true → start < c.last
  live : live = true → c.token ≠ .done
  late : ∀ n ∈ ns, n.kind.isLate → start < n.span.start

/-- The second flag is set where the first one is. The flags of a stage are made of those of the
steps before it, so instances settle them along the rule. -/
class Covers (a b : Bool) : Prop where
  le : a = true → b = true

section Covers

variable {a b d : Bool}

theorem Covers.eq_false (h : Covers a false) : a = false :=
  Bool.eq_false_iff.mpr fun ha => Bool.false_ne_true (h.le ha)

instance : Covers false b := ⟨(absurd · Bool.false_ne_true)⟩
instance : Covers a true := ⟨fun _ => rfl⟩
instance : Covers a a := ⟨id⟩
instance [h : Covers a b] : Covers a (b || d) := ⟨fun ha => by simp [h.le ha]⟩
instance [h : Covers a d] : Covers a (b || d) := ⟨fun ha => by simp [h.le ha]⟩
instance [h : Covers a d] [h' : Covers b d] : Covers (a || b) d :=
  ⟨fun hab => (Bool.or_eq_true_iff.mp hab).elim h.le h'.le⟩
instance {p : Punct} : Covers a (Token.punct p != .done) := ⟨fun _ => rfl⟩

end Covers

/-- What a rule of the grammar says of the nodes that it gives. -/
inductive Role where
  /-- Anything that may stand first in a node, and texts of templates. -/
  | inner
  | part
  /-- What can be the object of a member access: a name there has no parts. -/
  | value
  | target
  /-- A token. -/
  | word
  /-- What an import is made of. -/
  | aside
  | statement
  | body
  deriving DecidableEq

namespace Role

def Fits : Role → Node → Prop
  | inner, n => n.kind.isLate = false
  | part, n => n.kind.isPart = true
  | value, n => n.kind.isPart = true ∧ (n.kind.isName → n.children = [])
  | target, n => n.kind.isTarget = true
  | word, n => n.kind.isPart = true ∧ n.kind ≠ .call ∧ n.children = []
  | aside, n => n.kind.isPart = true ∧ ∀ m ∈ n.preorder, m.kind ≠ .call
  | statement, n => n.kind.isStatement = true
  | body, n => n.kind = .body

@[reducible] def isLate : Role → Bool
  | statement | body => true
  | _ => false

def All (role : Role) (ns : List Node) : Prop := ∀ n ∈ ns, role.Fits n

def Under (role other : Role) : Prop := ∀ n, role.Fits n → other.Fits n

theorem target_part : target.Under part := fun _ h => Kind.isPart_of_isTarget h
theorem value_part : value.Under part := fun _ h => h.1
theorem word_value : word.Under value := fun _ h => ⟨h.1, fun _ => h.2.2⟩
theorem word_part : word.Under part := fun _ h => h.1
theorem value_inner : value.Under inner := fun _ h => (Kind.isPart_iff.mp h.1).2
theorem part_inner : part.Under inner := fun _ h => (Kind.isPart_iff.mp h).2

theorem word_aside : word.Under aside := fun n h => ⟨h.1, fun m hm => by
  rcases Node.mem_preorder.mp hm with rfl | ⟨c, hc, -⟩
  · exact h.2.1
  · rw [h.2.2] at hc
    cases hc⟩

/-- A node that is not a name can be the object of a member access. -/
theorem fits_value {k : Kind} {span : Span} {ns : List Node} (hk : k.isPart = true)
    (hname : k.isName = false) : value.Fits ⟨k, span, ns⟩ :=
  ⟨hk, fun h => absurd (hname.symm.trans h) Bool.false_ne_true⟩

theorem isLate_of_fits {role : Role} (hrole : role.isLate = false) {n : Node} (h : role.Fits n) :
    n.kind.isLate = false := by
  cases role with
  | inner => exact h
  | part => exact part_inner n h
  | value => exact part_inner n h.1
  | target => exact part_inner n (target_part n h)
  | word => exact part_inner n h.1
  | aside => exact part_inner n h.1
  | statement => cases hrole
  | body => cases hrole

theorem All.nil (role : Role) : role.All [] := fun _ h => by cases h

theorem All.append {role : Role} {ns ms : List Node} (h : role.All ns) (h' : role.All ms) :
    role.All (ns ++ ms) :=
  fun n hn => (List.mem_append.mp hn).elim (h n) (h' n)

theorem All.cons {role : Role} {n : Node} {ns : List Node} (h : role.Fits n) (h' : role.All ns) :
    role.All (n :: ns) :=
  List.forall_mem_cons.mpr ⟨h, h'⟩

theorem All.under {role other : Role} {ns : List Node} (h : role.All ns)
    (hunder : role.Under other) : other.All ns :=
  fun n hn => hunder n (h n hn)

end Role

class Carries (α : Type) where
  nodes : α → List Node

open Carries (nodes)

section Carries

instance : Carries Node := ⟨fun n => [n]⟩
instance : Carries (List Node) := ⟨id⟩
instance : Carries Unit := ⟨fun _ => []⟩
instance : Carries Bool := ⟨fun _ => []⟩
instance : Carries String := ⟨fun _ => []⟩
instance : Carries Accessor := ⟨fun _ => []⟩
instance [Carries α] [Carries β] : Carries (α × β) := ⟨fun x => nodes x.1 ++ nodes x.2⟩
instance [Carries α] : Carries (Option α) := ⟨fun x => x.elim [] nodes⟩
instance : Carries (List Unit) := ⟨fun _ => []⟩
instance : Carries (List String) := ⟨fun _ => []⟩
instance : Carries (List (Node × Bool)) := ⟨List.map Prod.fst⟩
instance : Carries (List (Option Node)) := ⟨List.filterMap id⟩

theorem nodes_pair [Carries α] [Carries β] (x : α) (y : β) : nodes (x, y) = nodes x ++ nodes y :=
  rfl

class Bare [Carries α] (x : α) : Prop where
  eq : nodes x = []

instance (x : Unit) : Bare x := ⟨rfl⟩
instance (x : Bool) : Bare x := ⟨rfl⟩
instance (x : String) : Bare x := ⟨rfl⟩
instance (x : Accessor) : Bare x := ⟨rfl⟩
instance [Carries α] : Bare (none : Option α) := ⟨rfl⟩
instance [Carries α] {x : α} [h : Bare x] : Bare (some x) := ⟨h.eq⟩
instance [Carries α] [Carries β] {x : α} {y : β} [h : Bare x] [h' : Bare y] : Bare (x, y) :=
  ⟨by rw [nodes_pair, h.eq, h'.eq, List.append_nil]⟩

/-- A function whose results hold the nodes of what it is given. -/
class Keeps [Carries α] [Carries β] (f : α → β) : Prop where
  eq : ∀ x, nodes (f x) = nodes x

instance [Carries α] : Keeps fun x : α => x := ⟨fun _ => rfl⟩
instance [Carries α] : Keeps (some : α → Option α) := ⟨fun _ => rfl⟩
instance [Carries α] : Keeps fun x : α => some (some x) := ⟨fun _ => rfl⟩
instance : Keeps (List.filterMap id : List (Option Node) → List Node) := ⟨fun _ => rfl⟩
instance {γ : Type} [Carries α] [Carries β] [Carries γ] {f : α → β} {y : γ} [hf : Keeps f]
    [hy : Bare y] : Keeps fun x => (f x, y) :=
  ⟨fun x => by rw [nodes_pair, hy.eq, List.append_nil, hf.eq]⟩
instance [Carries α] {y : α} : Keeps fun x : α => (some x).getD y := ⟨fun _ => rfl⟩
instance : Keeps fun n : Node => [n] := ⟨fun _ => rfl⟩
instance : Keeps fun n : Node => some [n] := ⟨fun _ => rfl⟩

@[simp] theorem nodes_node (n : Node) : nodes n = [n] := rfl
@[simp] theorem nodes_list (ns : List Node) : nodes ns = ns := rfl
@[simp] theorem nodes_none [Carries α] : nodes (none : Option α) = [] := rfl
@[simp] theorem nodes_some [Carries α] (x : α) : nodes (some x) = nodes x := rfl

end Carries

/-- How a run from one cursor to another ends: the nodes of its result are the row since `start`,
they have the role, and tokens have been passed by then if `moves`. -/
structure Ends (source : List Char) (start : Nat) (moves : Bool) (role : Role) (c : Cursor)
    (ns : List Node) (c' : Cursor) : Prop where
  placed : c'.Placed source
  start_le : c.span.start ≤ c'.span.start
  last_le : c.last ≤ c'.last
  row : Row source start c'.last ns
  moved : moves = true → start < c'.last
  all : role.All ns

/-- A parser that goes on from a stage ends in this way, if it succeeds. -/
def Builds [Carries α] (source : List Char) (start : Nat) (moved live : Bool) (ns : List Node)
    (p : Parser α) (moves : Bool) (role : Role) : Prop :=
  ∀ ctx c x c', Stage source start moved live ns c → p ctx c = .ok (x, c') →
    Ends source start moves role c (nodes x) c'

theorem Stage.run [Carries α] {start : Nat} {moved live m : Bool} {ns : List Node} {role : Role}
    {p : Parser α} {ctx : Context} {c c' : Cursor} {x : α} (hc : Stage source start moved live ns c)
    (h : p ctx c = .ok (x, c')) (hp : Builds source start moved live ns p m role) :
    Ends source start m role c (nodes x) c' :=
  hp ctx c x c' hc h

/-- A parser gathers the nodes of its result by itself, wherever it starts. -/
def Gathers [Carries α] (source : List Char) (live : Bool) (p : Parser α) (moves : Bool)
    (role : Role) : Prop :=
  ∀ start, Builds source start false live [] p moves role

namespace Ends

variable {start : Nat} {m : Bool} {role : Role} {ns : List Node} {c c₁ c' : Cursor}

theorem behind (h : Ends source start m role c₁ ns c') (hstart : c.span.start ≤ c₁.span.start)
    (hlast : c.last ≤ c₁.last) : Ends source start m role c ns c' :=
  ⟨h.placed, hstart.trans h.start_le, hlast.trans h.last_le, h.row, h.moved, h.all⟩

/-- Nothing was gathered between an offset and the start of the run. -/
theorem since {start' : Nat} (h : Ends source start m role c ns c') (hle : start' ≤ start) :
    Ends source start' m role c ns c' :=
  ⟨h.placed, h.start_le, h.last_le, h.row.start_le hle, fun hm => hle.trans_lt (h.moved hm), h.all⟩

end Ends

class Still (p : Parser α) : Prop where
  still : ∀ ctx c x c', p ctx c = .ok (x, c') → c' = c

section Still

instance : Still (Parser.fail : Parser α) := ⟨fun _ _ _ _ h => by cases h⟩
instance : Still token := ⟨fun _ _ _ _ h => by cases h; rfl⟩
instance : Still last := ⟨fun _ _ _ _ h => by cases h; rfl⟩
instance : Still fresh := ⟨fun _ _ _ _ h => by cases h; rfl⟩
instance : Still typed := ⟨fun _ _ _ _ h => by cases h; rfl⟩
instance : Still atIdentifier := ⟨fun _ _ _ _ h => by cases h; rfl⟩
instance : Still (read : Parser Context) := ⟨fun _ _ _ _ h => by cases h; rfl⟩
instance : Still (get : Parser Cursor) := ⟨fun _ _ _ _ h => by cases h; rfl⟩
instance (p : Punct) : Still (isPunct p) := ⟨fun _ _ _ _ h => by cases h; rfl⟩
instance (w : String) : Still (isWord w) := ⟨fun _ _ _ _ h => by cases h; rfl⟩
instance (x : α) : Still (pure x : Parser α) := ⟨fun _ _ _ _ h => by cases h; rfl⟩

instance (p : Parser α) : Still (look p) :=
  ⟨fun _ _ _ _ h => by rw [look_run] at h; cases h; rfl⟩

instance (test : Cursor → Bool) : Still (nextIs test) :=
  ⟨fun _ _ _ _ h => by rw [nextIs_run] at h; cases h; rfl⟩

theorem Still.bind {p : Parser α} {f : α → Parser β} (hp : Still p) (hf : ∀ x, Still (f x)) :
    Still (p >>= f) :=
  ⟨fun ctx c y c' h => by
    obtain ⟨x, c₁, hx, hy⟩ := bind_eq_ok.mp h
    rw [(hf x).still _ _ _ _ hy, hp.still _ _ _ _ hx]⟩

instance (p : Parser α) (f : α → Parser β) [hp : Still p] [hf : ∀ x, Still (f x)] :
    Still (p >>= f) :=
  .bind hp hf

instance (b : Prop) [Decidable b] (p q : Parser α) [hp : Still p] [hq : Still q] :
    Still (if b then p else q) :=
  ⟨fun ctx c y c' h => by
    split at h
    · exact hp.still _ _ _ _ h
    · exact hq.still _ _ _ _ h⟩

end Still

namespace Stage

variable {start : Nat} {moved live : Bool} {ns : List Node} {c c' : Cursor}

theorem of_placed (h : c.Placed source) : Stage source c.span.start false false [] c :=
  ⟨h, h.begins, Row.nil source _ _, le_rfl, (absurd · Bool.false_ne_true),
    (absurd · Bool.false_ne_true), by simp⟩

theorem weaken {moved' live' : Bool} (h : Stage source start moved live ns c)
    (hm : moved' = true → moved = true) (hl : live' = true → live = true) :
    Stage source start moved' live' ns c :=
  ⟨h.placed, h.begins, h.row, h.start_le, h.moved ∘ hm, h.live ∘ hl, h.late⟩

theorem at_token (h : Stage source start moved live ns c) (htoken : c.token ≠ .done) :
    Stage source start moved true ns c :=
  ⟨h.placed, h.begins, h.row, h.start_le, h.moved, fun _ => htoken, h.late⟩

theorem empty (h : Stage source start moved live ns c) :
    Stage source c.span.start false live [] c :=
  ⟨h.placed, h.placed.begins, Row.nil source _ _, le_rfl, (absurd · Bool.false_ne_true), h.live,
    by simp⟩

theorem nodes {ms : List Node} (h : Stage source start moved live ns c)
    (hrow : Row source start c.last ms) (hlate : ∀ n ∈ ms, n.kind.isLate → start < n.span.start) :
    Stage source start moved live ms c :=
  ⟨h.placed, h.begins, hrow, h.start_le, h.moved, h.live, hlate⟩

theorem extend {m : Bool} {ms : List Node} (h : Stage source start moved live ns c)
    (hplaced : c'.Placed source) (hstart : c.span.start ≤ c'.span.start) (hlast : c.last ≤ c'.last)
    (hrow : Row source c.span.start c'.last ms) (hm : m = true → c.span.start < c'.last)
    (hlate : moved = true ∨ ∀ n ∈ ms, n.kind.isLate = false) :
    Stage source start (moved || m) false (ns ++ ms) c' := by
  refine ⟨hplaced, h.begins, h.row.append hrow h.start_le h.placed.last_le hlast,
    h.start_le.trans hstart, fun hmoved => ?_, (absurd · Bool.false_ne_true), fun n hn hl => ?_⟩
  · rcases Bool.or_eq_true_iff.mp hmoved with hmoved | hmoves
    · exact (h.moved hmoved).trans_le hlast
    · exact h.start_le.trans_lt (hm hmoves)
  · rcases List.mem_append.mp hn with hn | hn
    · exact h.late n hn hl
    · rcases hlate with hmoved | hearly
      · exact (h.moved hmoved).trans_le (h.placed.last_le.trans (hrow.of_mem hn).2.2.1)
      · rw [hearly n hn] at hl
        cases hl

theorem advance (h : Stage source start moved live ns c) (hnext : c.advance = .ok c') :
    Stage source start (moved || live) false ns c' ∧ c.span.start ≤ c'.span.start ∧
      c.last ≤ c'.last := by
  obtain ⟨hplaced, hstart, hlast⟩ := h.placed.advance hnext
  obtain ⟨hstop, -⟩ := h.placed.stop
  have hle : c.last ≤ c'.last := hlast ▸ h.placed.last_le.trans hstop
  have hext := h.extend (m := live) hplaced (hstop.trans hstart) hle (Row.nil source _ _)
    (fun hl => ?_) (.inr (by simp))
  · rw [List.append_nil] at hext
    exact ⟨hext, hstop.trans hstart, hle⟩
  · obtain ⟨n, hn, -, -, hpos⟩ := h.placed.rest
    have := hpos (h.live hl)
    omega

end Stage

namespace Builds

section Steps

variable [Carries β] {start : Nat} {moved live m : Bool} {ns : List Node} {role : Role}

/-- What holds of a run that a longer one starts with. -/
theorem after {p : Parser α} {f : α → Parser β} (moved' live' : α → Bool) (ns' : α → List Node)
    (hp : ∀ ctx c x c', Stage source start moved live ns c → p ctx c = .ok (x, c') →
      Stage source start (moved' x) (live' x) (ns' x) c' ∧ c.span.start ≤ c'.span.start ∧
        c.last ≤ c'.last ∧ Builds source start (moved' x) (live' x) (ns' x) (f x) m role) :
    Builds source start moved live ns (p >>= f) m role := by
  intro ctx c y c' hc h
  obtain ⟨x, c₁, hx, hy⟩ := bind_eq_ok.mp h
  obtain ⟨hc₁, hstart, hlast, hf⟩ := hp ctx c x c₁ hc hx
  exact (hf ctx c₁ y c' hc₁ hy).behind hstart hlast

theorem loosen {p : Parser β} {moved' live' : Bool}
    (h : Builds source start moved' live' ns p m role) (hmoved : moved' = true → moved = true)
    (hlive : live' = true → live = true) : Builds source start moved live ns p m role :=
  fun ctx c x c' hc hx => h ctx c x c' (hc.weaken hmoved hlive) hx

theorem weaken {p : Parser β} {moved' live' : Bool}
    (h : Builds source start moved' live' ns p m role) [hmoved : Covers moved' moved]
    [hlive : Covers live' live] : Builds source start moved live ns p m role :=
  h.loosen hmoved.le hlive.le

theorem under {p : Parser β} {role' : Role} (h : Builds source start moved live ns p m role')
    (hrole : role'.Under role) : Builds source start moved live ns p m role := by
  intro ctx c x c' hc hx
  obtain ⟨hplaced, hstart, hlast, hrow, hmoves, hall⟩ := h ctx c x c' hc hx
  exact ⟨hplaced, hstart, hlast, hrow, hmoves, hall.under hrole⟩

theorem of_nodes {p : Parser β} {ms : List Node}
    (hms : ∀ c, Stage source start moved live ns c → Stage source start moved live ms c)
    (h : Builds source start moved live ms p m role) : Builds source start moved live ns p m role :=
  fun ctx c x c' hc hx => h ctx c x c' (hms c hc) hx

theorem regroup {p : Parser β} {ms : List Node} (h : Builds source start moved live ms p m role)
    (hms : ms = ns) : Builds source start moved live ns p m role :=
  hms ▸ h

theorem drop {p : Parser β} {ms : List Node} (h : Builds source start moved live ms p m role)
    (hms : ms.Sublist ns := by simp) : Builds source start moved live ns p m role :=
  of_nodes (fun _ hc => hc.nodes (hc.row.sublist hms) fun n hn => hc.late n (hms.subset hn)) h

/-- Nodes of another rule are gathered; statements only behind a token. -/
theorem addLate [Carries α] {p : Parser α} {f : α → Parser β} {m' : Bool} {role' : Role}
    (hp : Gathers source live p m' role')
    (h : ∀ x, role'.All (nodes x) →
      Builds source start (moved || m') false (ns ++ nodes x) (f x) m role)
    (hrole : role'.isLate = true → moved = true) :
    Builds source start moved live ns (p >>= f) m role := by
  refine after (fun _ => moved || m') (fun _ => false) (ns ++ nodes ·) fun ctx c x c' hc hx => ?_
  obtain ⟨hplaced, hstart, hlast, hrow, hm, hall⟩ := hp _ ctx c x c' hc.empty hx
  refine ⟨hc.extend hplaced hstart hlast hrow hm ?_, hstart, hlast, h x hall⟩
  by_cases hl : role'.isLate = true
  · exact .inl (hrole hl)
  · exact .inr fun n hn => Role.isLate_of_fits (by simpa using hl) (hall n hn)

theorem add [Carries α] {p : Parser α} {f : α → Parser β} {m' : Bool} {role' : Role}
    (hp : Gathers source live p m' role')
    (h : ∀ x, role'.All (nodes x) →
      Builds source start (moved || m') false (ns ++ nodes x) (f x) m role)
    [hrole : Covers role'.isLate moved] : Builds source start moved live ns (p >>= f) m role :=
  addLate hp h hrole.le

theorem ignore [Carries α] {p : Parser α} {f : α → Parser β} {m' : Bool}
    (hp : Gathers source live p m' .word)
    (h : ∀ x, Builds source start (moved || m') false ns (f x) m role) :
    Builds source start moved live ns (p >>= f) m role := by
  refine after (fun _ => moved || m') (fun _ => false) (fun _ => ns) fun ctx c x c' hc hx => ?_
  obtain ⟨hplaced, hstart, hlast, -, hm, -⟩ := hp _ ctx c x c' hc.empty hx
  have hnone := hc.extend hplaced hstart hlast (Row.nil source _ _) hm (.inr (by simp))
  rw [List.append_nil] at hnone
  exact ⟨hnone, hstart, hlast, h x⟩

/-- A rule that goes on from the row makes another row of it; the old one is still there. -/
theorem either [Carries α] {p : Parser α} {f : α → Parser β} {m' : Bool} {role' : Role}
    (hp : Builds source start moved live ns p m' role')
    (h : ∀ x, role'.All (nodes x) →
      Builds source start (moved || m') false (nodes x) (f x) m role ∨
      Builds source start (moved || m') false ns (f x) m role)
    (hrole : role'.isLate = false) :
    Builds source start moved live ns (p >>= f) m role := by
  intro ctx c y c' hc hrun
  obtain ⟨x, c₁, hx, hy⟩ := bind_eq_ok.mp hrun
  obtain ⟨hplaced, hstart, hlast, hrow, hm, hall⟩ := hp ctx c x c₁ hc hx
  have hmoved : (moved || m') = true → start < c₁.last := fun hmoved => by
    rcases Bool.or_eq_true_iff.mp hmoved with hmoved | hmoves
    · exact (hc.moved hmoved).trans_le hlast
    · exact hm hmoves
  have hle := hc.start_le.trans hstart
  have hearly : ∀ n ∈ nodes x, n.kind.isLate → start < n.span.start := fun n hn hl => by
    rw [Role.isLate_of_fits hrole (hall n hn)] at hl
    cases hl
  rcases h x hall with hnew | hold
  · refine (hnew ctx c₁ y c' ?_ hy).behind hstart hlast
    exact ⟨hplaced, hc.begins, hrow, hle, hmoved, (absurd · Bool.false_ne_true), hearly⟩
  · refine (hold ctx c₁ y c' ?_ hy).behind hstart hlast
    exact ⟨hplaced, hc.begins, hc.row.le_stop hlast, hle, hmoved, (absurd · Bool.false_ne_true),
      hc.late⟩

/-- A rule that goes on from the row makes another row of it. -/
theorem rest [Carries α] {p : Parser α} {f : α → Parser β} {m' : Bool} {role' : Role}
    (hp : Builds source start moved live ns p m' role')
    (h : ∀ x, role'.All (nodes x) → Builds source start (moved || m') false (nodes x) (f x) m role)
    [hrole : Covers role'.isLate false] : Builds source start moved live ns (p >>= f) m role :=
  either hp (fun x hx => .inl (h x hx)) hrole.eq_false

theorem fail : Builds source start moved live ns (Parser.fail : Parser β) m role := by
  intro ctx c x c' _ h
  cases h

theorem ite {b : Prop} [Decidable b] {p q : Parser β}
    (hp : b → Builds source start moved live ns p m role)
    (hq : ¬ b → Builds source start moved live ns q m role) :
    Builds source start moved live ns (if b then p else q) m role := by
  split
  · exact hp ‹_›
  · exact hq ‹_›

theorem orFail {b : Prop} [Decidable b] {f : Unit → Parser β}
    (h : ¬ b → Builds source start moved live ns (f ()) m role) :
    Builds source start moved live ns (if b then Parser.fail >>= f else f ()) m role :=
  ite
    (fun _ => after (fun _ => moved) (fun _ => live) (fun _ => ns) fun _ _ _ _ _ h => by cases h) h

theorem within {p : Parser β} {change : Context → Context}
    (h : Builds source start moved live ns p m role) :
    Builds source start moved live ns (Parser.within change p) m role :=
  fun ctx c x c' hc hx => h (change ctx) c x c' hc hx

theorem pure {x : β} (hx : role.All (nodes x)) (hns : nodes x = ns) [hm : Covers m moved] :
    Builds source start moved live ns (Pure.pure x) m role := by
  intro ctx c y c' hc h
  cases h
  exact ⟨hc.placed, le_rfl, le_rfl, hns ▸ hc.row, hc.moved ∘ hm.le, hx⟩

theorem nil {x : β} [hx : Bare x] [Covers m moved] :
    Builds source start moved live ns (Pure.pure x) m role := by
  refine drop (pure ?_ rfl) ?_
  · rw [hx.eq]
    exact .nil role
  · rw [hx.eq]
    exact List.nil_sublist ns

theorem special {k : Kind} {children : List Node}
    (hrole : ∀ stop, role.Fits ⟨k, ⟨start, stop⟩, children⟩) (hns : children = ns)
    (hk : k.isSolid = true) (haccepts : k.Accepts source ns) [hmoved : Covers true moved] :
    Builds source start moved live ns (Parser.node k start children) m role := by
  intro ctx c n c' hc h
  cases h
  subst hns
  have hlt := hc.moved (hmoved.le rfl)
  exact ⟨hc.placed, le_rfl, le_rfl, hc.row.node hk hc.begins hc.placed.last_boundary hlt haccepts
    (fun n hn hl => .inr (hc.late n hn hl)), fun _ => hlt, .cons (hrole _) (.nil role)⟩

/-- The row becomes a node that may have any parts. -/
theorem node {k : Kind} (hrole : ∀ stop, role.Fits ⟨k, ⟨start, stop⟩, ns⟩)
    [hk : Covers true k.isPlain] [Covers true moved] :
    Builds source start moved live ns (Parser.node k start ns) m role :=
  special hrole rfl (Kind.isSolid_of_isPlain (hk.le rfl)) (Kind.accepts_of_isPlain (hk.le rfl) _ ns)

/-- The row becomes a node that can be the object of a member access. -/
theorem object {k : Kind} (hk : k.isPart = true) (hname : k.isName = false)
    [Covers true k.isPlain] [Covers true moved] :
    Builds source start moved live ns (Parser.node k start ns) m .value :=
  node fun _ => Role.fits_value hk hname

theorem look {p : Parser α} {f : α → Parser β} [hp : Still p]
    (h : ∀ x, Builds source start moved live ns (f x) m role) :
    Builds source start moved live ns (p >>= f) m role := by
  refine after (fun _ => moved) (fun _ => live) (fun _ => ns) fun ctx c x c' hc hx => ?_
  cases hp.still ctx c x c' hx
  exact ⟨hc, le_rfl, le_rfl, h x⟩

/-- A look at the token, which may be a name of the source. -/
theorem nameToken {f : Token → Parser β}
    (h : ∀ t, (∀ text escaped, t = .name text escaped → HasName source text) →
      Builds source start moved (live || t != .done) ns (f t) m role) :
    Builds source start moved live ns (Parser.token >>= f) m role := by
  intro ctx c y c' hc hrun
  obtain ⟨t, c₁, ht, hy⟩ := bind_eq_ok.mp hrun
  cases ht
  refine h _ hc.placed.named ctx c y c' ⟨hc.placed, hc.begins, hc.row, hc.start_le, hc.moved,
    fun hl => ?_, hc.late⟩ hy
  rcases Bool.or_eq_true_iff.mp hl with hl | hl
  · exact hc.live hl
  · simpa using hl

theorem token {f : Token → Parser β}
    (h : ∀ t, Builds source start moved (live || t != .done) ns (f t) m role) :
    Builds source start moved live ns (Parser.token >>= f) m role :=
  nameToken fun t _ => h t

/-- A test of the token for one that is not the end. -/
theorem test {t : Token} {f : Bool → Parser β} (ht : t ≠ .done)
    (h : ∀ b, Builds source start moved (live || b) ns (f b) m role) :
    Builds source start moved live ns ((do return (← Parser.token) == t : Parser Bool) >>= f)
      m role := by
  refine after (fun _ => moved) (live || ·) (fun _ => ns) fun ctx c b c' hc hb => ?_
  cases hb
  refine ⟨⟨hc.placed, hc.begins, hc.row, hc.start_le, hc.moved, fun hl => ?_, hc.late⟩, le_rfl,
    le_rfl, h _⟩
  rcases Bool.or_eq_true_iff.mp hl with hl | hl
  · exact hc.live hl
  · exact (show c.token = t by simpa using hl) ▸ ht

theorem isWord {w : String} {f : Bool → Parser β}
    (h : ∀ b, Builds source start moved (live || b) ns (f b) m role) :
    Builds source start moved live ns (Parser.isWord w >>= f) m role :=
  test (by simp) h

theorem advance {f : Unit → Parser β}
    (h : Builds source start (moved || live) false ns (f ()) m role) :
    Builds source start moved live ns (Parser.advance >>= f) m role := by
  refine after (fun _ => moved || live) (fun _ => false) (fun _ => ns) fun ctx c u c' hc hu => ?_
  obtain ⟨hstage, hstart, hlast⟩ := hc.advance (advance_eq_ok.mp hu)
  exact ⟨hstage, hstart, hlast, h⟩

theorem taken {t : Token} {f : Bool → Parser β} (ht : t ≠ .done)
    (h : ∀ b, Builds source start (moved || b) (live && !b) ns (f b) m role) :
    Builds source start moved live ns
      ((do if (← (do return (← Parser.token) == t : Parser Bool)) then Parser.advance; return true
           else return false : Parser Bool) >>= f) m role := by
  refine after (moved || ·) (live && !·) (fun _ => ns) fun ctx c b c' hc hb => ?_
  rcases taken_eq_ok.mp hb with ⟨rfl, htoken, hnext⟩ | ⟨rfl, -, rfl⟩
  · obtain ⟨hstage, hstart, hlast⟩ := (hc.at_token (htoken ▸ ht)).advance hnext
    exact ⟨hstage.weaken id (by simp), hstart, hlast, h true⟩
  · exact ⟨hc.weaken (by simp) (by simp), le_rfl, le_rfl, h false⟩

theorem eat {p : Punct} {f : Bool → Parser β}
    (h : ∀ b, Builds source start (moved || b) (live && !b) ns (f b) m role) :
    Builds source start moved live ns (Parser.eat p >>= f) m role :=
  taken (by simp) h

theorem eatWord {w : String} {f : Bool → Parser β}
    (h : ∀ b, Builds source start (moved || b) (live && !b) ns (f b) m role) :
    Builds source start moved live ns (Parser.eatWord w >>= f) m role :=
  taken (by simp) h

theorem must {p : Parser Bool} {f : Unit → Parser β}
    (hp : ∀ ctx c c', p ctx c = .ok (true, c') → c.token ≠ .done ∧ c.advance = .ok c')
    (h : Builds source start true false ns (f ()) m role) :
    Builds source start moved live ns ((do if !(← p) then Parser.fail : Parser Unit) >>= f)
      m role := by
  refine after (fun _ => true) (fun _ => false) (fun _ => ns) fun ctx c u c' hc hu => ?_
  obtain ⟨hlive, hnext⟩ := hp ctx c c' (orFail_eq_ok.mp hu)
  obtain ⟨hstage, hstart, hlast⟩ := (hc.at_token hlive).advance hnext
  rw [Bool.or_true] at hstage
  exact ⟨hstage, hstart, hlast, h⟩

theorem expect {p : Punct} {f : Unit → Parser β}
    (h : Builds source start true false ns (f ()) m role) :
    Builds source start moved live ns (Parser.expect p >>= f) m role := by
  refine must (fun ctx c c' hp => ?_) h
  rcases eat_eq_ok.mp hp with ⟨-, htoken, hnext⟩ | ⟨hfalse, -⟩
  · exact ⟨by simp [htoken], hnext⟩
  · cases hfalse

theorem expectWord {w : String} {f : Unit → Parser β}
    (h : Builds source start true false ns (f ()) m role) :
    Builds source start moved live ns (Parser.expectWord w >>= f) m role := by
  refine must (fun ctx c c' hp => ?_) h
  rcases eatWord_eq_ok.mp hp with ⟨-, htoken, hnext⟩ | ⟨hfalse, -⟩
  · exact ⟨by simp [htoken], hnext⟩
  · cases hfalse

theorem here {f : Nat → Parser β}
    (h : ∀ start, Builds source start false live [] (f start) m role) :
    Builds source start moved live [] (Parser.here >>= f) m role := by
  intro ctx c y c' hc hy
  rw [bind_of_ok here_run] at hy
  exact (h _ ctx c y c' hc.empty hy).since hc.start_le

/-- Another rule takes over, and what was gathered is not used. -/
theorem call {p : Parser β} {m' : Bool} (hp : Gathers source live p m' role)
    [hm : Covers m (moved || m')] : Builds source start moved live ns p m role := by
  intro ctx c x c' hc hx
  have hend := (hp _ ctx c x c' hc.empty hx).since hc.start_le
  refine ⟨hend.placed, hend.start_le, hend.last_le, hend.row, fun h => ?_, hend.all⟩
  rcases Bool.or_eq_true_iff.mp (hm.le h) with hmoved | hmoves
  · exact (hc.moved hmoved).trans_le hend.last_le
  · exact hend.moved hmoves

theorem give [Carries α] {p : Parser α} {f : α → β}
    (hp : Builds source start moved live ns p m role) [hf : Keeps f] :
    Builds source start moved live ns (p >>= fun x => Pure.pure (f x)) m role := by
  intro ctx c y c' hc h
  obtain ⟨x, c₁, hx, hy⟩ := bind_eq_ok.mp h
  cases hy
  rw [hf.eq x]
  exact hp ctx c x c' hc hx

theorem orElse {p : Parser (Option Node)} {f : Option Node → Parser β} {m' : Bool}
    (hp : Gathers source live p m' role) (hsolid : ∀ n, role.Fits n → n.kind.isSolid = true)
    (hsome : ∀ n ctx c y c', f (some n) ctx c = .ok (y, c') → c' = c ∧ nodes y = [n])
    (hnone : Gathers source false (f none) m role) :
    Builds source start moved live ns (p >>= f) m role := by
  intro ctx c y c' hc h
  obtain ⟨found, c₁, hx, hy⟩ := bind_eq_ok.mp h
  obtain ⟨hplaced, hstart, hlast, hrow, -, hall⟩ := hp _ ctx c found c₁ hc.empty hx
  cases found with
  | none =>
    have hend := hnone _ ctx c₁ y c' (Stage.of_placed hplaced) hy
    exact (hend.since (hc.start_le.trans hstart)).behind hstart hlast
  | some n =>
    obtain ⟨rfl, hnodes⟩ := hsome n ctx c₁ y c' hy
    rw [hnodes]
    refine ⟨hplaced, hstart, hlast, hrow.start_le hc.start_le, fun _ => ?_, hall⟩
    obtain ⟨hbegin, hend, -, hs, -, -⟩ := Row.cons_iff.mp hrow
    have hlt := ((hs n (Node.mem_preorder_self n)).solid
      (hsolid n (hall n List.mem_cons_self))).1
    have hle := hc.start_le
    omega

theorem relabel {p : Parser β} {n : Node}
    (h : Builds source start moved live (ns ++ [n.asLabel]) p m role) :
    Builds source start moved live (ns ++ [n]) p m role := by
  refine of_nodes (fun _ hc => hc.nodes hc.row.relabel fun k hk hl => ?_) h
  rcases List.mem_append.mp hk with hk | hk
  · exact hc.late k (List.mem_append_left _ hk) hl
  · rw [List.mem_singleton.mp hk, Node.isLate_asLabel] at hl
    rw [List.mem_singleton.mp hk, Node.span_asLabel]
    exact hc.late n (by simp) hl

/-- A key that was gathered last is a label, unless it is computed. -/
theorem key {p : Parser β} {n : Node} (computed : Bool)
    (h : Builds source start moved live (ns ++ [if computed then n else n.asLabel]) p m role) :
    Builds source start moved live (ns ++ [n]) p m role := by
  cases computed with
  | true => exact h
  | false => exact h.relabel

/-- The children of a node take its place in the row. -/
theorem inline {p : Parser β} {n : Node} (hn : n.kind.isSolid = true)
    (h : Builds source start moved live (n.children ++ ns) p m role) :
    Builds source start moved live (n :: ns) p m role := by
  refine of_nodes (fun c hc => hc.nodes ?_ fun k hk hl => ?_) h
  · obtain ⟨hstart, hstop, hw, hs, hroot, hns⟩ := Row.cons_iff.mp hc.row
    have hone : Row source start n.span.stop [n] :=
      Row.cons_iff.mpr ⟨hstart, le_rfl, hw, hs, hroot, Row.nil source _ _⟩
    exact hone.children.append hns (hstart.trans hw.start_le_stop) le_rfl hstop
  · rcases List.mem_append.mp hk with hk | hk
    · obtain ⟨hstart, -, hw, hs, hroot, -⟩ := Row.cons_iff.mp hc.row
      by_cases hlate : n.kind.isLate = true
      · exact (hc.late n List.mem_cons_self hlate).trans_le
          (hw.children_from.of_mem hk).2.1
      · have hone := hc.row.sublist (List.Sublist.cons_cons n (List.nil_sublist ns))
        exact hstart.trans_lt (hone.late_of_child
          (Kind.isPart_iff.mpr ⟨hn, by simpa using hlate⟩) hk hl)
    · exact hc.late k (List.mem_cons_of_mem n hk) hl

theorem become {p : Parser β} {n n' : Node} (hn : n.Becomes n')
    (h : Builds source start moved live [n'] p m role) :
    Builds source start moved live [n] p m role := by
  refine of_nodes (fun c hc => hc.nodes (hn.row hc.row) fun k hk hl => ?_) h
  rw [List.mem_singleton.mp hk, (Kind.isPart_iff.mp hn.part).2] at hl
  cases hl

theorem filled {p : Parser β} {n : Node} (hn : n.kind.isSolid = true)
    (h : Builds source start true live (n :: ns) p m role) :
    Builds source start moved live (n :: ns) p m role := by
  intro ctx c x c' hc hx
  refine h ctx c x c' ⟨hc.placed, hc.begins, hc.row, hc.start_le, fun _ => ?_, hc.live, hc.late⟩ hx
  obtain ⟨hstart, hstop, -, hs, -, -⟩ := Row.cons_iff.mp hc.row
  have hlt := ((hs n (Node.mem_preorder_self n)).solid hn).1
  omega

theorem attempt {p : Parser α} {f : Option α → Parser β}
    (hnone : Builds source start moved live ns (f none) m role)
    (hsome : Builds source start moved live ns (p >>= fun x => f (some x)) m role) :
    Builds source start moved live ns (Parser.attempt p >>= f) m role := by
  intro ctx c y c' hc h
  obtain ⟨found, c₁, hfound, hy⟩ := bind_eq_ok.mp h
  rw [attempt_run] at hfound
  split at hfound
  · rename_i r hp
    cases hfound
    exact hsome ctx c y c' hc (bind_eq_ok.mpr ⟨r.1, r.2, hp, hy⟩)
  · cases hfound
    exact hnone ctx c y c' hc hy

theorem tried {p : Parser β} (hp : Builds source start moved live ns p false role) :
    Builds source start moved live ns (Parser.attempt p) false role := by
  intro ctx c x c' hc h
  rw [attempt_run] at h
  split at h
  · rename_i r hr
    cases h
    exact hp ctx c r.1 r.2 hc hr
  · cases h
    exact ⟨hc.placed, le_rfl, le_rfl, Row.nil source _ _, (absurd · Bool.false_ne_true), .nil role⟩

section Branches

variable {p q : Parser β}

theorem join (hq : Builds source start moved false ns q m role)
    (h : Builds source start moved false ns q m role → Builds source start moved live ns p m role) :
    Builds source start moved live ns p m role :=
  h hq

theorem when [Carries α] {b : Prop} [Decidable b] {r : Parser α} {m' : Bool}
    (hr : Gathers source live r m' .word) (hq : Builds source start moved false ns q m role) :
    Builds source start moved live ns (if b then r >>= fun _ => q else q) m role :=
  .ite (fun _ => .ignore hr fun _ => hq.weaken) fun _ => hq.weaken

theorem ifWord {w : String} (hp : Builds source start moved true ns p m role)
    (hq : Builds source start moved live ns q m role) :
    Builds source start moved live ns (Parser.isWord w >>= fun b => if b = true then p else q)
      m role :=
  .isWord fun b => .ite (fun hb => hp.loosen id fun _ => by simp [hb])
    fun hb => hq.loosen id (by simp_all)

theorem ifEat {x : Punct} (hp : Builds source start true false ns p m role)
    (hq : Builds source start moved live ns q m role) :
    Builds source start moved live ns (Parser.eat x >>= fun b => if b = true then p else q) m
      role :=
  .eat fun b => .ite (fun hb => hp.loosen (fun _ => by simp [hb]) (by simp))
    fun hb => hq.loosen (by simp_all) (by simp_all)

theorem ifEatWord {w : String} (hp : Builds source start true false ns p m role)
    (hq : Builds source start moved live ns q m role) :
    Builds source start moved live ns (Parser.eatWord w >>= fun b => if b = true then p else q)
      m role :=
  .eatWord fun b => .ite (fun hb => hp.loosen (fun _ => by simp [hb]) (by simp))
    fun hb => hq.loosen (by simp_all) (by simp_all)

end Branches

end Steps

end Builds

end Parser

end EmberClasses.Script
