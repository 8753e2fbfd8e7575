import EmberClasses.Session
import Mathlib.Data.List.Basic

/-! What stands at the places of a disk. Writing a file changes the bytes at one place. Where paths
lead, and what may be done with the files there, stays as it was. -/

namespace EmberClasses

inductive Item where
  | dir
  | file (content : ByteArray) (access : Access)

def Item.access? : Item → Option Access
  | dir => none
  | file _ access => some access

namespace Tree

def item : Tree → Item
  | dir _ => .dir
  | file content access => .file content access

def at? (t : Tree) (place : List String) : Option Tree :=
  place.foldlM (fun t name => t.child? name) t

@[simp] theorem at?_nil (t : Tree) : t.at? [] = some t := rfl

@[simp] theorem at?_cons (t : Tree) (name : String) (rest : List String) :
    t.at? (name :: rest) = (t.child? name).bind fun u => u.at? rest := by
  unfold at?
  rw [List.foldlM_cons]
  rfl

theorem at?_append_singleton (t : Tree) (place : List String) (name : String) :
    t.at? (place ++ [name]) = (t.at? place).bind fun u => u.child? name := by
  unfold at?
  rw [List.foldlM_append]
  cases place.foldlM (fun t name => t.child? name) t with
  | none => rfl
  | some u => simp [List.foldlM]

theorem at?_file_cons (content : ByteArray) (access : Access) (name : String)
    (rest : List String) : (file content access).at? (name :: rest) = none := by
  simp [child?, entries]

private theorem lookup_cons_eq (n q : String) (t : Tree) (es : List (String × Tree)) :
    ((n, t) :: es).lookup q = if q = n then some t else es.lookup q := by
  rw [List.lookup_cons]
  by_cases hq : q = n
  · simp [hq]
  · simp [hq, beq_eq_false_iff_ne.mpr hq]

theorem lookup_setEntry (name q : String) (t : Tree) (es : List (String × Tree)) :
    (setEntry name t es).lookup q = if q = name then some t else es.lookup q := by
  induction es with
  | nil => rw [setEntry, lookup_cons_eq]
  | cons e es ih =>
    obtain ⟨n, old⟩ := e
    rw [setEntry, lookup_cons_eq]
    by_cases hn : n = name
    · subst hn
      rw [if_pos rfl, lookup_cons_eq]
      by_cases hq : q = n <;> simp [hq]
    · rw [if_neg hn, lookup_cons_eq, ih]
      by_cases hq : q = n
      · rw [if_pos hq, if_pos hq, if_neg (hq ▸ hn)]
      · rw [if_neg hq, if_neg hq]

theorem at?_put_self (leaf : Tree) : (place : List String) → (t : Tree) →
    (put leaf place t).at? place = some leaf
  | [], t => rfl
  | name :: rest, t => by
    have hchild : (put leaf (name :: rest) t).child? name =
        some (put leaf rest ((t.child? name).getD (dir []))) := by
      rw [put, child?, entries, lookup_setEntry, if_pos rfl]
    rw [at?_cons, hchild, Option.bind_some, at?_put_self leaf rest]

/-- Putting a file in the place of another one changes what stands at that place alone. -/
theorem item_at?_put (content : ByteArray) {old : ByteArray} {access : Access} :
    (place : List String) → (t : Tree) → t.at? place = some (file old access) → (q : List String) →
    ((put (file content access) place t).at? q).map item =
      if q = place then some (.file content access) else (t.at? q).map item
  | [], t, h, q => by
    cases Option.some.inj h
    cases q with
    | nil => rfl
    | cons name rest =>
      rw [put, at?_file_cons, at?_file_cons, if_neg (List.cons_ne_nil name rest)]
  | name :: rest, t, h, q => by
    rw [at?_cons] at h
    obtain ⟨u, hu, hrest⟩ := Option.bind_eq_some_iff.mp h
    cases t with
    | file b a => simp [child?, entries] at hu
    | dir es =>
      have ih := item_at?_put content rest u hrest
      cases q with
      | nil => simp [put, item]
      | cons m ms =>
        have hchild : (put (file content access) (name :: rest) (dir es)).child? m =
            if m = name then some (put (file content access) rest u) else es.lookup m := by
          simp only [put, hu, Option.getD_some]
          exact lookup_setEntry name m _ es
        have hold : (dir es).child? m = es.lookup m := rfl
        rw [at?_cons, at?_cons, hchild, hold]
        -- Only the entry on the way to the place is another one now.
        by_cases hm : m = name
        · subst hm
          rw [if_pos rfl, Option.bind_some, ih ms, show es.lookup m = some u from hu]
          simp
        · simp [hm]

end Tree

namespace Disk

def item? (d : Disk) (place : List String) : Option Item := (d.node? place).map Tree.item

theorem node?_eq_at? (d : Disk) (place : List String) : d.node? place = d.root.at? place := rfl

theorem item?_eq_file {d : Disk} {place : List String} {content : ByteArray} {access : Access} :
    d.item? place = some (.file content access) ↔
      d.node? place = some (.file content access) := by
  unfold item?
  cases h : d.node? place with
  | none => simp
  | some t => cases t <;> simp [Tree.item]

/-- A disk on which files may have other contents, while everything else is the same. -/
structure Alike (d d' : Disk) : Prop where
  current : d'.current = d.current
  access : ∀ q, (d'.item? q).map Item.access? = (d.item? q).map Item.access?

theorem Alike.refl (d : Disk) : Alike d d := ⟨rfl, fun _ => rfl⟩

theorem Alike.symm {d d' : Disk} (h : Alike d d') : Alike d' d :=
  ⟨h.current.symm, fun q => (h.access q).symm⟩

theorem Alike.trans {d d' d'' : Disk} (h : Alike d d') (h' : Alike d' d'') : Alike d d'' :=
  ⟨h'.current.trans h.current, fun q => (h'.access q).trans (h.access q)⟩

section Alike

variable {d d' : Disk} (h : Alike d d')

include h

theorem Alike.item?_eq_none (q : List String) : d'.item? q = none ↔ d.item? q = none := by
  have hq := h.access q
  cases hd : d.item? q <;> cases hd' : d'.item? q <;> simp [hd, hd'] at hq ⊢

theorem Alike.item?_eq_dir (q : List String) :
    d'.item? q = some .dir ↔ d.item? q = some .dir := by
  have hq := h.access q
  cases hd : d.item? q with
  | none => simp [(h.item?_eq_none q).mpr hd]
  | some e =>
    cases hd' : d'.item? q with
    | none => simp [hd, hd'] at hq
    | some e' => cases e <;> cases e' <;> simp [hd, hd', Item.access?] at hq ⊢

/-- At the place of a file stands a file that one may do the same with. -/
theorem Alike.file {q : List String} {content : ByteArray} {access : Access}
    (hq : d.item? q = some (.file content access)) :
    ∃ content', d'.item? q = some (.file content' access) := by
  have hacc := h.access q
  rw [hq] at hacc
  cases hd' : d'.item? q with
  | none => simp [hd'] at hacc
  | some e =>
    rw [hd'] at hacc
    cases e with
    | dir => simp [Item.access?] at hacc
    | file content' access' =>
      simp only [Option.map_some, Item.access?, Option.some.injEq] at hacc
      exact ⟨content', by rw [hacc]⟩

end Alike

/-- The steps of a path depend on what is a directory, and on what is there at all. -/
theorem step_eq (d : Disk) (place : List String) (part : List Char) :
    d.step place part =
      match d.item? place with
      | none => .error .notFound
      | some (.file _ _) => .error .notDirectory
      | some .dir =>
        if part = [] ∨ part = ['.'] then .ok place
        else if part = ['.', '.'] then .ok place.dropLast
        else if (d.item? (place ++ [String.ofList part])).isSome then
          .ok (place ++ [String.ofList part])
        else .error .notFound := by
  have hsome (name : String) : (d.item? (place ++ [name])).isSome =
      ((d.node? place).bind fun t => t.child? name).isSome := by
    rw [item?, node?_eq_at?, Tree.at?_append_singleton, Option.isSome_map]
    rfl
  rw [hsome]
  unfold step item?
  cases d.node? place with
  | none => rfl
  | some t => cases t <;> rfl

theorem Alike.step {d d' : Disk} (h : Alike d d') : d'.step = d.step := by
  funext place part
  rw [step_eq, step_eq]
  have hsome : (d'.item? (place ++ [String.ofList part])).isSome =
      (d.item? (place ++ [String.ofList part])).isSome := by
    rw [Bool.eq_iff_iff, Option.isSome_iff_ne_none, Option.isSome_iff_ne_none, ne_eq, ne_eq,
      h.item?_eq_none]
  cases hd : d.item? place with
  | none => rw [(h.item?_eq_none place).mpr hd]
  | some e =>
    cases e with
    | dir => rw [(h.item?_eq_dir place).mpr hd, hsome]
    | file content access =>
      obtain ⟨content', hd'⟩ := h.file hd
      rw [hd']

theorem Alike.resolve {d d' : Disk} (h : Alike d d') (path : Path) :
    d'.resolve path = d.resolve path := by
  unfold Disk.resolve startOf
  rw [h.step, h.current]

theorem read_eq {d : Disk} {path : Path} {place : List String} (h : d.resolve path = .ok place) :
    d.read path =
      match d.item? place with
      | none => .error .notFound
      | some .dir => .error .isDirectory
      | some (.file content access) =>
        if access.read then
          match String.fromUTF8? content with
          | some text => .ok text
          | none => .error .notText
        else .error .denied := by
  unfold read readBytes item?
  rw [h]
  dsimp only [bind, Except.bind]
  cases d.node? place with
  | none => rfl
  | some t =>
    cases t with
    | dir es => rfl
    | file content access =>
      dsimp only [Tree.item, Option.map_some]
      cases access.read with
      | false => rfl
      | true =>
        rw [if_pos rfl, if_pos rfl]
        cases htext : String.fromUTF8? content with
        | none => simp only [pure, Except.pure, htext]; rfl
        | some text => simp only [pure, Except.pure, htext]

theorem fromUTF8?_toUTF8 (text : String) : String.fromUTF8? text.toUTF8 = some text := by
  unfold String.fromUTF8?
  rw [dif_pos (by simpa using text.isValidUTF8)]
  rfl

/-- What is read is the content of a file, as a text. -/
theorem read_eq_ok {d : Disk} {path : Path} {text : String} (h : d.read path = .ok text) :
    ∃ place content access, d.resolve path = .ok place ∧
      d.item? place = some (.file content access) ∧ String.fromUTF8? content = some text := by
  cases hplace : d.resolve path with
  | error e =>
    unfold read readBytes at h
    rw [hplace] at h
    cases h
  | ok place =>
    rw [read_eq hplace] at h
    cases hitem : d.item? place with
    | none => rw [hitem] at h; cases h
    | some e =>
      rw [hitem] at h
      cases e with
      | dir => cases h
      | file content access =>
        cases hread : access.read with
        | false => simp [hread] at h
        | true =>
          cases htext : String.fromUTF8? content with
          | none => simp [hread, htext] at h
          | some text' =>
            simp only [hread, htext, if_true, Except.ok.injEq] at h
            exact ⟨place, content, access, rfl, hitem, by rw [htext, h]⟩

theorem Alike.read {d d' : Disk} (h : Alike d d') {path : Path}
    (hsame : ∀ place, d.resolve path = .ok place → d'.item? place = d.item? place) :
    d'.read path = d.read path := by
  cases hplace : d.resolve path with
  | error e =>
    unfold Disk.read readBytes
    rw [h.resolve, hplace]
    rfl
  | ok place => rw [read_eq hplace, read_eq ((h.resolve path).trans hplace), hsame place hplace]

theorem write_eq {d : Disk} {path : Path} {place : List String} {content : ByteArray}
    {access : Access} (hplace : d.resolve path = .ok place)
    (hitem : d.item? place = some (.file content access)) (text : String) :
    d.write path text =
      if access.write then .ok (d.writeAt place text.toUTF8) else .error .denied := by
  unfold write openPlace
  rw [hplace]
  dsimp only [bind, Except.bind]
  rw [item?_eq_file.mp hitem]
  dsimp only
  cases access.write <;> rfl

theorem item?_writeAt_self (d : Disk) (place : List String) (new : ByteArray) :
    (d.writeAt place new).item? place = some (.file new (d.accessAt place)) := by
  rw [item?, node?_eq_at?, writeAt, Tree.at?_put_self]
  rfl

/-- Writing at the place of a file changes its bytes and nothing else. -/
theorem item?_writeAt {d : Disk} {place : List String} {content : ByteArray} {access : Access}
    (h : d.item? place = some (.file content access)) (new : ByteArray) (q : List String) :
    (d.writeAt place new).item? q =
      if q = place then some (.file new access) else d.item? q := by
  have hnode := item?_eq_file.mp h
  have haccess : d.accessAt place = access := by
    unfold accessAt
    rw [hnode]
  unfold writeAt item?
  rw [haccess]
  exact Tree.item_at?_put new place d.root hnode q

theorem alike_writeAt {d : Disk} {place : List String} {content : ByteArray} {access : Access}
    (h : d.item? place = some (.file content access)) (new : ByteArray) :
    Alike d (d.writeAt place new) := by
  refine ⟨rfl, fun q => ?_⟩
  rw [item?_writeAt h]
  by_cases hq : q = place
  · rw [if_pos hq, hq, h]
    rfl
  · rw [if_neg hq]

end Disk

end EmberClasses
