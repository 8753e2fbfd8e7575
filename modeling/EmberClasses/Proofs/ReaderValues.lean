import EmberClasses.Json.Reader
import EmberClasses.Proofs.LiteralReading

/-! The values that are read from JSON texts. Every number is in its one form and no object has a
key twice. -/

namespace EmberClasses.Json

namespace Reader

variable {α β : Type} {P : α → Prop} {Q : β → Prop}

/-- What the reader gives, if it does not fail, has the property. -/
def Yields (P : α → Prop) (r : Reader α) : Prop :=
  ∀ cs x rest, r cs = .ok (x, rest) → P x

theorem yields_pure {x : α} (h : P x) : Yields P (pure x) := by
  intro cs y rest heq
  cases heq
  exact h

theorem yields_fail (fault : Fault) : Yields P (fail fault) := by
  intro cs x rest heq
  cases heq

theorem Yields.bind {r : Reader β} {f : β → Reader α} (hr : Yields Q r)
    (hf : ∀ x, Q x → Yields P (f x)) : Yields P (r >>= f) := by
  intro cs y rest heq
  have hrun : (r >>= f) cs = (r cs >>= fun p => f p.1 p.2) := rfl
  rw [hrun] at heq
  cases hfirst : r cs with
  | error fault =>
    rw [hfirst] at heq
    cases heq
  | ok p =>
    rw [hfirst] at heq
    exact hf p.1 (hr cs p.1 p.2 hfirst) p.2 y rest heq

theorem yields_bind {r : Reader β} {f : β → Reader α} (hf : ∀ x, Yields P (f x)) :
    Yields P (r >>= f) :=
  Yields.bind (Q := fun _ => True) (fun _ _ _ _ => trivial) fun x _ => hf x

theorem yields_check {condition : Prop} [Decidable condition] {fault : Fault}
    {next : Unit → Reader α} (h : Yields P (next ())) :
    Yields P (if condition then fail fault >>= next else next ()) := by
  split
  · exact yields_bind fun _ => h
  · exact h

theorem yields_finishDouble (negative : Bool) (significand : Nat) (exponent : Int) :
    Yields Number.Proper (finishDouble negative significand exponent) := by
  unfold finishDouble
  split
  · rename_i x hx
    exact yields_pure (Double.canonical_ofDecimal hx)
  · exact yields_fail _

theorem yields_exponent (negative : Bool) (significand : Nat) (start : Int) :
    Yields Number.Proper (exponent negative significand start) := by
  have hzero : Number.Proper (.double negative ⟨0, -1074⟩) :=
    show Double.Canonical ⟨0, -1074⟩ by decide
  unfold exponent
  refine yields_bind fun _ => yields_bind fun below => yields_bind fun c => ?_
  refine yields_check (yields_bind fun _ => yields_bind fun e => ?_)
  cases e with
  | some e => exact yields_finishDouble _ _ _
  | none => exact yields_check (yields_bind fun _ => yields_pure hzero)

theorem yields_fraction (negative : Bool) (significand : Nat) (start : Int) :
    Yields Number.Proper (fraction negative significand start) := by
  unfold fraction
  refine yields_bind fun _ => yields_bind fun _ => yields_bind fun (significand, count) =>
    yields_bind fun extra => ?_
  have hrest : Yields Number.Proper (do
      if isExponentMark (← peek) then exponent negative significand (start - count)
      else finishDouble negative significand (start - count)) := by
    refine yields_bind fun mark => ?_
    split
    · exact yields_exponent _ _ _
    · exact yields_finishDouble _ _ _
  dsimp only
  split
  · refine yields_bind fun next => ?_
    cases next <;> exact yields_bind fun _ => hrest
  · exact hrest

theorem yields_number (negative : Bool) : Yields Number.Proper (number negative) := by
  unfold number
  refine yields_bind fun c => yields_check (yields_bind fun _ => yields_check ?_)
  refine yields_bind fun _ => yields_bind fun (value, _) => yields_bind fun dropped =>
    yields_bind fun next => ?_
  split
  · exact yields_fraction _ _ _
  · exact yields_exponent _ _ _
  · exact yields_exponent _ _ _
  · split
    · exact yields_finishDouble _ _ _
    · split
      · exact yields_pure trivial
      · split
        · exact yields_finishDouble _ _ _
        · exact yields_pure trivial

theorem yields_elements {item : Reader α} (h : Yields P item) (fuel : Nat) (first : Bool) :
    Yields (fun xs => ∀ x ∈ xs, P x) (elements item fuel first) := by
  induction fuel generalizing first with
  | zero => exact yields_fail _
  | succ fuel ih =>
    have hmore : Yields (fun xs => ∀ x ∈ xs, P x) (do
        let x ← item
        return x :: (← elements item fuel false)) :=
      h.bind fun x hx => (ih false).bind fun xs hxs =>
        yields_pure (List.forall_mem_cons.mpr ⟨hx, hxs⟩)
    unfold elements
    refine yields_bind fun c => ?_
    split
    · exact yields_pure (by simp)
    · dsimp only
      split
      · refine yields_check (yields_bind fun _ => yields_bind fun next => yields_check hmore)
      · exact hmore

theorem yields_entries {κ : Type} {key : Reader κ} {entry : α → κ → Reader α}
    (h : ∀ s k, P s → Yields P (entry s k)) (fuel : Nat) (first : Bool) {s : α} (hs : P s) :
    Yields P (entries key entry fuel first s) := by
  induction fuel generalizing first s with
  | zero => exact yields_fail _
  | succ fuel ih =>
    unfold entries
    refine yields_bind fun next => ?_
    cases next with
    | none => exact yields_pure hs
    | some k => exact (h s k hs).bind fun s' hs' => ih false hs'

theorem yields_arrayOf {item : Reader α} (h : Yields P item) :
    Yields (fun xs => ∀ x ∈ xs, P x) (arrayOf item) :=
  yields_bind fun _ => yields_bind fun fuel => (yields_elements h fuel true).bind fun _ hxs =>
    yields_bind fun _ => yields_pure hxs

theorem yields_objectOf {entry : α → String → Reader α} (h : ∀ s k, P s → Yields P (entry s k))
    {s : α} (hs : P s) : Yields P (objectOf entry s) :=
  yields_bind fun _ => yields_bind fun fuel => (yields_entries h fuel true hs).bind fun _ hs' =>
    yields_bind fun _ => yields_pure hs'

end Reader

/-! Proper values. -/

theorem properItems_iff {vs : List Json} : ProperItems vs ↔ ∀ v ∈ vs, v.Proper := by
  induction vs with
  | nil => simp [ProperItems]
  | cons v vs ih => rw [ProperItems, ih, List.forall_mem_cons]

theorem keys_setKey_of_mem {α : Type} {key : String} {entries : List (String × α)}
    (h : key ∈ entries.map Prod.fst) (value : α) :
    (setKey key value entries).map Prod.fst = entries.map Prod.fst := by
  induction entries with
  | nil => cases h
  | cons e es ih =>
    rw [setKey]
    by_cases hkey : e.1 = key
    · rw [if_pos hkey]
      rfl
    · rw [if_neg hkey, List.map_cons, List.map_cons, ih]
      exact (List.mem_cons.mp h).resolve_left (Ne.symm hkey)

theorem properEntries_setKey {entries : List (String × Json)} (h : ProperEntries entries)
    (key : String) {v : Json} (hv : v.Proper) : ProperEntries (setKey key v entries) := by
  induction entries with
  | nil => exact ⟨hv, trivial⟩
  | cons e es ih =>
    rw [setKey]
    split
    · exact ⟨hv, h.2⟩
    · exact ⟨h.1, ih h.2⟩

theorem proper_setKey {entries : List (String × Json)} (h : (object entries).Proper) (key : String)
    {v : Json} (hv : v.Proper) : (object (setKey key v entries)).Proper := by
  refine ⟨?_, properEntries_setKey h.2 key hv⟩
  by_cases hmem : key ∈ entries.map Prod.fst
  · rw [keys_setKey_of_mem hmem]
    exact h.1
  · rw [setKey_of_not_mem hmem, List.map_append, List.map_singleton, ← List.concat_eq_append]
    exact h.1.concat hmem

theorem Reader.yields_value (depth : Nat) : Yields Proper (value depth) := by
  induction depth with
  | zero => exact yields_fail _
  | succ depth ih =>
    unfold value
    refine yields_bind fun c => ?_
    split
    · exact yields_bind fun _ => yields_bind fun _ => yields_pure trivial
    · exact yields_bind fun _ => yields_bind fun _ => yields_pure trivial
    · exact yields_bind fun _ => yields_bind fun _ => yields_pure trivial
    · exact yields_bind fun _ => (yields_number true).bind fun _ hn => yields_pure hn
    · exact yields_bind fun _ => yields_bind fun _ => yields_pure trivial
    · exact yields_check
        ((yields_arrayOf ih).bind fun _ hvs => yields_pure (properItems_iff.mpr hvs))
    · refine yields_check (Yields.bind (yields_objectOf (P := fun es => (object es).Proper) ?_ ?_)
        fun _ hes => yields_pure hes)
      · exact fun es key hes => yields_bind fun _ => ih.bind fun _ hv =>
          yields_pure (proper_setKey hes key hv)
      · exact ⟨List.nodup_nil, trivial⟩
    · split
      · exact (yields_number false).bind fun _ hn => yields_pure hn
      · exact yields_fail _

theorem proper_of_parse {text : String} {v : Json} (h : parse text = .ok v) : v.Proper := by
  unfold parse Reader.run at h
  cases hread : StateT.run (Reader.value Reader.depthLimit) text.toList with
  | error fault =>
    rw [hread] at h
    cases h
  | ok p =>
    have hproper := Reader.yields_value Reader.depthLimit text.toList p.1 p.2 hread
    rw [hread] at h
    obtain ⟨x, rest⟩ := p
    dsimp only [bind, Except.bind] at h
    split at h
    · cases h
      exact hproper
    · cases h

/-- Where the values of a JSON text are written as literals, they are read back, but for the key
`__proto__`. -/
theorem readLiteral_of_parse {text : String} {v : Json} (h : parse text = .ok v) (quote : Quote) :
    readLiteral (literal quote v) = some v.own ∧
      (readLiteral (literal quote v) = some v ↔ v.NoPrototype) := by
  have hread := readLiteral_literal quote (proper_of_parse h)
  refine ⟨hread, ?_⟩
  rw [hread, Option.some.injEq]
  exact own_eq_self_iff v

end EmberClasses.Json
