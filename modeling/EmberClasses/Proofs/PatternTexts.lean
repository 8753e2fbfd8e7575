import EmberClasses.Glob.Walk
import EmberClasses.Proofs.PathComponents

/-! The texts of patterns. A pattern can be read if each of its parts can, and a part without
wildcards stands for its own text. -/

namespace EmberClasses

namespace Glob

theorem untilBracket_append {cs inner after : List Char} (h : untilBracket cs = some (inner, after))
    (more : List Char) : untilBracket (cs ++ more) = some (inner, after ++ more) := by
  fun_induction untilBracket cs generalizing inner with
  | case1 => cases h
  | case2 rest =>
    cases h
    rfl
  | case3 c rest hc ih =>
    obtain ⟨⟨inner', after'⟩, hrest, he⟩ := Option.map_eq_some_iff.mp h
    cases he
    rw [List.cons_append, untilBracket.eq_3 _ _ hc, ih hrest]
    rfl

theorem untilBracket_suffix {cs inner after : List Char}
    (h : untilBracket cs = some (inner, after)) : after <:+ cs := by
  fun_induction untilBracket cs generalizing inner with
  | case1 => cases h
  | case2 rest =>
    cases h
    exact List.suffix_cons _ _
  | case3 c rest hc ih =>
    obtain ⟨⟨inner', after'⟩, hrest, he⟩ := Option.map_eq_some_iff.mp h
    cases he
    exact (ih hrest).trans (List.suffix_cons _ _)

theorem charSet_cons {first : Char} (h : first ≠ '!') (rest : List Char) :
    charSet (first :: rest) = (untilBracket rest).map fun (inner, after) =>
      (.within (ranges (first :: inner)), after) :=
  charSet.eq_3 first rest (fun _ _ hfirst _ => h hfirst) (fun hfirst _ => h hfirst)

/-- A set ends where it did, whatever follows, and it is no single character. -/
theorem charSet_eq_some {cs rest : List Char} {t : Token} (h : charSet cs = some (t, rest)) :
    (∀ more, charSet (cs ++ more) = some (t, rest ++ more)) ∧ rest <:+ cs ∧
      (∀ c, t ≠ .char c) ∧ t ≠ .anyComponents := by
  have hread (make : List CharRange → Token) {first : Char} {inside : List Char}
      (h : (untilBracket inside).map
        (fun (inner, after) => (make (ranges (first :: inner)), after)) = some (t, rest)) :
      (∀ more, (untilBracket (inside ++ more)).map
        (fun (inner, after) => (make (ranges (first :: inner)), after)) =
          some (t, rest ++ more)) ∧
        rest <:+ inside ∧ ∃ set, t = make set := by
    obtain ⟨⟨inner, after⟩, huntil, he⟩ := Option.map_eq_some_iff.mp h
    cases he
    exact ⟨fun more => by rw [untilBracket_append huntil]; rfl, untilBracket_suffix huntil, _, rfl⟩
  cases cs with
  | nil => cases h
  | cons first inside =>
    by_cases hfirst : first = '!'
    · subst hfirst
      cases inside with
      | nil => cases h
      | cons first inside =>
        obtain ⟨hmore, hsuffix, set, rfl⟩ := hread .except h
        exact ⟨hmore, (hsuffix.trans (List.suffix_cons _ _)).trans (List.suffix_cons _ _), by simp,
          by simp⟩
    · rw [charSet_cons hfirst] at h
      obtain ⟨hmore, hsuffix, set, rfl⟩ := hread .within h
      refine ⟨fun more => ?_, hsuffix.trans (List.suffix_cons _ _), by simp, by simp⟩
      rw [List.cons_append, charSet_cons hfirst]
      exact hmore more

/-- How the tokens of a pattern are written. `last` is the character before. -/
inductive Reads : Option Char → List Char → List Token → Prop
  | nil {last} : Reads last [] []
  | anyChar {last cs ts} : Reads (some '?') cs ts → Reads last ('?' :: cs) (.anyChar :: ts)
  | lastComponents {last} : last = none ∨ last = some '/' → Reads last ['*', '*'] [.anyComponents]
  | components {last cs ts} : last = none ∨ last = some '/' → Reads (some '/') cs ts →
      Reads last ('*' :: '*' :: '/' :: cs) (.anyComponents :: ts)
  | sequence {last cs ts} : (∀ rest, cs ≠ '*' :: rest) → Reads (some '*') cs ts →
      Reads last ('*' :: cs) (.anySequence :: ts)
  | set {last cs rest t ts} : charSet cs = some (t, rest) → Reads (some ']') rest ts →
      Reads last ('[' :: cs) (t :: ts)
  | char {last c cs ts} : c ≠ '?' → c ≠ '*' → c ≠ '[' → Reads (some c) cs ts →
      Reads last (c :: cs) (.char c :: ts)

variable {last : Option Char} {cs : List Char} {ts : List Token}

theorem reads_of_readTokens {n : Nat} (h : readTokens n last cs = some ts) : Reads last cs ts := by
  fun_induction readTokens n last cs generalizing ts with
  | case1 | case4 | case7 | case8 | case10 => cases h
  | case2 =>
    cases h
    exact .nil
  | case3 fuel last cs ih =>
    obtain ⟨us, hus, rfl⟩ := Option.map_eq_some_iff.mp h
    exact .anyChar (ih hus)
  | case5 fuel last hlast =>
    cases h
    exact .lastComponents hlast
  | case6 fuel last hlast cs _ ih =>
    obtain ⟨us, hus, rfl⟩ := Option.map_eq_some_iff.mp h
    exact .components hlast (ih hus)
  | case9 fuel last cs _ hcs ih =>
    obtain ⟨us, hus, rfl⟩ := Option.map_eq_some_iff.mp h
    exact .sequence hcs (ih hus)
  | case11 fuel last cs t rest hset ih =>
    obtain ⟨us, hus, rfl⟩ := Option.map_eq_some_iff.mp h
    exact .set hset (ih hus)
  | case12 fuel last c cs hquestion hstar hbracket ih =>
    obtain ⟨us, hus, rfl⟩ := Option.map_eq_some_iff.mp h
    exact .char hquestion hstar hbracket (ih hus)

/-- With enough fuel, every text that has tokens is read. -/
theorem Reads.readTokens (h : Reads last cs ts) {n : Nat} (hn : cs.length < n) :
    readTokens n last cs = some ts := by
  induction h generalizing n <;> obtain ⟨n, rfl⟩ := Nat.exists_eq_add_of_lt hn
  case nil => rfl
  case anyChar ih =>
    rw [Glob.readTokens, ih (by simp only [List.length_cons]; omega)]
    rfl
  case lastComponents hlast => simp [Glob.readTokens, hlast]
  case components hlast _ ih =>
    rw [Glob.readTokens]
    simp only [hlast, if_true]
    rw [ih (by simp only [List.length_cons]; omega)]
    rfl
  case sequence hcs _ ih =>
    rw [Glob.readTokens.eq_8 _ _ _ (fun _ => hcs _) hcs,
      ih (by simp only [List.length_cons]; omega)]
    rfl
  case set hset _ ih =>
    have hlength := (charSet_eq_some hset).2.1.length_le
    rw [Glob.readTokens]
    simp only [hset]
    rw [ih (by simp only [List.length_cons]; omega)]
    rfl
  case char hquestion hstar hbracket _ ih =>
    rw [Glob.readTokens.eq_10 _ _ _ _ hquestion hstar hbracket,
      ih (by simp only [List.length_cons]; omega)]
    rfl

/-- What precedes a text matters only to a `**` at its start. -/
theorem Reads.restart (h : Reads last cs ts) {first : Option Char}
    (hfirst : first = none ∨ first = some '/') : Reads first cs ts := by
  cases h with
  | nil => exact .nil
  | anyChar hrest => exact .anyChar hrest
  | lastComponents => exact .lastComponents hfirst
  | components _ hrest => exact .components hfirst hrest
  | sequence hcs hrest => exact .sequence hcs hrest
  | set hset hrest => exact .set hset hrest
  | char hquestion hstar hbracket hrest => exact .char hquestion hstar hbracket hrest

/-- Texts that can be read can be read one after the other, with a slash between them. -/
theorem Reads.append {part rest : List Char} {us : List Token} (h : Reads last part ts)
    (hrest : Reads (some '/') rest us) : ∃ vs, Reads last (part ++ '/' :: rest) vs := by
  induction h with
  | nil => exact ⟨_, .char (by decide) (by decide) (by decide) hrest⟩
  | anyChar _ ih => exact ⟨_, .anyChar (ih.choose_spec)⟩
  | lastComponents hlast => exact ⟨_, .components hlast hrest⟩
  | components hlast _ ih => exact ⟨_, .components hlast ih.choose_spec⟩
  | @sequence last cs ts hcs _ ih =>
    refine ⟨_, .sequence (fun more hmore => ?_) ih.choose_spec⟩
    cases cs with
    | nil => cases hmore
    | cons c cs =>
      cases hmore
      exact hcs cs rfl
  | set hset _ ih => exact ⟨_, .set ((charSet_eq_some hset).1 _) ih.choose_spec⟩
  | char hquestion hstar hbracket _ ih =>
    exact ⟨_, .char hquestion hstar hbracket ih.choose_spec⟩

/-- Without wildcards the tokens are the characters of the text. -/
theorem Reads.eq_of_chars (h : Reads last cs ts) {name : List Char} (hts : ts = name.map .char) :
    cs = name := by
  induction h generalizing name with
  | nil => exact (List.map_eq_nil_iff.mp hts.symm).symm
  | set hset _ =>
    obtain ⟨c, name, rfl, hc, -⟩ := List.map_eq_cons_iff.mp hts.symm
    exact absurd hc.symm ((charSet_eq_some hset).2.2.1 c)
  | char _ _ _ _ ih =>
    obtain ⟨c, name, rfl, hc, hrest⟩ := List.map_eq_cons_iff.mp hts.symm
    cases hc
    rw [ih hrest.symm]
  | _ =>
    obtain ⟨c, name, rfl, hc, -⟩ := List.map_eq_cons_iff.mp hts.symm
    cases hc

/-- Behind any other character there is no `**` before the next slash. -/
theorem Reads.anyComponents_not_mem (h : Reads last cs ts) (hslash : '/' ∉ cs)
    (hlast : last ≠ none ∧ last ≠ some '/') : Token.anyComponents ∉ ts := by
  induction h with
  | nil => exact List.not_mem_nil
  | anyChar _ ih | sequence _ _ ih =>
    rw [List.mem_cons, not_or] at hslash
    simpa using ih hslash.2 (by decide)
  | lastComponents hstart | components hstart => exact absurd hstart (not_or.mpr hlast)
  | set hset _ ih =>
    obtain ⟨-, hsuffix, -, hset⟩ := charSet_eq_some hset
    rw [List.mem_cons, not_or] at hslash
    simpa [Ne.symm hset] using ih (fun hmem => hslash.2 (hsuffix.subset hmem)) (by decide)
  | char _ _ _ _ ih =>
    rw [List.mem_cons, not_or] at hslash
    simpa using ih hslash.2 ⟨by simp, by simpa using Ne.symm hslash.1⟩

theorem Reads.eq_of_anyComponents (h : Reads none cs ts) (hslash : '/' ∉ cs)
    (hmem : Token.anyComponents ∈ ts) : cs = ['*', '*'] := by
  cases h with
  | nil => cases hmem
  | lastComponents => rfl
  | components => simp at hslash
  | anyChar hrest | sequence _ hrest =>
    rw [List.mem_cons, not_or] at hslash
    exact absurd (by simpa using hmem) (hrest.anyComponents_not_mem hslash.2 (by decide))
  | set hset hrest =>
    obtain ⟨-, hsuffix, -, hset⟩ := charSet_eq_some hset
    rw [List.mem_cons, not_or] at hslash
    exact absurd (by simpa [Ne.symm hset] using hmem)
      (hrest.anyComponents_not_mem (fun hmem => hslash.2 (hsuffix.subset hmem)) (by decide))
  | char _ _ _ hrest =>
    rw [List.mem_cons, not_or] at hslash
    exact absurd (by simpa using hmem)
      (hrest.anyComponents_not_mem hslash.2 ⟨by simp, by simpa using Ne.symm hslash.1⟩)

theorem collapse_of_not_mem (h : Token.anyComponents ∉ ts) (done : List Token) :
    collapse done ts = done.reverse ++ ts := by
  induction ts generalizing done with
  | nil => simp [collapse]
  | cons t ts ih =>
    rw [List.mem_cons, not_or] at h
    rw [collapse.eq_3 _ _ _ (Ne.symm h.1), ih h.2, List.reverse_cons, List.append_assoc,
      List.singleton_append]

theorem parse_eq_some {text : String} {p : Pattern} : Pattern.parse text = some p ↔
    ∃ ts, Reads none text.toList ts ∧ p = ⟨collapse [] ts, ts.contains .anyComponents⟩ := by
  have hparse : Pattern.parse text = (readTokens (text.length + 1) none text.toList).map
      fun ts => ⟨collapse [] ts, ts.contains .anyComponents⟩ := by
    unfold Pattern.parse
    cases readTokens (text.length + 1) none text.toList <;> rfl
  rw [hparse, Option.map_eq_some_iff]
  constructor
  · rintro ⟨ts, hts, rfl⟩
    exact ⟨ts, reads_of_readTokens hts, rfl⟩
  · rintro ⟨ts, hts, rfl⟩
    exact ⟨ts, hts.readTokens (Nat.lt_succ_self _), rfl⟩

theorem Reads.intercalate {parts : List (List Char)} (hne : parts ≠ [])
    (h : ∀ part ∈ parts, ∃ ts, Reads none part ts) :
    ∃ ts, Reads none (['/'].intercalate parts) ts := by
  induction parts with
  | nil => exact absurd rfl hne
  | cons part parts ih =>
    obtain ⟨ts, hpart⟩ := h part List.mem_cons_self
    cases parts with
    | nil => exact ⟨ts, by simpa using hpart⟩
    | cons next parts =>
      obtain ⟨us, hrest⟩ := ih (by simp) fun part hpart => h part (List.mem_cons_of_mem _ hpart)
      rw [List.intercalate_cons_cons, List.append_assoc, List.singleton_append]
      exact hpart.append (hrest.restart (.inr rfl))

theorem parse_isSome_of_parts {text : String}
    (h : ∀ part ∈ Path.splitSlashes text.toList, (Pattern.parse (String.ofList part)).isSome) :
    (Pattern.parse text).isSome := by
  have hparts : ∀ part ∈ Path.splitSlashes text.toList, ∃ ts, Reads none part ts := by
    intro part hpart
    obtain ⟨p, hp⟩ := Option.isSome_iff_exists.mp (h part hpart)
    obtain ⟨ts, hts, -⟩ := parse_eq_some.mp hp
    exact ⟨ts, by simpa using hts⟩
  obtain ⟨ts, hts⟩ := Reads.intercalate (Path.splitSlashes_ne_nil text.toList) hparts
  rw [Path.intercalate_splitSlashes] at hts
  rw [parse_eq_some.mpr ⟨ts, hts, rfl⟩]
  rfl

/-- The only part that stands for more than one name is `**`. -/
theorem not_recursive_of_parse {text : String} {p : Pattern} (h : Pattern.parse text = some p)
    (hslash : '/' ∉ text.toList) (htext : text ≠ "**") : p.recursive = false := by
  obtain ⟨ts, hts, rfl⟩ := parse_eq_some.mp h
  rw [Bool.eq_false_iff]
  intro hmem
  exact htext (String.toList_inj.mp (hts.eq_of_anyComponents hslash (by simpa using hmem)))

/-- A pattern without `**` has the tokens of its text. -/
theorem reads_of_parse {text : String} {p : Pattern} (h : Pattern.parse text = some p)
    (hrecursive : p.recursive = false) : Reads none text.toList p.tokens := by
  obtain ⟨ts, hts, rfl⟩ := parse_eq_some.mp h
  have hnot : Token.anyComponents ∉ ts := by simpa using hrecursive
  rwa [collapse_of_not_mem hnot]

theorem tokens_of_literal? {p : Pattern} {name : String} (h : p.literal? = some name) :
    p.tokens = name.toList.map .char := by
  unfold Pattern.literal? at h
  obtain ⟨cs, hcs, rfl⟩ := Option.map_eq_some_iff.mp h
  rw [String.toList_ofList]
  clear h
  generalize p.tokens = ts at hcs
  induction ts generalizing cs with
  | nil =>
    cases hcs
    rfl
  | cons t ts ih =>
    rw [List.mapM_cons] at hcs
    obtain ⟨c, hc, hcs⟩ := Option.bind_eq_some_iff.mp hcs
    obtain ⟨rest, hrest, hcs⟩ := Option.bind_eq_some_iff.mp hcs
    cases hcs
    cases t with
    | char c =>
      cases hc
      rw [ih rest hrest, List.map_cons]
    | _ => cases hc

/-- A pattern without wildcards stands for its own text. -/
theorem literal?_eq_some {text name : String} {p : Pattern} (h : Pattern.parse text = some p)
    (hrecursive : p.recursive = false) (hname : p.literal? = some name) : name = text :=
  String.toList_inj.mp
    ((reads_of_parse h hrecursive).eq_of_chars (tokens_of_literal? hname)).symm

end Glob

end EmberClasses
