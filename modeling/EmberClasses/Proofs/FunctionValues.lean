import EmberClasses.Proofs.ClassBuild

/-! Where the functions of a property come from: each of them was read off a node of the object
literal, so what holds of well-formed trees holds of it. -/

namespace EmberClasses

open Script (Node Kind)

def Callable.ReadFrom (n : Node) (f : Callable) : Prop :=
  ∃ m ∈ n.preorder, Callable.ofFunction? m = some f

theorem Callable.ReadFrom.mono {m n : Node} {f : Callable} (h : f.ReadFrom m)
    (hm : m ∈ n.preorder) : f.ReadFrom n := by
  obtain ⟨l, hl, hf⟩ := h
  exact ⟨l, Node.mem_preorder_trans n hm hl, hf⟩

theorem Callable.ReadFrom.orderly {n : Node} {f : Callable} (h : f.ReadFrom n) (hn : n.Formed) :
    f.Orderly := by
  obtain ⟨m, hm, hf⟩ := h
  exact Callable.orderly_of_ofFunction? (hn.of_mem hm) hf

namespace Argument

theorem addAccessor_readFrom {n property : Node} {a b : Accessors}
    (h : addAccessor a property = some b) (hp : property ∈ n.preorder)
    (ha : ∀ f ∈ a.getter.toList ++ a.setter.toList, f.ReadFrom n) :
    ∀ f ∈ b.getter.toList ++ b.setter.toList, f.ReadFrom n := by
  unfold addAccessor at h
  split at h
  · rename_i form span name s cs value
    have hread {f : Callable} (hf : Callable.ofFunction? value = some f) : f.ReadFrom n :=
      ⟨value, Node.mem_preorder_trans n hp (Node.mem_preorder_child (by simp)), hf⟩
    split at h
    · cases h
    · split at h
      · cases h
        simp only [List.mem_append, Option.mem_toList] at ha ⊢
        rintro f (hf | hf)
        · cases hf; exact hread ‹_›
        · exact ha f (.inr hf)
      · cases h
        simp only [List.mem_append, Option.mem_toList] at ha ⊢
        rintro f (hf | hf)
        · exact ha f (.inl hf)
        · cases hf; exact hread ‹_›
      · cases h
  · cases h

theorem accessors?_readFrom {n : Node} {a : Accessors} (h : accessors? n = some a) :
    ∀ f ∈ a.getter.toList ++ a.setter.toList, f.ReadFrom n := by
  unfold accessors? at h
  split at h
  · cases h
  · have hfold : ∀ (ps : List Node) (a b : Accessors), (∀ p ∈ ps, p ∈ n.preorder) →
        (∀ f ∈ a.getter.toList ++ a.setter.toList, f.ReadFrom n) →
        ps.foldlM addAccessor a = some b →
        ∀ f ∈ b.getter.toList ++ b.setter.toList, f.ReadFrom n := by
      intro ps
      induction ps with
      | nil => rintro a b - ha hb; cases hb; exact ha
      | cons p ps ih =>
        intro a b hps ha hb
        rw [List.foldlM_cons, Option.bind_eq_bind, Option.bind_eq_some_iff] at hb
        obtain ⟨a', ha', hb⟩ := hb
        exact ih a' b (fun q hq => hps q (List.mem_cons_of_mem p hq))
          (addAccessor_readFrom ha' (hps p List.mem_cons_self) ha) hb
    exact hfold _ _ _ (fun p hp => Node.mem_preorder_child hp) (by simp) h

theorem ofNode_readFrom (n : Node) : ∀ f ∈ (ofNode n).functions, f.ReadFrom n := by
  intro f hf
  unfold ofNode at hf
  split at hf
  · split at hf
    · rename_i g hg
      rw [List.mem_singleton.mp hf]
      exact ⟨n, Node.mem_preorder_self n, hg⟩
    · cases hf
  · split at hf
    · exact accessors?_readFrom ‹_› f hf
    · cases hf
  · cases hf

end Argument

theorem Chain.peel_mem (n : Node) : (Chain.peel n).1 ∈ n.preorder := by
  fun_induction Chain.peel n with
  | case1 span name inner s cs args base modifiers hpeel call ih =>
    refine Node.mem_preorder.mpr (.inr ⟨_, List.mem_cons_self, ?_⟩)
    refine Node.mem_preorder.mpr (.inr ⟨_, List.mem_cons_self, ?_⟩)
    rwa [hpeel] at ih
  | case2 n h => exact Node.mem_preorder_self n

theorem Chain.ofCall_readFrom (n : Node) :
    ∀ f ∈ (Chain.ofCall n).args.flatMap Argument.functions, f.ReadFrom n := by
  intro f hf
  obtain ⟨a, ha, hf⟩ := List.mem_flatMap.mp hf
  obtain ⟨m, hm, rfl⟩ := List.mem_map.mp ha
  exact (Argument.ofNode_readFrom m f hf).mono
    (Node.mem_preorder_trans n (Chain.peel_mem n) (Node.mem_preorder_argument hm))

def Shape.functions : Shape → List Callable
  | .function f => [f]
  | .call chain => chain.args.flatMap Argument.functions
  | _ => []

theorem Shape.ofValue_readFrom (n : Node) : ∀ f ∈ (Shape.ofValue n).functions, f.ReadFrom n := by
  intro f hf
  unfold Shape.ofValue at hf
  split at hf
  case h_10 =>
    split at hf
    · rename_i g hg
      rw [List.mem_singleton.mp hf]
      exact ⟨n, Node.mem_preorder_self n, hg⟩
    · cases hf
  case h_11 => exact Chain.ofCall_readFrom n f hf
  all_goals cases hf

/-- The value of a property, or its name when it has no value of its own. -/
theorem value_mem {property key : Node} {rest : List Node}
    (h : property.children = key :: rest) : rest.head?.getD key ∈ property.preorder := by
  apply Node.mem_preorder_child
  rw [h]
  cases rest with
  | nil => exact List.mem_cons_self
  | cons value rest => exact List.mem_cons_of_mem key List.mem_cons_self

theorem Action.ofProperty_readFrom (source : List Char) (usage : Usage) (property : Node)
    (comments : List (List Char)) {f : Callable}
    (h : (Action.ofProperty source usage property comments).value = .function f) :
    f.ReadFrom property := by
  unfold Action.ofProperty at h
  split at h
  · rename_i key rest _ hch
    split at h
    · dsimp only at h
      unfold Action.readValue at h
      split at h
      · split at h
        · cases h
        · split at h
          · rename_i hf
            cases h
            exact ⟨_, value_mem hch, hf⟩
          · cases h
      · cases h
      · cases h
    · cases h
  · cases h

theorem mem_of_mem_withComments {source : List Char} {offset : Nat} {ns : List Node}
    {e : Node × List (List Char)} (h : e ∈ withComments source offset ns) : e.1 ∈ ns := by
  induction ns generalizing offset with
  | nil => cases h
  | cons n ns ih =>
    rcases List.mem_cons.mp h with rfl | h
    · exact List.mem_cons_self
    · exact List.mem_cons_of_mem n (ih h)

theorem Action.ofObject_readFrom (source : List Char) (usage : Usage) (object : Node) :
    ∀ a ∈ Action.ofObject source usage object, ∀ f, a.value = .function f → f.ReadFrom object := by
  intro a ha f hf
  obtain ⟨e, he, rfl⟩ := List.mem_map.mp ha
  exact (Action.ofProperty_readFrom source usage e.1 e.2 hf).mono
    (Node.mem_preorder_child (mem_of_mem_withComments he))

namespace Property

theorem readShape_readFrom (name : String) (accessor : Script.Accessor) (value : Node) :
    ∀ f ∈ (readShape name accessor value).functions, f.ReadFrom value := by
  intro f hf
  unfold readShape at hf
  split at hf
  · cases hf
  · split at hf
    · cases hf
    · exact Shape.ofValue_readFrom value f hf

theorem ofNode_readFrom (file : File) (property : Node) (comments : List (List Char)) :
    (∀ f ∈ (ofNode file property comments).functions, f.ReadFrom property) ∧
      ∀ a ∈ (ofNode file property comments).actions, ∀ f, a.value = .function f →
        f.ReadFrom property := by
  unfold ofNode
  dsimp only
  split
  · rename_i key rest _ hch
    have hmem := value_mem hch
    split
    · refine ⟨fun f hf => ?_, fun a ha f hf => ?_⟩
      · exact (readShape_readFrom _ _ _ f hf).mono hmem
      · simp only [ofValue] at ha
        split at ha
        · exact (Action.ofObject_readFrom _ _ _ a ha f hf).mono hmem
        · cases ha
    · exact ⟨by simp [Property.functions], by simp⟩
  · exact ⟨by simp [Property.functions], by simp⟩

end Property

/-- The functions of the properties of a well-formed object literal can be rewritten. -/
theorem PropertyList.ofObject_orderly (file : Property.File) {object : Node} (h : object.Formed) :
    ∀ p ∈ (PropertyList.ofObject file object).properties, p.Orderly := by
  intro p hp
  obtain ⟨e, he, rfl⟩ := List.mem_map.mp hp
  have hchild := h.child (mem_of_mem_withComments he)
  obtain ⟨hfunctions, hactions⟩ := Property.ofNode_readFrom file e.1 e.2
  exact ⟨fun f hf => (hfunctions f hf).orderly hchild,
    fun a ha f hf => (hactions a ha f hf).orderly hchild⟩

end EmberClasses
