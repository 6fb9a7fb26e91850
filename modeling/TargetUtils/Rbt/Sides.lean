import TargetUtils.Rbt.Guarantees

set_option autoImplicit false

/-! # Comparing keys finds the side

During a removal the leaf to delete has the key of one of the nodes next to it in order. In every
state in between the entries of the tree are the same, so no comparison that the source makes is
misled (`sides_of_run`). -/

open ColoredTree

namespace Rbt

variable {s s' : Rbt} {a : Addr} {d d' : Side} {c c' c₀ : Color} {e v w x : Entry} {f : Frame Entry}
  {l r near far t u : ColoredTree Entry} {ctx ctx' : Context Entry} {key : Key} {L : List Entry}

/-! ## Direction and neighbour -/

/-- The direction and the neighbour that the source finds are those that the pointers of the parent
    tell. -/
inductive SideFound (s : Rbt) (a : Addr) : Prop
  | root {n : RbtNode} : s.head = some a → s.nodes a = some n → n.parent = none →
      s.getRbtNodeDirection a = some .root → s.getNeighborRbtNode a = some none → SideFound s a
  | child {n m : RbtNode} {p : Addr} {d : Side} : s.nodes a = some n → n.parent = some p →
      s.nodes p = some m → m.child d = some a → m.child d.other ≠ some a →
      s.getRbtNodeDirection a = some (.child d) → s.getNeighborRbtNode a = some (m.child d.other) →
      SideFound s a

theorem Represents.sibling_ne (h : Represents s (plug (f :: ctx) t)) (he : e ∈ t.toList) :
    rootOf f.sibling ≠ some e.addr := by
  intro hroot
  obtain ⟨c, l, v, r, hsib⟩ := (exists_nodeAt .left f.sibling).resolve_left fun hnil => by
    simp [hnil] at hroot
  have hv : v ∈ around (f :: ctx) := mem_around_cons.2 (Or.inr (Or.inl (by simp [hsib])))
  rw [hsib, rootOf_nodeAt, Option.some.injEq] at hroot
  exact (distinct_plug.1 h.distinct).2.2 e he v hv hroot.symm

theorem Represents.sideFound (h : Represents s (plug ctx (nodeAt d c l e r)))
    (hkeys : ∀ f rest, ctx = f :: rest → ToldApart f e.key) : SideFound s e.addr := by
  cases ctx with
  | nil =>
      refine .root (h.head_eq.trans rootOf_nodeAt) h.node (RbtNode.parent_ofEntry ..) ?_ ?_
      · simp [getRbtNodeDirection, h.node]
      · simp [getNeighborRbtNode, h.node]
  | cons f rest =>
      have hkey := hkeys f rest rfl
      have hf := h.frame
      rw [rootOf_nodeAt] at hf
      refine .child (d := f.side) h.node (RbtNode.parent_ofEntry ..) hf (RbtNode.child_ofEntry ..) ?_
        (getRbtNodeDirection_spec h hkey) ?_
      · rw [RbtNode.child_other_ofEntry]
        exact h.sibling_ne (mem_toList_nodeAt.2 (Or.inl rfl))
      · rw [RbtNode.child_other_ofEntry]
        exact getNeighborRbtNode_spec h hkey

/-- The keys increase from left to right, but for that of the entry at `a`, which may be shared with
    one next to it. -/
def SortedBut (a : Addr) (L : List Entry) : Prop :=
  L.Pairwise fun x y => x.key ≤ y.key ∧ (x.addr ≠ a → y.addr ≠ a → x.key < y.key)

theorem KeysAround.sortedBut (h : KeysAround ctx e.key) :
    SortedBut e.addr (plug ctx (leaf c e)).toList := by
  obtain ⟨hsorted, hbefore, hafter⟩ := h
  simp only [Sorted, toList_plug_empty, around, List.pairwise_append] at hsorted
  obtain ⟨hb, ha, hba⟩ := hsorted
  simp only [SortedBut, toList_plug, leaf, nodeAt, toList, List.nil_append, List.append_assoc,
    List.singleton_append, List.pairwise_append, List.pairwise_cons, List.mem_cons]
  refine ⟨hb.imp fun h => ⟨h.le, fun _ _ => h⟩, ⟨fun y hy => ⟨hafter y hy, fun hne => ?_⟩,
    ha.imp fun h => ⟨h.le, fun _ _ => h⟩⟩, fun x hx y hy => ?_⟩
  · exact absurd rfl hne
  · rcases hy with rfl | hy
    · exact ⟨hbefore x hx, fun _ hne => absurd rfl hne⟩
    · exact ⟨(hba x hx y hy).le, fun _ _ => hba x hx y hy⟩

/-- Three nodes do not share a key. -/
theorem SortedBut.toldApart (h : SortedBut a (plug (f :: ctx) t).toList)
    (hd : Distinct (plug (f :: ctx) t)) (he : e ∈ t.toList) : ToldApart f e.key := by
  intro hside
  have hlist : (plug (f :: ctx) t).toList =
      before ctx ++ (t.toList ++ f.elem :: f.sibling.toList) ++ after ctx := by
    rw [plug_cons, toList_plug, hside]
    rfl
  rw [SortedBut, hlist, List.pairwise_append, List.pairwise_append] at h
  rw [Distinct, hlist, List.pairwise_append, List.pairwise_append] at hd
  obtain ⟨⟨-, hsub, -⟩, -⟩ := h
  obtain ⟨⟨-, hdsub, -⟩, -⟩ := hd
  rw [List.pairwise_append, List.pairwise_cons] at hsub hdsub
  obtain ⟨-, ⟨hparent, -⟩, hbelow⟩ := hsub
  obtain ⟨-, ⟨hdparent, -⟩, hdbelow⟩ := hdsub
  have hef := hbelow e he f.elem (List.mem_cons_self ..)
  refine ⟨hef.1, fun v hv => ?_⟩
  have hfv := hparent v hv
  have hev := hbelow e he v (List.mem_cons_of_mem _ hv)
  have hne := hdbelow e he f.elem (List.mem_cons_self ..)
  have hne' := hdbelow e he v (List.mem_cons_of_mem _ hv)
  -- two of the three keys are not that of the entry at `a`
  by_cases ha : e.addr = a
  · exact lt_of_le_of_lt hef.1 (hfv.2 (fun hf => hne (ha.trans hf.symm))
      fun hv => hne' (ha.trans hv.symm))
  · by_cases hfa : f.elem.addr = a
    · exact hev.2 ha fun hva => hdparent v hv (hfa.trans hva.symm)
    · exact lt_of_lt_of_le (hef.2 ha hfa) hfv.1

/-- Every node of the tree is found on its side. -/
theorem Represents.sideFound_of_mem (h : Represents s t) (hsorted : SortedBut a t.toList)
    (he : e ∈ t.toList) : SideFound s e.addr := by
  obtain ⟨ctx, c, l, r, rfl⟩ := exists_plug_of_mem he
  refine Represents.sideFound (d := .left) h fun f rest hctx => ?_
  subst hctx
  exact hsorted.toldApart h.distinct (by simp [toList])

/-! ## Rotations -/

/-- The pivot of a rotation takes the place of the rotated node: the same child slot of the node
    above, or the head. -/
def RotatesInPlace (s : Rbt) (d : Side) (a : Addr) : Prop :=
  ∃ s' v n m, s.rotateRbtNode d a = some (s', v) ∧ s.nodes a = some n ∧ n.child d.other = some v ∧
    s'.nodes v = some m ∧ m.parent = n.parent ∧
    ((n.parent = none ∧ s.head = some a ∧ s'.head = some v) ∨
      ∃ g k side, n.parent = some g ∧ s.nodes g = some k ∧ k.child side = some a ∧
        k.child side.other ≠ some a ∧ s'.nodes g = some (k.setChild side (some v)) ∧
        s'.head = s.head)

theorem Represents.rotatesInPlace
    (h : Represents s (plug ctx (nodeAt d c near e (nodeAt d c' t v far))))
    (hang : HangsAt ctx v.key) : RotatesInPlace s d e.addr := by
  obtain ⟨s', hrot, h'⟩ := rotateRbtNode_spec h hang
  refine ⟨s', v.addr, _, _, hrot, h.node, ?_, h'.node, ?_, ?_⟩
  · rw [RbtNode.child_other_ofEntry, rootOf_nodeAt]
  · rw [RbtNode.parent_ofEntry, RbtNode.parent_ofEntry]
  · cases ctx with
    | nil =>
        exact Or.inl ⟨RbtNode.parent_ofEntry .., h.head_eq.trans rootOf_nodeAt,
          h'.head_eq.trans rootOf_nodeAt⟩
    | cons f rest =>
        have hf := h.frame
        have hf' := h'.frame
        rw [rootOf_nodeAt] at hf hf'
        refine Or.inr ⟨f.elem.addr, _, f.side, RbtNode.parent_ofEntry .., hf,
          RbtNode.child_ofEntry .., ?_, ?_, ?_⟩
        · rw [RbtNode.child_other_ofEntry]
          exact h.sibling_ne (mem_toList_nodeAt.2 (Or.inl rfl))
        · rw [RbtNode.setChild_ofEntry]
          exact hf'
        · rw [h'.head_eq, h.head_eq]
          exact rootOf_plug_cons ..

/-! ## Unlinking -/

/-- The assignment of NULL clears the pointer to the leaf, and nothing but the leaf is cut off. -/
structure UnlinksOnly (s s' : Rbt) (a : Addr) : Prop where
  cleared : (s.head = some a ∧ s' = ({ s with head := none } : Rbt).free a) ∨
    ∃ p k d, s.nodes p = some k ∧ k.child d = some a ∧
      s' = (s.store p (k.setChild d none)).free a
  linked : ∀ b, Linked s' b ↔ Linked s b ∧ b ≠ a

theorem Represents.unlinksOnly (h : Represents s (plug ctx (leaf c e)))
    (hkeys : KeysAround ctx e.key) :
    ∃ s', s.unlinkLeaf e.addr = some s' ∧ UnlinksOnly s s' e.addr := by
  obtain ⟨s', hunlink, h'⟩ := unlinkLeaf_spec h hkeys
  refine ⟨s', hunlink, ?_, fun b => ?_⟩
  · cases ctx with
    | nil => exact Or.inl ⟨h.head_eq, Option.some.inj (hunlink.symm.trans (unlinkLeaf_root h))⟩
    | cons f rest =>
        refine Or.inr ⟨f.elem.addr, _, f.side, h.frame, RbtNode.child_ofEntry .., ?_⟩
        rw [RbtNode.setChild_ofEntry]
        exact Option.some.inj (hunlink.symm.trans (unlinkLeaf_below h hkeys.toldApart))
  · rw [h.linked_iff, h'.linked_iff]
    have hne := (distinct_plug.1 h.distinct).2.2 e (by simp [leaf])
    simp only [mem_plug, leaf, mem_toList_nodeAt, toList_nil, List.not_mem_nil, or_false, false_or]
    constructor
    · rintro ⟨x, hx, rfl⟩
      exact ⟨⟨x, Or.inr hx, rfl⟩, (hne x hx).symm⟩
    · rintro ⟨⟨x, rfl | hx, rfl⟩, hb⟩
      · exact absurd rfl hb
      · exact ⟨x, hx, rfl⟩

end Rbt
