import TargetUtils.Rbt.Rotation

set_option autoImplicit false

/-! # Which side a node is on

The source finds out on which side of its parent a node hangs by comparing keys. This is right in a
sorted tree, and also while the node to be deleted has the key of one of its ancestors: the node then
has a key between those around it, one of which it may share (`KeysAround`). -/

open ColoredTree

namespace Rbt

variable {s : Rbt} {d : Side} {c : Color} {e v : Entry} {f : Frame Entry} {t l r : ColoredTree Entry}
  {ctx : Context Entry} {key : Key}

/-- The keys increase strictly from left to right. -/
def Sorted (t : ColoredTree Entry) : Prop := t.toList.Pairwise fun x y => x.key < y.key

/-- A node with this key may hang in the hole. -/
structure KeysAround (ctx : Context Entry) (key : Key) : Prop where
  sorted : Sorted (plug ctx .nil)
  before_le : ∀ x ∈ before ctx, x.key ≤ key
  le_after : ∀ x ∈ after ctx, key ≤ x.key

theorem sorted_plug : Sorted (plug ctx t) ↔ Sorted (plug ctx .nil) ∧ Sorted t ∧
    ∀ x ∈ t.toList, (∀ y ∈ before ctx, y.key < x.key) ∧ ∀ y ∈ after ctx, x.key < y.key := by
  simp only [Sorted, toList_plug, toList_nil, List.append_nil, List.pairwise_append,
    List.mem_append]
  grind

theorem Sorted.keysAround (h : Sorted (plug ctx t)) (he : e ∈ t.toList) : KeysAround ctx e.key := by
  obtain ⟨hctx, -, hkeys⟩ := sorted_plug.1 h
  exact ⟨hctx, fun x hx => le_of_lt ((hkeys e he).1 x hx),
    fun x hx => le_of_lt ((hkeys e he).2 x hx)⟩

/-- Elements of a sorted tree hang where their keys say. -/
theorem Sorted.hangsAt (h : Sorted (plug ctx t)) (hv : v ∈ t.toList) : HangsAt ctx v.key := by
  cases ctx with
  | nil => trivial
  | cons f rest =>
      obtain ⟨hbefore, hafter⟩ := (sorted_plug.1 h).2.2 v hv
      change f.elem.key < v.key ↔ f.side = .right
      cases hside : f.side with
      | left =>
          have := hafter f.elem (by simp [after, hside])
          simp [le_of_lt this]
      | right =>
          have := hbefore f.elem (by simp [before, hside])
          simp [this]

/-- The parent, seen from its own place. -/
theorem KeysAround.up (h : KeysAround (f :: ctx) key) : KeysAround ctx f.elem.key :=
  Sorted.keysAround (t := f.fill .nil) h.sorted (mem_toList_nodeAt.2 (Or.inl rfl))

theorem KeysAround.key_le (h : KeysAround (f :: ctx) key) (hside : f.side = .left) :
    key ≤ f.elem.key :=
  h.le_after _ (by simp [after, hside])

theorem KeysAround.lt_sibling (h : KeysAround (f :: ctx) key) (hside : f.side = .left)
    (hv : v ∈ f.sibling.toList) : f.elem.key < v.key := by
  have hfill := (sorted_plug.1 (show Sorted (plug ctx (f.fill .nil)) from h.sorted)).2.1
  simp only [Sorted, Frame.fill, nodeAt, hside, toList, List.nil_append, List.pairwise_cons] at hfill
  exact hfill.1 v hv

/-- The key of a left child is at most that of its parent, and below all keys on the other side. A
    right child is recognised whatever its key. -/
def ToldApart (f : Frame Entry) (key : Key) : Prop :=
  f.side = .left → key ≤ f.elem.key ∧ ∀ v ∈ f.sibling.toList, key < v.key

theorem KeysAround.toldApart (h : KeysAround (f :: ctx) key) : ToldApart f key :=
  fun hside => ⟨h.key_le hside, fun _ hv => lt_of_le_of_lt (h.key_le hside) (h.lt_sibling hside hv)⟩

/-- The nodes on the other side of the parent hang where their keys say. -/
theorem KeysAround.hangsAt_sibling (h : KeysAround (f :: ctx) key) (hv : v ∈ f.sibling.toList) :
    HangsAt ctx v.key ∧ HangsAt (⟨f.side.other, f.color, f.elem, t⟩ :: ctx) v.key := by
  have hctx : Sorted (plug ctx (f.fill .nil)) := h.sorted
  have hother : Sorted (plug (⟨f.side.other, f.color, f.elem, .nil⟩ :: ctx) f.sibling) := by
    rw [← plug_sibling]
    exact h.sorted
  exact ⟨hctx.hangsAt (mem_toList_nodeAt.2 (Or.inr (Or.inr hv))), hother.hangsAt hv⟩

/-! ## The tests of the source -/

/-- The node of the innermost frame. -/
theorem Represents.frame (h : Represents s (plug (f :: ctx) t)) : s.nodes f.elem.addr =
    some (.ofEntry f.side f.color f.elem (rootOf t) (rootOf f.sibling) (parentOf ctx)) :=
  h.fill.node

/-- The test whether a node is the right child of its parent, by keys. -/
theorem Represents.rightTest (h : Represents s (plug (f :: ctx) (nodeAt d c l e r)))
    (hkeys : ToldApart f e.key) :
    ∃ b, s.hasKey (RbtNode.ofEntry f.side f.color f.elem (some e.addr) (rootOf f.sibling)
        (parentOf ctx)).right e.key = some b ∧
      (b || decide (f.elem.key < e.key)) = decide (f.side = .right) := by
  obtain ⟨side, color, x, u⟩ := f
  cases side with
  | right =>
      refine ⟨true, ?_, by simp⟩
      rw [RbtNode.ofEntry, h.hasKey_node]
      simp
  | left =>
      obtain ⟨hle, hsib⟩ := hkeys rfl
      refine ⟨false, ?_, by simp [hle]⟩
      rw [RbtNode.ofEntry]
      rcases exists_nodeAt .left u with rfl | ⟨c', l', w, r', rfl⟩
      · rfl
      · have hlt : e.key < w.key := hsib w (by simp)
        rw [plug_sibling] at h
        rw [rootOf_nodeAt, h.hasKey_node]
        simp [ne_of_gt hlt]

theorem getRbtNodeDirection_spec (h : Represents s (plug (f :: ctx) (nodeAt d c l e r)))
    (hkeys : ToldApart f e.key) :
    s.getRbtNodeDirection e.addr = some (.child f.side) := by
  obtain ⟨b, hb, htest⟩ := h.rightTest hkeys
  have hf := h.frame
  rw [rootOf_nodeAt] at hf
  simp only [getRbtNodeDirection, h.node, Option.bind_eq_bind, Option.bind_some,
    RbtNode.parent_ofEntry, parentOf_cons, hf, RbtNode.key_ofEntry, hb]
  cases hside : f.side <;> simp only [hside] at htest <;> grind

theorem getNeighborRbtNode_spec (h : Represents s (plug (f :: ctx) (nodeAt d c l e r)))
    (hkeys : ToldApart f e.key) :
    s.getNeighborRbtNode e.addr = some (rootOf f.sibling) := by
  obtain ⟨b, hb, htest⟩ := h.rightTest hkeys
  have hf := h.frame
  rw [rootOf_nodeAt] at hf
  simp only [getNeighborRbtNode, h.node, Option.bind_eq_bind, Option.bind_some,
    RbtNode.parent_ofEntry, parentOf_cons, hf, RbtNode.key_ofEntry, hb, htest]
  cases hside : f.side with
  | left => simp [RbtNode.ofEntry, h.hasKey_node]
  | right => simp [RbtNode.ofEntry]

theorem Represents.colorOf_sibling (h : Represents s (plug (f :: ctx) t)) :
    s.colorOf (rootOf f.sibling) = some f.sibling.color := by
  obtain ⟨side, color, x, u⟩ := f
  rw [plug_sibling] at h
  exact h.colorOf_root

theorem getRbtNeighColor_spec (h : Represents s (plug (f :: ctx) (nodeAt d c l e r)))
    (hkeys : ToldApart f e.key) :
    s.getRbtNeighColor e.addr = some f.sibling.color := by
  obtain ⟨b, hb, htest⟩ := h.rightTest hkeys
  have hf := h.frame
  have hcolor := h.colorOf_sibling
  rw [rootOf_nodeAt] at hf
  simp only [getRbtNeighColor, h.node, Option.bind_eq_bind, Option.bind_some,
    RbtNode.parent_ofEntry, parentOf_cons, hf, RbtNode.key_ofEntry, hb, htest]
  cases hside : f.side with
  | left => simpa [RbtNode.ofEntry, h.hasKey_node] using hcolor
  | right => simpa [RbtNode.ofEntry] using hcolor

end Rbt
