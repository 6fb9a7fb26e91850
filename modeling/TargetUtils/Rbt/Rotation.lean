import TargetUtils.Rbt.Heap

set_option autoImplicit false

/-! # Rotations

A rotation in memory is the rotation of the tree (`rotateRbtNode_spec`): the links of the two nodes
are exchanged, the subtree between them gets a new parent, and the node above is relinked. The side
on which it is relinked is found by comparing keys, which `HangsAt` says is the right one. -/

open ColoredTree

namespace ColoredTree

variable {α : Type*} {d : Side} {c c' : Color} {x y z : ColoredTree α} {a v : α}

/-- The child on the side away from `d` comes up and takes over the colour. -/
theorem toList_rotate : (nodeAt d c (nodeAt d c' z a y) v x).toList =
    (nodeAt d c z a (nodeAt d c' y v x)).toList := by
  cases d <;> simp [nodeAt, toList]

end ColoredTree

namespace Rbt

variable {s : Rbt} {p : Option Addr} {d : Side} {c c' : Color} {e a v : Entry} {q : Addr}
  {t x y z : ColoredTree Entry} {ctx : Context Entry} {key : Key}

/-- Comparing with the key above tells on which side of it a node with this key hangs. -/
def HangsAt : Context Entry → Key → Prop
  | [], _ => True
  | f :: _, key => f.elem.key < key ↔ f.side = .right

theorem setParent_spec (h : Rep s p t) (hd : Distinct t) :
    ∃ s', s.setParent (rootOf t) q = some s' ∧ Rep s' (some q) t ∧ s'.head = s.head ∧
      ∀ b, (∀ x ∈ t.toList, x.addr ≠ b) → s'.nodes b = s.nodes b := by
  rcases exists_nodeAt .left t with rfl | ⟨c, l, e, r, rfl⟩
  · exact ⟨s, rfl, trivial, rfl, fun _ _ => rfl⟩
  · obtain ⟨he, hl, hr⟩ := rep_nodeAt.1 h
    obtain ⟨-, -, hle, hre, -⟩ := distinct_nodeAt.1 hd
    rw [rootOf_nodeAt, setParent]
    refine ⟨_, modify_eq _ he, rep_nodeAt.2 ⟨?_, ?_, ?_⟩, rfl, fun b hb => ?_⟩
    · rw [nodes_store_self, RbtNode.withParent_ofEntry]
    · exact hl.congr fun x hx => nodes_store_of_ne (hle x hx)
    · exact hr.congr fun x hx => nodes_store_of_ne (hre x hx)
    · exact nodes_store_of_ne (hb e (mem_toList_nodeAt.2 (Or.inl rfl))).symm

theorem relink_spec {n : RbtNode} (h : ContextRep s ctx p)
    (hd : (around ctx).Pairwise fun x y => x.addr ≠ y.addr) (hn : s.nodes q = some n)
    (hang : HangsAt ctx n.key) :
    ∃ s', s.relink (parentOf ctx) q = some s' ∧ ContextRep s' ctx (some q) ∧ s'.head = s.head ∧
      ∀ b, (∀ x ∈ around ctx, x.addr ≠ b) → s'.nodes b = s.nodes b := by
  cases ctx with
  | nil => exact ⟨s, rfl, trivial, rfl, fun _ _ => rfl⟩
  | cons f rest =>
      obtain ⟨hf, hu, hrest⟩ := h
      obtain ⟨hfu, hfrest⟩ : (∀ x ∈ f.sibling.toList, x.addr ≠ f.elem.addr) ∧
          ∀ x ∈ around rest, x.addr ≠ f.elem.addr := by
        have hempty : Distinct (plug (f :: rest) .nil) := by rwa [Distinct, toList_plug_empty]
        obtain ⟨hnode, -, hrest⟩ := distinct_plug.1 (show Distinct (plug rest (f.fill .nil)) from hempty)
        exact ⟨(distinct_nodeAt.1 hnode).2.2.2.1,
          fun x hx => (hrest _ (mem_toList_nodeAt.2 (Or.inl rfl)) x hx).symm⟩
      have hside : (if f.elem.key < n.key then
          (RbtNode.ofEntry f.side f.color f.elem p (rootOf f.sibling) (parentOf rest)).setChild
            .right (some q)
          else (RbtNode.ofEntry f.side f.color f.elem p (rootOf f.sibling) (parentOf rest)).setChild
            .left (some q)) =
          .ofEntry f.side f.color f.elem (some q) (rootOf f.sibling) (parentOf rest) := by
        have hiff : f.elem.key < n.key ↔ f.side = .right := hang
        cases hs : f.side <;> simp [hiff, hs, RbtNode.ofEntry, RbtNode.setChild]
      refine ⟨s.store f.elem.addr (.ofEntry f.side f.color f.elem (some q) (rootOf f.sibling)
        (parentOf rest)), ?_, ⟨nodes_store_self, ?_, ?_⟩, rfl, fun b hb => ?_⟩
      · rw [parentOf_cons, relink, hn, Option.bind_eq_bind, Option.bind_some, modify_eq _ hf,
          RbtNode.key_ofEntry, hside]
      · exact hu.congr fun x hx => nodes_store_of_ne (hfu x hx)
      · exact hrest.congr fun x hx => nodes_store_of_ne (hfrest x hx)
      · exact nodes_store_of_ne (hb _ (mem_around_cons.2 (Or.inl rfl))).symm

/-- The head is a node of the context. -/
theorem exists_mem_around_of_rootOf (f : Frame Entry) (ctx : Context Entry) (t : ColoredTree Entry) :
    ∃ x ∈ around (f :: ctx), rootOf (plug (f :: ctx) t) = some x.addr := by
  induction ctx generalizing f t with
  | nil => exact ⟨f.elem, mem_around_cons.2 (Or.inl rfl), rootOf_nodeAt⟩
  | cons g rest ih =>
      obtain ⟨x, hx, hroot⟩ := ih g (f.fill t)
      exact ⟨x, mem_around_cons.2 (Or.inr (Or.inr hx)), hroot⟩

/-- The first half of a rotation, before the nodes around the two are touched. -/
theorem rotateRbtNode_eq (h : Represents s (plug ctx (nodeAt d c z a (nodeAt d c' y v x)))) :
    ∃ s' : Rbt, s.rotateRbtNode d a.addr = ((s'.setParent (rootOf y) a.addr).bind fun s =>
        (s.relink (parentOf ctx) v.addr).bind fun s =>
          some (if s.head = some a.addr then { s with head := some v.addr } else s, v.addr)) ∧
      s'.nodes v.addr = some (.ofEntry d c v (some a.addr) (rootOf x) (parentOf ctx)) ∧
      s'.nodes a.addr = some (.ofEntry d c' a (rootOf z) (rootOf y) (some v.addr)) ∧
      (∀ b, b ≠ a.addr → b ≠ v.addr → s'.nodes b = s.nodes b) ∧ s'.head = s.head := by
  obtain ⟨ha, -, hv⟩ := rep_nodeAt.1 (rep_plug.1 h.rep).1
  have hv := (rep_nodeAt.1 hv).1
  have hne : v.addr ≠ a.addr :=
    (distinct_nodeAt.1 (distinct_plug.1 h.distinct).1).2.2.2.1 v
      (mem_toList_nodeAt.2 (Or.inl rfl))
  rw [rootOf_nodeAt] at ha
  refine ⟨(((s.store v.addr (.ofEntry d c' v (some a.addr) (rootOf x) (parentOf ctx))).store a.addr
    (.ofEntry d c a (rootOf z) (rootOf y) (some v.addr))).store v.addr
    (.ofEntry d c v (some a.addr) (rootOf x) (parentOf ctx))).store a.addr
    (.ofEntry d c' a (rootOf z) (rootOf y) (some v.addr)), ?_, ?_, nodes_store_self, ?_, rfl⟩
  · simp only [rotateRbtNode, setColor, ha, hv, modify, Option.bind_eq_bind, Option.bind_some,
      Option.map_some, nodes_store_self, nodes_store_of_ne hne, nodes_store_of_ne hne.symm,
      RbtNode.child_ofEntry, RbtNode.child_other_ofEntry, RbtNode.setChild_ofEntry,
      RbtNode.setChild_other_ofEntry, RbtNode.color_ofEntry, RbtNode.parent_ofEntry]
    cases d <;> rfl
  · rw [nodes_store_of_ne hne, nodes_store_self]
  · intro b hba hbv
    simp only [nodes_store_of_ne hba, nodes_store_of_ne hbv]

/-- The rotation of the tree. -/
theorem rotateRbtNode_spec (h : Represents s (plug ctx (nodeAt d c z a (nodeAt d c' y v x))))
    (hang : HangsAt ctx v.key) :
    ∃ s' : Rbt, s.rotateRbtNode d a.addr = some (s', v.addr) ∧
      Represents s' (plug ctx (nodeAt d c (nodeAt d c' z a y) v x)) := by
  obtain ⟨s₁, heq, hv₁, ha₁, hsame₁, hhead₁⟩ := rotateRbtNode_eq h
  obtain ⟨hrep, hhead, hdistinct⟩ := h
  obtain ⟨hnode, hctx⟩ := rep_plug.1 hrep
  obtain ⟨-, hz, hvrep⟩ := rep_nodeAt.1 hnode
  obtain ⟨-, hy, hx⟩ := rep_nodeAt.1 hvrep
  obtain ⟨hda, haround, hapart⟩ := distinct_plug.1 hdistinct
  obtain ⟨-, hdv, hza, hva, hzv⟩ := distinct_nodeAt.1 hda
  obtain ⟨hdy, -, hyv, hxv, hyx⟩ := distinct_nodeAt.1 hdv
  simp only [mem_toList_nodeAt] at hapart hva hzv
  -- the subtrees and the context have not been touched yet
  have hz₁ : Rep s₁ (some a.addr) z :=
    hz.congr fun w hw => hsame₁ _ (hza w hw) (hzv w hw v (Or.inl rfl))
  have hy₁ : Rep s₁ (some v.addr) y :=
    hy.congr fun w hw => hsame₁ _ (hva w (Or.inr (Or.inl hw))) (hyv w hw)
  have hx₁ : Rep s₁ (some v.addr) x :=
    hx.congr fun w hw => hsame₁ _ (hva w (Or.inr (Or.inr hw))) (hxv w hw)
  have hctx₁ : ContextRep s₁ ctx (some a.addr) := by
    rw [rootOf_nodeAt] at hctx
    exact hctx.congr fun w hw => hsame₁ _ (hapart a (Or.inl rfl) w hw).symm
      (hapart v (Or.inr (Or.inr (Or.inl rfl))) w hw).symm
  obtain ⟨s₂, heq₂, hy₂, hhead₂, hsame₂⟩ := setParent_spec (q := a.addr) hy₁ hdy
  have hv₂ : s₂.nodes v.addr = _ := (hsame₂ _ hyv).trans hv₁
  have ha₂ : s₂.nodes a.addr = _ :=
    (hsame₂ _ fun w hw => hva w (Or.inr (Or.inl hw))).trans ha₁
  have hz₂ : Rep s₂ (some a.addr) z :=
    hz₁.congr fun w hw => hsame₂ _ fun u hu => (hzv w hw u (Or.inr (Or.inl hu))).symm
  have hx₂ : Rep s₂ (some v.addr) x := hx₁.congr fun w hw => hsame₂ _ fun u hu => hyx u hu w hw
  have hctx₂ : ContextRep s₂ ctx (some a.addr) := hctx₁.congr fun w hw => hsame₂ _ fun u hu =>
    hapart u (Or.inr (Or.inr (Or.inr (Or.inl hu)))) w hw
  obtain ⟨s₃, heq₃, hctx₃, hhead₃, hsame₃⟩ :=
    relink_spec hctx₂ haround hv₂ (by rwa [RbtNode.key_ofEntry])
  have hsame₃ : ∀ w, (w = a ∨ w ∈ z.toList ∨ w = v ∨ w ∈ y.toList ∨ w ∈ x.toList) →
      s₃.nodes w.addr = s₂.nodes w.addr :=
    fun w hw => hsame₃ _ fun u hu => (hapart w hw u hu).symm
  refine ⟨_, by rw [heq, heq₂, Option.bind_some, heq₃, Option.bind_some], ?_, ?_, ?_⟩
  · have hrep₃ : Rep s₃ none (plug ctx (nodeAt d c (nodeAt d c' z a y) v x)) := by
      refine rep_plug.2 ⟨rep_nodeAt.2 ⟨?_, rep_nodeAt.2 ⟨?_, ?_, ?_⟩, ?_⟩, ?_⟩
      · rw [hsame₃ v (Or.inr (Or.inr (Or.inl rfl))), hv₂, rootOf_nodeAt]
      · rw [hsame₃ a (Or.inl rfl), ha₂]
      · exact hz₂.congr fun w hw => hsame₃ w (Or.inr (Or.inl hw))
      · exact hy₂.congr fun w hw => hsame₃ w (Or.inr (Or.inr (Or.inr (Or.inl hw))))
      · exact hx₂.congr fun w hw => hsame₃ w (Or.inr (Or.inr (Or.inr (Or.inr hw))))
      · rwa [rootOf_nodeAt]
    split_ifs
    · exact hrep₃.congr fun _ _ => rfl
    · exact hrep₃
  · have hhead₃ : s₃.head = rootOf (plug ctx (nodeAt d c z a (nodeAt d c' y v x))) := by
      rw [hhead₃, hhead₂, hhead₁, hhead]
    cases ctx with
    | nil => rw [if_pos (hhead₃.trans rootOf_nodeAt), plug_nil, rootOf_nodeAt]
    | cons f rest =>
        obtain ⟨w, hw, hroot⟩ := exists_mem_around_of_rootOf f rest
          (nodeAt d c z a (nodeAt d c' y v x))
        rw [if_neg, hhead₃]
        · exact rootOf_plug_cons ..
        · rw [hhead₃, hroot]
          exact fun hwa => hapart a (Or.inl rfl) w hw (Option.some.inj hwa).symm
  · rw [Distinct, toList_plug, toList_rotate, ← toList_plug]
    exact hdistinct

end Rbt
