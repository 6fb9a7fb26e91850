import TargetUtils.Rbt.PostDeletion

set_option autoImplicit false

/-! # Removal

A removal leaves a tree without the key alone, and else drops the key and keeps the others with
their data (`removeRbtEntry_spec`). -/

open ColoredTree

namespace Rbt

variable {s : Rbt} {a b : Addr} {c : Color} {e : Entry} {f : Frame Entry} {t : ColoredTree Entry}
  {ctx : Context Entry} {key : Key}

/-! ## The colour of the head -/

theorem color_plug_cons (f : Frame Entry) (ctx : Context Entry) (t u : ColoredTree Entry) :
    (plug (f :: ctx) t).color = (plug (f :: ctx) u).color := by
  induction ctx generalizing f t u with
  | nil => simp only [plug_cons, plug_nil, color_nodeAt]
  | cons g rest ih => exact ih g _ _

theorem color_plug_leaf (hred : (plug ctx .nil).IsRedBlack) :
    (plug ctx (leaf .black e)).color = .black := by
  cases ctx with
  | nil => rfl
  | cons f rest =>
      rw [color_plug_cons f rest _ .nil]
      exact hred.1

/-- Before a black leaf is unlinked, the loop restores the balance for the tree without it. -/
theorem balanceRbtPostDeletion_spec (h : Represents s (plug ctx (leaf .black e)))
    (hred : (plug ctx (leaf .black e)).IsRedBlack) (hkeys : KeysAround ctx e.key) :
    ∃ s' ctx', Returns (fun fuel => s.balanceRbtPostDeletion fuel e.addr) s' ∧
      Represents s' (plug ctx' (leaf .black e)) ∧ (plug ctx' .nil).IsRedBlack ∧
      SameAround ctx ctx' := by
  obtain ⟨n, hctx, hleaf, -⟩ := isRedBlack_plug.1 hred
  cases n with
  | zero => exact absurd hleaf balanced_black_zero
  | succ n =>
      obtain ⟨rfl, -⟩ := balanced_black_succ.1 hleaf
      obtain ⟨s', ctx', hreturns, hrep, hred', hsame⟩ :=
        balanceLoop_spec (u := .nil) h hkeys rfl rfl hctx
      refine ⟨s', ctx', Returns.bind hreturns ?_, hrep, hred', hsame⟩
      obtain ⟨c, l, x, r, htree⟩ : ∃ c l x r, plug ctx' (leaf .black e) = nodeAt .left c l x r :=
        (exists_nodeAt .left _).resolve_left fun hnil => by
          have hmem : e ∈ (plug ctx' (leaf .black e)).toList := mem_plug.2 (Or.inl (by simp [leaf]))
          simp [hnil] at hmem
      have hc : c = .black := by
        rw [← color_plug_leaf (e := e) hred', htree, color_nodeAt]
      have hroot : Represents s' (plug [] (nodeAt .left c l x r)) := by
        rw [← htree]
        exact hrep
      have hhead : s'.head = some x.addr := hroot.head_eq
      refine Returns.const ?_
      simp [hhead, hroot.node, hc]

/-! ## Unlinking -/

theorem nodes_free_of_ne (h : b ≠ a) : (s.free a).nodes b = s.nodes b := Function.update_of_ne h ..

theorem Represents.unlink (h : Represents s (plug (f :: ctx) (leaf c e))) :
    Represents ((s.store f.elem.addr (.ofEntry f.side f.color f.elem none (rootOf f.sibling)
      (parentOf ctx))).free e.addr) (plug (f :: ctx) .nil) := by
  obtain ⟨hrep, hhead, hdistinct⟩ := h
  obtain ⟨-, -, hsib, hctx⟩ := rep_plug.1 hrep
  obtain ⟨-, haround, hleaf⟩ := distinct_plug.1 hdistinct
  have he : ∀ x ∈ around (f :: ctx), x.addr ≠ e.addr :=
    fun x hx => (hleaf e (by simp [leaf]) x hx).symm
  have hempty : Distinct (plug (f :: ctx) .nil) := by rwa [Distinct, toList_plug_empty]
  obtain ⟨hnode, -, hapart⟩ := distinct_plug.1 (show Distinct (plug ctx (f.fill .nil)) from hempty)
  have hsibling := (distinct_nodeAt.1 hnode).2.2.2.1
  simp only [Frame.fill, mem_toList_nodeAt] at hapart
  refine ⟨rep_plug.2 ⟨trivial, ?_, ?_, ?_⟩, hhead.trans (rootOf_plug_cons ..), hempty⟩
  · rw [nodes_free_of_ne (he _ (mem_around_cons.2 (Or.inl rfl))), nodes_store_self, rootOf_nil]
  · exact hsib.congr fun x hx =>
      (nodes_free_of_ne (he x (mem_around_cons.2 (Or.inr (Or.inl hx))))).trans
        (nodes_store_of_ne (hsibling x hx))
  · exact hctx.congr fun x hx =>
      (nodes_free_of_ne (he x (mem_around_cons.2 (Or.inr (Or.inr hx))))).trans
        (nodes_store_of_ne (hapart _ (Or.inl rfl) x hx).symm)

/-- The end of a removal, once the tree without the leaf is balanced. -/
def unlinkLeaf (s : Rbt) (resNode : Addr) : Option Rbt := do
  let n ← s.nodes resNode
  let s ← (match n.parent with
    | none => some { s with head := none }
    | some p => do
      let childDir ← s.getRbtNodeDirection resNode
      if childDir = .child .left then s.modify p fun n => n.setChild .left none
      else s.modify p fun n => n.setChild .right none)
  some (s.free resNode)

theorem unlinkLeaf_root (h : Represents s (leaf c e)) :
    s.unlinkLeaf e.addr = some (({ s with head := none } : Rbt).free e.addr) := by
  have hroot : Represents s (plug [] (leaf c e)) := h
  simp only [unlinkLeaf, Represents.node hroot, Option.bind_eq_bind, Option.bind_some,
    RbtNode.parent_ofEntry, parentOf_nil]

theorem unlinkLeaf_below (h : Represents s (plug (f :: ctx) (leaf c e)))
    (hkeys : ToldApart f e.key) :
    s.unlinkLeaf e.addr = some ((s.store f.elem.addr (.ofEntry f.side f.color f.elem none
      (rootOf f.sibling) (parentOf ctx))).free e.addr) := by
  have hdir := getRbtNodeDirection_spec h hkeys
  simp only [unlinkLeaf, Represents.node h, Option.bind_eq_bind, Option.bind_some,
    RbtNode.parent_ofEntry, parentOf_cons, hdir]
  cases hside : f.side <;>
    simp [modify, h.frame, hside, RbtNode.ofEntry, RbtNode.setChild]

theorem unlinkLeaf_spec (h : Represents s (plug ctx (leaf c e))) (hkeys : KeysAround ctx e.key) :
    ∃ s', s.unlinkLeaf e.addr = some s' ∧ Represents s' (plug ctx .nil) := by
  cases ctx with
  | nil => exact ⟨_, unlinkLeaf_root h, trivial, rfl, List.Pairwise.nil⟩
  | cons f rest => exact ⟨_, unlinkLeaf_below h hkeys.toldApart, h.unlink⟩

/-! ## The whole call -/

theorem removeRbtEntry_absent (h : Represents s t) (hloc : (locate key [] t).2 = .nil) :
    Returns (fun fuel => s.removeRbtEntry fuel key) (s, .noKey) :=
  Returns.bind (bstNodeDeletion_absent h hloc) (Returns.const rfl)

/-- The key is there: it goes, and the other keys keep their data. -/
theorem removeRbtEntry_present {l r : ColoredTree Entry} (h : Represents s t) (hsorted : Sorted t)
    (hred : t.IsRedBlack) (hloc : (locate key [] t).2 = nodeAt .left c l e r) :
    ∃ s' u bs as, Returns (fun fuel => s.removeRbtEntry fuel key) (s', .ok) ∧
      Represents s' u ∧ Sorted u ∧ u.IsRedBlack ∧ t.toList = bs ++ e :: as ∧
      u.toList.map Entry.pair = (bs ++ as).map Entry.pair := by
  obtain ⟨s₁, ctx, c', e', bs, as, hdelete, hrep₁, hred₁, hkeys, hlist, hpairs⟩ :=
    bstNodeDeletion_present h hsorted hred hloc
  -- the state in which the leaf is unlinked
  obtain ⟨s₂, ctx', hbalance, hrep₂, hred₂, hsame⟩ : ∃ s₂ ctx',
      Returns (fun fuel => if c' = .black then s₁.balanceRbtPostDeletion fuel e'.addr else some s₁)
        s₂ ∧ Represents s₂ (plug ctx' (leaf c' e')) ∧ (plug ctx' .nil).IsRedBlack ∧
      SameAround ctx ctx' := by
    cases c' with
    | black => simpa only [if_true] using balanceRbtPostDeletion_spec hrep₁ hred₁ hkeys
    | red =>
        obtain ⟨n, hctx, hleaf, hparent⟩ := isRedBlack_plug.1 hred₁
        refine ⟨s₁, ctx, Returns.const rfl, hrep₁, isRedBlack_plug.2 ⟨n, hctx, ?_, fun _ => rfl⟩,
          rfl, rfl⟩
        exact (balanced_red.1 hleaf).2.2.1
  obtain ⟨s₃, hunlink, hrep₃⟩ := unlinkLeaf_spec hrep₂ (hsame.keysAround hkeys)
  have haround : (plug ctx' (.nil : ColoredTree Entry)).toList = around ctx := by
    rw [toList_plug_empty, around, hsame.1, hsame.2, around]
  refine ⟨s₃, _, bs, as, Returns.bind hdelete (Returns.bind hbalance (Returns.const ?_)), hrep₃,
    (hsame.keysAround hkeys).sorted, hred₂, hlist, by rw [haround, hpairs]⟩
  simp only [unlinkLeaf, Option.bind_eq_bind, Option.bind_eq_some_iff, Option.some.injEq] at hunlink ⊢
  obtain ⟨n, hn, s', hs', rfl⟩ := hunlink
  exact ⟨n, hn, s', hs', rfl⟩

/-- `bf_remove_rbt_entry` on a red-black tree. -/
theorem removeRbtEntry_spec (key : Key) (h : Represents s t) (hsorted : Sorted t)
    (hred : t.IsRedBlack) :
    ((∀ e ∈ t.toList, e.key ≠ key) ∧
      Returns (fun fuel => s.removeRbtEntry fuel key) (s, .noKey)) ∨
    ∃ e s' u bs as, e.key = key ∧ Returns (fun fuel => s.removeRbtEntry fuel key) (s', .ok) ∧
      Represents s' u ∧ Sorted u ∧ u.IsRedBlack ∧ t.toList = bs ++ e :: as ∧
      u.toList.map Entry.pair = (bs ++ as).map Entry.pair := by
  rcases locate_snd key [] t with hloc | ⟨c, l, e, r, hloc, hkey⟩
  · exact Or.inl ⟨ne_of_locate_eq_nil hsorted hloc, removeRbtEntry_absent h hloc⟩
  · obtain ⟨s', u, bs, as, hremove⟩ := removeRbtEntry_present h hsorted hred hloc
    exact Or.inr ⟨e, s', u, bs, as, hkey, hremove⟩

end Rbt
