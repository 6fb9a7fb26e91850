import TargetUtils.Rbt.Neighbor

set_option autoImplicit false

/-! # Balancing after an insertion

A new red leaf may hang below a red node. Each recolouring moves this two levels up, and a rotation
ends it (`balanceRbtPostInsertion_spec`). -/

open ColoredTree

namespace Rbt

variable {s : Rbt} {d : Side} {c : Color} {e x : Entry} {f g : Frame Entry}
  {t u l r : ColoredTree Entry} {ctx : Context Entry} {key : Key} {n : ℕ}

/-! ## Rotations after an insertion -/

theorem performRotation_eq (h : Represents s (plug (f :: g :: ctx) t))
    (hf : HangsAt (g :: ctx) f.elem.key) (hkey : f.elem.key < key ↔ f.side = .right) :
    s.performRotation f.elem.addr key =
      if f.side = g.side then s.rotateRbtNode g.side.other g.elem.addr
      else (s.rotateRbtNode g.side f.elem.addr).bind fun r =>
        r.1.rotateRbtNode g.side.other g.elem.addr := by
  have hg : g.elem.key < f.elem.key ↔ g.side = .right := hf
  have hgnode := Represents.frame (t := f.fill t) h
  simp only [performRotation, h.frame, Option.bind_eq_bind, Option.bind_some,
    RbtNode.parent_ofEntry, parentOf_cons, hgnode, RbtNode.key_ofEntry, hg, hkey]
  cases f.side <;> cases g.side <;> rfl

/-- The rotations put a black node with two red children in the grandparent's place. -/
theorem performRotation_spec (h : Represents s (plug (f :: g :: ctx) t))
    (hsorted : Sorted (plug (f :: g :: ctx) t)) (hkey : f.elem.key < key ↔ f.side = .right)
    (ht : t.color = .red) (hbal : t.Balanced n) (hf : f.color = .red) (hg : g.color = .black)
    (hfs : f.sibling.color = .black ∧ f.sibling.Balanced n)
    (hgs : g.sibling.color = .black ∧ g.sibling.Balanced n) :
    ∃ s' q u, s.performRotation f.elem.addr key = some (s', q) ∧ Represents s' (plug ctx u) ∧
      u.toList = (g.fill (f.fill t)).toList ∧ u.Balanced (n + 1) ∧ u.color = .black := by
  have hgsorted : Sorted (plug ctx (g.fill (f.fill t))) := hsorted
  have hfsorted : Sorted (plug (g :: ctx) (f.fill t)) := hsorted
  rw [performRotation_eq h (hfsorted.hangsAt (mem_toList_nodeAt.2 (Or.inl rfl))) hkey]
  obtain ⟨gside, gcolor, gelem, gsib⟩ := g
  obtain ⟨fside, fcolor, felem, fsib⟩ := f
  obtain rfl : fcolor = .red := hf
  obtain rfl : gcolor = .black := hg
  by_cases hside : fside = gside
  · subst hside
    rw [if_pos rfl]
    have hrep₀ : Represents s (plug ctx (nodeAt fside.other .black gsib gelem
        (nodeAt fside.other .red fsib felem t))) := by
      simpa only [plug_cons, nodeAt_other] using h
    obtain ⟨s', hrot, hrep⟩ :=
      rotateRbtNode_spec hrep₀ (hgsorted.hangsAt (by simp [Frame.fill]))
    refine ⟨s', _, _, hrot, hrep, ?_, ?_, color_nodeAt ..⟩
    · rw [toList_rotate]
      simp only [nodeAt_other, Frame.fill]
    · exact balanced_black_succ.2 ⟨balanced_red.2 ⟨hgs.1, hfs.1, hgs.2, hfs.2⟩, hbal⟩
  · obtain rfl := Side.eq_other_of_ne hside
    rw [if_neg hside]
    rcases exists_nodeAt gside t with rfl | ⟨ct, y, v, x, rfl⟩
    · simp at ht
    obtain rfl : ct = .red := by simpa using ht
    obtain ⟨hy, hx, hybal, hxbal⟩ := balanced_red.1 hbal
    have hrep₀ : Represents s (plug (⟨gside, .black, gelem, gsib⟩ :: ctx)
        (nodeAt gside .red fsib felem (nodeAt gside .red y v x))) := by
      simpa only [plug_cons, nodeAt_other] using h
    obtain ⟨s₁, hrot₁, hrep₁⟩ :=
      rotateRbtNode_spec hrep₀ (hfsorted.hangsAt (by simp [Frame.fill]))
    have hrep₁ : Represents s₁ (plug ctx (nodeAt gside.other .black gsib gelem
        (nodeAt gside.other .red x v (nodeAt gside .red fsib felem y)))) := by
      simpa only [plug_cons, nodeAt_other] using hrep₁
    obtain ⟨s₂, hrot₂, hrep₂⟩ :=
      rotateRbtNode_spec hrep₁ (hgsorted.hangsAt (by simp [Frame.fill]))
    refine ⟨s₂, _, _, by rw [hrot₁, Option.bind_some, hrot₂], hrep₂, ?_, ?_, color_nodeAt ..⟩
    · rw [toList_rotate, nodeAt_other, nodeAt_other, Frame.fill, Frame.fill]
      refine toList_nodeAt_congr ?_ rfl
      rw [nodeAt_other]
      exact toList_rotate
    · exact balanced_black_succ.2 ⟨balanced_red.2 ⟨hgs.1, hx, hgs.2, hxbal⟩,
        balanced_red.2 ⟨hfs.1, hy, hfs.2, hybal⟩⟩

/-! ## Recolouring -/

/-- The three colours change, and the fix goes on above, or the grandparent is the root. -/
theorem colorFixRbtNodes_eq {gside : Side} {gelem : Entry}
    (h : Represents s (plug (f :: ⟨gside, .black, gelem, nodeAt d .red l e r⟩ :: ctx) t))
    (hf : f.color = .red) (hang : gelem.key < f.elem.key ↔ gside = .right) :
    ∃ s' : Rbt, Represents s' (plug (⟨f.side, .black, f.elem, f.sibling⟩ ::
        ⟨gside, if (parentOf ctx).isNone then .black else .red, gelem, nodeAt d .black l e r⟩ :: ctx) t) ∧
      ∀ fuel, s.colorFixRbtNodes (fuel + 1) f.elem.addr =
        match parentOf ctx with
        | none => some s'
        | some h => s'.balanceRbtPostInsertion fuel h f.elem.key := by
  have hgnode := Represents.frame (t := f.fill t) h
  obtain ⟨s₁, hs₁, hrep₁⟩ := Represents.setColor_sibling (t := f.fill t) .black h
  obtain ⟨s₂, hs₂, hrep₂⟩ := Represents.setColor_frame .black (show Represents s₁
    (plug (f :: ⟨gside, .black, gelem, nodeAt d .black l e r⟩ :: ctx) t) from hrep₁)
  obtain ⟨s₃, hs₃, hrep₃⟩ := Represents.setColor_frame
    (t := Frame.fill ⟨f.side, .black, f.elem, f.sibling⟩ t)
    (if (parentOf ctx).isNone then .black else .red) hrep₂
  have hsibling : (if gelem.key < f.elem.key then
      (RbtNode.ofEntry gside .black gelem (some f.elem.addr) (some e.addr) (parentOf ctx)).left
      else (RbtNode.ofEntry gside .black gelem (some f.elem.addr) (some e.addr)
        (parentOf ctx)).right) = some e.addr := by
    cases gside <;> simp [hang, RbtNode.ofEntry]
  refine ⟨s₃, hrep₃, fun fuel => ?_⟩
  simp only [Frame.fill, rootOf_nodeAt] at hgnode
  simp only [colorFixRbtNodes, h.frame, Option.bind_eq_bind, Option.bind_some,
    RbtNode.color_ofEntry, hf, reduceCtorEq, if_false, RbtNode.parent_ofEntry, parentOf_cons,
    hgnode, RbtNode.key_ofEntry, hsibling, hs₁, hs₂]
  cases ctx with
  | nil => exact hs₃
  | cons h rest =>
      have hs₃ : s₂.setColor gelem.addr .red = some s₃ := hs₃
      simp only [parentOf_cons, hs₃, Option.bind_some]

/-- A pass from a red node looks at the sibling of its parent. -/
theorem balanceRbtPostInsertion_pass {fside gside : Side} {felem gelem : Entry}
    {fsib gsib : ColoredTree Entry}
    (h : Represents s (plug (⟨fside, .red, felem, fsib⟩ :: ⟨gside, .black, gelem, gsib⟩ :: ctx) t))
    (hsorted : Sorted (plug (⟨gside, .black, gelem, gsib⟩ :: ctx) (nodeAt fside .red t felem fsib)))
    (key : Key) (fuel : ℕ) :
    s.balanceRbtPostInsertion (fuel + 1) felem.addr key =
      if gsib.color = .red then s.colorFixRbtNodes fuel felem.addr
      else (s.performRotation felem.addr key).map Prod.fst := by
  have hmem : felem ∈ (nodeAt fside .red t felem fsib).toList := by simp
  have hneigh : s.getRbtNeighColor felem.addr = some gsib.color :=
    getRbtNeighColor_spec h (hsorted.keysAround hmem).toldApart
  simp [balanceRbtPostInsertion, h.frame, hneigh]

/-- From a red node below any other, the tree is made red-black again. -/
theorem balanceRbtPostInsertion_spec (h : Represents s (plug (f :: ctx) t))
    (hsorted : Sorted (plug (f :: ctx) t)) (hkey : f.elem.key < key ↔ f.side = .right)
    (ht : t.color = .red) (hbal : t.Balanced n) (hctx : ContextBalanced (f :: ctx) n) :
    ∃ s' u, Returns (fun fuel => s.balanceRbtPostInsertion fuel f.elem.addr key) s' ∧
      Represents s' u ∧ u.toList = (plug (f :: ctx) t).toList ∧ u.IsRedBlack := by
  induction hlen : ctx.length using Nat.strong_induction_on generalizing s f ctx t n key with
  | h len ih =>
      obtain ⟨fside, fcolor, felem, fsib⟩ := f
      cases fcolor with
      | black =>
          refine ⟨s, _, Returns.of_succ (g := fun _ => some s) (fun fuel => ?_)
            (Returns.const rfl), h, rfl, isRedBlack_plug.2 ⟨n, hctx, hbal, by simp⟩⟩
          simp [balanceRbtPostInsertion, h.frame]
      | red =>
          obtain ⟨hfsc, hfsb, hparent, hctx⟩ := hctx
          cases ctx with
          | nil => simp at hparent
          | cons g rest =>
              obtain ⟨gside, gcolor, gelem, gsib⟩ := g
              obtain rfl : gcolor = .black := hparent
              obtain ⟨(hgsb : gsib.Balanced n), hrest⟩ := hctx
              have hgsorted : Sorted (plug (⟨gside, .black, gelem, gsib⟩ :: rest)
                (nodeAt fside .red t felem fsib)) := hsorted
              have hpass := balanceRbtPostInsertion_pass h hgsorted key
              by_cases hgsc : gsib.color = .red
              · -- a red neighbour: the red node moves up to the grandparent
                obtain ⟨c, l, e, r, rfl⟩ :=
                  (exists_nodeAt .left gsib).resolve_left fun hnil => by simp [hnil] at hgsc
                obtain rfl : c = .red := by simpa using hgsc
                obtain ⟨hlc, hrc, hlb, hrb⟩ := balanced_red.1 hgsb
                obtain ⟨s', hrep, hfix⟩ :=
                  colorFixRbtNodes_eq h rfl (hgsorted.hangsAt (v := felem) (by simp))
                have hlist : ∀ c', (nodeAt gside c' (nodeAt fside .black t felem fsib) gelem
                    (nodeAt .left .black l e r)).toList = (nodeAt gside .black
                      (nodeAt fside .red t felem fsib) gelem (nodeAt .left .red l e r)).toList :=
                  fun c' => toList_nodeAt_congr (toList_nodeAt_congr rfl rfl)
                    (toList_nodeAt_congr rfl rfl)
                have hpass₂ : ∀ fuel, s.balanceRbtPostInsertion (fuel + 1 + 1) felem.addr key = _ :=
                  fun fuel => by rw [hpass, if_pos hgsc, hfix]
                cases rest with
                | nil =>
                    refine ⟨s', _, Returns.of_succ (fun _ => rfl) (Returns.of_succ hpass₂
                      (Returns.const rfl)), hrep, hlist _, isRedBlack_plug.2 ⟨n, ?_, hbal, by simp⟩⟩
                    simp [hfsb, hlb, hrb]
                | cons h' rest =>
                    have hsame := toList_plug_congr (h' :: rest) (hlist .red)
                    have hsorted' : Sorted (plug (h' :: rest) (nodeAt gside .red
                        (nodeAt fside .black t felem fsib) gelem (nodeAt .left .black l e r))) := by
                      rw [Sorted, hsame]
                      exact hsorted
                    have hrep' : Represents s' (plug (h' :: rest) (nodeAt gside .red
                        (nodeAt fside .black t felem fsib) gelem (nodeAt .left .black l e r))) :=
                      hrep
                    obtain ⟨s'', u, hreturns, hrep'', hu, hred⟩ := ih rest.length
                      (by simp only [← hlen, List.length_cons]; omega) hrep' hsorted'
                      (hsorted'.hangsAt (v := felem) (by simp)) (color_nodeAt ..)
                      (balanced_red.2 ⟨color_nodeAt .., color_nodeAt ..,
                        balanced_black_succ.2 ⟨hbal, hfsb⟩, balanced_black_succ.2 ⟨hlb, hrb⟩⟩)
                      hrest rfl
                    exact ⟨s'', u, Returns.of_succ (fun _ => rfl) (Returns.of_succ hpass₂ hreturns),
                      hrep'', hu.trans hsame, hred⟩
              · have hgsc := Color.ne_red.1 hgsc
                obtain ⟨s', q, u, hrot, hrep, hlist, hubal, hucolor⟩ := performRotation_spec h
                  hsorted hkey ht hbal rfl rfl ⟨hfsc, hfsb⟩ ⟨hgsc, hgsb⟩
                refine ⟨s', _, Returns.of_succ (g := fun _ => some s') (fun fuel => ?_)
                  (Returns.const rfl), hrep, toList_plug_congr _ hlist,
                  isRedBlack_plug.2 ⟨n + 1, hrest, hubal, fun _ => hucolor⟩⟩
                rw [hpass, hgsc, if_neg (by simp), hrot, Option.map_some]

end Rbt
