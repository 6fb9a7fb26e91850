import TargetUtils.Rbt.Replacement
import TargetUtils.Rbt.Recorded

set_option autoImplicit false

/-! # Balancing before a deletion

The source balances while the leaf to delete is still linked. `u` is what the subtree `t` of the node
under examination will be without it: one black node short of what its context asks for. A pass
either makes the context ask for less, or moves on to the parent (`balanceLoop_spec`). -/

open ColoredTree

namespace Rbt

variable {s : Rbt} {d d' : Side} {c c₀ : Color} {e w x : Entry} {l r near far t u : ColoredTree Entry}
  {f : Frame Entry} {ctx ctx' : Context Entry} {key : Key} {n : ℕ}

/-! ## One pass -/

theorem Represents.sibling
    (h : Represents s (plug (⟨d, c₀, x, nodeAt d c near w far⟩ :: ctx) t)) :
    s.nodes w.addr = some (.ofEntry d c w (rootOf near) (rootOf far) (some x.addr)) := by
  rw [plug_sibling] at h
  exact h.node

theorem Represents.colorOf_near
    (h : Represents s (plug (⟨d, c₀, x, nodeAt d c near w far⟩ :: ctx) t)) :
    s.colorOf (rootOf near) = some near.color := by
  rw [plug_sibling] at h
  have hnear : Represents s (plug (⟨d, c, w, far⟩ :: ⟨d.other, c₀, x, t⟩ :: ctx) near) := h
  exact hnear.colorOf_root

theorem Represents.colorOf_far
    (h : Represents s (plug (⟨d, c₀, x, nodeAt d c near w far⟩ :: ctx) t)) :
    s.colorOf (rootOf far) = some far.color := by
  rw [plug_sibling] at h
  have hnear : Represents s (plug (⟨d, c, w, far⟩ :: ⟨d.other, c₀, x, t⟩ :: ctx) near) := h
  exact hnear.colorOf_sibling

namespace Recorded

variable {v : Recorded}

theorem balanceStep_root (h : Represents v.state (nodeAt d c l e r)) :
    v.balanceStep e.addr = some (v.examine e.addr, e.addr, false) := by
  have hroot : Represents v.state (plug [] (nodeAt d c l e r)) := h
  simp [balanceStep, hroot.node]

/-- The pass below a red neighbour. -/
theorem balanceStep_red (h : Represents v.state (plug (f :: ctx) (nodeAt d c l e r)))
    (hkeys : KeysAround (f :: ctx) e.key) (hf : f.sibling.color = .red) :
    v.balanceStep e.addr =
      ((v.examine e.addr).rotate f.side f.elem.addr).bind fun t => some (t, e.addr, true) := by
  simp only [balanceStep, state_examine, h.node, Option.bind_eq_bind, Option.bind_some,
    RbtNode.parent_ofEntry, parentOf_cons, getNeighborRbtNode_spec h hkeys.toldApart,
    getRbtNodeDirection_spec h hkeys.toldApart, h.colorOf_sibling, hf, reduceCtorEq, if_false]
  cases f.side <;> rfl

/-- The colour of the parent decides whether it is the next to be examined. -/
def settle (t : Recorded) (p node : Addr) : Option (Recorded × Addr × Bool) :=
  (t.state.nodes p).bind fun parent =>
    if parent.color = .red then (t.setColor p .black).bind fun t => some (t, node, false)
    else some (t, p, true)

/-- The pass without a neighbour. -/
theorem balanceStep_nil
    (h : Represents v.state (plug (⟨d, c₀, x, .nil⟩ :: ctx) (nodeAt d' c l e r)))
    (hkeys : KeysAround (⟨d, c₀, x, .nil⟩ :: ctx) e.key) :
    v.balanceStep e.addr = (v.examine e.addr).settle x.addr e.addr := by
  have hcolor := h.colorOf_sibling
  simp only [rootOf_nil] at hcolor
  simp only [balanceStep, settle, state_examine, h.node, Option.bind_eq_bind, Option.bind_some,
    RbtNode.parent_ofEntry, parentOf_cons, getNeighborRbtNode_spec h hkeys.toldApart,
    getRbtNodeDirection_spec h hkeys.toldApart, rootOf_nil, hcolor, color_nil, if_true, and_self]

/-- The pass below a black neighbour: the mirror images of the source are one. -/
theorem balanceStep_black
    (h : Represents v.state (plug (⟨d, c₀, x, nodeAt d .black near w far⟩ :: ctx)
      (nodeAt d' c l e r)))
    (hkeys : KeysAround (⟨d, c₀, x, nodeAt d .black near w far⟩ :: ctx) e.key) :
    v.balanceStep e.addr =
      if near.color = .black ∧ far.color = .black then
        ((v.examine e.addr).setColor w.addr .red).bind fun t => t.settle x.addr e.addr
      else if far.color = .red then
        ((v.examine e.addr).rotate d x.addr).bind fun t => (t.state.nodes w.addr).bind fun neigh =>
          (neigh.child d.other).bind fun p => (t.setColor p .black).bind fun t =>
            some (t, e.addr, false)
      else ((v.examine e.addr).rotate d.other w.addr).bind fun t => some (t, e.addr, true) := by
  have hcolor := h.colorOf_sibling
  have hneigh := getNeighborRbtNode_spec h hkeys.toldApart
  have hdir := getRbtNodeDirection_spec h hkeys.toldApart
  simp only [rootOf_nodeAt, color_nodeAt] at hcolor hneigh hdir
  have hw := h.sibling
  have hnear := h.colorOf_near
  have hfar := h.colorOf_far
  simp only [balanceStep, settle, state_examine, h.node, Option.bind_eq_bind, Option.bind_some,
    RbtNode.parent_ofEntry, parentOf_cons, hneigh, hdir, hcolor, if_true, hw]
  cases d <;> cases hn : near.color <;> cases hf : far.color <;>
    simp [RbtNode.ofEntry, hnear, hfar, hn, hf, Side.other, RbtNode.child]

end Recorded

theorem balanceStep_root (h : Represents s (nodeAt d c l e r)) :
    s.balanceStep e.addr = some (s, e.addr, false) := by
  rw [← Recorded.map_balanceStep_start, Recorded.balanceStep_root h]
  rfl

theorem balanceStep_red (h : Represents s (plug (f :: ctx) (nodeAt d c l e r)))
    (hkeys : KeysAround (f :: ctx) e.key) (hf : f.sibling.color = .red) :
    s.balanceStep e.addr =
      (s.rotateRbtNode f.side f.elem.addr).bind fun q => some (q.1, e.addr, true) := by
  rw [← Recorded.map_balanceStep_start, Recorded.balanceStep_red h hkeys hf]
  exact Recorded.map_rotate_bind fun _ _ => rfl

theorem balanceStep_black
    (h : Represents s (plug (⟨d, c₀, x, nodeAt d .black near w far⟩ :: ctx) (nodeAt d' c l e r)))
    (hkeys : KeysAround (⟨d, c₀, x, nodeAt d .black near w far⟩ :: ctx) e.key) :
    s.balanceStep e.addr =
      if near.color = .black ∧ far.color = .black then
        (s.setColor w.addr .red).bind fun s => (s.nodes x.addr).bind fun parent =>
          if parent.color = .red then
            (s.setColor x.addr .black).bind fun s => some (s, e.addr, false)
          else some (s, x.addr, true)
      else if far.color = .red then
        (s.rotateRbtNode d x.addr).bind fun q => (q.1.nodes w.addr).bind fun neigh =>
          (neigh.child d.other).bind fun p => (q.1.setColor p .black).bind fun s =>
            some (s, e.addr, false)
      else (s.rotateRbtNode d.other w.addr).bind fun q => some (q.1, e.addr, true) := by
  rw [← Recorded.map_balanceStep_start, Recorded.balanceStep_black h hkeys]
  refine map_ite_congr ?_ (map_ite_congr ?_ ?_)
  · exact map_bind_map Recorded.map_setColor fun _ => map_bind_congr fun _ =>
      map_ite_congr (map_bind_map Recorded.map_setColor fun _ => rfl) rfl
  · exact Recorded.map_rotate_bind fun _ _ => map_bind_congr fun _ => map_bind_congr fun _ =>
      map_bind_map Recorded.map_setColor fun _ => rfl
  · exact Recorded.map_rotate_bind fun _ _ => rfl

/-! ## Rotations -/

/-- Two contexts with the same entries around the hole. -/
def SameAround (ctx ctx' : Context Entry) : Prop :=
  before ctx' = before ctx ∧ after ctx' = after ctx

theorem SameAround.trans {ctx'' : Context Entry} (h : SameAround ctx ctx')
    (h' : SameAround ctx' ctx'') : SameAround ctx ctx'' :=
  ⟨h'.1.trans h.1, h'.2.trans h.2⟩

theorem SameAround.cons (f : Frame Entry) (h : SameAround ctx ctx') :
    SameAround (f :: ctx) (f :: ctx') := by
  constructor
  · simp only [before, h.1]
  · simp only [after, h.2]

theorem SameAround.keysAround (h : SameAround ctx ctx') (hkeys : KeysAround ctx key) :
    KeysAround ctx' key := by
  obtain ⟨hsorted, hbefore, hafter⟩ := hkeys
  refine ⟨?_, by rwa [h.1], by rwa [h.2]⟩
  rwa [Sorted, toList_plug, h.1, h.2, ← toList_plug]

theorem rotate_parent (h : Represents s (plug (⟨d, c₀, x, nodeAt d c near w far⟩ :: ctx) t))
    (hkeys : KeysAround (⟨d, c₀, x, nodeAt d c near w far⟩ :: ctx) key) :
    ∃ s', s.rotateRbtNode d x.addr = some (s', w.addr) ∧
      Represents s' (plug (⟨d, c, x, near⟩ :: ⟨d, c₀, w, far⟩ :: ctx) t) ∧
      SameAround (⟨d, c₀, x, nodeAt d c near w far⟩ :: ctx)
        (⟨d, c, x, near⟩ :: ⟨d, c₀, w, far⟩ :: ctx) := by
  obtain ⟨s', hrot, hrep⟩ :=
    rotateRbtNode_spec h (hkeys.hangsAt_sibling (t := t) (v := w) (by simp)).1
  refine ⟨s', hrot, hrep, ?_, ?_⟩ <;> cases d <;> simp [before, after, nodeAt, toList]

theorem rotate_neighbor {v : Entry} {y z : ColoredTree Entry} {c' : Color}
    (h : Represents s (plug (⟨d, c₀, x, nodeAt d c (nodeAt d c' y v z) w far⟩ :: ctx) t))
    (hkeys : KeysAround (⟨d, c₀, x, nodeAt d c (nodeAt d c' y v z) w far⟩ :: ctx) key) :
    ∃ s', s.rotateRbtNode d.other w.addr = some (s', v.addr) ∧
      Represents s' (plug (⟨d, c₀, x, nodeAt d c y v (nodeAt d c' z w far)⟩ :: ctx) t) ∧
      SameAround (⟨d, c₀, x, nodeAt d c (nodeAt d c' y v z) w far⟩ :: ctx)
        (⟨d, c₀, x, nodeAt d c y v (nodeAt d c' z w far)⟩ :: ctx) := by
  have hneigh : Represents s (plug (⟨d.other, c₀, x, t⟩ :: ctx)
      (nodeAt d.other c far w (nodeAt d.other c' z v y))) := by
    rw [plug_sibling] at h
    simpa only [nodeAt_other] using h
  obtain ⟨s', hrot, hrep⟩ :=
    rotateRbtNode_spec hneigh (hkeys.hangsAt_sibling (t := t) (v := v) (by simp)).2
  refine ⟨s', hrot, ?_, ?_, ?_⟩
  · rw [plug_sibling]
    simpa only [nodeAt_other] using hrep
  · cases d <;> simp [before, nodeAt, toList]
  · cases d <;> simp [after, nodeAt, toList]

/-! ## All passes -/

/-- The loop ends, and the tree will be red-black when `u` has taken the place of `t`. -/
def Settles (s : Rbt) (a : Addr) (ctx : Context Entry) (t u : ColoredTree Entry) : Prop :=
  ∃ s' ctx', Returns (fun fuel => s.balanceLoop fuel a) s' ∧ Represents s' (plug ctx' t) ∧
    (plug ctx' u).IsRedBlack ∧ SameAround ctx ctx'

theorem Settles.of_done {s' : Rbt} {a b : Addr} (hstep : s.balanceStep a = some (s', b, false))
    (h : Represents s' (plug ctx' t)) (hred : (plug ctx' u).IsRedBlack)
    (hsame : SameAround ctx ctx') : Settles s a ctx t u :=
  ⟨s', ctx', Returns.of_succ (g := fun _ => some s') (fun fuel => by simp [balanceLoop, hstep])
    (Returns.const rfl), h, hred, hsame⟩

theorem Settles.of_step {s' : Rbt} {a : Addr} (hstep : s.balanceStep a = some (s', a, true))
    (h : Settles s' a ctx' t u) (hsame : SameAround ctx ctx') : Settles s a ctx t u := by
  obtain ⟨s'', ctx'', hreturns, hrep, hred, hsame'⟩ := h
  exact ⟨s'', ctx'', Returns.of_succ (fun fuel => by simp [balanceLoop, hstep]) hreturns, hrep, hred,
    hsame.trans hsame'⟩

/-- The parent is examined next. -/
theorem Settles.of_up {s' : Rbt} {a : Addr} {f' : Frame Entry}
    (hstep : s.balanceStep a = some (s', f'.elem.addr, true))
    (h : Settles s' f'.elem.addr ctx (f'.fill t) (f'.fill u))
    (hsame : SameAround (f :: ctx) (f' :: ctx)) : Settles s a (f :: ctx) t u := by
  obtain ⟨s'', ctx'', hreturns, hrep, hred, hsame'⟩ := h
  exact ⟨s'', f' :: ctx'', Returns.of_succ (fun fuel => by simp [balanceLoop, hstep]) hreturns,
    hrep, hred, hsame.trans (hsame'.cons f')⟩

theorem contextBalanced_sibling {sib : ColoredTree Entry}
    (h : ContextBalanced (⟨d, c₀, x, sib⟩ :: ctx) n) : sib.Balanced n := by
  cases c₀ with
  | red => exact h.2.1
  | black => exact h.1

/-- What is above a frame does not see its element, nor its black sibling. -/
theorem contextBalanced_congr {sib sib' : ColoredTree Entry} {x' : Entry}
    (h : ContextBalanced (⟨d, c₀, x, sib⟩ :: ctx) n) (hc : sib'.color = .black)
    (hbal : sib'.Balanced n) : ContextBalanced (⟨d, c₀, x', sib'⟩ :: ctx) n := by
  cases c₀ with
  | red => exact ⟨hc, hbal, h.2.2⟩
  | black => exact ⟨hbal, h.2⟩

/-- The far child of a black neighbour is red. -/
theorem settles_far
    (h : Represents s (plug (⟨d, c₀, x, nodeAt d .black near w far⟩ :: ctx) (nodeAt d' c l e r)))
    (hkeys : KeysAround (⟨d, c₀, x, nodeAt d .black near w far⟩ :: ctx) e.key)
    (hfar : far.color = .red) (hu : u.Balanced n) (huc : u.color = .black)
    (hctx : ContextBalanced (⟨d, c₀, x, nodeAt d .black near w far⟩ :: ctx) (n + 1)) :
    Settles s e.addr (⟨d, c₀, x, nodeAt d .black near w far⟩ :: ctx) (nodeAt d' c l e r) u := by
  have hstep := balanceStep_black h hkeys
  obtain ⟨hnb, hfb⟩ := balanced_black_succ.1 (contextBalanced_sibling hctx)
  obtain ⟨cf, y, v, z, rfl⟩ := (exists_nodeAt .left far).resolve_left fun hnil => by
    simp [hnil] at hfar
  obtain rfl : cf = .red := by simpa using hfar
  obtain ⟨-, -, hyb, hzb⟩ := balanced_red.1 hfb
  obtain ⟨s₁, hrot, hrep₁, hsame⟩ := rotate_parent h hkeys
  have hw := hrep₁.fill.frame
  obtain ⟨s₂, hcolor, hrep₂⟩ := Represents.setColor_sibling .black hrep₁.fill
  have hrep₂ : Represents s₂ (plug (⟨d, .black, x, near⟩ ::
      ⟨d, c₀, w, nodeAt .left .black y v z⟩ :: ctx) (nodeAt d' c l e r)) := hrep₂
  have hstep : s.balanceStep e.addr = some (s₂, e.addr, false) := by
    rw [hstep, if_neg (by simp), if_pos (color_nodeAt ..), hrot, Option.bind_some, hw,
      Option.bind_some, RbtNode.child_other_ofEntry, rootOf_nodeAt, Option.bind_some, hcolor,
      Option.bind_some]
  refine Settles.of_done hstep hrep₂ ?_ (hsame.trans ?_)
  · exact isRedBlack_plug.2 ⟨n, ⟨hnb, contextBalanced_congr hctx (color_nodeAt ..)
      (balanced_black_succ.2 ⟨hyb, hzb⟩)⟩, hu, fun _ => huc⟩
  · cases d <;> exact ⟨rfl, rfl⟩

/-- A child of a black neighbour is red. -/
theorem settles_redChild
    (h : Represents s (plug (⟨d, c₀, x, nodeAt d .black near w far⟩ :: ctx) (nodeAt d' c l e r)))
    (hkeys : KeysAround (⟨d, c₀, x, nodeAt d .black near w far⟩ :: ctx) e.key)
    (hchild : ¬ (near.color = .black ∧ far.color = .black)) (hu : u.Balanced n)
    (huc : u.color = .black)
    (hctx : ContextBalanced (⟨d, c₀, x, nodeAt d .black near w far⟩ :: ctx) (n + 1)) :
    Settles s e.addr (⟨d, c₀, x, nodeAt d .black near w far⟩ :: ctx) (nodeAt d' c l e r) u := by
  by_cases hfar : far.color = .red
  · exact settles_far h hkeys hfar hu huc hctx
  · -- only the near child: it becomes the neighbour, and the old neighbour its red far child
    have hfar := Color.ne_red.1 hfar
    have hnear : near.color = .red := Color.ne_black.1 fun hnear => hchild ⟨hnear, hfar⟩
    obtain ⟨cn, y, v, z, rfl⟩ := (exists_nodeAt d near).resolve_left fun hnil => by
      simp [hnil] at hnear
    obtain rfl : cn = .red := by simpa using hnear
    obtain ⟨hnb, hfb⟩ := balanced_black_succ.1 (contextBalanced_sibling hctx)
    obtain ⟨-, hzc, hyb, hzb⟩ := balanced_red.1 hnb
    obtain ⟨s₁, hrot, hrep₁, hsame⟩ := rotate_neighbor h hkeys
    have hstep : s.balanceStep e.addr = some (s₁, e.addr, true) := by
      rw [balanceStep_black h hkeys, if_neg hchild, if_neg (by simp [hfar]), hrot, Option.bind_some]
    refine Settles.of_step hstep (settles_far hrep₁ (hsame.keysAround hkeys) (color_nodeAt ..) hu huc
      ?_) hsame
    exact contextBalanced_congr hctx (color_nodeAt ..)
      (balanced_black_succ.2 ⟨hyb, balanced_red.2 ⟨hzc, hfar, hzb, hfb⟩⟩)

/-- Below a red parent the loop ends within two passes. -/
theorem settles_redParent {sib : ColoredTree Entry}
    (h : Represents s (plug (⟨d, .red, x, sib⟩ :: ctx) (nodeAt d' c l e r)))
    (hkeys : KeysAround (⟨d, .red, x, sib⟩ :: ctx) e.key) (hu : u.Balanced n)
    (huc : u.color = .black) (hctx : ContextBalanced (⟨d, .red, x, sib⟩ :: ctx) (n + 1)) :
    Settles s e.addr (⟨d, .red, x, sib⟩ :: ctx) (nodeAt d' c l e r) u := by
  obtain ⟨hsc, hsb, -, hrest⟩ := contextBalanced_red.1 hctx
  obtain ⟨cs, near, w, far, rfl⟩ := exists_nodeAt_of_balanced_succ d hsb
  obtain rfl : cs = .black := by simpa using hsc
  by_cases hchild : near.color = .black ∧ far.color = .black
  · obtain ⟨hnb, hfb⟩ := balanced_black_succ.1 hsb
    obtain ⟨s₁, hs₁, hrep₁⟩ := Represents.setColor_sibling .red h
    obtain ⟨s₂, hs₂, hrep₂⟩ := hrep₁.setColor_frame .black
    have hstep : s.balanceStep e.addr = some (s₂, e.addr, false) := by
      rw [balanceStep_black h hkeys, if_pos hchild, hs₁, Option.bind_some, hrep₁.frame,
        Option.bind_some, RbtNode.color_ofEntry, if_pos rfl, hs₂, Option.bind_some]
    refine Settles.of_done hstep hrep₂ (isRedBlack_plug.2 ⟨n, ⟨?_, hrest⟩, hu, fun _ => huc⟩) ?_
    · exact balanced_red.2 ⟨hchild.1, hchild.2, hnb, hfb⟩
    · cases d <;> exact ⟨rfl, rfl⟩
  · exact settles_redChild h hkeys hchild hu huc hctx

/-- The loop of `bf_balance_rbt_post_deletion`. -/
theorem balanceLoop_spec (h : Represents s (plug ctx (nodeAt d' c l e r)))
    (hkeys : KeysAround ctx e.key) (hu : u.Balanced n) (huc : u.color = .black)
    (hctx : ContextBalanced ctx (n + 1)) : Settles s e.addr ctx (nodeAt d' c l e r) u := by
  induction ctx generalizing s d' c l e r u n with
  | nil => exact Settles.of_done (balanceStep_root h) h ⟨huc, n, hu⟩ ⟨rfl, rfl⟩
  | cons f rest ih =>
      obtain ⟨d, c₀, x, sib⟩ := f
      cases c₀ with
      | red => exact settles_redParent h hkeys hu huc hctx
      | black =>
          obtain ⟨(hsb : sib.Balanced (n + 1)), hrest⟩ := hctx
          obtain ⟨cs, near, w, far, rfl⟩ := exists_nodeAt_of_balanced_succ d hsb
          cases cs with
          | red =>
              -- a red neighbour: the parent becomes red
              obtain ⟨hnc, hfc, hnb, hfb⟩ := balanced_red.1 hsb
              obtain ⟨s₁, hrot, hrep₁, hsame⟩ := rotate_parent h hkeys
              have hstep : s.balanceStep e.addr = some (s₁, e.addr, true) := by
                rw [balanceStep_red h hkeys (color_nodeAt ..), hrot, Option.bind_some]
              refine Settles.of_step hstep (settles_redParent hrep₁ (hsame.keysAround hkeys) hu huc
                ?_) hsame
              exact ⟨hnc, hnb, rfl, hfb, hrest⟩
          | black =>
              by_cases hchild : near.color = .black ∧ far.color = .black
              · -- the whole subtree of the parent is one black node short now
                obtain ⟨hnb, hfb⟩ := balanced_black_succ.1 hsb
                obtain ⟨s₁, hs₁, hrep₁⟩ := Represents.setColor_sibling .red h
                have hstep : s.balanceStep e.addr = some (s₁, x.addr, true) := by
                  rw [balanceStep_black h hkeys, if_pos hchild, hs₁, Option.bind_some, hrep₁.frame,
                    Option.bind_some, RbtNode.color_ofEntry, if_neg (by simp)]
                have hred : (nodeAt d .red near w far).Balanced n :=
                  balanced_red.2 ⟨hchild.1, hchild.2, hnb, hfb⟩
                have hup := ih (u := nodeAt d .black u x (nodeAt d .red near w far)) hrep₁.fill
                  hkeys.up (balanced_black_succ.2 ⟨hu, hred⟩) (color_nodeAt ..) hrest
                have hsame : SameAround (⟨d, .black, x, nodeAt d .black near w far⟩ :: rest)
                    (⟨d, .black, x, nodeAt d .red near w far⟩ :: rest) := by
                  cases d <;> exact ⟨rfl, rfl⟩
                exact Settles.of_up hstep hup hsame
              · exact settles_redChild h hkeys hchild hu huc ⟨hsb, hrest⟩

end Rbt
