import TargetUtils.Rbt.Sides

set_option autoImplicit false

/-! # Between the search and the unlinking

All states of a removal, from the return of `bf_bst_node_deletion` on, hold the same entries in the
same order (`Recorded.balanceStep_sound`), so the sides are right in all of them
(`sides_of_run`). -/

open ColoredTree

namespace Rbt

variable {s : Rbt} {a a' : Addr} {d d' : Side} {c c' c₀ : Color} {e w x v : Entry} {f : Frame Entry}
  {l r near far T y z : ColoredTree Entry} {ctx rest : Context Entry} {key : Key}
  {L : List Entry} {t t' : Recorded} {more : Bool} {fuel : ℕ}

theorem SameAround.toList_plug {ctx' : Context Entry} (h : SameAround ctx ctx') :
    (plug ctx' T).toList = (plug ctx T).toList := by
  rw [ColoredTree.toList_plug, ColoredTree.toList_plug, h.1, h.2]

/-- The state holds a tree with the entries `L`. -/
def HoldsEntries (L : List Entry) (s : Rbt) : Prop := ∃ u, Represents s u ∧ u.toList = L

namespace Recorded

/-- Every action was done in a tree with the entries `L`: what was examined is one of its nodes, and
    every rotation left the pivot in the place of the rotated node. -/
structure Sound (L : List Entry) (t : Recorded) : Prop where
  entries : ∀ s act, (s, act) ∈ t.log → HoldsEntries L s
  examined : ∀ s b, (s, .examine b) ∈ t.log → ∃ v ∈ L, v.addr = b
  rotations : ∀ s d b, (s, .rotate d b) ∈ t.log → RotatesInPlace s d b

theorem Sound.start (s : Rbt) : (start s).Sound L :=
  ⟨by simp, by simp, by simp⟩

/-- One more action. -/
theorem Sound.snoc {s' : Rbt} {act : Action} (h : t.Sound L) (hstate : HoldsEntries L t.state)
    (hexamine : ∀ b, act = .examine b → ∃ v ∈ L, v.addr = b)
    (hrotate : ∀ d b, act = .rotate d b → RotatesInPlace t.state d b) :
    ({ state := s', log := t.log ++ [(t.state, act)] } : Recorded).Sound L := by
  refine ⟨fun s act' hmem => ?_, fun s b hmem => ?_, fun s d b hmem => ?_⟩ <;>
    rcases List.mem_append.1 hmem with hmem | hmem
  · exact h.entries s act' hmem
  · obtain ⟨rfl, -⟩ := Prod.mk.inj (List.mem_singleton.1 hmem)
    exact hstate
  · exact h.examined s b hmem
  · exact hexamine b (Prod.mk.inj (List.mem_singleton.1 hmem)).2.symm
  · exact h.rotations s d b hmem
  · obtain ⟨rfl, hact⟩ := Prod.mk.inj (List.mem_singleton.1 hmem)
    exact hrotate d b hact.symm

/-- What holds at every point of a pass: the tree is `T` in the context `ctx`. -/
structure At (L : List Entry) (ctx : Context Entry) (T : ColoredTree Entry) (t : Recorded) :
    Prop where
  rep : Represents t.state (plug ctx T)
  entries : (plug ctx T).toList = L
  sound : t.Sound L

theorem At.holds (h : t.At L ctx T) : HoldsEntries L t.state := ⟨_, h.rep, h.entries⟩

theorem At.fill (h : t.At L (f :: ctx) T) :
    t.At L ctx (nodeAt f.side f.color T f.elem f.sibling) :=
  ⟨h.rep.fill, h.entries, h.sound⟩

/-! ## Actions -/

theorem At.examine (h : t.At L ctx (nodeAt d c l e r)) :
    (t.examine e.addr).At L ctx (nodeAt d c l e r) := by
  refine ⟨h.rep, h.entries, h.sound.snoc h.holds (fun b hb => ⟨e, ?_, ?_⟩) fun _ _ hact => ?_⟩
  · rw [← h.entries]
    exact mem_plug.2 (Or.inl (by simp))
  · exact Action.examine.inj hb
  · cases hact

theorem At.setColor {s' : Rbt} {ctx' : Context Entry} {T' : ColoredTree Entry} (h : t.At L ctx T)
    (hset : t.state.setColor a c = some s') (hrep : Represents s' (plug ctx' T'))
    (hlist : (plug ctx' T').toList = (plug ctx T).toList) :
    ∃ t', t.setColor a c = some t' ∧ t'.At L ctx' T' := by
  refine ⟨⟨s', t.log ++ [(t.state, .setColor a c)]⟩, ?_, hrep, hlist.trans h.entries,
    h.sound.snoc h.holds (fun _ hact => ?_) fun _ _ hact => ?_⟩
  · rw [Recorded.setColor, hset]
    rfl
  · cases hact
  · cases hact

theorem At.rotate {s' : Rbt} {ctx' : Context Entry} {b : Addr} (h : t.At L ctx T)
    (hrot : t.state.rotateRbtNode d a = some (s', b)) (hplace : RotatesInPlace t.state d a)
    (hrep : Represents s' (plug ctx' T)) (hsame : SameAround ctx ctx') :
    ∃ t', t.rotate d a = some t' ∧ t'.At L ctx' T := by
  refine ⟨⟨s', t.log ++ [(t.state, .rotate d a)]⟩, ?_, hrep, hsame.toList_plug.trans h.entries,
    h.sound.snoc h.holds (fun _ hact => ?_) fun d' b' hact => ?_⟩
  · rw [Recorded.rotate, hrot]
    rfl
  · cases hact
  · obtain ⟨rfl, rfl⟩ := Action.rotate.inj hact
    exact hplace

theorem At.setColor_sibling {side : Side} (c' : Color)
    (h : t.At L (⟨side, c₀, x, nodeAt d c near w far⟩ :: ctx) T) :
    ∃ t', t.setColor w.addr c' = some t' ∧
      t'.At L (⟨side, c₀, x, nodeAt d c' near w far⟩ :: ctx) T ∧
      SameAround (⟨side, c₀, x, nodeAt d c near w far⟩ :: ctx)
        (⟨side, c₀, x, nodeAt d c' near w far⟩ :: ctx) := by
  obtain ⟨s', hset, hrep⟩ := Represents.setColor_sibling c' h.rep
  have hsame : SameAround (⟨side, c₀, x, nodeAt d c near w far⟩ :: ctx)
      (⟨side, c₀, x, nodeAt d c' near w far⟩ :: ctx) := by
    cases side <;> cases d <;> exact ⟨rfl, rfl⟩
  obtain ⟨t', ht', hat⟩ := h.setColor hset hrep hsame.toList_plug
  exact ⟨t', ht', hat, hsame⟩

theorem At.setColor_frame (c' : Color) (h : t.At L (f :: ctx) T) :
    ∃ t', t.setColor f.elem.addr c' = some t' ∧
      t'.At L (⟨f.side, c', f.elem, f.sibling⟩ :: ctx) T ∧
      SameAround (f :: ctx) (⟨f.side, c', f.elem, f.sibling⟩ :: ctx) := by
  obtain ⟨s', hset, hrep⟩ := h.rep.setColor_frame c'
  have hsame : SameAround (f :: ctx) (⟨f.side, c', f.elem, f.sibling⟩ :: ctx) := ⟨rfl, rfl⟩
  obtain ⟨t', ht', hat⟩ := h.setColor hset hrep hsame.toList_plug
  exact ⟨t', ht', hat, hsame⟩

theorem At.rotate_parent (h : t.At L (⟨d, c₀, x, nodeAt d c near w far⟩ :: ctx) T)
    (hkeys : KeysAround (⟨d, c₀, x, nodeAt d c near w far⟩ :: ctx) key) :
    ∃ t', t.rotate d x.addr = some t' ∧ t'.At L (⟨d, c, x, near⟩ :: ⟨d, c₀, w, far⟩ :: ctx) T ∧
      SameAround (⟨d, c₀, x, nodeAt d c near w far⟩ :: ctx)
        (⟨d, c, x, near⟩ :: ⟨d, c₀, w, far⟩ :: ctx) := by
  obtain ⟨s', hrot, hrep, hsame⟩ := Rbt.rotate_parent h.rep hkeys
  have hplace :=
    Represents.rotatesInPlace h.rep (hkeys.hangsAt_sibling (t := T) (v := w) (by simp)).1
  obtain ⟨t', ht', hat⟩ := h.rotate hrot hplace hrep hsame
  exact ⟨t', ht', hat, hsame⟩

theorem At.rotate_neighbor
    (h : t.At L (⟨d, c₀, x, nodeAt d c (nodeAt d c' y v z) w far⟩ :: ctx) T)
    (hkeys : KeysAround (⟨d, c₀, x, nodeAt d c (nodeAt d c' y v z) w far⟩ :: ctx) key) :
    ∃ t', t.rotate d.other w.addr = some t' ∧
      t'.At L (⟨d, c₀, x, nodeAt d c y v (nodeAt d c' z w far)⟩ :: ctx) T ∧
      SameAround (⟨d, c₀, x, nodeAt d c (nodeAt d c' y v z) w far⟩ :: ctx)
        (⟨d, c₀, x, nodeAt d c y v (nodeAt d c' z w far)⟩ :: ctx) := by
  obtain ⟨s', hrot, hrep, hsame⟩ := Rbt.rotate_neighbor h.rep hkeys
  have hneigh : Represents t.state (plug (⟨d.other, c₀, x, T⟩ :: ctx)
      (nodeAt d.other c far w (nodeAt d.other c' z v y))) := by
    have hrep := h.rep
    rw [plug_sibling] at hrep
    simpa only [nodeAt_other] using hrep
  have hplace := hneigh.rotatesInPlace (hkeys.hangsAt_sibling (t := T) (v := v) (by simp)).2
  obtain ⟨t', ht', hat⟩ := h.rotate hrot hplace hrep hsame
  exact ⟨t', ht', hat, hsame⟩

/-! ## A pass -/

/-- Between two passes `a` is a node of the tree, with a key between those around it. -/
def Balancing (L : List Entry) (t : Recorded) (a : Addr) : Prop :=
  ∃ ctx d c l e r, e.addr = a ∧ t.At L ctx (nodeAt d c l e r) ∧ KeysAround ctx e.key

theorem settle_sound (h : t.At L (f :: ctx) (nodeAt d c l e r))
    (hkeys : KeysAround (f :: ctx) e.key)
    (hsettle : t.settle f.elem.addr e.addr = some (t', a', more)) : t'.Balancing L a' := by
  rw [settle, h.rep.frame, Option.bind_some] at hsettle
  split_ifs at hsettle
  · obtain ⟨t₁, ht₁, hat₁, hsame⟩ := h.setColor_frame .black
    rw [ht₁] at hsettle
    cases hsettle
    exact ⟨_, d, c, l, e, r, rfl, hat₁, hsame.keysAround hkeys⟩
  · -- the parent, seen from its own place
    cases hsettle
    exact ⟨ctx, f.side, f.color, _, f.elem, f.sibling, rfl, h.fill, hkeys.up⟩

/-- A pass below a black neighbour. -/
theorem balanceStep_sound_black
    (h : t.At L (⟨d, c₀, x, nodeAt d .black near w far⟩ :: ctx) (nodeAt d' c l e r))
    (hkeys : KeysAround (⟨d, c₀, x, nodeAt d .black near w far⟩ :: ctx) e.key)
    (hstep : t.balanceStep e.addr = some (t', a', more)) : t'.Balancing L a' := by
  rw [balanceStep_black h.rep hkeys] at hstep
  split_ifs at hstep with hchild hfar
  · obtain ⟨t₁, ht₁, hat₁, hsame⟩ := h.examine.setColor_sibling .red
    rw [ht₁] at hstep
    exact settle_sound hat₁ (hsame.keysAround hkeys) hstep
  · obtain ⟨cf, y, v, z, rfl⟩ := (exists_nodeAt .left far).resolve_left fun hnil => by
      simp [hnil] at hfar
    obtain ⟨t₁, ht₁, hat₁, hsame⟩ := h.examine.rotate_parent hkeys
    -- the far child is the other child of the grandparent now
    obtain ⟨t₂, ht₂, hat₂, hsame₂⟩ := hat₁.fill.setColor_sibling .black
    rw [ht₁, Option.bind_some, hat₁.fill.rep.frame, Option.bind_some, RbtNode.child_other_ofEntry,
      rootOf_nodeAt, Option.bind_some, ht₂] at hstep
    cases hstep
    refine ⟨⟨d, .black, x, near⟩ :: ⟨d, c₀, w, nodeAt .left .black y v z⟩ :: ctx, d', c, l, e, r,
      rfl, ⟨hat₂.rep, hat₂.entries, hat₂.sound⟩, ?_⟩
    exact (hsame.trans (hsame₂.cons _)).keysAround hkeys
  · obtain ⟨cn, y, v, z, rfl⟩ := (exists_nodeAt d near).resolve_left fun hnil => by
      refine hchild ⟨?_, Color.ne_red.1 hfar⟩
      rw [hnil, color_nil]
    obtain ⟨t₁, ht₁, hat₁, hsame⟩ := h.examine.rotate_neighbor hkeys
    rw [ht₁] at hstep
    cases hstep
    exact ⟨_, d', c, l, e, r, rfl, hat₁, hsame.keysAround hkeys⟩

/-- Every pass keeps the sides right, and so does all that it does. -/
theorem balanceStep_sound (h : t.Balancing L a) (hstep : t.balanceStep a = some (t', a', more)) :
    t'.Balancing L a' := by
  obtain ⟨ctx, d', c, l, e, r, rfl, hat, hkeys⟩ := h
  cases ctx with
  | nil =>
      rw [balanceStep_root hat.rep] at hstep
      cases hstep
      exact ⟨[], d', c, l, e, r, rfl, hat.examine, hkeys⟩
  | cons f rest =>
      obtain ⟨d, c₀, x, sib⟩ := f
      rcases exists_nodeAt d sib with rfl | ⟨cs, near, w, far, rfl⟩
      · rw [balanceStep_nil hat.rep hkeys] at hstep
        exact settle_sound hat.examine hkeys hstep
      · cases cs with
        | red =>
            rw [balanceStep_red hat.rep hkeys (color_nodeAt ..)] at hstep
            obtain ⟨t₁, ht₁, hat₁, hsame⟩ := hat.examine.rotate_parent hkeys
            rw [ht₁] at hstep
            cases hstep
            exact ⟨_, d', c, l, e, r, rfl, hat₁, hsame.keysAround hkeys⟩
        | black => exact balanceStep_sound_black hat hkeys hstep

theorem balanceLoop_sound (h : t.Balancing L a) (hloop : balanceLoop fuel t a = some t') :
    ∃ b, t'.Balancing L b := by
  induction fuel generalizing t a with
  | zero => simp [balanceLoop] at hloop
  | succ fuel ih =>
      rw [balanceLoop, Option.bind_eq_bind, Option.bind_eq_some_iff] at hloop
      obtain ⟨⟨t₁, b, more⟩, hstep, hrest⟩ := hloop
      have hnext := balanceStep_sound h hstep
      cases more with
      | true => exact ih hnext hrest
      | false =>
          cases hrest
          exact ⟨b, hnext⟩

theorem Balancing.holds (h : t.Balancing L a) : t.Sound L ∧ HoldsEntries L t.state := by
  obtain ⟨ctx, d, c, l, e, r, -, hat, -⟩ := h
  exact ⟨hat.sound, hat.holds⟩

/-- The colour of the head is assigned in the same tree. -/
theorem balanceRbtPostDeletion_sound (h : t.Balancing L a)
    (hbalance : t.balanceRbtPostDeletion fuel a = some t') :
    t'.Sound L ∧ HoldsEntries L t'.state := by
  rw [balanceRbtPostDeletion, Option.bind_eq_bind, Option.bind_eq_some_iff] at hbalance
  obtain ⟨t₁, hloop, hrest⟩ := hbalance
  obtain ⟨b, hb⟩ := balanceLoop_sound h hloop
  obtain ⟨hsound, u, hrep, hlist⟩ := hb.holds
  simp only [Option.bind_eq_bind, Option.bind_eq_some_iff] at hrest
  obtain ⟨head, hhead, n, hn, hcolor⟩ := hrest
  split_ifs at hcolor
  · obtain ⟨c, l, e, r, rfl⟩ := (exists_nodeAt .left u).resolve_left fun hnil => by
      simp [hrep.head_eq, hnil] at hhead
    obtain rfl : e.addr = head := by simpa [hrep.head_eq] using hhead
    have hat : t₁.At L [] (nodeAt .left c l e r) := ⟨hrep, hlist, hsound⟩
    have hroot : Represents t₁.state (plug [] (nodeAt .left c l e r)) := hrep
    obtain ⟨s', hset, hrep'⟩ := hroot.setColor .black
    obtain ⟨t₂, ht₂, hat₂⟩ := hat.setColor hset hrep' (toList_nodeAt_congr rfl rfl)
    obtain rfl := Option.some.inj (hcolor.symm.trans ht₂)
    exact ⟨hat₂.sound, hat₂.holds⟩
  · cases hcolor
    exact hb.holds

/-- All states from the first on. -/
def states (t : Recorded) : List Rbt := t.log.map Prod.fst ++ [t.state]

theorem Sound.states (h : t.Sound L) (hstate : HoldsEntries L t.state) (hs : s ∈ t.states) :
    HoldsEntries L s := by
  rcases List.mem_append.1 hs with hs | hs
  · obtain ⟨⟨m, act⟩, hmem, rfl⟩ := List.mem_map.1 hs
    exact h.entries m act hmem
  · obtain rfl := List.mem_singleton.1 hs
    exact hstate

end Recorded

/-! ## The whole removal -/

/-- `bf_remove_rbt_entry` from the return of `bf_bst_node_deletion` to the unlinking: the leaf to
    delete and the state in which it is unlinked, or `none` if the key is not there. -/
def recordRemoval (fuel : ℕ) (s : Rbt) (key : Key) : Option (Option (Addr × Recorded)) := do
  match ← bstNodeDeletion fuel s key with
  | (_, none) => some none
  | (s, some (resNode, color)) => do
    let t := Recorded.start s
    let t ← (if color = .black then t.balanceRbtPostDeletion fuel resNode else some t)
    some (some (resNode, t))

/-- Without the record a removal is `bf_remove_rbt_entry`. -/
theorem removeRbtEntry_eq {leaf : Addr}
    (h : s.recordRemoval fuel key = some (some (leaf, t))) :
    s.removeRbtEntry fuel key = (t.state.unlinkLeaf leaf).map fun s => (s, .ok) := by
  simp only [recordRemoval, Option.bind_eq_bind, Option.bind_eq_some_iff] at h
  obtain ⟨⟨s₁, found⟩, hdelete, h⟩ := h
  cases found with
  | none => simp at h
  | some q =>
      obtain ⟨resNode, color⟩ := q
      obtain ⟨t', hbalance, hrest⟩ := Option.bind_eq_some_iff.1 h
      obtain ⟨rfl, rfl⟩ : resNode = leaf ∧ t' = t := by simpa using hrest
      have hstate : (if color = .black then s₁.balanceRbtPostDeletion fuel resNode else some s₁) =
          some t'.state := by
        rw [← Option.map_some, ← hbalance, eq_comm]
        exact map_ite_congr Recorded.map_balanceRbtPostDeletion rfl
      simp only [removeRbtEntry, unlinkLeaf, hdelete, hstate, Option.bind_eq_bind, Option.bind_some]
      cases t'.state.nodes resNode with
      | none => rfl
      | some n => cases hp : n.parent <;> simp [hp, Option.map_bind]

/-- The balancing ends, with the leaf still in its place between the same entries. -/
theorem recordBalancing_spec (h : Represents s (plug ctx (leaf c e)))
    (hred : (plug ctx (leaf c e)).IsRedBlack) (hkeys : KeysAround ctx e.key) :
    ∃ (t : Recorded) (ctx' : Context Entry), Returns (fun fuel =>
        if c = .black then (Recorded.start s).balanceRbtPostDeletion fuel e.addr
        else some (.start s)) t ∧
      t.Replays s ∧ t.Sound (plug ctx (leaf c e)).toList ∧
      Represents t.state (plug ctx' (leaf c e)) ∧ SameAround ctx ctx' := by
  have hreplays := Recorded.Replays.start s
  cases c with
  | red => exact ⟨.start s, ctx, Returns.const rfl, hreplays, Recorded.Sound.start s, h, rfl, rfl⟩
  | black =>
      obtain ⟨s', ctx', hreturns, hrep, -, hsame⟩ := balanceRbtPostDeletion_spec h hred hkeys
      have hmap : Returns (fun fuel => ((Recorded.start s).balanceRbtPostDeletion fuel
          e.addr).map Recorded.state) s' :=
        Returns.congr (fun _ => Recorded.map_balanceRbtPostDeletion) hreturns
      obtain ⟨t, ht, rfl⟩ := hmap.of_map fun _ _ => Recorded.balanceRbtPostDeletion_succ
      obtain ⟨bound, hbound⟩ := ht
      have hstart : (Recorded.start s).Balancing (plug ctx (leaf .black e)).toList e.addr :=
        ⟨ctx, .left, .black, .nil, e, .nil, rfl, ⟨h, rfl, Recorded.Sound.start s⟩, hkeys⟩
      have hend := hbound bound le_rfl
      exact ⟨t, ctx', ⟨bound, hbound⟩, hreplays.balanceRbtPostDeletion bound e.addr t hend,
        (Recorded.balanceRbtPostDeletion_sound hstart hend).1, hrep, hsame⟩

theorem removeRbtEntry_of_record {leaf : Addr} {s' : Rbt}
    (h : Returns (fun fuel => s.recordRemoval fuel key) (some (leaf, t)))
    (hunlink : t.state.unlinkLeaf leaf = some s') :
    Returns (fun fuel => s.removeRbtEntry fuel key) (s', .ok) := by
  obtain ⟨bound, hbound⟩ := h
  refine ⟨bound, fun fuel hfuel => ?_⟩
  have heq := removeRbtEntry_eq (hbound fuel hfuel)
  rwa [hunlink, Option.map_some] at heq

/-- In every state of a removal, from that in which the search leaves the tree, the keys tell on
    which side of their parents the leaf and the examined nodes are, every rotation keeps to the side
    of the rotated node, and what is unlinked is the leaf. -/
theorem sides_of_run {events : List (Call × Reply)} (h : Run Step empty events s)
    (hnode : NodeOf s key a) :
    ∃ s₁ leaf color t s',
      Returns (fun fuel => s.bstNodeDeletion fuel key) (s₁, some (leaf, color)) ∧
      Returns (fun fuel => s.recordRemoval fuel key) (some (leaf, t)) ∧ t.Replays s₁ ∧
      (∀ m ∈ t.states, ∀ b, (b = leaf ∨ ∃ m', (m', Action.examine b) ∈ t.log) → SideFound m b) ∧
      (∀ m d b, (m, Action.rotate d b) ∈ t.log → RotatesInPlace m d b) ∧
      t.state.unlinkLeaf leaf = some s' ∧ UnlinksOnly t.state s' leaf ∧
      Returns (fun fuel => s.removeRbtEntry fuel key) (s', .ok) := by
  obtain ⟨u, hrep, hsorted, hred, -⟩ := tree_of_run h
  obtain ⟨c, l, x, r, hloc⟩ : ∃ c l x r, (locate key [] u).2 = nodeAt .left c l x r := by
    rcases locate_snd key [] u with hnil | ⟨c, l, x, r, hloc, -⟩
    · obtain ⟨x, hx, -, hkey⟩ := hrep.nodeOf_iff.1 hnode
      exact absurd hkey (ne_of_locate_eq_nil hsorted hnil x hx)
    · exact ⟨c, l, x, r, hloc⟩
  obtain ⟨s₁, ctx, c₁, e, -, -, hdelete, hrep₁, hred₁, hkeys, -⟩ :=
    bstNodeDeletion_present hrep hsorted hred hloc
  obtain ⟨t, ctx', hbalance, hreplays, hsound, hrep₂, hsame⟩ :=
    recordBalancing_spec hrep₁ hred₁ hkeys
  have hrecord : Returns (fun fuel => s.recordRemoval fuel key) (some (e.addr, t)) :=
    Returns.bind hdelete (Returns.bind hbalance (Returns.const rfl))
  obtain ⟨s', hunlink, honly⟩ := hrep₂.unlinksOnly (hsame.keysAround hkeys)
  refine ⟨s₁, e.addr, c₁, t, s', hdelete, hrecord, hreplays, fun m hm b hb => ?_, hsound.rotations,
    hunlink, honly, removeRbtEntry_of_record hrecord hunlink⟩
  obtain ⟨w, hw, hlist⟩ := hsound.states ⟨_, hrep₂, hsame.toList_plug⟩ hm
  have hmem : ∃ v ∈ w.toList, v.addr = b := by
    rw [hlist]
    rcases hb with rfl | ⟨m', hexamine⟩
    · exact ⟨e, mem_plug.2 (Or.inl (by simp [leaf])), rfl⟩
    · exact hsound.examined m' b hexamine
  obtain ⟨v, hv, rfl⟩ := hmem
  exact hw.sideFound_of_mem (hlist ▸ hkeys.sortedBut) hv

/-- 20 is removed from the root of `several`. The leaf is that of 40, whose ancestor has the key 40 by
    then; its neighbour has a red child on the near side, so that there are two rotations. -/
theorem sides_of_run_several :
    ∃ s₁ leaf color t s',
      Returns (fun fuel => several.bstNodeDeletion fuel 20) (s₁, some (leaf, color)) ∧
      Returns (fun fuel => several.recordRemoval fuel 20) (some (leaf, t)) ∧ t.Replays s₁ ∧
      (∀ m ∈ t.states, ∀ b, (b = leaf ∨ ∃ m', (m', Action.examine b) ∈ t.log) → SideFound m b) ∧
      (∀ m d b, (m, Action.rotate d b) ∈ t.log → RotatesInPlace m d b) ∧
      t.state.unlinkLeaf leaf = some s' ∧ UnlinksOnly t.state s' leaf ∧
      Returns (fun fuel => several.removeRbtEntry fuel 20) (s', .ok) :=
  sides_of_run run_several (several_represents.nodeOf_iff.2 ⟨⟨14, 20, some 1⟩, by decide, rfl, rfl⟩)

example : (several.recordRemoval 9 20).map
    (fun found => found.map fun q => (q.1, q.2.log.map Prod.snd)) =
      some (some (12, [.examine 12, .rotate .left 15, .examine 12, .rotate .right 14,
        .setColor 15 .black])) := by
  decide +kernel

end Rbt
