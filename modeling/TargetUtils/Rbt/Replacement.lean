import TargetUtils.Rbt.Insertion

set_option autoImplicit false

/-! # Finding the leaf to delete

The entry of the key to delete is overwritten by its neighbour in order, that one by a neighbour of
its own, down to a leaf. The shape of the tree stays as it is, and the entries around the leaf are
those that the tree is to keep (`bstNodeDeletion_present`). -/

open ColoredTree

namespace Rbt

variable {s : Rbt} {d : Side} {c : Color} {e : Entry} {l r near far t : ColoredTree Entry}
  {ctx : Context Entry} {key : Key}

/-- What the nodes of a tree are said to hold for. -/
def Entry.pair (e : Entry) : Key × Option Addr := (e.key, e.data)

/-- The keys do not decrease from left to right. -/
def WeaklySorted (t : ColoredTree Entry) : Prop := t.toList.Pairwise fun x y => x.key ≤ y.key

/-! ## Neighbours in order -/

/-- The outermost node of a subtree, below frames that all have it on side `d`. -/
theorem descend_spec (ctx : Context Entry) (h : Represents s (plug ctx (nodeAt d c near e far))) :
    ∃ inner c' e' far', nodeAt d c near e far = plug inner (nodeAt d c' .nil e' far') ∧
      (∀ f ∈ inner, f.side = d) ∧ Returns (fun fuel => descend d fuel s e.addr) e'.addr := by
  induction hsize : near.toList.length using Nat.strong_induction_on
    generalizing ctx c near e far with
  | h size ih =>
      have hnode := h.node
      rcases exists_nodeAt d near with rfl | ⟨c', near', e', far', rfl⟩
      · refine ⟨[], c, e, far, rfl, by simp, Returns.of_succ (fun fuel => ?_) (Returns.const rfl)⟩
        simp [descend, hnode]
      · obtain ⟨inner, c'', e'', far'', heq, hsides, hreturns⟩ :=
          ih near'.toList.length (hsize ▸ length_near_lt) (⟨d, c, e, far⟩ :: ctx) h rfl
        refine ⟨inner ++ [⟨d, c, e, far⟩], c'', e'', far'', ?_, ?_,
          Returns.of_succ (fun fuel => ?_) hreturns⟩
        · rw [plug_append, ← heq]
          rfl
        · simpa [or_imp, forall_and] using hsides
        · simp [descend, hnode]

theorem nearestRbtNode_none (h : Represents s (plug ctx (nodeAt d c .nil e far))) (fuel : ℕ) :
    s.nearestRbtNode d fuel e.addr = some none := by
  simp [nearestRbtNode, h.node]

/-- The entries next to the root on side `d`: the one to replace it comes first there. -/
theorem nearestRbtNode_some (h : Represents s (plug ctx (nodeAt d c near e far)))
    (hnear : near ≠ .nil) :
    ∃ inner c' e' far', near = plug inner (nodeAt d.other c' .nil e' far') ∧
      (∀ f ∈ inner, f.side = d.other) ∧
      Returns (fun fuel => s.nearestRbtNode d fuel e.addr) (some e'.addr) := by
  obtain ⟨c', near', x, far', rfl⟩ := (exists_nodeAt d.other near).resolve_left hnear
  obtain ⟨inner, c'', e'', far'', heq, hsides, hreturns⟩ :=
    descend_spec (⟨d, c, e, far⟩ :: ctx) h
  refine ⟨inner, c'', e'', far'', heq, hsides, ?_⟩
  refine Returns.congr (fun fuel => ?_) (hreturns.map some)
  simp [nearestRbtNode, h.node]

/-! ## One replacement -/

/-- The entries in order, as the root of the subtree takes over key and data of its neighbour. -/
theorem pairs_replace {inner : Context Entry} {c' : Color} {e₁ e' : Entry}
    {far' : ColoredTree Entry} (hsides : ∀ f ∈ inner, f.side = d.other) (hpair : e₁.pair = e'.pair) :
    (before (inner ++ ⟨d, c, e₁, far⟩ :: ctx) ++ (nodeAt d.other c' .nil e' far').descendants ++
        after (inner ++ ⟨d, c, e₁, far⟩ :: ctx)).map Entry.pair =
      (before ctx ++ (nodeAt d c (plug inner (nodeAt d.other c' .nil e' far')) e far).descendants ++
        after ctx).map Entry.pair := by
  rw [descendants_nodeAt_nil]
  cases d with
  | left =>
      have hafter := after_eq_nil hsides
      simp [before, after, hafter, descendants, nodeAt, toList, hpair, Side.other]
  | right =>
      have hbefore := before_eq_nil hsides
      simp [before, after, hbefore, descendants, nodeAt, toList, hpair, Side.other]

theorem weaklySorted_replace {inner : Context Entry} {c' : Color} {e₁ e' : Entry}
    {far' : ColoredTree Entry} (hsides : ∀ f ∈ inner, f.side = d.other) (hkey : e₁.key = e'.key)
    (h : WeaklySorted
      (plug ctx (nodeAt d c (plug inner (nodeAt d.other c' .nil e' far')) e far))) :
    WeaklySorted (plug (inner ++ ⟨d, c, e₁, far⟩ :: ctx) (nodeAt d.other c' .nil e' far')) := by
  cases d with
  | left =>
      have hafter := after_eq_nil hsides
      simp only [WeaklySorted, toList_plug, before_append, after_append, before, after, hafter,
        nodeAt, toList, Side.other, List.append_nil, List.nil_append, List.append_assoc,
        List.cons_append, List.pairwise_append, List.pairwise_cons, List.mem_append,
        List.mem_cons] at h ⊢
      grind
  | right =>
      have hbefore := before_eq_nil hsides
      simp only [WeaklySorted, toList_plug, before_append, after_append, before, after, hbefore,
        nodeAt, toList, Side.other, List.append_nil, List.nil_append, List.append_assoc,
        List.cons_append, List.pairwise_append, List.pairwise_cons, List.mem_append,
        List.mem_cons] at h ⊢
      grind

/-- The node to be deleted was the root of `t` and is the root of `t'` now: no node has moved, and the
    entries to be kept are the same. -/
structure Moved (ctx : Context Entry) (t : ColoredTree Entry) (ctx' : Context Entry)
    (t' : ColoredTree Entry) : Prop where
  addrs : (plug ctx' t').map Entry.addr = (plug ctx t).map Entry.addr
  pairs : (before ctx' ++ t'.descendants ++ after ctx').map Entry.pair =
    (before ctx ++ t.descendants ++ after ctx).map Entry.pair
  sorted : WeaklySorted (plug ctx t) → WeaklySorted (plug ctx' t')

theorem Moved.trans {ctx' ctx'' : Context Entry} {t' t'' : ColoredTree Entry}
    (h : Moved ctx t ctx' t') (h' : Moved ctx' t' ctx'' t'') : Moved ctx t ctx'' t'' :=
  ⟨h'.addrs.trans h.addrs, h'.pairs.trans h.pairs, fun hs => h'.sorted (h.sorted hs)⟩

/-- The neighbour is the next node to be deleted. -/
theorem replace_spec (h : Represents s (plug ctx (nodeAt d c near e far))) (hnear : near ≠ .nil) :
    ∃ s' ctx' t' a n, Returns (fun fuel => s.nearestRbtNode d fuel e.addr) (some a) ∧
      s.nodes a = some n ∧
      s.modify e.addr (fun m => { m with key := n.key, data := n.data }) = some s' ∧
      rootOf t' = some a ∧ Represents s' (plug ctx' t') ∧ Moved ctx (nodeAt d c near e far) ctx' t' ∧
      t'.toList.length < (nodeAt d c near e far).toList.length := by
  obtain ⟨inner, c', e', far', rfl, hsides, hreturns⟩ := nearestRbtNode_some h hnear
  have hplug : ∀ x, plug (inner ++ ⟨d, c, x, far⟩ :: ctx) (nodeAt d.other c' .nil e' far') =
      plug ctx (nodeAt d c (plug inner (nodeAt d.other c' .nil e' far')) x far) :=
    fun x => plug_append ..
  have hnode' := Represents.node (by rwa [hplug e] :
    Represents s (plug (inner ++ ⟨d, c, e, far⟩ :: ctx) (nodeAt d.other c' .nil e' far')))
  let e₁ : Entry := { e with key := e'.key, data := e'.data }
  refine ⟨_, inner ++ ⟨d, c, e₁, far⟩ :: ctx, nodeAt d.other c' .nil e' far', e'.addr, _, hreturns,
    hnode', modify_eq _ h.node, rootOf_nodeAt, ?_,
    ⟨?_, pairs_replace hsides rfl, weaklySorted_replace hsides rfl⟩, ?_⟩
  · rw [hplug, RbtNode.withEntry_ofEntry, RbtNode.key_ofEntry, RbtNode.data_ofEntry]
    exact h.store rfl
  · rw [hplug]
    exact map_plug_congr (by rw [map_nodeAt, map_nodeAt])
  · refine lt_of_le_of_lt ?_ length_near_lt
    rw [toList_plug, List.length_append, List.length_append]
    omega

/-! ## Down to a leaf -/

/-- A pass of the loop, at a node with a child. -/
theorem replaceLoop_pass (h : Represents s (plug ctx (nodeAt .right c r e l)))
    (hchild : ¬ (r = .nil ∧ l = .nil)) :
    ∃ s' ctx' t' a, (∀ res, Returns (fun fuel => replaceLoop fuel s' a) res →
        Returns (fun fuel => s.replaceLoop fuel e.addr) res) ∧
      rootOf t' = some a ∧ Represents s' (plug ctx' t') ∧ Moved ctx (nodeAt .right c r e l) ctx' t' ∧
      t'.toList.length < (nodeAt .right c r e l).toList.length := by
  have hpass : ∀ fuel, s.replaceLoop (fuel + 1) e.addr =
      (s.getSuccessorRbtNode fuel e.addr).bind fun successor =>
        (if successor = none then s.getPredecessorRbtNode fuel e.addr else some successor).bind
          fun replacement => replacement.bind fun replacement => (s.nodes replacement).bind fun n =>
            (s.modify e.addr fun m => { m with key := n.key, data := n.data }).bind fun s =>
              s.replaceLoop fuel replacement := by
    intro fuel
    have hcond : ¬ ((RbtNode.ofEntry .right c e (rootOf r) (rootOf l) (parentOf ctx)).right = none ∧
        (RbtNode.ofEntry .right c e (rootOf r) (rootOf l) (parentOf ctx)).left = none) := by
      simpa [RbtNode.ofEntry, rootOf_eq_none] using hchild
    simp only [replaceLoop, h.node, Option.bind_eq_bind, Option.bind_some, if_neg hcond]
  by_cases hr : r = .nil
  · -- no successor below: the predecessor
    subst hr
    have hl : l ≠ .nil := fun hl => hchild ⟨rfl, hl⟩
    have hleft : nodeAt .right c .nil e l = nodeAt .left c l e .nil := rfl
    rw [hleft] at h ⊢
    obtain ⟨s', ctx', t', a, n, hreturns, hn, hmodify, ha, hrep, hmoved, hlt⟩ := replace_spec h hl
    refine ⟨s', ctx', t', a, fun res hres => Returns.of_succ hpass ?_, ha, hrep, hmoved, hlt⟩
    have hsucc : ∀ fuel, s.getSuccessorRbtNode fuel e.addr = some none :=
      fun fuel => nearestRbtNode_none (d := .right) h fuel
    simp only [hsucc, Option.bind_some, if_true]
    refine Returns.bind hreturns ?_
    simpa only [Option.bind_some, hn, hmodify] using hres
  · obtain ⟨s', ctx', t', a, n, hreturns, hn, hmodify, ha, hrep, hmoved, hlt⟩ := replace_spec h hr
    refine ⟨s', ctx', t', a, fun res hres => Returns.of_succ hpass ?_, ha, hrep, hmoved, hlt⟩
    refine Returns.bind hreturns ?_
    simpa only [reduceCtorEq, if_false, Option.bind_some, hn, hmodify] using hres

theorem replaceLoop_spec {a : Addr} (h : Represents s (plug ctx t)) (ha : rootOf t = some a) :
    ∃ s' ctx' c' e', Returns (fun fuel => s.replaceLoop fuel a) (s', e'.addr, c') ∧
      Represents s' (plug ctx' (leaf c' e')) ∧ Moved ctx t ctx' (leaf c' e') := by
  induction hsize : t.toList.length using Nat.strong_induction_on generalizing s ctx t a with
  | h size ih =>
      obtain ⟨c, r, e, l, rfl⟩ := (exists_nodeAt .right t).resolve_left fun hnil => by
        simp [hnil] at ha
      obtain rfl : e.addr = a := by simpa using ha
      by_cases hchild : r = .nil ∧ l = .nil
      · obtain ⟨rfl, rfl⟩ := hchild
        refine ⟨s, ctx, c, e, Returns.of_succ (fun fuel => ?_) (Returns.const rfl), h, rfl, rfl, id⟩
        simp [replaceLoop, h.node, RbtNode.ofEntry]
      · obtain ⟨s', ctx', t', a, hpass, ha', hrep, hmoved, hlt⟩ := replaceLoop_pass h hchild
        obtain ⟨s'', ctx'', c', e', hreturns, hrep'', hmoved'⟩ := ih _ (hsize ▸ hlt) hrep ha' rfl
        exact ⟨s'', ctx'', c', e', hpass _ hreturns, hrep'', hmoved.trans hmoved'⟩

theorem bstNodeDeletion_absent (h : Represents s t) (hloc : (locate key [] t).2 = .nil) :
    Returns (fun fuel => s.bstNodeDeletion fuel key) (s, none) := by
  have hloop := searchLoop_spec key [] h
  rw [hloc, ← h.head_eq] at hloop
  exact Returns.bind hloop (Returns.const rfl)

/-- Keys in the order of pairs. -/
theorem pairwise_pair {L : List Entry} : (L.Pairwise fun x y => x.key < y.key) ↔
    (L.map Entry.pair).Pairwise fun x y => x.1 < y.1 := by
  rw [List.pairwise_map]
  rfl

theorem WeaklySorted.keysAround (h : WeaklySorted (plug ctx (leaf c e)))
    (hsorted : (around ctx).Pairwise fun x y => x.key < y.key) : KeysAround ctx e.key := by
  simp only [WeaklySorted, toList_plug, leaf, nodeAt, toList, List.nil_append, List.append_assoc,
    List.singleton_append, List.pairwise_append, List.pairwise_cons, List.mem_cons] at h
  exact ⟨by rwa [Sorted, toList_plug_empty], fun x hx => h.2.2 x hx e (Or.inl rfl), h.2.1.1⟩

/-- The key is there: the leaf to delete has a key between those around it, which are the keys to
    be kept, with their data. -/
theorem bstNodeDeletion_present (h : Represents s t) (hsorted : Sorted t) (hred : t.IsRedBlack)
    (hloc : (locate key [] t).2 = nodeAt .left c l e r) :
    ∃ s' ctx c' e' bs as, Returns (fun fuel => s.bstNodeDeletion fuel key)
        (s', some (e'.addr, c')) ∧
      Represents s' (plug ctx (leaf c' e')) ∧ (plug ctx (leaf c' e')).IsRedBlack ∧
      KeysAround ctx e'.key ∧ t.toList = bs ++ e :: as ∧
      (around ctx).map Entry.pair = (bs ++ as).map Entry.pair := by
  have hloop := searchLoop_spec key [] h
  have hplug : plug (locate key [] t).1 (nodeAt .left c l e r) = t := by
    rw [← hloc]
    exact plug_locate
  rw [hloc, ← h.head_eq, rootOf_nodeAt] at hloop
  generalize (locate key [] t).1 = ctx at hplug
  subst hplug
  obtain ⟨s', ctx', c', e', hreturns, hrep, hmoved⟩ := replaceLoop_spec h rootOf_nodeAt
  have hlist : (plug ctx (nodeAt .left c l e r)).toList =
      (before ctx ++ l.toList) ++ e :: (r.toList ++ after ctx) := by
    simp [nodeAt, toList]
  have hpairs : (around ctx').map Entry.pair =
      (before ctx ++ l.toList ++ (r.toList ++ after ctx)).map Entry.pair := by
    have hp := hmoved.pairs
    simp only [leaf, nodeAt, descendants, toList_nil, List.append_nil, List.append_assoc] at hp ⊢
    exact hp
  have hkept : (around ctx').Pairwise fun x y => x.key < y.key := by
    rw [pairwise_pair, hpairs, ← pairwise_pair]
    rw [Sorted, hlist] at hsorted
    exact hsorted.sublist ((List.Sublist.refl _).append (List.sublist_cons_self _ _))
  have hweak : WeaklySorted (plug ctx (nodeAt .left c l e r)) := hsorted.imp le_of_lt
  refine ⟨s', ctx', c', e', _, _, Returns.bind hloop (Returns.bind hreturns (Returns.const rfl)),
    hrep, ?_, (hmoved.sorted hweak).keysAround hkept, hlist, hpairs⟩
  rw [← isRedBlack_map Entry.addr, hmoved.addrs, isRedBlack_map]
  exact hred

end Rbt
