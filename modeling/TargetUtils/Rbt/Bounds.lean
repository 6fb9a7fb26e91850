import TargetUtils.Rbt.Guarantees
import Mathlib.Order.Bounds.Basic

set_option autoImplicit false

/-! # Ordered lookups

The loops of the bounds walk to the place of the key as `locate` does, and the bound so far is the
entry next to that place on one side (`boundLoop_spec`). In a sorted tree the entries before the place
have smaller keys and those after it greater ones, so the nearest of them is the bound. -/

open ColoredTree

namespace Rbt

variable {s : Rbt} {d : Side} {t : ColoredTree Entry} {ctx : Context Entry} {key : Key}
  {events : List (Call × Reply)}

/-- The keys stored in the tree. -/
def keys (s : Rbt) : Set Key := {k | ∃ a, NodeOf s k a}

/-- The node with the greatest key of the set, or NULL if the set is empty. -/
def GreatestNode (s : Rbt) (ks : Set Key) (r : Option Addr) : Prop :=
  (∃ a k, r = some a ∧ NodeOf s k a ∧ IsGreatest ks k) ∨ r = none ∧ ks = ∅

/-- The node with the least key of the set, or NULL if the set is empty. -/
def LeastNode (s : Rbt) (ks : Set Key) (r : Option Addr) : Prop :=
  (∃ a k, r = some a ∧ NodeOf s k a ∧ IsLeast ks k) ∨ r = none ∧ ks = ∅

/-! ## The entries before and after a key -/

theorem Represents.mem_keys (h : Represents s t) {k : Key} :
    k ∈ s.keys ↔ ∃ e ∈ t.toList, e.key = k := by
  constructor
  · rintro ⟨a, hnode⟩
    obtain ⟨e, he, -, hkey⟩ := h.nodeOf_iff.1 hnode
    exact ⟨e, he, hkey⟩
  · rintro ⟨e, he, hkey⟩
    exact ⟨e.addr, h.nodeOf_iff.2 ⟨e, he, rfl, hkey⟩⟩

/-- When the entries in front are those with a key in `K`, the last of them has the greatest. -/
theorem Represents.greatestNode (h : Represents s t) (hsorted : Sorted t) {l r : List Entry}
    {K : Key → Prop} (hlist : t.toList = l ++ r) (hl : ∀ x ∈ l, K x.key) (hr : ∀ x ∈ r, ¬ K x.key) :
    s.GreatestNode {k ∈ s.keys | K k} (l.getLast?.map Entry.addr) := by
  have hmem : ∀ k ∈ s.keys, K k → ∃ e ∈ l, e.key = k := by
    intro k hk hK
    obtain ⟨e, he, rfl⟩ := h.mem_keys.1 hk
    rw [hlist, List.mem_append] at he
    exact ⟨e, he.resolve_right fun her => hr e her hK, rfl⟩
  rcases List.eq_nil_or_concat l with rfl | ⟨l', e, hconcat⟩
  · refine Or.inr ⟨rfl, Set.eq_empty_of_forall_notMem fun k hk => ?_⟩
    obtain ⟨e, he, -⟩ := hmem k hk.1 hk.2
    cases he
  · rw [List.concat_eq_append] at hconcat
    subst hconcat
    have he : e ∈ t.toList := by simp [hlist]
    refine Or.inl ⟨e.addr, e.key, by simp, h.nodeOf_iff.2 ⟨e, he, rfl, rfl⟩,
      ⟨h.mem_keys.2 ⟨e, he, rfl⟩, hl e (by simp)⟩, fun k hk => ?_⟩
    obtain ⟨x, hx, rfl⟩ := hmem k hk.1 hk.2
    rw [Sorted, hlist, List.append_assoc, List.pairwise_append] at hsorted
    rcases List.mem_append.1 hx with hx | hx
    · exact (hsorted.2.2 x hx e (by simp)).le
    · rw [List.mem_singleton.1 hx]

/-- When the entries behind are those with a key in `K`, the first of them has the least. -/
theorem Represents.leastNode (h : Represents s t) (hsorted : Sorted t) {l r : List Entry}
    {K : Key → Prop} (hlist : t.toList = l ++ r) (hl : ∀ x ∈ l, ¬ K x.key) (hr : ∀ x ∈ r, K x.key) :
    s.LeastNode {k ∈ s.keys | K k} (r.head?.map Entry.addr) := by
  have hmem : ∀ k ∈ s.keys, K k → ∃ e ∈ r, e.key = k := by
    intro k hk hK
    obtain ⟨e, he, rfl⟩ := h.mem_keys.1 hk
    rw [hlist, List.mem_append] at he
    exact ⟨e, he.resolve_left fun hel => hl e hel hK, rfl⟩
  cases r with
  | nil =>
      refine Or.inr ⟨rfl, Set.eq_empty_of_forall_notMem fun k hk => ?_⟩
      obtain ⟨e, he, -⟩ := hmem k hk.1 hk.2
      cases he
  | cons e r' =>
      have he : e ∈ t.toList := by simp [hlist]
      refine Or.inl ⟨e.addr, e.key, rfl, h.nodeOf_iff.2 ⟨e, he, rfl, rfl⟩,
        ⟨h.mem_keys.2 ⟨e, he, rfl⟩, hr e (by simp)⟩, fun k hk => ?_⟩
      obtain ⟨x, hx, rfl⟩ := hmem k hk.1 hk.2
      rw [Sorted, hlist, List.pairwise_append, List.pairwise_cons] at hsorted
      rcases List.mem_cons.1 hx with rfl | hx
      · exact le_rfl
      · exact (hsorted.2.1.1 x hx).le

/-! ## Bounds -/

/-- The loop ends at the key, or else with the entry next to its place. -/
theorem boundLoop_spec (d : Side) (key : Key) (ctx : Context Entry)
    (h : Represents s (plug ctx t)) :
    Returns (fun fuel => boundLoop d fuel s key (rootOf t) ((nearest d ctx).map Entry.addr))
      ((rootOf (locate key ctx t).2).or
        ((nearest d (locate key ctx t).1).map Entry.addr)) := by
  induction t generalizing ctx with
  | nil => exact Returns.of_succ (fun fuel => rfl) (Returns.const rfl)
  | node c l e r ihl ihr =>
      have hnode := Represents.node (d := .left) h
      have hright := ihr (⟨.right, c, e, l⟩ :: ctx) h
      have hleft := ihl (⟨.left, c, e, r⟩ :: ctx) h
      refine Returns.of_succ (g := fun fuel => if e.key = key then some (some e.addr)
        else if e.key < key then boundLoop d fuel s key (rootOf r)
          ((nearest d (⟨.right, c, e, l⟩ :: ctx)).map Entry.addr)
        else boundLoop d fuel s key (rootOf l)
          ((nearest d (⟨.left, c, e, r⟩ :: ctx)).map Entry.addr)) (fun fuel => ?_) ?_
      · simp only [rootOf, boundLoop, hnode, Option.bind_eq_bind, Option.bind_some, RbtNode.key_ofEntry]
        rcases lt_trichotomy e.key key with hlt | heq | hgt
        · cases d <;> simp [hlt, hlt.ne, hlt.not_gt, OnSide, RbtNode.ofEntry, RbtNode.child,
            Side.other, nearest, before, after]
        · simp [heq]
        · cases d <;> simp [hgt, hgt.ne', hgt.not_gt, OnSide, RbtNode.ofEntry, RbtNode.child,
            Side.other, nearest, before, after]
      · simp only [locate]
        rcases lt_trichotomy e.key key with hlt | heq | hgt
        · simpa only [hlt, hlt.ne, if_true, if_false] using hright
        · simp only [heq, lt_irrefl, if_true, if_false]
          exact Returns.const rfl
        · simpa only [hgt, hgt.ne', hgt.not_gt, if_true, if_false] using hleft

/-- The entries of a sorted tree around the place of a key. -/
theorem Sorted.locate_cases (hsorted : Sorted t) (key : Key) :
    ∃ l r, (∀ x ∈ l, x.key < key) ∧ (∀ x ∈ r, key < x.key) ∧
      ((t.toList = l ++ r ∧ rootOf (locate key [] t).2 = none ∧
          nearest .left (locate key [] t).1 = l.getLast? ∧
          nearest .right (locate key [] t).1 = r.head?) ∨
        ∃ e, t.toList = l ++ e :: r ∧ e.key = key ∧
          rootOf (locate key [] t).2 = some e.addr) := by
  obtain ⟨hbefore, hafter⟩ := locate_fst key [] hsorted (by simp [before]) (by simp [after])
  have hplug : plug (locate key [] t).1 (locate key [] t).2 = t := plug_locate
  have hcases := locate_snd key [] t
  obtain ⟨ctx, u, hloc⟩ : ∃ ctx u, locate key [] t = (ctx, u) := ⟨_, _, rfl⟩
  simp only [hloc] at hbefore hafter hplug hcases ⊢
  rcases hcases with rfl | ⟨c, l, e, r, rfl, rfl⟩
  · refine ⟨before ctx, after ctx, hbefore, hafter, Or.inl ⟨?_, rfl, rfl, rfl⟩⟩
    rw [← hplug, toList_plug_empty, around]
  · have hlist : t.toList = (before ctx ++ l.toList) ++ e :: (r.toList ++ after ctx) := by
      rw [← hplug]
      simp [nodeAt, toList]
    rw [Sorted, hlist, List.pairwise_append, List.pairwise_cons] at hsorted
    exact ⟨_, _, fun x hx => hsorted.2.2 x hx e (by simp), hsorted.2.1.1,
      Or.inr ⟨e, hlist, rfl, rootOf_nodeAt⟩⟩

theorem getLowerBound_spec (h : Represents s t) (hsorted : Sorted t) (key : Key) :
    ∃ r, Returns (fun fuel => s.getLowerBound fuel key s.head) r ∧
      s.GreatestNode {k ∈ s.keys | k ≤ key} r := by
  have hloop := boundLoop_spec .left key [] h
  rw [nearest_nil, Option.map_none, ← h.head_eq] at hloop
  refine ⟨_, hloop, ?_⟩
  obtain ⟨l, r, hl, hr, ⟨hlist, hnil, hleft, -⟩ | ⟨e, hlist, hkey, hroot⟩⟩ :=
    hsorted.locate_cases key
  · rw [hnil, hleft, Option.none_or]
    exact h.greatestNode hsorted hlist (fun x hx => (hl x hx).le) fun x hx => (hr x hx).not_ge
  · rw [hroot, Option.some_or]
    have hgreatest := h.greatestNode (l := l ++ [e]) (K := (· ≤ key)) hsorted (by simpa using hlist)
      (fun x hx => ?_) fun x hx => (hr x hx).not_ge
    · simpa using hgreatest
    · rcases List.mem_append.1 hx with hx | hx
      · exact (hl x hx).le
      · rw [List.mem_singleton.1 hx, hkey]

theorem getUpperBound_spec (h : Represents s t) (hsorted : Sorted t) (key : Key) :
    ∃ r, Returns (fun fuel => s.getUpperBound fuel key s.head) r ∧
      s.LeastNode {k ∈ s.keys | key ≤ k} r := by
  have hloop := boundLoop_spec .right key [] h
  rw [nearest_nil, Option.map_none, ← h.head_eq] at hloop
  refine ⟨_, hloop, ?_⟩
  obtain ⟨l, r, hl, hr, ⟨hlist, hnil, -, hright⟩ | ⟨e, hlist, hkey, hroot⟩⟩ :=
    hsorted.locate_cases key
  · rw [hnil, hright, Option.none_or]
    exact h.leastNode hsorted hlist (fun x hx => (hl x hx).not_ge) fun x hx => (hr x hx).le
  · rw [hroot, Option.some_or]
    refine h.leastNode (r := e :: r) hsorted hlist (fun x hx => (hl x hx).not_ge) fun x hx => ?_
    rcases List.mem_cons.1 hx with rfl | hx
    · exact hkey.ge
    · exact (hr x hx).le

/-! ## The outermost keys -/

theorem outermostKeyNode_spec (d : Side) (h : Represents s t) :
    ∃ r, Returns (fun fuel => s.outermostKeyNode d fuel s.head) r ∧
      ((t = .nil ∧ r = none) ∨ ∃ inner c e far, t = plug inner (nodeAt d c .nil e far) ∧
        (∀ f ∈ inner, f.side = d) ∧ r = some e.addr) := by
  rcases exists_nodeAt d t with rfl | ⟨c, near, e, far, rfl⟩
  · refine ⟨none, Returns.congr (fun fuel => ?_) (Returns.const rfl), Or.inl ⟨rfl, rfl⟩⟩
    rw [h.head_eq, rootOf_nil, outermostKeyNode]
  · obtain ⟨inner, c', e', far', heq, hsides, hreturns⟩ := descend_spec [] h
    refine ⟨some e'.addr, Returns.congr (fun fuel => ?_) (hreturns.map some),
      Or.inr ⟨inner, c', e', far', heq, hsides, rfl⟩⟩
    rw [h.head_eq, rootOf_nodeAt, outermostKeyNode]

theorem getHighestKeyNode_spec (h : Represents s t) (hsorted : Sorted t) :
    ∃ r, Returns (fun fuel => s.getHighestKeyNode fuel s.head) r ∧ s.GreatestNode s.keys r := by
  obtain ⟨r, hreturns, hcases⟩ := outermostKeyNode_spec .right h
  refine ⟨r, hreturns, ?_⟩
  have hgreatest := h.greatestNode (K := fun _ => True) hsorted (List.append_nil _).symm (by simp)
    (by simp)
  rcases hcases with ⟨rfl, rfl⟩ | ⟨inner, c, e, far, rfl, hsides, rfl⟩
  · simpa using hgreatest
  · simpa [after_eq_nil hsides, nodeAt, toList] using hgreatest

theorem getLowestKeyNode_spec (h : Represents s t) (hsorted : Sorted t) :
    ∃ r, Returns (fun fuel => s.getLowestKeyNode fuel s.head) r ∧ s.LeastNode s.keys r := by
  obtain ⟨r, hreturns, hcases⟩ := outermostKeyNode_spec .left h
  refine ⟨r, hreturns, ?_⟩
  have hleast := h.leastNode (K := fun _ => True) hsorted (List.nil_append _).symm (by simp)
    (by simp)
  rcases hcases with ⟨rfl, rfl⟩ | ⟨inner, c, e, far, rfl, hsides, rfl⟩
  · simpa using hleast
  · simpa [before_eq_nil hsides, nodeAt, toList] using hleast

/-! ## After every run -/

/-- There are no keys exactly when the head is NULL. -/
theorem Represents.keys_eq_empty (h : Represents s t) : s.keys = ∅ ↔ s.head = none := by
  rw [h.head_eq, rootOf_eq_none]
  constructor
  · intro hempty
    refine (exists_nodeAt .left t).resolve_right ?_
    rintro ⟨c, l, e, r, rfl⟩
    have : e.key ∈ s.keys := h.mem_keys.2 ⟨e, by simp, rfl⟩
    rw [hempty] at this
    cases this
  · rintro rfl
    refine Set.eq_empty_of_forall_notMem fun k hk => ?_
    obtain ⟨e, he, -⟩ := h.mem_keys.1 hk
    cases he

theorem orderedLookups_of_run (h : Run Step empty events s) (key : Key) :
    (∃ r, Returns (fun fuel => s.getLowerBound fuel key s.head) r ∧
        s.GreatestNode {k ∈ s.keys | k ≤ key} r) ∧
      (∃ r, Returns (fun fuel => s.getUpperBound fuel key s.head) r ∧
        s.LeastNode {k ∈ s.keys | key ≤ k} r) ∧
      (∃ r, Returns (fun fuel => s.getLowestKeyNode fuel s.head) r ∧ s.LeastNode s.keys r) ∧
      (∃ r, Returns (fun fuel => s.getHighestKeyNode fuel s.head) r ∧ s.GreatestNode s.keys r) ∧
      (s.keys = ∅ ↔ s.head = none) := by
  obtain ⟨t, hrep, hsorted, -, -⟩ := tree_of_run h
  exact ⟨getLowerBound_spec hrep hsorted key, getUpperBound_spec hrep hsorted key,
    getLowestKeyNode_spec hrep hsorted, getHighestKeyNode_spec hrep hsorted, hrep.keys_eq_empty⟩

theorem orderedLookups_of_run_several :
    (∃ r, Returns (fun fuel => several.getLowerBound fuel 30 several.head) r ∧
        several.GreatestNode {k ∈ several.keys | k ≤ 30} r) ∧
      (∃ r, Returns (fun fuel => several.getUpperBound fuel 30 several.head) r ∧
        several.LeastNode {k ∈ several.keys | 30 ≤ k} r) ∧
      (∃ r, Returns (fun fuel => several.getLowestKeyNode fuel several.head) r ∧
        several.LeastNode several.keys r) ∧
      (∃ r, Returns (fun fuel => several.getHighestKeyNode fuel several.head) r ∧
        several.GreatestNode several.keys r) ∧
      (several.keys = ∅ ↔ several.head = none) :=
  orderedLookups_of_run run_several 30

end Rbt
