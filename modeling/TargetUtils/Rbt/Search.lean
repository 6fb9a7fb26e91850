import TargetUtils.Rbt.Neighbor

set_option autoImplicit false

/-! # Searching for a key

The loops that walk down from the head both compute `locate`: the subtree at the key, or the hole
where the key belongs. -/

open ColoredTree

namespace Rbt

variable {s : Rbt} {c : Color} {e : Entry} {t l r : ColoredTree Entry} {ctx : Context Entry}
  {key : Key}

/-- The place of a key in the tree. -/
def locate (key : Key) : Context Entry → ColoredTree Entry → Context Entry × ColoredTree Entry
  | ctx, .nil => (ctx, .nil)
  | ctx, .node c l e r =>
    if e.key < key then locate key (⟨.right, c, e, l⟩ :: ctx) r
    else if key < e.key then locate key (⟨.left, c, e, r⟩ :: ctx) l
    else (ctx, .node c l e r)

theorem plug_locate : plug (locate key ctx t).1 (locate key ctx t).2 = plug ctx t := by
  induction t generalizing ctx with
  | nil => rfl
  | node c l e r ihl ihr =>
      simp only [locate]
      split_ifs
      · exact ihr
      · exact ihl
      · rfl

/-- The key itself, or nothing. -/
theorem locate_snd (key : Key) (ctx : Context Entry) (t : ColoredTree Entry) :
    (locate key ctx t).2 = .nil ∨
    ∃ c l e r, (locate key ctx t).2 = nodeAt .left c l e r ∧ e.key = key := by
  induction t generalizing ctx with
  | nil => exact Or.inl rfl
  | node c l e r ihl ihr =>
      simp only [locate]
      split_ifs with hlt hgt
      · exact ihr _
      · exact ihl _
      · exact Or.inr ⟨c, l, e, r, rfl, le_antisymm (not_lt.1 hgt) (not_lt.1 hlt)⟩

/-- The keys around the place are on their sides of the key. -/
theorem locate_fst (key : Key) (ctx : Context Entry) (hsorted : Sorted (plug ctx t)) (hbefore : ∀ x ∈ before ctx, x.key < key)
    (hafter : ∀ x ∈ after ctx, key < x.key) :
    (∀ x ∈ before (locate key ctx t).1, x.key < key) ∧
      ∀ x ∈ after (locate key ctx t).1, key < x.key := by
  induction t generalizing ctx with
  | nil => exact ⟨hbefore, hafter⟩
  | node c l e r ihl ihr =>
      have ht : Sorted (nodeAt .left c l e r) := (sorted_plug.1 hsorted).2.1
      simp only [Sorted, nodeAt, toList, List.pairwise_append, List.pairwise_cons,
        List.mem_cons] at ht
      simp only [locate]
      split_ifs with hlt hgt
      · refine ihr _ hsorted (fun x hx => ?_) (by simpa [after] using hafter)
        simp only [before, List.mem_append, List.mem_singleton] at hx
        rcases hx with hx | hx | rfl
        · exact hbefore x hx
        · exact (ht.2.2 x hx e (Or.inl rfl)).trans hlt
        · exact hlt
      · refine ihl _ hsorted (by simpa [before] using hbefore) fun x hx => ?_
        simp only [after, List.cons_append, List.mem_cons, List.mem_append] at hx
        rcases hx with rfl | hx | hx
        · exact hgt
        · exact hgt.trans (ht.2.1.1 x hx)
        · exact hafter x hx
      · exact ⟨hbefore, hafter⟩

/-- A key that would belong into a hole is not there. -/
theorem ne_of_locate_eq_nil (hsorted : Sorted t) (hloc : (locate key [] t).2 = .nil) :
    ∀ x ∈ t.toList, x.key ≠ key := by
  intro x hx
  obtain ⟨hbefore, hafter⟩ := locate_fst key [] hsorted (by simp [before]) (by simp [after])
  have hplug : plug (locate key [] t).1 (locate key [] t).2 = t := plug_locate
  rw [← hplug, hloc, toList_plug_empty, around, List.mem_append] at hx
  rcases hx with hx | hx
  · exact (hbefore x hx).ne
  · exact (hafter x hx).ne'

/-- Once the loop has entered a node, `prev` is the parent of where it is. -/
theorem insertLoop_spec (key : Key) (ctx : Context Entry) (prev : Option Addr)
    (h : Represents s (plug ctx t))
    (hprev : t = .nil → prev = parentOf ctx) :
    Returns (fun fuel => s.insertLoop fuel key (rootOf t) prev) (rootOf (locate key ctx t).2,
      (rootOf (locate key ctx t).2).or (parentOf (locate key ctx t).1)) := by
  induction t generalizing ctx prev with
  | nil =>
      refine Returns.of_succ (fun fuel => ?_) (Returns.const rfl)
      simp [insertLoop, locate, hprev rfl]
  | node c l e r ihl ihr =>
      have hnode := Represents.node (d := .left) h
      refine Returns.of_succ (g := fun fuel => if e.key < key
        then s.insertLoop fuel key (rootOf r) (some e.addr) else if key < e.key
        then s.insertLoop fuel key (rootOf l) (some e.addr) else some (some e.addr, some e.addr))
        (fun fuel => ?_) ?_
      · simp [rootOf, insertLoop, hnode, RbtNode.ofEntry]
      · simp only [locate]
        split_ifs with hlt hgt
        · exact ihr _ _ h fun _ => rfl
        · exact ihl _ _ h fun _ => rfl
        · exact Returns.const rfl

theorem searchLoop_spec (key : Key) (ctx : Context Entry) (h : Represents s (plug ctx t)) :
    Returns (fun fuel => s.searchLoop fuel key (rootOf t)) (rootOf (locate key ctx t).2) := by
  induction t generalizing ctx with
  | nil => exact Returns.of_succ (fun fuel => rfl) (Returns.const rfl)
  | node c l e r ihl ihr =>
      have hnode := Represents.node (d := .left) h
      refine Returns.of_succ (g := fun fuel => if e.key = key then some (some e.addr)
        else if e.key < key then s.searchLoop fuel key (rootOf r)
        else s.searchLoop fuel key (rootOf l)) (fun fuel => ?_) ?_
      · simp [rootOf, searchLoop, hnode, RbtNode.ofEntry]
      · simp only [locate]
        rcases lt_trichotomy e.key key with hlt | heq | hgt
        · simpa only [hlt, hlt.ne, if_true, if_false] using ihr _ h
        · subst heq
          simp only [lt_irrefl, if_true, if_false]
          exact Returns.const rfl
        · simpa only [hgt, hgt.ne', hgt.not_gt, if_true, if_false] using ihl _ h

end Rbt
