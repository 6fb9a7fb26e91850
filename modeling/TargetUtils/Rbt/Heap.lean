import TargetUtils.Library.RedBlack
import TargetUtils.Library.Runs
import TargetUtils.Rbt.Basic

set_option autoImplicit false

/-! # Trees in memory

`Represents s t`: the memory holds the nodes of the tree `t`, with their parent pointers, from the
head down. As every tree is a context around any of its subtrees, one lemma about a write at the
root of a subtree (`Represents.store`) covers a write at any node. -/

open ColoredTree

/-- What a node holds besides its colour and its links. -/
structure Rbt.Entry where
  addr : Addr
  key : Key
  data : Option Addr
deriving DecidableEq

/-- The node of `e` that points to `near` on side `d` and to `far` on the other. -/
def RbtNode.ofEntry (d : Side) (c : Color) (e : Rbt.Entry) (near far parent : Option Addr) :
    RbtNode :=
  match d with
  | .left => ⟨e.key, c, near, far, parent, e.data⟩
  | .right => ⟨e.key, c, far, near, parent, e.data⟩

namespace RbtNode

variable (d : Side) (c c' : Color) (e : Rbt.Entry) (near far parent p : Option Addr)

@[simp] theorem key_ofEntry : (ofEntry d c e near far parent).key = e.key := by cases d <;> rfl

@[simp] theorem color_ofEntry : (ofEntry d c e near far parent).color = c := by cases d <;> rfl

@[simp] theorem parent_ofEntry : (ofEntry d c e near far parent).parent = parent := by
  cases d <;> rfl

@[simp] theorem data_ofEntry : (ofEntry d c e near far parent).data = e.data := by cases d <;> rfl

@[simp] theorem child_ofEntry : (ofEntry d c e near far parent).child d = near := by
  cases d <;> rfl

@[simp] theorem child_other_ofEntry : (ofEntry d c e near far parent).child d.other = far := by
  cases d <;> rfl

@[simp] theorem setChild_ofEntry :
    (ofEntry d c e near far parent).setChild d p = ofEntry d c e p far parent := by
  cases d <;> rfl

@[simp] theorem setChild_other_ofEntry :
    (ofEntry d c e near far parent).setChild d.other p = ofEntry d c e near p parent := by
  cases d <;> rfl

@[simp] theorem withParent_ofEntry :
    { ofEntry d c e near far parent with parent := p } = ofEntry d c e near far p := by
  cases d <;> rfl

@[simp] theorem withColor_ofEntry :
    { ofEntry d c e near far parent with color := c' } = ofEntry d c' e near far parent := by
  cases d <;> rfl

theorem withEntry_ofEntry (key : Key) (data : Option Addr) :
    { ofEntry d c e near far parent with key := key, data := data } =
      ofEntry d c { e with key := key, data := data } near far parent := by
  cases d <;> rfl

end RbtNode

namespace Rbt

variable {s s' : Rbt} {a b : Addr} {n m : RbtNode} {p : Option Addr} {d : Side} {c : Color}
  {e x : Entry} {f : Frame Entry} {t l r : ColoredTree Entry} {ctx : Context Entry}

/-! ## Memory -/

@[simp] theorem nodes_store_self : (s.store a n).nodes a = some n := Function.update_self ..

theorem nodes_store_of_ne (h : b ≠ a) : (s.store a n).nodes b = s.nodes b :=
  Function.update_of_ne h ..

@[simp] theorem head_store : (s.store a n).head = s.head := rfl

theorem modify_eq (f : RbtNode → RbtNode) (h : s.nodes a = some n) :
    s.modify a f = some (s.store a (f n)) := by
  rw [modify, h, Option.map_some]

/-! ## Representation -/

/-- The pointer to a tree. -/
def rootOf : ColoredTree Entry → Option Addr
  | .nil => none
  | .node _ _ e _ => some e.addr

@[simp] theorem rootOf_nil : rootOf .nil = none := rfl

@[simp] theorem rootOf_nodeAt : rootOf (nodeAt d c l e r) = some e.addr := by cases d <;> rfl

theorem rootOf_eq_none : rootOf t = none ↔ t = .nil := by
  cases t <;> simp [rootOf]

/-- The parent pointer of what fills the hole. -/
def parentOf : Context Entry → Option Addr
  | [] => none
  | f :: _ => some f.elem.addr

@[simp] theorem parentOf_nil : parentOf [] = none := rfl

@[simp] theorem parentOf_cons (f : Frame Entry) : parentOf (f :: ctx) = some f.elem.addr := rfl

/-- The memory holds the nodes of a tree whose root has the given parent pointer. -/
def Rep (s : Rbt) : Option Addr → ColoredTree Entry → Prop
  | _, .nil => True
  | p, .node c l e r =>
    s.nodes e.addr = some ⟨e.key, c, rootOf l, rootOf r, p, e.data⟩ ∧
      Rep s (some e.addr) l ∧ Rep s (some e.addr) r

@[simp] theorem rep_nil : Rep s p .nil := trivial

theorem rep_nodeAt : Rep s p (nodeAt d c l e r) ↔
    s.nodes e.addr = some (.ofEntry d c e (rootOf l) (rootOf r) p) ∧
      Rep s (some e.addr) l ∧ Rep s (some e.addr) r := by
  cases d with
  | left => rfl
  | right => exact and_congr_right fun _ => and_comm

/-- The memory holds the nodes around a hole that is filled with a pointer. -/
def ContextRep (s : Rbt) : Context Entry → Option Addr → Prop
  | [], _ => True
  | f :: rest, p =>
    s.nodes f.elem.addr = some (.ofEntry f.side f.color f.elem p (rootOf f.sibling) (parentOf rest)) ∧
      Rep s (some f.elem.addr) f.sibling ∧ ContextRep s rest (some f.elem.addr)

theorem rep_plug : Rep s none (plug ctx t) ↔ Rep s (parentOf ctx) t ∧ ContextRep s ctx (rootOf t) := by
  induction ctx generalizing t with
  | nil => simp [ContextRep]
  | cons f rest ih =>
      rw [plug_cons, ih, rep_nodeAt, rootOf_nodeAt, ContextRep, parentOf_cons]
      tauto

/-- A tree is where it was when its nodes are as they were. -/
theorem Rep.congr (h : Rep s p t) (hsame : ∀ x ∈ t.toList, s'.nodes x.addr = s.nodes x.addr) :
    Rep s' p t := by
  induction t generalizing p with
  | nil => trivial
  | node c l e r ihl ihr =>
      obtain ⟨he, hl, hr⟩ := h
      simp only [toList, List.mem_append, List.mem_cons] at hsame
      exact ⟨(hsame e (Or.inr (Or.inl rfl))).trans he, ihl hl fun x hx => hsame x (Or.inl hx),
        ihr hr fun x hx => hsame x (Or.inr (Or.inr hx))⟩

theorem ContextRep.congr (h : ContextRep s ctx p)
    (hsame : ∀ x ∈ around ctx, s'.nodes x.addr = s.nodes x.addr) : ContextRep s' ctx p := by
  induction ctx generalizing p with
  | nil => trivial
  | cons f rest ih =>
      obtain ⟨hf, hu, hrest⟩ := h
      simp only [mem_around_cons] at hsame
      exact ⟨(hsame _ (Or.inl rfl)).trans hf, hu.congr fun x hx => hsame x (Or.inr (Or.inl hx)),
        ih hrest fun x hx => hsame x (Or.inr (Or.inr hx))⟩

/-- No two nodes at one address. -/
def Distinct (t : ColoredTree Entry) : Prop := t.toList.Pairwise fun x y => x.addr ≠ y.addr

theorem distinct_nodeAt : Distinct (nodeAt d c l e r) ↔
    Distinct l ∧ Distinct r ∧ (∀ x ∈ l.toList, x.addr ≠ e.addr) ∧
      (∀ x ∈ r.toList, x.addr ≠ e.addr) ∧ ∀ x ∈ l.toList, ∀ y ∈ r.toList, x.addr ≠ y.addr :=
  pairwise_nodeAt fun _ _ h => h.symm

theorem distinct_plug : Distinct (plug ctx t) ↔
    Distinct t ∧ ((around ctx).Pairwise fun x y => x.addr ≠ y.addr) ∧
      ∀ x ∈ t.toList, ∀ y ∈ around ctx, x.addr ≠ y.addr :=
  pairwise_plug fun _ _ h => h.symm

/-- The tree in memory. -/
structure Represents (s : Rbt) (t : ColoredTree Entry) : Prop where
  rep : Rep s none t
  head_eq : s.head = rootOf t
  distinct : Distinct t

/-! ## Reading -/

theorem Represents.node (h : Represents s (plug ctx (nodeAt d c l e r))) :
    s.nodes e.addr = some (.ofEntry d c e (rootOf l) (rootOf r) (parentOf ctx)) :=
  (rep_nodeAt.1 (rep_plug.1 h.rep).1).1

theorem Represents.colorOf_root (h : Represents s (plug ctx t)) :
    s.colorOf (rootOf t) = some t.color := by
  rcases exists_nodeAt .left t with rfl | ⟨c, l, e, r, rfl⟩
  · rfl
  · rw [rootOf_nodeAt, colorOf, h.node, Option.map_some, RbtNode.color_ofEntry, color_nodeAt]

theorem Represents.hasKey_node {key : Key} (h : Represents s (plug ctx (nodeAt d c l e r))) :
    s.hasKey (some e.addr) key = some (decide (e.key = key)) := by
  rw [hasKey, h.node, Option.map_some, RbtNode.key_ofEntry]

/-- Every address of the tree is allocated. -/
theorem Represents.nodes_ne_none (h : Represents s t) (he : e ∈ t.toList) :
    s.nodes e.addr ≠ none := by
  obtain ⟨ctx, c, l, r, rfl⟩ := exists_plug_of_mem he
  rw [Represents.node (d := .left) h]
  exact Option.some_ne_none _

/-! ## Writing -/

/-- The head does not depend on what fills a hole below it. -/
theorem rootOf_plug_cons (f : Frame Entry) (t u : ColoredTree Entry) :
    rootOf (plug (f :: ctx) t) = rootOf (plug (f :: ctx) u) := by
  induction ctx generalizing f t u with
  | nil => simp only [plug_cons, plug_nil, rootOf_nodeAt]
  | cons g rest ih =>
      rw [plug_cons, plug_cons f]
      exact ih g _ _

theorem rootOf_plug_congr {u : ColoredTree Entry} (h : rootOf t = rootOf u) :
    rootOf (plug ctx t) = rootOf (plug ctx u) := by
  cases ctx with
  | nil => exact h
  | cons f rest => exact rootOf_plug_cons f t u

/-- A write at a node that keeps its links. -/
theorem Represents.store {c' : Color} {e' : Entry}
    (h : Represents s (plug ctx (nodeAt d c l e r))) (haddr : e'.addr = e.addr) :
    Represents (s.store e.addr (.ofEntry d c' e' (rootOf l) (rootOf r) (parentOf ctx)))
      (plug ctx (nodeAt d c' l e' r)) := by
  obtain ⟨hrep, hhead, hdistinct⟩ := h
  obtain ⟨hnode, hctx⟩ := rep_plug.1 hrep
  obtain ⟨-, hl, hr⟩ := rep_nodeAt.1 hnode
  obtain ⟨ht, haround, hapart⟩ := distinct_plug.1 hdistinct
  obtain ⟨hdl, hdr, hle, hre, hlr⟩ := distinct_nodeAt.1 ht
  simp only [mem_toList_nodeAt] at hapart
  refine ⟨rep_plug.2 ⟨rep_nodeAt.2 ⟨?_, ?_, ?_⟩, ?_⟩, ?_, distinct_plug.2 ⟨?_, haround, ?_⟩⟩
  · rw [haddr, nodes_store_self]
  · rw [haddr]
    exact hl.congr fun x hx => nodes_store_of_ne (hle x hx)
  · rw [haddr]
    exact hr.congr fun x hx => nodes_store_of_ne (hre x hx)
  · rw [rootOf_nodeAt, haddr]
    rw [rootOf_nodeAt] at hctx
    exact hctx.congr fun x hx => nodes_store_of_ne (hapart e (Or.inl rfl) x hx).symm
  · rw [head_store, hhead]
    exact rootOf_plug_congr (by rw [rootOf_nodeAt, rootOf_nodeAt, haddr])
  · exact distinct_nodeAt.2 ⟨hdl, hdr, by rwa [haddr], by rwa [haddr], hlr⟩
  · simp only [mem_toList_nodeAt]
    rintro x (rfl | hx) y hy
    · rw [haddr]
      exact hapart e (Or.inl rfl) y hy
    · exact hapart x (Or.inr hx) y hy

theorem Represents.setColor (c' : Color) (h : Represents s (plug ctx (nodeAt d c l e r))) :
    ∃ s', s.setColor e.addr c' = some s' ∧ Represents s' (plug ctx (nodeAt d c' l e r)) := by
  refine ⟨_, modify_eq _ h.node, ?_⟩
  rw [RbtNode.withColor_ofEntry]
  exact h.store rfl

theorem Represents.fill (h : Represents s (plug (f :: ctx) t)) :
    Represents s (plug ctx (nodeAt f.side f.color t f.elem f.sibling)) := h

theorem Represents.setColor_frame (c' : Color) (h : Represents s (plug (f :: ctx) t)) :
    ∃ s', s.setColor f.elem.addr c' = some s' ∧
      Represents s' (plug (⟨f.side, c', f.elem, f.sibling⟩ :: ctx) t) :=
  h.fill.setColor c'

theorem Represents.setColor_sibling {side : Side} {c₀ : Color} (c' : Color)
    (h : Represents s (plug (⟨side, c₀, x, nodeAt d c l e r⟩ :: ctx) t)) :
    ∃ s', s.setColor e.addr c' = some s' ∧
      Represents s' (plug (⟨side, c₀, x, nodeAt d c' l e r⟩ :: ctx) t) := by
  rw [plug_sibling] at h
  obtain ⟨s', hs', hrep⟩ := h.setColor c'
  exact ⟨s', hs', by rwa [plug_sibling]⟩

end Rbt
