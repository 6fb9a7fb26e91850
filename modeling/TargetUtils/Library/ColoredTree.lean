import Mathlib.Data.List.Pairwise
import Mathlib.Tactic.Common

set_option autoImplicit false

/-! # Coloured binary trees and their contexts

A binary tree whose nodes carry a colour and an element, and the context of a subtree: the nodes on
the way to the root, innermost first, each with the subtree on its other side. Left and right are
two values of one type, so that a fact and its mirror image are one statement. -/

/-! ## Sides -/

inductive Side
  | left
  | right
deriving DecidableEq, Repr

namespace Side

def other : Side → Side
  | left => right
  | right => left

@[simp] theorem other_other (d : Side) : d.other.other = d := by cases d <;> rfl

@[simp] theorem other_ne (d : Side) : d.other ≠ d := by cases d <;> simp [other]

theorem eq_other_of_ne {d e : Side} (h : d ≠ e) : d = e.other := by
  cases d <;> cases e <;> simp_all [other]

end Side

/-! ## Trees -/

inductive Color
  | red
  | black
deriving DecidableEq, Repr

namespace Color

@[simp] theorem ne_red {c : Color} : c ≠ red ↔ c = black := by cases c <;> simp

@[simp] theorem ne_black {c : Color} : c ≠ black ↔ c = red := by cases c <;> simp

end Color

inductive ColoredTree (α : Type*)
  | nil
  | node (color : Color) (left : ColoredTree α) (elem : α) (right : ColoredTree α)

namespace ColoredTree

variable {α β : Type*}

/-- The node with the subtree `near` on side `d` and `far` on the other side. -/
def nodeAt (d : Side) (c : Color) (near : ColoredTree α) (x : α) (far : ColoredTree α) :
    ColoredTree α :=
  match d with
  | .left => node c near x far
  | .right => node c far x near

theorem nodeAt_other (d : Side) (c : Color) (near far : ColoredTree α) (x : α) :
    nodeAt d.other c near x far = nodeAt d c far x near := by
  cases d <;> rfl

/-- Every node is a node seen from either side. -/
theorem exists_nodeAt (d : Side) (t : ColoredTree α) :
    t = nil ∨ ∃ c near x far, t = nodeAt d c near x far := by
  cases t with
  | nil => exact Or.inl rfl
  | node c l x r =>
      cases d with
      | left => exact Or.inr ⟨c, l, x, r, rfl⟩
      | right => exact Or.inr ⟨c, r, x, l, rfl⟩

/-- The elements in order. -/
def toList : ColoredTree α → List α
  | nil => []
  | node _ l x r => l.toList ++ x :: r.toList

@[simp] theorem toList_nil : (nil : ColoredTree α).toList = [] := rfl

@[simp] theorem mem_toList_nodeAt {d : Side} {c : Color} {near far : ColoredTree α} {x y : α} :
    y ∈ (nodeAt d c near x far).toList ↔ y = x ∨ y ∈ near.toList ∨ y ∈ far.toList := by
  cases d <;> simp only [nodeAt, toList, List.mem_append, List.mem_cons] <;> tauto

theorem toList_nodeAt_congr {d : Side} {c c' : Color} {near near' far far' : ColoredTree α} {x : α}
    (hnear : near.toList = near'.toList) (hfar : far.toList = far'.toList) :
    (nodeAt d c near x far).toList = (nodeAt d c' near' x far').toList := by
  cases d <;> simp only [nodeAt, toList, hnear, hfar]

theorem length_near_lt {d : Side} {c : Color} {near far : ColoredTree α} {x : α} :
    near.toList.length < (nodeAt d c near x far).toList.length := by
  cases d <;> simp only [nodeAt, toList, List.length_append, List.length_cons] <;> omega

/-- The elements below the root. -/
def descendants : ColoredTree α → List α
  | nil => []
  | node _ l _ r => l.toList ++ r.toList

theorem descendants_nodeAt_nil {d : Side} {c : Color} {x : α} {far : ColoredTree α} :
    (nodeAt d c nil x far).descendants = far.toList := by
  cases d <;> simp [nodeAt, descendants]

def map (f : α → β) : ColoredTree α → ColoredTree β
  | nil => nil
  | node c l x r => node c (l.map f) (f x) (r.map f)

@[simp] theorem map_nodeAt (f : α → β) (d : Side) (c : Color) (near far : ColoredTree α) (x : α) :
    (nodeAt d c near x far).map f = nodeAt d c (near.map f) (f x) (far.map f) := by
  cases d <;> rfl

/-! ## Contexts -/

/-- A node on the way to the root: the side it was left to, and what it has on the other side. -/
structure Frame (α : Type*) where
  side : Side
  color : Color
  elem : α
  sibling : ColoredTree α

/-- The frames above a subtree, innermost first. -/
abbrev Context (α : Type*) := List (Frame α)

def Frame.fill (f : Frame α) (t : ColoredTree α) : ColoredTree α :=
  nodeAt f.side f.color t f.elem f.sibling

/-- The whole tree. -/
def plug : Context α → ColoredTree α → ColoredTree α
  | [], t => t
  | f :: rest, t => plug rest (f.fill t)

@[simp] theorem plug_nil (t : ColoredTree α) : plug [] t = t := rfl

theorem plug_cons (f : Frame α) (ctx : Context α) (t : ColoredTree α) :
    plug (f :: ctx) t = plug ctx (nodeAt f.side f.color t f.elem f.sibling) := rfl

theorem plug_append (inner outer : Context α) (t : ColoredTree α) :
    plug (inner ++ outer) t = plug outer (plug inner t) := by
  induction inner generalizing t with
  | nil => rfl
  | cons f rest ih => exact ih _

/-- The elements before the hole. -/
def before : Context α → List α
  | [] => []
  | f :: rest => before rest ++ match f.side with
    | .left => []
    | .right => f.sibling.toList ++ [f.elem]

/-- The elements after the hole. -/
def after : Context α → List α
  | [] => []
  | f :: rest => (match f.side with
    | .left => f.elem :: f.sibling.toList
    | .right => []) ++ after rest

@[simp] theorem toList_plug (ctx : Context α) (t : ColoredTree α) :
    (plug ctx t).toList = before ctx ++ t.toList ++ after ctx := by
  induction ctx generalizing t with
  | nil => simp [before, after]
  | cons f rest ih =>
      rw [plug_cons, ih]
      cases hside : f.side <;> simp [before, after, hside, nodeAt, toList]

@[simp] theorem before_append (inner outer : Context α) :
    before (inner ++ outer) = before outer ++ before inner := by
  induction inner with
  | nil => simp [before]
  | cons f rest ih => simp [before, ih]

@[simp] theorem after_append (inner outer : Context α) :
    after (inner ++ outer) = after inner ++ after outer := by
  induction inner with
  | nil => simp [after]
  | cons f rest ih => simp [after, ih]

theorem before_eq_nil {ctx : Context α} (h : ∀ f ∈ ctx, f.side = .left) : before ctx = [] := by
  induction ctx with
  | nil => rfl
  | cons f rest ih =>
      rw [List.forall_mem_cons] at h
      simp [before, ih h.2, h.1]

theorem after_eq_nil {ctx : Context α} (h : ∀ f ∈ ctx, f.side = .right) : after ctx = [] := by
  induction ctx with
  | nil => rfl
  | cons f rest ih =>
      rw [List.forall_mem_cons] at h
      simp [after, ih h.2, h.1]

theorem map_plug_congr {f : α → β} {ctx : Context α} {t u : ColoredTree α}
    (h : t.map f = u.map f) : (plug ctx t).map f = (plug ctx u).map f := by
  induction ctx generalizing t u with
  | nil => exact h
  | cons g rest ih => exact ih (by simp only [Frame.fill, map_nodeAt, h])

/-- The element next to the hole on side `d`. -/
def nearest (d : Side) (ctx : Context α) : Option α :=
  match d with
  | .left => (before ctx).getLast?
  | .right => (after ctx).head?

@[simp] theorem nearest_nil (d : Side) : nearest d ([] : Context α) = none := by cases d <;> rfl

@[simp] theorem nearest_cons (d : Side) (c : Color) (x : α) (u : ColoredTree α) (ctx : Context α) :
    nearest d (⟨d, c, x, u⟩ :: ctx) = nearest d ctx := by
  cases d <;> simp [nearest, before, after]

@[simp] theorem nearest_cons_other (d : Side) (c : Color) (x : α) (u : ColoredTree α)
    (ctx : Context α) : nearest d (⟨d.other, c, x, u⟩ :: ctx) = some x := by
  cases d <;> simp [nearest, before, after, Side.other]

/-- The elements around the hole. -/
def around (ctx : Context α) : List α := before ctx ++ after ctx

@[simp] theorem around_nil : around ([] : Context α) = [] := rfl

@[simp] theorem mem_around_cons {f : Frame α} {ctx : Context α} {y : α} :
    y ∈ around (f :: ctx) ↔ y = f.elem ∨ y ∈ f.sibling.toList ∨ y ∈ around ctx := by
  cases hside : f.side <;>
    simp only [around, before, after, hside, List.mem_append, List.mem_cons, List.not_mem_nil] <;>
    tauto

theorem toList_plug_congr (ctx : Context α) {t u : ColoredTree α} (h : t.toList = u.toList) :
    (plug ctx t).toList = (plug ctx u).toList := by
  rw [toList_plug, toList_plug, h]

theorem toList_plug_empty (ctx : Context α) : (plug ctx nil).toList = around ctx := by
  simp [around]

theorem mem_plug {ctx : Context α} {t : ColoredTree α} {y : α} :
    y ∈ (plug ctx t).toList ↔ y ∈ t.toList ∨ y ∈ around ctx := by
  simp only [toList_plug, around, List.mem_append]
  tauto

theorem pairwise_nodeAt {R : α → α → Prop} (hR : ∀ x y, R x y → R y x) {d : Side} {c : Color}
    {near far : ColoredTree α} {x : α} :
    (nodeAt d c near x far).toList.Pairwise R ↔
      near.toList.Pairwise R ∧ far.toList.Pairwise R ∧ (∀ y ∈ near.toList, R y x) ∧
        (∀ y ∈ far.toList, R y x) ∧ ∀ y ∈ near.toList, ∀ z ∈ far.toList, R y z := by
  cases d <;>
    simp only [nodeAt, toList, List.pairwise_append, List.pairwise_cons, List.mem_cons] <;>
    grind

theorem pairwise_plug {R : α → α → Prop} (hR : ∀ x y, R x y → R y x) {ctx : Context α}
    {t : ColoredTree α} :
    (plug ctx t).toList.Pairwise R ↔
      t.toList.Pairwise R ∧ (around ctx).Pairwise R ∧ ∀ y ∈ t.toList, ∀ z ∈ around ctx, R y z := by
  simp only [toList_plug, around, List.pairwise_append, List.mem_append]
  grind

/-- The other subtree of the innermost frame as the hole. -/
theorem plug_sibling (d : Side) (c : Color) (x : α) (t u : ColoredTree α) (ctx : Context α) :
    plug (⟨d, c, x, u⟩ :: ctx) t = plug (⟨d.other, c, x, t⟩ :: ctx) u := by
  simp only [plug_cons, nodeAt_other]

/-- Every element of a tree sits at some node. -/
theorem exists_plug_of_mem {t : ColoredTree α} {x : α} (h : x ∈ t.toList) :
    ∃ ctx c l r, t = plug ctx (node c l x r) := by
  induction t with
  | nil => simp at h
  | node c l y r ihl ihr =>
      rw [toList, List.mem_append, List.mem_cons] at h
      rcases h with hl | rfl | hr
      · obtain ⟨ctx, c', l', r', rfl⟩ := ihl hl
        exact ⟨ctx ++ [⟨.left, c, y, r⟩], c', l', r', by rw [plug_append]; rfl⟩
      · exact ⟨[], c, l, r, rfl⟩
      · obtain ⟨ctx, c', l', r', rfl⟩ := ihr hr
        exact ⟨ctx ++ [⟨.right, c, y, l⟩], c', l', r', by rw [plug_append]; rfl⟩

end ColoredTree
