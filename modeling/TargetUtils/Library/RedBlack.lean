import TargetUtils.Library.ColoredTree
import Mathlib

set_option autoImplicit false

/-! # Red-black trees

The balance of a red-black tree, and what a context asks of the subtree in its hole
(`isRedBlack_plug`): with it a rebalancing step is checked at the nodes it touches only. -/

namespace ColoredTree

variable {α β : Type*}

/-- An empty tree counts as black. -/
def color : ColoredTree α → Color
  | nil => .black
  | node c _ _ _ => c

@[simp] theorem color_nil : (nil : ColoredTree α).color = .black := rfl

@[simp] theorem color_nodeAt (d : Side) (c : Color) (near far : ColoredTree α) (x : α) :
    (nodeAt d c near x far).color = c := by
  cases d <;> rfl

/-- No red node has a red child, and every path down to a leaf has `n` black nodes. -/
def Balanced : ColoredTree α → ℕ → Prop
  | nil, n => n = 0
  | node .red l _ r, n => l.color = .black ∧ r.color = .black ∧ l.Balanced n ∧ r.Balanced n
  | node .black _ _ _, 0 => False
  | node .black l _ r, n + 1 => l.Balanced n ∧ r.Balanced n

@[simp] theorem balanced_nil {n : ℕ} : (nil : ColoredTree α).Balanced n ↔ n = 0 := Iff.rfl

@[simp] theorem balanced_red {d : Side} {near far : ColoredTree α} {x : α} {n : ℕ} :
    (nodeAt d .red near x far).Balanced n ↔
      near.color = .black ∧ far.color = .black ∧ near.Balanced n ∧ far.Balanced n := by
  cases d with
  | left => rfl
  | right =>
      simp only [nodeAt, Balanced]
      tauto

@[simp] theorem balanced_black_zero {d : Side} {near far : ColoredTree α} {x : α} :
    ¬ (nodeAt d .black near x far).Balanced 0 := by
  cases d <;> exact id

@[simp] theorem balanced_black_succ {d : Side} {near far : ColoredTree α} {x : α} {n : ℕ} :
    (nodeAt d .black near x far).Balanced (n + 1) ↔ near.Balanced n ∧ far.Balanced n := by
  cases d with
  | left => rfl
  | right => exact and_comm

/-- A balanced black tree with black nodes on its paths is a black node. -/
theorem exists_nodeAt_of_balanced_succ (d : Side) {t : ColoredTree α} {n : ℕ}
    (h : t.Balanced (n + 1)) : ∃ c near x far, t = nodeAt d c near x far := by
  rcases exists_nodeAt d t with rfl | ht
  · simp at h
  · exact ht

/-- A balanced tree with a black root. -/
def IsRedBlack (t : ColoredTree α) : Prop := t.color = .black ∧ ∃ n, t.Balanced n

theorem isRedBlack_nil : (nil : ColoredTree α).IsRedBlack := ⟨rfl, 0, rfl⟩

/-- The colour above the hole. Nothing red may hang at the root, as below a red node. -/
def contextColor : Context α → Color
  | [] => .red
  | f :: _ => f.color

/-- The context asks for a subtree with `n` black nodes on its paths. -/
def ContextBalanced : Context α → ℕ → Prop
  | [], _ => True
  | f :: rest, n => match f.color with
    | .red => f.sibling.color = .black ∧ f.sibling.Balanced n ∧ contextColor rest = .black ∧
        ContextBalanced rest n
    | .black => f.sibling.Balanced n ∧ ContextBalanced rest (n + 1)

@[simp] theorem contextBalanced_nil {n : ℕ} : ContextBalanced ([] : Context α) n := trivial

@[simp] theorem contextBalanced_red {d : Side} {x : α} {u : ColoredTree α} {rest : Context α}
    {n : ℕ} : ContextBalanced (⟨d, .red, x, u⟩ :: rest) n ↔
      u.color = .black ∧ u.Balanced n ∧ contextColor rest = .black ∧ ContextBalanced rest n :=
  Iff.rfl

@[simp] theorem contextBalanced_black {d : Side} {x : α} {u : ColoredTree α} {rest : Context α}
    {n : ℕ} : ContextBalanced (⟨d, .black, x, u⟩ :: rest) n ↔
      u.Balanced n ∧ ContextBalanced rest (n + 1) :=
  Iff.rfl

@[simp] theorem contextColor_nil : contextColor ([] : Context α) = .red := rfl

@[simp] theorem contextColor_cons (f : Frame α) (rest : Context α) :
    contextColor (f :: rest) = f.color := rfl

/-- A tree is red-black when each subtree has the height its context asks for, and no red node hangs
    below a red one or at the root. -/
theorem isRedBlack_plug {ctx : Context α} {t : ColoredTree α} :
    (plug ctx t).IsRedBlack ↔
      ∃ n, ContextBalanced ctx n ∧ t.Balanced n ∧ (contextColor ctx = .red → t.color = .black) := by
  induction ctx generalizing t with
  | nil => simp [IsRedBlack, and_comm]
  | cons f rest ih =>
      obtain ⟨d, c, x, u⟩ := f
      rw [plug_cons, ih]
      cases c with
      | red =>
          constructor
          · rintro ⟨n, hrest, hb, hcolor⟩
            obtain ⟨htc, huc, ht, hu⟩ := balanced_red.1 hb
            have hparent : contextColor rest = .black := by
              by_contra h
              simpa using hcolor (Color.ne_black.1 h)
            exact ⟨n, ⟨huc, hu, hparent, hrest⟩, ht, fun _ => htc⟩
          · rintro ⟨n, ⟨huc, hu, hparent, hrest⟩, ht, htc⟩
            exact ⟨n, hrest, balanced_red.2 ⟨htc rfl, huc, ht, hu⟩, by simp [hparent]⟩
      | black =>
          constructor
          · rintro ⟨n, hrest, hb, -⟩
            cases n with
            | zero => exact absurd hb balanced_black_zero
            | succ n =>
                obtain ⟨ht, hu⟩ := balanced_black_succ.1 hb
                exact ⟨n, ⟨hu, hrest⟩, ht, by simp⟩
          · rintro ⟨n, ⟨hu, hrest⟩, ht, -⟩
            exact ⟨n + 1, hrest, balanced_black_succ.2 ⟨ht, hu⟩, by simp⟩

/-! ## Elements do not matter -/

@[simp] theorem color_map (f : α → β) (t : ColoredTree α) : (t.map f).color = t.color := by
  cases t <;> rfl

theorem balanced_map (f : α → β) {t : ColoredTree α} {n : ℕ} :
    (t.map f).Balanced n ↔ t.Balanced n := by
  induction t generalizing n with
  | nil => rfl
  | node c l x r ihl ihr =>
      cases c with
      | red => simp only [map, Balanced, color_map, ihl, ihr]
      | black =>
          cases n with
          | zero => rfl
          | succ n => simp only [map, Balanced, ihl, ihr]

theorem isRedBlack_map (f : α → β) {t : ColoredTree α} : (t.map f).IsRedBlack ↔ t.IsRedBlack := by
  simp only [IsRedBlack, color_map, balanced_map]

/-! ## Depth -/

/-- The number of nodes on a longest path down. -/
def depth : ColoredTree α → ℕ
  | nil => 0
  | node _ l _ r => max l.depth r.depth + 1

/-- A path down has at most one red node for each black one, and one more below a red root. -/
theorem Balanced.depth_le {t : ColoredTree α} {n : ℕ} (h : t.Balanced n) :
    t.depth ≤ 2 * n + 1 ∧ (t.color = .black → t.depth ≤ 2 * n) := by
  induction t generalizing n with
  | nil => exact ⟨Nat.zero_le _, fun _ => Nat.zero_le _⟩
  | node c l x r ihl ihr =>
      cases c with
      | red =>
          obtain ⟨hlc, hrc, hl, hr⟩ := h
          have hl := (ihl hl).2 hlc
          have hr := (ihr hr).2 hrc
          refine ⟨?_, fun hc => nomatch hc⟩
          rw [depth]
          omega
      | black =>
          cases n with
          | zero => exact absurd h id
          | succ n =>
              have hl := (ihl h.1).1
              have hr := (ihr h.2).1
              have hle : (node .black l x r).depth ≤ 2 * (n + 1) := by
                rw [depth]
                omega
              exact ⟨hle.trans (Nat.le_succ _), fun _ => hle⟩

/-- With the black nodes alone the tree is full. -/
theorem Balanced.two_pow_le {t : ColoredTree α} {n : ℕ} (h : t.Balanced n) :
    2 ^ n ≤ t.toList.length + 1 := by
  induction t generalizing n with
  | nil =>
      obtain rfl : n = 0 := h
      exact Nat.le_refl 1
  | node c l x r ihl ihr =>
      have hlength : (node c l x r).toList.length = l.toList.length + r.toList.length + 1 := by
        simp [toList]
        omega
      cases c with
      | red =>
          have hl := ihl h.2.2.1
          omega
      | black =>
          cases n with
          | zero => exact absurd h id
          | succ n =>
              have hl := ihl h.1
              have hr := ihr h.2
              rw [Nat.pow_succ]
              omega

/-- A red-black tree of `n` elements has a depth of at most `2 * log 2 (n + 1)`. -/
theorem IsRedBlack.depth_le {t : ColoredTree α} (h : t.IsRedBlack) :
    t.depth ≤ 2 * Nat.log 2 (t.toList.length + 1) := by
  obtain ⟨hcolor, n, hbal⟩ := h
  have hdepth := hbal.depth_le.2 hcolor
  have hlog := Nat.le_log_of_pow_le Nat.one_lt_two hbal.two_pow_le
  omega

/-- A path into the tree is no longer than the tree is deep. -/
theorem length_le_depth (ctx : Context α) (t : ColoredTree α) :
    ctx.length + t.depth ≤ (plug ctx t).depth := by
  induction ctx generalizing t with
  | nil => simp
  | cons f rest ih =>
      have hfill : t.depth + 1 ≤ (f.fill t).depth := by
        unfold Frame.fill nodeAt
        cases f.side with
        | left => exact Nat.succ_le_succ (Nat.le_max_left ..)
        | right => exact Nat.succ_le_succ (Nat.le_max_right ..)
      have hrest := ih (f.fill t)
      rw [List.length_cons]
      exact le_trans (by omega) hrest

end ColoredTree
