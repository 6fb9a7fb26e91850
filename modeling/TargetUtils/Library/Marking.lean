import Mathlib

set_option autoImplicit false

/-! # Marking sets one after the other

A procedure that marks a set for every item of a list and stops at whatever is marked already runs
through exactly when the sets are disjoint from one another and from what was marked before
(`Marks.isSome_foldl_iff`); then the union is marked (`Marks.marked_foldl`). -/

variable {σ β ι : Type*} {marked : σ → Set ι} {s : β → Set ι} {P : β → Prop}
  {f : σ → β → Option σ}

/-- At the item `x` the procedure `f` marks the set `s x`, and it stops when `x` fails the test `P`
    or part of the set is marked. -/
structure Marks (marked : σ → Set ι) (s : β → Set ι) (P : β → Prop) (f : σ → β → Option σ)
    (x : β) : Prop where
  isSome_iff : ∀ m, (f m x).isSome ↔ P x ∧ Disjoint (marked m) (s x)
  marked_eq : ∀ m m', f m x = some m' → marked m' = marked m ∪ s x

theorem foldl_bind_none (f : σ → β → Option σ) (l : List β) :
    l.foldl (fun r x => r.bind (f · x)) none = none := by
  induction l with
  | nil => rfl
  | cons x rest ih => exact ih

theorem Marks.isSome_foldl_iff {l : List β} (h : ∀ x ∈ l, Marks marked s P f x) (m : σ) :
    (l.foldl (fun r x => r.bind (f · x)) (some m)).isSome ↔
      (∀ x ∈ l, P x ∧ Disjoint (marked m) (s x)) ∧
        l.Pairwise (fun x y => Disjoint (s x) (s y)) := by
  induction l generalizing m with
  | nil => simp
  | cons x rest ih =>
      have hx := h x (List.mem_cons_self ..)
      have hsome := hx.isSome_iff m
      rw [List.foldl_cons, Option.bind_some, List.forall_mem_cons, ← hsome, List.pairwise_cons]
      cases hfx : f m x with
      | none =>
          rw [foldl_bind_none]
          simp
      | some m' =>
          rw [ih (fun y hy => h y (List.mem_cons_of_mem _ hy)) m', hx.marked_eq m m' hfx]
          simp only [Set.disjoint_union_left, Option.isSome_some, true_and]
          constructor
          · rintro ⟨hrest, hpair⟩
            exact ⟨fun y hy => ⟨(hrest y hy).1, (hrest y hy).2.1⟩, fun y hy => (hrest y hy).2.2,
              hpair⟩
          · rintro ⟨hrest, hfirst, hpair⟩
            exact ⟨fun y hy => ⟨(hrest y hy).1, (hrest y hy).2, hfirst y hy⟩, hpair⟩

/-- In a list without repetitions the sets of any two items must be disjoint. -/
theorem Marks.isSome_foldl_iff_of_nodup {l : List β} (hl : l.Nodup)
    (h : ∀ x ∈ l, Marks marked s P f x) (m : σ) :
    (l.foldl (fun r x => r.bind (f · x)) (some m)).isSome ↔
      (∀ x ∈ l, P x ∧ Disjoint (marked m) (s x)) ∧
        ∀ x ∈ l, ∀ y ∈ l, x ≠ y → Disjoint (s x) (s y) := by
  rw [isSome_foldl_iff h]
  refine and_congr_right fun _ => ⟨fun hpair x hx y hy hne => ?_, hl.pairwise_of_forall_ne⟩
  have : Std.Symm fun x y : β => Disjoint (s x) (s y) := ⟨fun _ _ hd => hd.symm⟩
  exact hpair.forall hx hy hne

theorem Marks.marked_foldl {l : List β} (h : ∀ x ∈ l, Marks marked s P f x) {m m' : σ}
    (hm : l.foldl (fun r x => r.bind (f · x)) (some m) = some m') :
    marked m' = marked m ∪ {i | ∃ x ∈ l, i ∈ s x} := by
  induction l generalizing m with
  | nil =>
      obtain rfl := Option.some.inj hm
      simp
  | cons x rest ih =>
      rw [List.foldl_cons, Option.bind_some] at hm
      cases hfx : f m x with
      | none =>
          rw [hfx, foldl_bind_none] at hm
          cases hm
      | some m₁ =>
          rw [hfx] at hm
          rw [ih (fun y hy => h y (List.mem_cons_of_mem _ hy)) hm,
            (h x (List.mem_cons_self ..)).marked_eq m m₁ hfx, Set.union_assoc]
          congr 1
          ext i
          simp
