import TargetUtils.Library.OrderedMap
import Mathlib

set_option autoImplicit false

/-! # Maps of intervals

A map from starts to lengths covers a set of indices. When its intervals do not overlap, the lengths
add up to the number of indices covered. -/

namespace OrderedMap

variable {m : OrderedMap ℕ ℕ}

/-- The indices that some interval `[i, i + s)` of the map contains. -/
def cover (m : OrderedMap ℕ ℕ) : Finset ℕ :=
  m.entries.toFinset.biUnion fun x => Finset.Ico x.1 (x.1 + x.2)

theorem mem_cover {j : ℕ} : j ∈ m.cover ↔ ∃ i s, m.lookup i = some s ∧ i ≤ j ∧ j < i + s := by
  simp only [cover, Finset.mem_biUnion, List.mem_toFinset, Finset.mem_Ico, Prod.exists, mem_entries]

/-- No two intervals share an index. -/
def Apart (m : OrderedMap ℕ ℕ) : Prop :=
  ∀ i s k t, m.lookup i = some s → m.lookup k = some t → ∀ j, i ≤ j → j < i + s → k ≤ j →
    j < k + t → i = k

theorem sum_eq_card_cover (h : m.Apart) : (m.entries.map Prod.snd).sum = m.cover.card := by
  have hdisjoint : ∀ x ∈ m.entries.toFinset, ∀ y ∈ m.entries.toFinset, x ≠ y →
      Disjoint (Finset.Ico x.1 (x.1 + x.2)) (Finset.Ico y.1 (y.1 + y.2)) := by
    rintro ⟨i, s⟩ hx ⟨k, t⟩ hy hne
    rw [List.mem_toFinset, mem_entries] at hx hy
    rw [Finset.disjoint_left]
    intro j hj hj'
    rw [Finset.mem_Ico] at hj hj'
    obtain rfl := h i s k t hx hy j hj.1 hj.2 hj'.1 hj'.2
    rw [hx, Option.some.injEq] at hy
    exact hne (by rw [hy])
  rw [cover, Finset.card_biUnion hdisjoint, ← List.sum_toFinset Prod.snd m.nodup_entries]
  exact Finset.sum_congr rfl fun x _ => by simp

end OrderedMap
