import TargetUtils.IdAllocator.Basic

set_option autoImplicit false

/-! # The search for contiguous ids

The loop of `allocate_contiguous` visits the holes between set indices from left to right. It stops
at the first hole before a set index that is long enough (`FitsBefore`). When there is none it
reaches the end of the set indices, where the length of the last hole is checked against what the
failed search left in `Index`, and not against where the hole starts (`Outcome`). Only when no index
behind the first hole is set at all does the loop start differently: it keeps searching from `size`
on and can only end by that same check (`contiguousLoop_stuck`). -/

namespace IdAllocator

variable {m : Judy1} {size count : ℕ} {miss : ℕ → ℕ → ℕ}

/-! ## Holes -/

/-- No index of the block is set. -/
def BlockFree (m : Judy1) (b count : ℕ) : Prop := ∀ j, b ≤ j → j < b + count → j ∉ m

/-- A free block that ends before a set index. -/
def FitsBefore (m : Judy1) (b count : ℕ) : Prop := BlockFree m b count ∧ ∃ n ∈ m, b + count ≤ n

/-- One past the last set index. -/
def IsEnd (m : Judy1) (t : ℕ) : Prop := (∃ n ∈ m, n + 1 = t) ∧ ∀ j ∈ m, j < t

/-- The state of the loop inside a hole: `first_empty` is free up to the set index `next_set`. -/
structure InHole (m : Judy1) (firstEmpty nextSet : ℕ) : Prop where
  lt : firstEmpty < nextSet
  free : ∀ j, firstEmpty ≤ j → j < nextSet → j ∉ m
  set : nextSet ∈ m

/-- How the search from `firstEmpty` on ends: at the first block that fits before a set index, or at
    the end of the set indices if there is none and the check there passes. -/
def Outcome (m : Judy1) (size count : ℕ) (miss : ℕ → ℕ → ℕ) (firstEmpty : ℕ)
    (out : Option ℕ) : Prop :=
  (∃ b, out = some b ∧ firstEmpty ≤ b ∧ FitsBefore m b count ∧
    ∀ b', firstEmpty ≤ b' → b' < b → ¬ BlockFree m b' count) ∨
    ∃ t, IsEnd m t ∧ (∀ b', firstEmpty ≤ b' → ¬ FitsBefore m b' count) ∧
      out = if u64Sub size (miss 0 t) < count then none else some t

theorem IsEnd.unique {t t' : ℕ} (h : IsEnd m t) (h' : IsEnd m t') : t = t' := by
  obtain ⟨⟨n, hn, rfl⟩, hlt⟩ := h
  obtain ⟨⟨n', hn', rfl⟩, hlt'⟩ := h'
  have := hlt n' hn'
  have := hlt' n hn
  omega

/-- A set index close enough to the left end rules a block out. -/
theorem not_blockFree {b j : ℕ} (hj : j ∈ m) (h1 : b ≤ j) (h2 : j < b + count) :
    ¬ BlockFree m b count := fun h => h j h1 h2 hj

theorem lt_of_next_eq_none {i : ℕ} (hfree : i ∉ m) (h : m.next i = none) : ∀ j ∈ m, j < i := by
  intro j hj
  by_contra hge
  rcases Nat.eq_or_lt_of_le (Nat.le_of_not_lt hge) with rfl | hgt
  · exact hfree hj
  · exact Judy1.next_eq_none.1 h j hgt hj

/-- A free index in front of `t` lies behind the first one. -/
theorem first_lt_of_hole {first t : ℕ} (hfree : first ∉ m)
    (hbefore : ∀ k < first, k ∈ m) (hend : IsEnd m t) (hhole : ∃ h < t, h ∉ m) :
    ∃ n ∈ m, first < n ∧ n + 1 = t := by
  obtain ⟨⟨n, hn, hnt⟩, -⟩ := hend
  obtain ⟨h, hlt, hnot⟩ := hhole
  have hle : first ≤ h := by
    by_contra hgt
    exact hnot (hbefore h (by omega))
  have hne : first ≠ n := fun heq => hfree (heq ▸ hn)
  exact ⟨n, hn, by omega, hnt⟩

theorem inHole_of_next {i n : ℕ} (hfree : i ∉ m) (h : m.next i = some n) : InHole m i n := by
  obtain ⟨hset, hlt, hmin⟩ := Judy1.next_eq_some.1 h
  refine ⟨hlt, fun j h1 h2 => ?_, hset⟩
  rcases Nat.eq_or_lt_of_le h1 with rfl | h1
  · exact hfree
  · exact hmin j h1 h2

/-! ## The loop -/

variable {firstEmpty nextSet : ℕ}

/-- The loop ends as soon as the difference is not smaller than `count`, as a 64-bit value. -/
theorem contiguousLoop_exit {fuel k : ℕ} (hlong : ¬ u64Sub nextSet firstEmpty < count)
    {out : Option ℕ} (h : contiguousLoop m size count miss fuel k firstEmpty nextSet = some out) :
    out = some firstEmpty := by
  cases fuel with
  | zero => simp [contiguousLoop] at h
  | succ fuel =>
      rw [contiguousLoop, if_neg hlong, Option.some.injEq] at h
      exact h.symm

/-- From a hole that is too short the loop goes to the next hole or to the end of the set indices. -/
theorem InHole.step (h : InHole m firstEmpty nextSet) (hm : m.Small) :
    ∃ index, m.firstEmpty nextSet = some index ∧ nextSet < index ∧ index ≤ 2 ^ 32 ∧
      (∀ j, nextSet ≤ j → j < index → j ∈ m) ∧
      ((m.next index = none ∧ IsEnd m index) ∨
        ∃ index', m.next index = some index' ∧ InHole m index index') := by
  have hset := hm _ h.set
  obtain ⟨index, hindex, hle, hbound, hfree, hbetween⟩ := Judy1.firstEmpty_spec hm hset.le
  have hlt : nextSet < index := by
    rcases Nat.eq_or_lt_of_le hle with rfl | hlt
    · exact absurd h.set hfree
    · exact hlt
  refine ⟨index, hindex, hlt, hbound, hbetween, ?_⟩
  cases hnext : m.next index with
  | none =>
      have hlast : index - 1 ∈ m := hbetween _ (by omega) (by omega)
      exact Or.inl ⟨rfl, ⟨_, hlast, by omega⟩, lt_of_next_eq_none hfree hnext⟩
  | some index' => exact Or.inr ⟨index', rfl, inHole_of_next hfree hnext⟩

/-- What is found from a later hole on is found from the short hole before it. -/
theorem not_blockFree_of_short (h : InHole m firstEmpty nextSet)
    (hshort : nextSet - firstEmpty < count) {index : ℕ}
    (hbetween : ∀ j, nextSet ≤ j → j < index → j ∈ m) {b : ℕ} (hb : firstEmpty ≤ b)
    (hb' : b < index) : ¬ BlockFree m b count := by
  have hlt := h.lt
  by_cases hbn : b < nextSet
  · exact not_blockFree h.set (by omega) (by omega)
  · exact not_blockFree (hbetween b (by omega) hb') le_rfl (by omega)

theorem contiguousLoop_outcome (hm : m.Small) (hcount : count ≤ 255) {fuel : ℕ}
    (h : InHole m firstEmpty nextSet) {out : Option ℕ}
    (hloop : contiguousLoop m size count miss fuel 0 firstEmpty nextSet = some out) :
    Outcome m size count miss firstEmpty out := by
  induction fuel generalizing firstEmpty nextSet with
  | zero => simp [contiguousLoop] at hloop
  | succ fuel ih =>
      have hlt := h.lt
      have hset := hm _ h.set
      rw [contiguousLoop, u64Sub_of_le hlt.le (by omega)] at hloop
      by_cases hshort : nextSet - firstEmpty < count
      · obtain ⟨index, hindex, hgt, hbound, hbetween, hnext⟩ := h.step hm
        have hskip := fun b => not_blockFree_of_short (b := b) h hshort hbetween
        simp only [if_pos hshort, hindex] at hloop
        rcases hnext with ⟨hnone, hend⟩ | ⟨index', hsome, hhole⟩
        · refine Or.inr ⟨index, hend, fun b hb hfits => ?_, ?_⟩
          · by_cases hbi : b < index
            · exact hskip b hb hbi hfits.1
            · obtain ⟨n, hn, hle⟩ := hfits.2
              have := hend.2 n hn
              omega
          · rw [hnone] at hloop
            by_cases hmiss : u64Sub size (miss 0 index) < count
            · simp only [if_pos hmiss, Option.some.injEq] at hloop ⊢
              exact hloop.symm
            · -- `next_set` is stale here: the difference wraps and the loop ends
              simp only [if_neg hmiss] at hloop ⊢
              exact contiguousLoop_exit (by rw [u64Sub_of_lt hgt (by omega)]; omega) hloop
        · simp only [hsome] at hloop
          rcases ih hhole hloop with ⟨b, hb, hge, hfits, hleast⟩ | ⟨t, ht, hnofit, hout⟩
          · refine Or.inl ⟨b, hb, by omega, hfits, fun b' hb' hlt' => ?_⟩
            by_cases hbi : b' < index
            · exact hskip b' hb' hbi
            · exact hleast b' (by omega) hlt'
          · refine Or.inr ⟨t, ht, fun b' hb' hfits => ?_, hout⟩
            by_cases hbi : b' < index
            · exact hskip b' hb' hbi hfits.1
            · exact hnofit b' (by omega) hfits
      · rw [if_neg hshort, Option.some.injEq] at hloop
        subst hloop
        refine Or.inl ⟨firstEmpty, rfl, le_rfl, ⟨fun j h1 h2 => h.free j h1 (by omega), nextSet,
          h.set, by omega⟩, fun b' h1 h2 => absurd h2 (by omega)⟩

/-- From a hole before a set index the loop ends. -/
theorem contiguousLoop_isSome (hm : m.Small) (hcount : count ≤ 255) {fuel : ℕ}
    (h : InHole m firstEmpty nextSet) (hfuel : 2 ^ 32 ≤ nextSet + fuel) (k : ℕ) :
    (contiguousLoop m size count miss (fuel + 2) k firstEmpty nextSet).isSome := by
  induction fuel generalizing firstEmpty nextSet with
  | zero =>
      have := hm _ h.set
      omega
  | succ fuel ih =>
      have hlt := h.lt
      have hset := hm _ h.set
      rw [contiguousLoop, u64Sub_of_le hlt.le (by omega)]
      by_cases hshort : nextSet - firstEmpty < count
      · obtain ⟨index, hindex, hgt, hbound, hbetween, hnext⟩ := h.step hm
        simp only [if_pos hshort, hindex]
        rcases hnext with ⟨hnone, hend⟩ | ⟨index', hsome, hhole⟩
        · simp only [hnone]
          split_ifs with hmiss
          · rfl
          · rw [contiguousLoop, u64Sub_of_lt hgt (by omega), if_neg (by omega)]
            rfl
        · simp only [hsome]
          have := hhole.lt
          exact ih hhole (by omega)
      · rw [if_neg hshort]
        rfl

/-! ## Nothing set behind the first hole -/

/-- The loop state before the first hole ends when no later index is set: every round looks for a
    free index from `size` on and finds `size` itself. -/
theorem contiguousLoop_stuck (hm : m.Small) (hsize : size < 2 ^ 31)
    (hfree : ∀ j ∈ m, j < size) (hshort : u64Sub size firstEmpty < count) (fuel k : ℕ) :
    contiguousLoop m size count miss (fuel + 1) k firstEmpty size =
      if u64Sub size (miss k size) < count then some none
      else contiguousLoop m size count miss fuel (k + 1) size size := by
  obtain ⟨index, hindex, hle, -, hnot, hbetween⟩ := Judy1.firstEmpty_spec hm (i := size) (by omega)
  obtain rfl : size = index := by
    rcases Nat.eq_or_lt_of_le hle with heq | hlt
    · exact heq
    · have := hfree _ (hbetween size le_rfl hlt)
      omega
  have hnone : m.next size = none := Judy1.next_eq_none.2 fun j hj hmem => by
    have := hfree j hmem
    omega
  rw [contiguousLoop, if_pos hshort, hindex]
  simp only [hnone]

/-- From there the search never succeeds, -/
theorem contiguousLoop_stuck_ne_some (hm : m.Small) (hsize : size < 2 ^ 31) (hcount : 0 < count)
    (hfree : ∀ j ∈ m, j < size) (hshort : u64Sub size firstEmpty < count) (fuel k b : ℕ) :
    contiguousLoop m size count miss fuel k firstEmpty size ≠ some (some b) := by
  induction fuel generalizing k firstEmpty with
  | zero => simp [contiguousLoop]
  | succ fuel ih =>
      rw [contiguousLoop_stuck hm hsize hfree hshort]
      split_ifs with hmiss
      · simp
      · refine ih ?_ (k + 1)
        rw [u64Sub_of_le le_rfl (by omega), Nat.sub_self]
        exact hcount

/-- and it never ends unless a failed search leaves something small enough in `Index`. -/
theorem contiguousLoop_stuck_eq_none (hm : m.Small) (hsize : size < 2 ^ 31) (hcount : 0 < count)
    (hfree : ∀ j ∈ m, j < size) (hshort : u64Sub size firstEmpty < count)
    (hmiss : ∀ k, ¬ u64Sub size (miss k size) < count) (fuel k : ℕ) :
    contiguousLoop m size count miss fuel k firstEmpty size = none := by
  induction fuel generalizing k firstEmpty with
  | zero => rfl
  | succ fuel ih =>
      rw [contiguousLoop_stuck hm hsize hfree hshort, if_neg (hmiss k)]
      refine ih ?_ (k + 1)
      rw [u64Sub_of_le le_rfl (by omega), Nat.sub_self]
      exact hcount

end IdAllocator
