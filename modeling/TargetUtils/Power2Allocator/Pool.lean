import TargetUtils.Library.OrderedMap
import TargetUtils.Library.FreeGaps

set_option autoImplicit false

/-! # The abstract pool

What the allocator is for: a pool of `total` indices and a set of disjoint blocks in use. A block can
be taken where every index is free and given back; the free set is what the blocks leave over. Nothing
here knows how free space is organized. -/

/-- Nonempty, pairwise disjoint blocks (start to size) inside `[0, total)`. -/
@[ext] structure Pool where
  total : ℕ
  blocks : OrderedMap ℕ ℕ
  pos : ∀ i s, blocks.lookup i = some s → 0 < s
  inside : ∀ i s, blocks.lookup i = some s → i + s ≤ total
  disjoint : ∀ i s j t, blocks.lookup i = some s → blocks.lookup j = some t → i < j → i + s ≤ j

namespace Pool

/-- The indices that no block covers. -/
def free (p : Pool) : Set ℕ :=
  {j | j < p.total ∧ ∀ i s, p.blocks.lookup i = some s → ¬ (i ≤ j ∧ j < i + s)}

/-- The pool with no block in use. -/
def empty (total : ℕ) : Pool where
  total := total
  blocks := OrderedMap.empty
  pos := by simp
  inside := by simp
  disjoint := by simp

/-- Every index of `[a, a + s)` is free. -/
def Fits (p : Pool) (a s : ℕ) : Prop := ∀ j, a ≤ j → j < a + s → j ∈ p.free

variable {p : Pool}

theorem Fits.inside {a s : ℕ} (h : p.Fits a s) (hs : 0 < s) : a + s ≤ p.total := by
  have := (h (a + s - 1) (by omega) (by omega)).1
  omega

theorem Fits.apart {a s : ℕ} (h : p.Fits a s) (hs : 0 < s) {i t : ℕ}
    (hi : p.blocks.lookup i = some t) : i + t ≤ a ∨ a + s ≤ i := by
  have hpos := p.pos i t hi
  by_contra hcon
  exact (h (max i a) (by omega) (by omega)).2 i t hi (by omega)

theorem Fits.absent {a s : ℕ} (h : p.Fits a s) (hs : 0 < s) : p.blocks.lookup a = none := by
  by_contra hne
  obtain ⟨t, ht⟩ := Option.ne_none_iff_exists'.1 hne
  have hpos := p.pos a t ht
  rcases h.apart hs ht with h1 | h1 <;> omega

/-- Take the block `[a, a + s)`. -/
def take (p : Pool) (a s : ℕ) (hs : 0 < s) (h : p.Fits a s) : Pool where
  total := p.total
  blocks := p.blocks.insert a s
  pos := by
    intro i t hi
    rw [OrderedMap.lookup_insert] at hi
    split_ifs at hi with hia
    · simp only [Option.some.injEq] at hi
      omega
    · exact p.pos i t hi
  inside := by
    intro i t hi
    rw [OrderedMap.lookup_insert] at hi
    split_ifs at hi with hia
    · have hin := h.inside hs
      simp only [Option.some.injEq] at hi
      omega
    · exact p.inside i t hi
  disjoint := by
    intro i t j u hi hj hij
    rw [OrderedMap.lookup_insert] at hi hj
    split_ifs at hi hj with hia hja hja
    · omega
    · have hpos := p.pos j u hj
      simp only [Option.some.injEq] at hi
      rcases h.apart hs hj with h1 | h1 <;> omega
    · have hpos := p.pos i t hi
      rcases h.apart hs hi with h1 | h1 <;> omega
    · exact p.disjoint i t j u hi hj hij

/-- Give the block at `i` back. -/
def give (p : Pool) (i : ℕ) : Pool where
  total := p.total
  blocks := p.blocks.erase i
  pos := by
    intro j t hj
    rw [OrderedMap.lookup_erase] at hj
    split_ifs at hj
    exact p.pos j t hj
  inside := by
    intro j t hj
    rw [OrderedMap.lookup_erase] at hj
    split_ifs at hj
    exact p.inside j t hj
  disjoint := by
    intro j t k u hj hk
    rw [OrderedMap.lookup_erase] at hj hk
    split_ifs at hj hk
    exact p.disjoint j t k u hj hk

/-- Giving back what was taken. -/
theorem give_take {a s : ℕ} (hs : 0 < s) (h : p.Fits a s) : (p.take a s hs h).give a = p := by
  refine Pool.ext rfl (OrderedMap.ext_lookup fun k => ?_)
  rw [give, take, OrderedMap.lookup_erase, OrderedMap.lookup_insert]
  split_ifs with hk
  · rw [hk, h.absent hs]
  · rfl

/-- Give the blocks at the indices of `l` back, one after the other. -/
def giveAll (p : Pool) (l : List ℕ) : Pool := l.foldl give p

theorem giveAll_total (p : Pool) (l : List ℕ) : (p.giveAll l).total = p.total := by
  induction l generalizing p with
  | nil => rfl
  | cons i rest ih => exact ih (p.give i)

theorem lookup_giveAll (p : Pool) (l : List ℕ) (k : ℕ) :
    (p.giveAll l).blocks.lookup k = if k ∈ l then none else p.blocks.lookup k := by
  induction l generalizing p with
  | nil => rfl
  | cons i rest ih =>
      have hstep := ih (p.give i)
      simp only [giveAll, List.foldl_cons] at hstep ⊢
      rw [hstep, give, OrderedMap.lookup_erase]
      by_cases hk : k ∈ rest
      · simp [hk]
      · by_cases hki : k = i <;> simp [hk, hki]

/-- The order in which blocks are given back does not matter. -/
theorem giveAll_congr {l l' : List ℕ} (h : ∀ k, k ∈ l ↔ k ∈ l') : p.giveAll l = p.giveAll l' := by
  refine Pool.ext ((giveAll_total p l).trans (giveAll_total p l').symm)
    (OrderedMap.ext_lookup fun k => ?_)
  rw [lookup_giveAll, lookup_giveAll]
  simp only [h k]

theorem free_lt {j : ℕ} (hj : j ∈ p.free) : j < p.total := hj.1

theorem chunk_bounds {L : ℕ} {x : Chunk} (hx : x ∈ canonicalChunks L p.free) :
    x.Aligned L ∧ x.stop ≤ p.total := by
  obtain ⟨haligned, hsub⟩ := canonicalChunks_subset hx
  have hpos := haligned.len_pos
  have hlast := free_lt (hsub (x.stop - 1) (by rw [Chunk.stop]; omega) (by rw [Chunk.stop]; omega))
  exact ⟨haligned, by omega⟩

theorem free_take {a s : ℕ} (hs : 0 < s) (h : p.Fits a s) :
    (p.take a s hs h).free = p.free \ Set.Ico a (a + s) := by
  ext j
  simp only [free, take, OrderedMap.lookup_insert, Set.mem_sdiff, Set.mem_Ico]
  constructor
  · rintro ⟨hj, hout⟩
    refine ⟨⟨hj, fun i t hi hij => ?_⟩, fun hja => hout a s (by simp) hja⟩
    refine hout i t ?_ hij
    have hne : i ≠ a := fun he => by
      rw [he, h.absent hs] at hi
      cases hi
    rw [if_neg hne, hi]
  · rintro ⟨⟨hj, hout⟩, hja⟩
    refine ⟨hj, fun i t hi hij => ?_⟩
    split_ifs at hi with hia
    · simp only [Option.some.injEq] at hi
      subst hia hi
      exact hja hij
    · exact hout i t hi hij

theorem free_give {i s : ℕ} (hi : p.blocks.lookup i = some s) :
    (p.give i).free = p.free ∪ Set.Ico i (i + s) := by
  have hin := p.inside i s hi
  ext j
  simp only [free, give, OrderedMap.lookup_erase, Set.mem_union, Set.mem_Ico]
  constructor
  · rintro ⟨hj, hout⟩
    by_cases hij : i ≤ j ∧ j < i + s
    · exact Or.inr hij
    · refine Or.inl ⟨hj, fun k t hk hkj => ?_⟩
      by_cases hki : k = i
      · subst hki
        rw [hi, Option.some.injEq] at hk
        subst hk
        exact hij hkj
      · exact hout k t (by rw [if_neg hki, hk]) hkj
  · rintro (⟨hj, hout⟩ | hij)
    · refine ⟨hj, fun k t hk hkj => ?_⟩
      split_ifs at hk
      exact hout k t hk hkj
    · refine ⟨by omega, fun k t hk hkj => ?_⟩
      split_ifs at hk with hki
      rcases Nat.lt_or_gt_of_ne hki with h | h
      · have := p.disjoint k t i s hk hi h
        omega
      · have := p.disjoint i s k t hi hk h
        omega

theorem not_free_of_block {i s j : ℕ} (hi : p.blocks.lookup i = some s) (h1 : i ≤ j)
    (h2 : j < i + s) : j ∉ p.free := fun hj => hj.2 i s hi ⟨h1, h2⟩

/-- Two blocks that share an index are the same. -/
theorem start_unique {i s k t j : ℕ} (hi : p.blocks.lookup i = some s)
    (hk : p.blocks.lookup k = some t) (hij : i ≤ j ∧ j < i + s) (hkj : k ≤ j ∧ j < k + t) :
    i = k := by
  rcases Nat.lt_trichotomy i k with hlt | heq | hgt
  · have := p.disjoint i s k t hi hk hlt
    omega
  · exact heq
  · have := p.disjoint k t i s hk hi hgt
    omega

/-! ## Neighbouring blocks -/

/-- Where the block before `i` ends (0 if there is none). -/
def prevEnd (p : Pool) (i : ℕ) : ℕ := ((p.blocks.prev i).map (fun x => x.1 + x.2)).getD 0

/-- Where the block after `i` starts (the end of the pool if there is none). -/
def nextStart (p : Pool) (i : ℕ) : ℕ := ((p.blocks.next i).map Prod.fst).getD p.total

theorem le_prevEnd {i k t : ℕ} (hk : p.blocks.lookup k = some t) (hki : k < i) :
    k + t ≤ p.prevEnd i := by
  rw [prevEnd]
  cases hprev : p.blocks.prev i with
  | none =>
      rw [OrderedMap.prev_eq_none.1 hprev k hki] at hk
      cases hk
  | some x =>
      obtain ⟨k', t'⟩ := x
      obtain ⟨hk', -, hmax⟩ := OrderedMap.prev_eq_some.1 hprev
      simp only [Option.map_some, Option.getD_some]
      rcases Nat.lt_trichotomy k k' with h | rfl | h
      · have := p.disjoint k t k' t' hk hk' h
        omega
      · rw [hk, Option.some.injEq] at hk'
        omega
      · rw [hmax k h hki] at hk
        cases hk

theorem nextStart_le {i k t : ℕ} (hk : p.blocks.lookup k = some t) (hik : i < k) :
    p.nextStart i ≤ k := by
  rw [nextStart]
  cases hnext : p.blocks.next i with
  | none =>
      rw [OrderedMap.next_eq_none.1 hnext k hik] at hk
      cases hk
  | some x =>
      obtain ⟨k', t'⟩ := x
      obtain ⟨-, -, hmin⟩ := OrderedMap.next_eq_some.1 hnext
      simp only [Option.map_some, Option.getD_some]
      by_contra hlt
      rw [hmin k hik (by omega)] at hk
      cases hk

theorem prevEnd_cases (p : Pool) (i : ℕ) :
    p.prevEnd i = 0 ∨ ∃ k t, p.blocks.lookup k = some t ∧ k < i ∧ p.prevEnd i = k + t := by
  rw [prevEnd]
  cases hprev : p.blocks.prev i with
  | none => exact Or.inl rfl
  | some x =>
      obtain ⟨hk, hlt, -⟩ := OrderedMap.prev_eq_some.1 (show p.blocks.prev i = some (x.1, x.2) from hprev)
      exact Or.inr ⟨x.1, x.2, hk, hlt, rfl⟩

theorem nextStart_cases (p : Pool) (i : ℕ) :
    p.nextStart i = p.total ∨
      ∃ k t, p.blocks.lookup k = some t ∧ i < k ∧ p.nextStart i = k := by
  rw [nextStart]
  cases hnext : p.blocks.next i with
  | none => exact Or.inl rfl
  | some x =>
      obtain ⟨hk, hlt, -⟩ := OrderedMap.next_eq_some.1 (show p.blocks.next i = some (x.1, x.2) from hnext)
      exact Or.inr ⟨x.1, x.2, hk, hlt, rfl⟩

theorem nextStart_le_total (p : Pool) (i : ℕ) : p.nextStart i ≤ p.total := by
  rcases p.nextStart_cases i with h | ⟨k, t, hk, -, h⟩
  · omega
  · have := p.inside k t hk
    omega

theorem prevEnd_le_total (p : Pool) (i : ℕ) : p.prevEnd i ≤ p.total := by
  rcases p.prevEnd_cases i with h | ⟨k, t, hk, -, h⟩
  · omega
  · have := p.inside k t hk
    omega

theorem prevEnd_left {i j : ℕ} (hj : j + 1 = p.prevEnd i) : j ∉ p.free := by
  rcases p.prevEnd_cases i with h | ⟨k, t, hk, -, h⟩
  · omega
  · have := p.pos k t hk
    exact not_free_of_block hk (by omega) (by omega)

theorem nextStart_not_free (p : Pool) (i : ℕ) : p.nextStart i ∉ p.free := by
  rcases p.nextStart_cases i with h | ⟨k, t, hk, -, h⟩
  · exact fun hj => absurd (free_lt hj) (by omega)
  · have := p.pos k t hk
    exact not_free_of_block hk (by omega) (by omega)

/-- The block at `i` lies between its neighbours. -/
theorem between_of_block {i s : ℕ} (hi : p.blocks.lookup i = some s) :
    p.prevEnd i ≤ i ∧ i + s ≤ p.nextStart i := by
  constructor
  · rcases p.prevEnd_cases i with h | ⟨k, t, hk, hki, h⟩
    · omega
    · have := p.disjoint k t i s hk hi hki
      omega
  · rcases p.nextStart_cases i with h | ⟨k, t, hk, hik, h⟩
    · have := p.inside i s hi
      omega
    · have := p.disjoint i s k t hi hk hik
      omega

/-- What lies between the neighbours of `i`, but not in a block at `i`, is free. -/
theorem free_between {i j b : ℕ} (hb : ∀ s, p.blocks.lookup i = some s → i + s ≤ b)
    (h1 : p.prevEnd i ≤ j) (h2 : j < p.nextStart i) (h3 : j < i ∨ b ≤ j) : j ∈ p.free := by
  have htotal := p.nextStart_le_total i
  refine ⟨by omega, fun k t hk hkj => ?_⟩
  rcases Nat.lt_trichotomy k i with h | rfl | h
  · have := le_prevEnd hk h
    omega
  · have := hb t hk
    omega
  · have := nextStart_le hk h
    omega

/-- Releasing the block at `i` opens a gap that reaches to both neighbours. -/
theorem isGap_give {i s : ℕ} (hi : p.blocks.lookup i = some s) :
    IsGap (p.free ∪ Set.Ico i (i + s)) (p.prevEnd i) (p.nextStart i) := by
  obtain ⟨hprev, hnext⟩ := between_of_block hi
  have hpos := p.pos i s hi
  refine ⟨by omega, fun j h1 h2 => ?_, fun j hj => ?_, ?_⟩
  · by_cases hij : i ≤ j ∧ j < i + s
    · exact Or.inr hij
    · refine Or.inl (free_between (b := i + s) (fun t ht => ?_) h1 h2 (by omega))
      rw [hi, Option.some.injEq] at ht
      omega
  · rintro (h | h)
    · exact prevEnd_left hj h
    · rw [Set.mem_Ico] at h
      omega
  · rintro (h | h)
    · exact p.nextStart_not_free i h
    · rw [Set.mem_Ico] at h
      omega

/-- What lies between the neighbours of an index at which no block starts is a gap. -/
theorem isGap_of_lt {i : ℕ} (hi : p.blocks.lookup i = none) (h : p.prevEnd i < p.nextStart i) :
    IsGap p.free (p.prevEnd i) (p.nextStart i) := by
  refine ⟨h, fun j h1 h2 => ?_, fun j hj => prevEnd_left hj, p.nextStart_not_free i⟩
  exact free_between (b := i) (fun t ht => by rw [hi] at ht; cases ht) h1 h2 (by omega)

/-- The gap around an index that is not in use. -/
theorem isGap_of_absent {i s : ℕ} (hi : p.blocks.lookup i = none) (hs : 0 < s)
    (h1 : p.prevEnd i ≤ i) (h2 : i + s ≤ p.nextStart i) :
    IsGap p.free (p.prevEnd i) (p.nextStart i) := isGap_of_lt hi (by omega)

/-- The free space before a block, or before the end of the pool, is a gap. -/
theorem isGap_before {i : ℕ} (hi : i = p.total ∨ p.blocks.lookup i ≠ none)
    (hlt : p.prevEnd i < i) : IsGap p.free (p.prevEnd i) i := by
  refine ⟨hlt, fun j h1 h2 => ⟨?_, fun k t hk hkj => ?_⟩, fun j hj => prevEnd_left hj, ?_⟩
  · rcases hi with rfl | hi
    · exact h2
    · obtain ⟨s, hs⟩ := Option.ne_none_iff_exists'.1 hi
      have := p.inside i s hs
      omega
  · have := le_prevEnd hk (show k < i by omega)
    omega
  · rcases hi with rfl | hi
    · exact fun hfree => lt_irrefl _ (free_lt hfree)
    · obtain ⟨s, hs⟩ := Option.ne_none_iff_exists'.1 hi
      have := p.pos i s hs
      exact not_free_of_block hs le_rfl (by omega)

/-- The canonical chunks are those of the free space before the blocks and before the end. -/
theorem mem_canonicalChunks_iff {L : ℕ} {x : Chunk} : x ∈ canonicalChunks L p.free ↔
    ∃ i, (i = p.total ∨ p.blocks.lookup i ≠ none) ∧
      x ∈ greedyChunks L (p.prevEnd i) (i - p.prevEnd i) := by
  constructor
  · rintro ⟨g, e, hgap, hx⟩
    have hlt := hgap.lt
    have hlast := hgap.subset (e - 1) (by omega) (by omega)
    have hi : e = p.total ∨ p.blocks.lookup e ≠ none := by
      by_contra hcon
      obtain ⟨hne, hnone⟩ := not_or.1 hcon
      have := free_lt hlast
      refine hgap.right ⟨by omega, fun k t hk hke => ?_⟩
      rcases Nat.eq_or_lt_of_le hke.1 with rfl | hlt'
      · exact hnone (by simp [hk])
      · exact hlast.2 k t hk (by omega)
    have hprev : p.prevEnd e < e := by
      rcases p.prevEnd_cases e with h0 | ⟨k, t, hk, hke, h0⟩
      · omega
      · by_contra hcon
        exact hlast.2 k t hk (by omega)
    obtain ⟨hg, -⟩ := hgap.unique (isGap_before hi hprev) hprev hlt
    exact ⟨e, hi, hg ▸ hx⟩
  · rintro ⟨i, hi, hx⟩
    rcases Nat.lt_or_ge (p.prevEnd i) i with hlt | hge
    · exact ⟨_, _, isGap_before hi hlt, hx⟩
    · rw [Nat.sub_eq_zero_of_le hge, greedyChunks_zero] at hx
      cases hx

/-- An index lies in a block when one starts there or the one before ends behind it. -/
theorem covered_iff {i : ℕ} : (∃ k t, p.blocks.lookup k = some t ∧ k ≤ i ∧ i < k + t) ↔
    p.blocks.lookup i ≠ none ∨ i < p.prevEnd i := by
  constructor
  · rintro ⟨k, t, hk, hki, hit⟩
    rcases Nat.eq_or_lt_of_le hki with rfl | hlt
    · exact Or.inl (by simp [hk])
    · exact Or.inr (lt_of_lt_of_le hit (le_prevEnd hk hlt))
  · rintro (hne | hlt)
    · obtain ⟨t, ht⟩ := Option.ne_none_iff_exists'.1 hne
      have hpos := p.pos i t ht
      exact ⟨i, t, ht, le_rfl, by omega⟩
    · rcases p.prevEnd_cases i with h | ⟨k, t, hk, hki, h⟩
      · omega
      · exact ⟨k, t, hk, hki.le, by omega⟩

/-- A block fits at `i` when `i` is not in use and the block stays between the neighbours of `i`. -/
theorem fits_iff {i s : ℕ} (hs : 0 < s) :
    p.Fits i s ↔ p.blocks.lookup i = none ∧ p.prevEnd i ≤ i ∧ i + s ≤ p.nextStart i := by
  constructor
  · intro h
    refine ⟨h.absent hs, ?_, ?_⟩
    · rcases p.prevEnd_cases i with hp | ⟨k, t, hk, hki, hp⟩
      · omega
      · have := h.apart hs hk
        omega
    · rcases p.nextStart_cases i with hn | ⟨k, t, hk, hik, hn⟩
      · have := h.inside hs
        omega
      · have := p.pos k t hk
        have := h.apart hs hk
        omega
  · rintro ⟨hi, h1, h2⟩ j hj1 hj2
    exact (isGap_of_absent hi hs h1 h2).subset j (by omega) (by omega)

end Pool
