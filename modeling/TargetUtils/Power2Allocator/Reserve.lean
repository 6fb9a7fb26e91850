import TargetUtils.Power2Allocator.Guarantees
import Mathlib

set_option autoImplicit false

/-! # Which ranges can be reserved

`power2_allocator_reserve` has no check against `total_size` of its own: the range test compares the
sum of index and size, a `uint32_t`, with the start of the next block. A sum of at least `2 ^ 32`
wraps around to an index before the range, which passes the test whenever it lies in the pool
(`ReserveSlips`); the call then succeeds and files indices in use as free. Every other call decides
exactly. -/

namespace Power2Allocator

variable {a a' a₀ : Power2Allocator} {L : ℕ} {p : Pool} {size count i s : ℕ}
  {es : List (Call × ℤ)}

/-- The index is not in use, and the end of the range wraps around into the pool or is the index
    itself. -/
def ReserveSlips (a : Power2Allocator) (i s : ℕ) : Prop :=
  (∀ k t, a.inuseList.lookup k = some t → ¬ (k ≤ i ∧ i < k + t)) ∧
    (s = 0 ∧ i ≤ a.totalSize ∨ 2 ^ 32 ≤ i + s ∧ i + s ≤ 2 ^ 32 + a.totalSize)

/-! ## The range test -/

theorem Represents.slips_iff (h : a.Represents L p) : a.ReserveSlips i s ↔
    (p.blocks.lookup i = none ∧ p.prevEnd i ≤ i) ∧
      (s = 0 ∧ i ≤ p.total ∨ 2 ^ 32 ≤ i + s ∧ i + s ≤ 2 ^ 32 + p.total) := by
  rw [ReserveSlips, h.totalSize, h.inuse]
  refine and_congr_left fun _ => ?_
  have hcovered := p.covered_iff (i := i)
  constructor
  · intro hout
    have hnot : ¬ (p.blocks.lookup i ≠ none ∨ i < p.prevEnd i) := fun hin => by
      obtain ⟨k, t, hk, hki⟩ := hcovered.2 hin
      exact hout k t hk hki
    exact ⟨not_not.1 fun hne => hnot (Or.inl hne), by omega⟩
  · rintro ⟨hi, hprev⟩ k t hk hki
    rcases hcovered.1 ⟨k, t, hk, hki⟩ with hne | hlt
    · exact hne hi
    · omega

/-- A range that wraps around but does not slip through is refused. -/
theorem Represents.reserve_not_slips (h : a.Represents L p) (hi : i < 2 ^ 32) (hs32 : s < 2 ^ 32)
    (hslips : ¬ a.ReserveSlips i s) (hwrap : s = 0 ∨ 2 ^ 32 ≤ i + s) : a.reserve i s = (1, a) := by
  have htotal := p.nextStart_le_total i
  apply h.reserve_refused
  by_cases hfree : p.blocks.lookup i = none ∧ p.prevEnd i ≤ i
  · have hbehind : ¬ (s = 0 ∧ i ≤ p.total ∨ 2 ^ 32 ≤ i + s ∧ i + s ≤ 2 ^ 32 + p.total) :=
      fun hin => hslips (h.slips_iff.2 ⟨hfree, hin⟩)
    -- the wrapped end lies behind the pool
    refine Or.inr (Or.inr ?_)
    rw [u32Add]
    omega
  · rcases not_and_or.1 hfree with hne | hprev
    · exact Or.inl hne
    · exact Or.inr (Or.inl (Nat.lt_of_not_le hprev))

/-- One that slips through is reserved. -/
theorem Represents.reserve_slips (h : a.Represents L p) (hs : 0 < s) (hs32 : s < 2 ^ 32)
    (hslips : a.ReserveSlips i s) : (a.reserve i s).1 = 0 := by
  obtain ⟨⟨hnone, hprev⟩, hend⟩ := h.slips_iff.1 hslips
  refine h.reserve_accepted hnone hprev ?_
  have hsmall := h.small
  rw [u32Add]
  -- the wrapped end lies before the range, so only the end of the pool can stop it
  rcases p.nextStart_cases i with hn | ⟨k, t, hk, hik, hn⟩
  · omega
  · have := p.inside k t hk
    omega

/-! ## Runs -/

/-- The contract of a call, for `reserve` down to the ranges that slip through. -/
def Call.Clean (a : Power2Allocator) : Call → Prop
  | .reserve i s => i < 2 ^ 32 ∧ s < 2 ^ 32 ∧ ¬ a.ReserveSlips i s
  | c => c.Harmless a

theorem Represents.keeps_reserve_clean (h : a.Represents L p) (hi : i < 2 ^ 32)
    (hs32 : s < 2 ^ 32) (hslips : ¬ a.ReserveSlips i s) : h.Keeps (a.reserve i s).2 := by
  by_cases hwrap : s = 0 ∨ 2 ^ 32 ≤ i + s
  · rw [h.reserve_not_slips hi hs32 hslips hwrap]
    exact h.keeps_self
  · exact h.keeps_reserve (by omega) (by omega)

theorem Represents.keeps_clean (h : a.Represents L p) {e : Call × ℤ}
    (hstep : Step Call.Clean a e a') : h.Keeps a' := by
  obtain ⟨call, rc⟩ := e
  obtain ⟨hok, fuel, hexec⟩ := hstep
  cases call with
  | reserve i s =>
      obtain ⟨hi, hs32, hslips⟩ := hok
      obtain rfl : (a.reserve i s).2 = a' := congrArg Prod.snd (Option.some.inj hexec)
      exact h.keeps_reserve_clean hi hs32 hslips
  | alloc s => exact h.keeps_step (e := (.alloc s, rc)) ⟨hok, fuel, hexec⟩
  | allocMultiple s n => exact h.keeps_step (e := (.allocMultiple s n, rc)) ⟨hok, fuel, hexec⟩
  | release i => exact h.keeps_step (e := (.release i, rc)) ⟨hok, fuel, hexec⟩
  | releaseMultiple i n => exact h.keeps_step (e := (.releaseMultiple i n, rc)) ⟨hok, fuel, hexec⟩

/-! ## Exact decisions -/

/-- No free chunk overlaps a block in use. -/
def ChunksApart (a : Power2Allocator) : Prop :=
  ∀ x : Chunk, a.IsFree x → ∀ k t, a.inuseList.lookup k = some t →
    Disjoint (Set.Ico x.start x.stop) (Set.Ico k (k + t))

theorem Represents.chunksApart (h : a.Represents L p) : a.ChunksApart := by
  intro x hx k t hk
  obtain ⟨-, hfree⟩ := canonicalChunks_subset ((h.holds.chunks x).1 hx)
  rw [h.inuse] at hk
  refine Set.disjoint_left.2 fun j hj hkj => ?_
  rw [Set.mem_Ico] at hj hkj
  exact Pool.not_free_of_block hk hkj.1 hkj.2 (hfree j hj.1 hj.2)

/-- `reserve` succeeds exactly on an available range, which is then in use, and otherwise changes
    nothing. -/
structure ReservesExactly (a : Power2Allocator) (i s : ℕ) : Prop where
  decides : (a.reserve i s).1 = 0 ↔ a.Available i s
  taken : (a.reserve i s).1 = 0 → a.inuseList.lookup i = none ∧
    (a.reserve i s).2.inuseList = a.inuseList.insert i s ∧ (a.reserve i s).2.ChunksApart
  refused : (a.reserve i s).1 ≠ 0 → (a.reserve i s).2.freeLists = a.freeLists ∧
    (a.reserve i s).2.inuseList = a.inuseList

theorem Represents.reservesExactly_of_fits (h : a.Represents L p) (hs : 0 < s)
    (hfit : p.Fits i s) : a.ReservesExactly i s := by
  obtain ⟨hrc, hp'⟩ := h.reserve hs hfit
  refine ⟨iff_of_true hrc ((h.available_iff hs).2 hfit), fun _ => ⟨?_, ?_, hp'.chunksApart⟩,
    fun hne => absurd hrc hne⟩
  · rw [h.inuse, hfit.absent hs]
  · rw [hp'.inuse, h.inuse]
    rfl

theorem Represents.reservesExactly_of_refused (h : a.Represents L p) (hs : 0 < s)
    (hr : a.reserve i s = (1, a)) (hfit : ¬ p.Fits i s) : a.ReservesExactly i s := by
  have hrc : (a.reserve i s).1 ≠ 0 := by
    rw [hr]
    exact one_ne_zero
  refine ⟨iff_of_false hrc fun hav => hfit ((h.available_iff hs).1 hav), fun h0 => absurd h0 hrc,
    fun _ => ?_⟩
  rw [hr]
  exact ⟨rfl, rfl⟩

/-- After a run in which no reserved range slipped through, `reserve` decides exactly if and only if
    the range does not slip through. -/
theorem reservesExactly_iff (hsize : size < 2 ^ 32) (hsmall : size * count < 2 ^ 31)
    (hcreate : create size count = some a₀) (hrun : Run (Step Call.Clean) a₀ es a)
    (hi : i < 2 ^ 32) (hs : 1 ≤ s) (hs32 : s < 2 ^ 32) :
    a.ReservesExactly i s ↔ ¬ a.ReserveSlips i s := by
  obtain ⟨L, p, -, -, hp⟩ := exists_pool_of_keeps (fun h => h.keeps_clean) hsize hsmall hcreate hrun
  constructor
  · intro hexact hslips
    have hav := hexact.decides.1 (hp.reserve_slips hs hs32 hslips)
    have hin := ((hp.available_iff hs).1 hav).inside hs
    have hsmall := hp.small
    obtain ⟨-, hend⟩ := hp.slips_iff.1 hslips
    omega
  · intro hslips
    by_cases hwrap : 2 ^ 32 ≤ i + s
    · -- the pool ends long before such a range
      have hnot : ¬ p.Fits i s := fun hfit => by
        have hin := hfit.inside hs
        have hsmall := hp.small
        omega
      exact hp.reservesExactly_of_refused hs (hp.reserve_not_slips hi hs32 hslips (Or.inr hwrap))
        hnot
    · by_cases hfit : p.Fits i s
      · exact hp.reservesExactly_of_fits hs hfit
      · exact hp.reservesExactly_of_refused hs (hp.reserve_of_not_fits hs (by omega) hfit) hfit

/-- Ranges of 3 indices at 1, and of `2 ^ 32 - 1` indices at 2, in a pool of two blocks of 4. -/
theorem reservesExactly_iff_wrapped : ∃ a, create 4 2 = some a ∧
    ((a.reserve 1 3).2.ReservesExactly 2 (2 ^ 32 - 1) ↔
      ¬ (a.reserve 1 3).2.ReserveSlips 2 (2 ^ 32 - 1)) := by
  obtain ⟨a, hcreate, -⟩ := create_represents (by decide : 2 < 32) (by decide : 4 = 2 ^ 2)
    (by decide : 4 * 2 < 2 ^ 31)
  have hnil : Run (Step Call.Clean) a [] a := Run.nil
  have hslips : ¬ a.ReserveSlips 1 3 := fun h => by
    have hend := h.2
    omega
  have hreserve := run_call hnil (c := .reserve 1 3) ⟨by decide, by decide, hslips⟩ 0 rfl
  exact ⟨a, hcreate, reservesExactly_iff (by decide : 4 < 2 ^ 32) (by decide : 4 * 2 < 2 ^ 31)
    hcreate hreserve (by decide) (by decide) (by decide)⟩

/-- With the first of two blocks of 4 reserved, the range of `2 ^ 32 - 4` indices at 4 is reserved
    too: no assertion fails, and index 0 is in use and free. -/
theorem reservesExactly_false :
    ¬ ∀ (size count : ℕ) (a₀ a : Power2Allocator) (es : List (Call × ℤ)) (i s : ℕ), size < 2 ^ 32 →
      size * count < 2 ^ 31 → create size count = some a₀ → Run (Step Call.Clean) a₀ es a →
      i < 2 ^ 32 → 1 ≤ s → s < 2 ^ 32 → a.ReservesExactly i s := by
  intro hclaim
  have hstate : (create 4 2).any (fun a =>
      decide (((a.reserve 0 4).2.reserve 4 (2 ^ 32 - 4)).1 = 0 ∧
        (((a.reserve 0 4).2.reserve 4 (2 ^ 32 - 4)).2.freeList 2).lookup 0 = some 4 ∧
        ((a.reserve 0 4).2.reserve 4 (2 ^ 32 - 4)).2.inuseList.lookup 0 = some 4 ∧
        ((a.reserve 0 4).2.reserve 4 (2 ^ 32 - 4)).2.asserts = true)) = true := by
    decide +kernel
  obtain ⟨a, hcreate, hb⟩ := (Option.any_eq_true _ _).1 hstate
  obtain ⟨hrc, hfree, hused, -⟩ := of_decide_eq_true hb
  have hnil : Run (Step Call.Clean) a [] a := Run.nil
  have hslips : ¬ a.ReserveSlips 0 4 := fun h => by
    have hend := h.2
    omega
  have hreserve := run_call hnil (c := .reserve 0 4) ⟨by decide, by decide, hslips⟩ 0 rfl
  have hexact := hclaim 4 2 a _ _ 4 (2 ^ 32 - 4) (by decide) (by decide) hcreate hreserve
    (by decide) (by decide) (by decide)
  obtain ⟨-, -, hapart⟩ := hexact.taken hrc
  have hdisj := hapart ⟨2, 0, 4⟩ hfree 0 4 hused
  exact Set.disjoint_left.1 hdisj (Set.mem_Ico.2 ⟨le_rfl, by decide⟩)
    (Set.mem_Ico.2 ⟨le_rfl, by decide⟩)

end Power2Allocator
