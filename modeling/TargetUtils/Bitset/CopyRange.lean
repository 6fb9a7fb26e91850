import TargetUtils.Bitset.Copy

set_option autoImplicit false

/-! # Copying a range

`bf_bs_copy_range` copies as many whole words as the source set has, and not as many as the range
has, and then `n_bits % 64` more bits. The range is what it copies if the two counts agree and there
is such a rest. Otherwise it is copied only if the surplus lies inside both sets and happens to hold
the same bits already (`CopyRangeOk`). -/

namespace Bitset

variable {dst src : Bitset} {dstOffset srcOffset nBits : ℕ}

/-- The bit of `src` at `p`, clear at or above the width. -/
def bitBelow (src : Bitset) (p : ℕ) : Bool := decide (p < src.width) && src.bit p

/-! ## The inner copies -/

theorem copyWord_eq (hs : srcOffset < src.width) (hd : dstOffset < dst.width) (h1 : 1 ≤ nBits)
    (h64 : nBits ≤ 64) :
    ∃ dst', copyWord dst dstOffset src srcOffset nBits = some dst' ∧ dst'.width = dst.width ∧
      ∀ p, dst'.bit p = if dstOffset ≤ p ∧ p < dstOffset + nBits ∧ p < dst.width then
        src.bitBelow (srcOffset + (p - dstOffset)) else dst.bit p := by
  have hsmall := src.width_lt
  have hsmall' := dst.width_lt
  obtain ⟨v, hv, hbits⟩ := getWord_eq hs h1 h64
  obtain ⟨dst', hset, hw, hbits'⟩ := setWord_eq v hd h1 h64
  refine ⟨dst', ?_, hw, fun p => ?_⟩
  · rw [copyWord, toInt_of_lt (by omega), hv, Option.bind_eq_bind, Option.bind_some,
      toInt_of_lt (by omega), hset]
  · rw [hbits']
    by_cases hin : dstOffset ≤ p ∧ p < dstOffset + nBits ∧ p < dst.width
    · rw [if_pos hin, if_pos (by omega), hbits, bitBelow]
      congr 1
      rw [decide_eq_decide]
      omega
    · rw [if_neg hin, if_neg (by omega)]

theorem eq_of_toInt_nonneg {n : ℕ} (hn : n < 2 ^ 32) (h : 0 ≤ toInt n) : toInt n = n := by
  rw [toInt, Nat.mod_eq_of_lt hn] at h ⊢
  split_ifs at h ⊢ <;> omega

/-- The conditions that the two inner calls assert. -/
theorem copyWord_valid {dst' : Bitset} (hs : srcOffset < 2 ^ 32) (hd : dstOffset < 2 ^ 32)
    (h : copyWord dst dstOffset src srcOffset nBits = some dst') :
    srcOffset < src.width ∧ dstOffset < dst.width ∧ 1 ≤ nBits ∧ nBits ≤ 64 := by
  obtain ⟨x, hget, hset⟩ := Option.bind_eq_some_iff.1 h
  obtain ⟨hsrc, hbits⟩ := getWord_valid hget
  obtain ⟨hdst, -⟩ := setWord_valid hset
  have hsrc' := eq_of_toInt_nonneg hs hsrc.1
  have hdst' := eq_of_toInt_nonneg hd hdst.1
  omega

theorem copyWord_width {dst' : Bitset} (hs : srcOffset < 2 ^ 32) (hd : dstOffset < 2 ^ 32)
    (h : copyWord dst dstOffset src srcOffset nBits = some dst') : dst'.width = dst.width := by
  obtain ⟨hs', hd', h1, h64⟩ := copyWord_valid hs hd h
  obtain ⟨d, hcall, hw, -⟩ := copyWord_eq hs' hd' h1 h64
  rwa [← Option.some.inj (h.symm.trans hcall)] at hw

/-! ## The loop -/

/-- The loop over `n` words whose places lie inside both sets. -/
theorem copyRange_loop {n : ℕ} (hs : srcOffset + 64 * n < src.width)
    (hd : dstOffset + 64 * n < dst.width) :
    ∃ dst', (List.range n).foldlM (fun dst i =>
        copyWord dst (dstOffset + i * 64) src (srcOffset + i * 64) 64) dst = some dst' ∧
      dst'.width = dst.width ∧ ∀ p, dst'.bit p = if dstOffset ≤ p ∧ p < dstOffset + 64 * n then
        src.bitBelow (srcOffset + (p - dstOffset)) else dst.bit p := by
  refine foldlM_range (P := fun i (d : Bitset) => d.width = dst.width ∧ ∀ p, d.bit p =
    if dstOffset ≤ p ∧ p < dstOffset + 64 * i then src.bitBelow (srcOffset + (p - dstOffset))
      else dst.bit p) ⟨rfl, fun p => ?_⟩ ?_
  · rw [if_neg (by omega)]
  rintro i hi d ⟨hdw, hbits⟩
  obtain ⟨d', hd', hdw', hbits'⟩ := copyWord_eq (by omega : srcOffset + i * 64 < src.width)
    (by omega : dstOffset + i * 64 < d.width) (by decide : 1 ≤ 64) le_rfl
  refine ⟨d', hd', hdw'.trans hdw, fun p => ?_⟩
  rw [hbits', hbits]
  by_cases hnew : dstOffset + i * 64 ≤ p ∧ p < dstOffset + i * 64 + 64 ∧ p < d.width
  · have hsum : srcOffset + i * 64 + (p - (dstOffset + i * 64)) = srcOffset + (p - dstOffset) := by
      omega
    rw [if_pos hnew, if_pos (by omega), hsum]
  · rw [if_neg hnew]
    split_ifs with h1 h2 h3
    · rfl
    · omega
    · omega
    · rfl

/-! ## The call -/

/-- Every inner call is in order, the range is copied and every other bit of `dst` stays. -/
def CopiesRange (dst : Bitset) (dstOffset : ℕ) (src : Bitset) (srcOffset nBits : ℕ) : Prop :=
  ∃ dst', copyRange dst dstOffset src srcOffset nBits = some dst' ∧ dst'.width = dst.width ∧
    (∀ j < nBits, dst'.bit (dstOffset + j) = src.bit (srcOffset + j)) ∧
      ∀ p, p < dstOffset ∨ dstOffset + nBits ≤ p → dst'.bit p = dst.bit p

/-- The copied words and the rest lie inside both sets, and what is copied behind the range is there
    already. -/
structure CopyRangeOk (dst : Bitset) (dstOffset : ℕ) (src : Bitset) (srcOffset nBits : ℕ) :
    Prop where
  rest : nBits % 64 ≠ 0
  src_room : srcOffset + 64 * (src.width / 64) < src.width
  dst_room : dstOffset + 64 * (src.width / 64) < dst.width
  surplus : ∀ j, nBits ≤ j → j < 64 * (src.width / 64) + nBits % 64 → dstOffset + j < dst.width →
    dst.bit (dstOffset + j) = src.bitBelow (srcOffset + j)

theorem copyRange_guards (h1 : 1 ≤ nBits) (hs : srcOffset + nBits ≤ src.width)
    (hd : dstOffset + nBits ≤ dst.width) :
    u32Sub (u32Add srcOffset nBits) 1 < src.width ∧ u32Sub (u32Add dstOffset nBits) 1 < dst.width := by
  have hsmall := src.width_lt
  have hsmall' := dst.width_lt
  rw [u32Add_of_lt (by omega), u32Add_of_lt (by omega), u32Sub_of_le (by omega) (by omega),
    u32Sub_of_le (by omega) (by omega)]
  omega

/-- What the call copies when its inner calls are in order. -/
theorem copyRange_eq (h1 : 1 ≤ nBits) (hs : srcOffset + nBits ≤ src.width)
    (hd : dstOffset + nBits ≤ dst.width) (hrest : nBits % 64 ≠ 0)
    (hsrc : srcOffset + 64 * (src.width / 64) < src.width)
    (hdst : dstOffset + 64 * (src.width / 64) < dst.width) :
    ∃ dst', copyRange dst dstOffset src srcOffset nBits = some dst' ∧ dst'.width = dst.width ∧
      ∀ p, dst'.bit p = if dstOffset ≤ p ∧ p < dstOffset + (64 * (src.width / 64) + nBits % 64) ∧
          p < dst.width then src.bitBelow (srcOffset + (p - dstOffset)) else dst.bit p := by
  obtain ⟨hguard, hguard'⟩ := copyRange_guards h1 hs hd
  obtain ⟨d, hloop, hdw, hbits⟩ := copyRange_loop hsrc hdst
  obtain ⟨d', hd', hdw', hbits'⟩ := copyWord_eq
    (by omega : srcOffset + src.width / 64 * 64 < src.width)
    (by omega : dstOffset + src.width / 64 * 64 < d.width) (by omega : 1 ≤ nBits % 64)
    (by omega : nBits % 64 ≤ 64)
  refine ⟨d', ?_, hdw'.trans hdw, fun p => ?_⟩
  · rw [copyRange, guard_true hguard, guard_true hguard']
    simp only [Option.bind_eq_bind, Option.bind_some, hloop, hd']
  · rw [hbits', hbits]
    by_cases hnew : dstOffset + src.width / 64 * 64 ≤ p ∧
        p < dstOffset + src.width / 64 * 64 + nBits % 64 ∧ p < d.width
    · have hsum : srcOffset + src.width / 64 * 64 + (p - (dstOffset + src.width / 64 * 64)) =
          srcOffset + (p - dstOffset) := by omega
      rw [if_pos hnew, if_pos (by omega), hsum]
    · rw [if_neg hnew]
      split_ifs with h1 h2 h3
      · rfl
      · omega
      · omega
      · rfl

/-- For all sets, offsets and lengths that `bf_bs_copy_range` accepts, the copy is right exactly
    under `CopyRangeOk`. -/
theorem copiesRange_iff (h1 : 1 ≤ nBits) (hs : srcOffset + nBits ≤ src.width)
    (hd : dstOffset + nBits ≤ dst.width) :
    CopiesRange dst dstOffset src srcOffset nBits ↔
      CopyRangeOk dst dstOffset src srcOffset nBits := by
  have hsmall := src.width_lt
  have hsmall' := dst.width_lt
  constructor
  · rintro ⟨dst', hcall, -, -, hkeep⟩
    have hlast := (of_guard (of_guard hcall).2).2
    obtain ⟨d, hloop, hlast⟩ := Option.bind_eq_some_iff.1 hlast
    have hdw : d.width = dst.width := foldlM_invariant (P := fun d => d.width = dst.width) hloop rfl
      fun a i hi c ha hc => by
        have := List.mem_range.1 hi
        exact (copyWord_width (by omega) (by omega) hc).trans ha
    -- the rest is copied last, at the largest offsets
    obtain ⟨hsrc, hdst, hrest, -⟩ := copyWord_valid (by omega) (by omega) hlast
    obtain ⟨dst'', hcall', -, hbits⟩ := copyRange_eq h1 hs hd (by omega) (by omega) (by omega)
    obtain rfl : dst' = dst'' := Option.some.inj (hcall.symm.trans hcall')
    refine ⟨by omega, by omega, by omega, fun j hj1 hj2 hj3 => ?_⟩
    have hbit := hbits (dstOffset + j)
    rw [if_pos (by omega), hkeep _ (Or.inr (by omega)), Nat.add_sub_cancel_left] at hbit
    exact hbit
  · rintro ⟨hrest, hsrc, hdst, hsurplus⟩
    obtain ⟨dst', hcall, hw, hbits⟩ := copyRange_eq h1 hs hd hrest hsrc hdst
    refine ⟨dst', hcall, hw, fun j hj => ?_, fun p hp => ?_⟩
    · rw [hbits, if_pos (by omega), Nat.add_sub_cancel_left, bitBelow, decide_eq_true (by omega),
        Bool.true_and]
    · rw [hbits]
      split_ifs with hin
      · obtain ⟨j, rfl⟩ := Nat.exists_eq_add_of_le hin.1
        rw [Nat.add_sub_cancel_left]
        exact (hsurplus j (by omega) (by omega) hin.2.2).symm
      · rfl

/-- One bit from a set of three. -/
theorem copiesRange_iff_three :
    CopiesRange (oneWord 3 (by decide) 0) 1 (oneWord 3 (by decide) 1) 0 1 ↔
      CopyRangeOk (oneWord 3 (by decide) 0) 1 (oneWord 3 (by decide) 1) 0 1 :=
  copiesRange_iff (by decide) (by decide) (by decide)

/-- One bit from a set of 64: after a whole word the inner calls are made at offset 64. -/
theorem copiesRange_false :
    ¬ ∀ (dst : Bitset) (dstOffset : ℕ) (src : Bitset) (srcOffset nBits : ℕ), 1 ≤ nBits →
      srcOffset + nBits ≤ src.width → dstOffset + nBits ≤ dst.width →
      CopiesRange dst dstOffset src srcOffset nBits := by
  intro hclaim
  obtain ⟨dst', hcall, -⟩ := hclaim (oneWord 64 (by decide) 0) 0 (oneWord 64 (by decide) 1) 0 1
    (by decide) (by decide) (by decide)
  have hnone : (copyRange (oneWord 64 (by decide) 0) 0 (oneWord 64 (by decide) 1) 0 1).isSome =
      false := by decide +kernel
  rw [hcall] at hnone
  cases hnone

end Bitset
