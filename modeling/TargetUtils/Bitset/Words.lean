import TargetUtils.Bitset.Basic

set_option autoImplicit false

/-! # Words of a bitset, bit by bit -/

namespace Bitset

open WordArray

variable {b : Bitset} {i p : ℕ}

/-- Bit `p` of the backing words, also at or above the width. -/
def bit (b : Bitset) (p : ℕ) : Bool := WordArray.bit b.bs p

/-! ## Access -/

theorem length_pos (b : Bitset) : 0 < b.length := by
  have := b.width_pos
  rw [length, bitsetArraySize]
  omega

theorem div_lt_length (h : p < b.width) : p / 64 < b.length := by
  rw [length, bitsetArraySize]
  omega

theorem word_eq (hi : i < b.length) : b.word i = some (b.bs.getD i 0) := by
  rw [length, ← b.length_eq] at hi
  rw [word, List.getD_eq_getElem?_getD, List.getElem?_eq_getElem hi, Option.getD_some]

theorem word_eq_none (hi : b.length ≤ i) : b.word i = none := by
  rw [length, ← b.length_eq] at hi
  exact List.getElem?_eq_none hi

theorem getLsbD_getD {j : ℕ} (hj : j < 64) : (b.bs.getD i 0).getLsbD j = b.bit (64 * i + j) :=
  (bit_mul_add b.bs hj).symm

/-- A change of word `i` whose bits depend on the old bits at their place. -/
theorem modifyWord_eq (hi : i < b.length) {f : Word → Word} {g : ℕ → Bool → Bool}
    (hf : ∀ x j, j < 64 → (f x).getLsbD j = g j (x.getLsbD j)) :
    ∃ b', b.modifyWord i f = some b' ∧ b'.width = b.width ∧
      ∀ p, b'.bit p = if p / 64 = i then g (p % 64) (b.bit p) else b.bit p := by
  rw [length, ← b.length_eq] at hi
  refine ⟨_, if_pos hi, rfl, fun p => (bit_set hi _ p).trans ?_⟩
  split_ifs with hp
  · rw [hf _ _ (Nat.mod_lt p (by decide)), bit, WordArray.bit, hp]
  · rfl

/-! ## Masks and shifts -/

theorem shl_eq {n : ℕ} (x : Word) (hn : n < 64) : shl x n = some (x <<< n) := if_pos hn

theorem shr_eq {n : ℕ} (x : Word) (hn : n < 64) : shr x n = some (x >>> n) := if_pos hn

theorem lowBits_eq {n : ℕ} (hn : n < 64) : lowBits n = some (lowMask n) := by
  rw [lowBits, shl_eq _ hn]
  rfl

/-- Clear the bits of `clear` in word `i` and set those of `val`. -/
theorem modifyWord_replace (hi : i < b.length) (clear val : Word) :
    ∃ b₁ b₂, b.modifyWord i (· &&& ~~~clear) = some b₁ ∧ b₁.modifyWord i (· ||| val) = some b₂ ∧
      b₂.width = b.width ∧ ∀ p, b₂.bit p =
        if p / 64 = i then (b.bit p && !clear.getLsbD (p % 64)) || val.getLsbD (p % 64)
        else b.bit p := by
  obtain ⟨b₁, h₁, hw₁, hb₁⟩ := modifyWord_eq hi (f := (· &&& ~~~clear))
    (g := fun j x => x && !clear.getLsbD j) fun x j hj => by
      rw [BitVec.getLsbD_and, BitVec.getLsbD_not, decide_eq_true hj, Bool.true_and]
  have hi₁ : i < b₁.length := by rwa [length, hw₁]
  obtain ⟨b₂, h₂, hw₂, hb₂⟩ := modifyWord_eq hi₁ (f := (· ||| val))
    (g := fun j x => x || val.getLsbD j) fun x j _ => BitVec.getLsbD_or
  refine ⟨b₁, b₂, h₁, h₂, hw₂.trans hw₁, fun p => ?_⟩
  rw [hb₂, hb₁]
  split_ifs with hp
  · rfl
  · rfl

/-- `bf_bs_get` below the width. -/
theorem get_eq (hp : p < b.width) : b.get p = some (b.bit p) := by
  have hmod : p % 64 < 64 := Nat.mod_lt p (by decide)
  rw [get, if_neg (by omega)]
  simp only [Int.toNat_natCast, word_eq (div_lt_length hp), shr_eq _ hmod, Option.bind_eq_bind,
    Option.bind_some, Option.pure_def]
  rw [BitVec.getLsbD_ushiftRight, Nat.add_zero, getLsbD_getD hmod, Nat.div_add_mod]

/-! ## Assertions -/

theorem guard_true {q : Prop} [Decidable q] (hq : q) : (guard q : Option Unit) = some () :=
  if_pos hq

theorem of_guard {α : Type*} {q : Prop} [Decidable q] {f : Unit → Option α} {a : α}
    (h : (guard q : Option Unit).bind f = some a) : q ∧ f () = some a := by
  by_cases hq : q
  · rw [guard_true hq, Option.bind_some] at h
    exact ⟨hq, h⟩
  · rw [guard, if_neg hq] at h
    cases h

/-! ## Writing up to 64 bits -/

/-- The value and the bits to clear, as `bf_bs_set_word` computes them for `n` bits. -/
theorem setWord_mask (val : Word) {n : ℕ} (hn : n ≤ 64) :
    ∃ v clear : Word, (if n < 64 then (lowBits n).map fun mask => (val &&& mask, mask)
      else some (val, BitVec.allOnes 64)) = some (v, clear) ∧
        (∀ j, v.getLsbD j = (decide (j < n) && val.getLsbD j)) ∧
          ∀ j < 64, clear.getLsbD j = decide (j < n) := by
  by_cases hlt : n < 64
  · refine ⟨_, _, by rw [if_pos hlt, lowBits_eq hlt, Option.map_some], fun j => ?_, fun j hj =>
      getLsbD_lowMask n hj⟩
    by_cases hj : j < 64
    · rw [BitVec.getLsbD_and, getLsbD_lowMask n hj, Bool.and_comm]
    · rw [BitVec.getLsbD_of_ge _ j (by omega), BitVec.getLsbD_of_ge _ j (by omega), Bool.and_false]
  · obtain rfl : n = 64 := by omega
    refine ⟨_, _, if_neg hlt, fun j => ?_, fun j hj => BitVec.getLsbD_allOnes⟩
    by_cases hj : j < 64
    · rw [decide_eq_true hj, Bool.true_and]
    · rw [BitVec.getLsbD_of_ge _ j (by omega), Bool.and_false]

/-- The bits written in the word of the position, -/
theorem setWord_first {position n : ℕ} {old : Bool} {val v clear : Word}
    (hv : ∀ j, v.getLsbD j = (decide (j < n) && val.getLsbD j))
    (hclear : ∀ j < 64, clear.getLsbD j = decide (j < n)) (hp : p / 64 = position / 64) :
    ((old && !(clear <<< (position % 64)).getLsbD (p % 64)) ||
        (v <<< (position % 64)).getLsbD (p % 64)) =
      if position ≤ p ∧ p < position + n then val.getLsbD (p - position) else old := by
  have hj : p % 64 < 64 := Nat.mod_lt p (by decide)
  rw [BitVec.getLsbD_shiftLeft, BitVec.getLsbD_shiftLeft, decide_eq_true hj, Bool.true_and]
  by_cases hle : p % 64 < position % 64
  · rw [decide_eq_true hle, if_neg (by omega)]
    simp
  · have hsub : p % 64 - position % 64 = p - position := by omega
    rw [decide_eq_false hle, Bool.not_false, Bool.true_and, hclear _ (by omega), hv, hsub]
    split_ifs with hin
    · rw [decide_eq_true (by omega)]
      simp
    · rw [decide_eq_false (by omega)]
      simp

/-- and those that spill into the next word. -/
theorem setWord_spill {position n : ℕ} {old : Bool} {val v : Word} (hn : n ≤ 64)
    (hspill : position % 64 + n > 64) (hv : ∀ j, v.getLsbD j = (decide (j < n) && val.getLsbD j))
    (hp : p / 64 = position / 64 + 1) :
    ((old && !(lowMask (position % 64 + n - 64) : Word).getLsbD (p % 64)) ||
        (v >>> (n - (position % 64 + n - 64))).getLsbD (p % 64)) =
      if position ≤ p ∧ p < position + n then val.getLsbD (p - position) else old := by
  have hj : p % 64 < 64 := Nat.mod_lt p (by decide)
  have hsub : n - (position % 64 + n - 64) + p % 64 = p - position := by omega
  rw [getLsbD_lowMask _ hj, BitVec.getLsbD_ushiftRight, hv, hsub]
  split_ifs with hin
  · rw [decide_eq_true (by omega), decide_eq_true (by omega)]
    simp
  · rw [decide_eq_false (by omega), decide_eq_false (by omega)]
    simp

theorem setWord_eq {position size : ℕ} (val : Word) (hpos : position < b.width) (h1 : 1 ≤ size)
    (h64 : size ≤ 64) :
    ∃ b', b.setWord position size val = some b' ∧ b'.width = b.width ∧ ∀ p, b'.bit p =
      if position ≤ p ∧ p < position + min (b.width - position) size then
        val.getLsbD (p - position)
      else b.bit p := by
  obtain ⟨n, hn⟩ : ∃ n, n = min (b.width - position) size := ⟨_, rfl⟩
  rw [← hn]
  have hmod : position % 64 < 64 := Nat.mod_lt _ (by decide)
  obtain ⟨v, clear, hmask, hv, hclear⟩ := setWord_mask val (by omega : n ≤ 64)
  obtain ⟨b₁, b₂, h₁, h₂, hw₂, hb₂⟩ := modifyWord_replace (div_lt_length hpos)
    (clear <<< (position % 64)) (v <<< (position % 64))
  have hfirst : b.setWord position size val =
      if position % 64 + n > 64 then (do
        let clear ← lowBits (position % 64 + n - 64)
        let b ← b₂.modifyWord (position / 64 + 1) (· &&& ~~~clear)
        let high ← shr v (n - (position % 64 + n - 64))
        b.modifyWord (position / 64 + 1) (· ||| high))
      else some b₂ := by
    have hp : (0 : ℤ) ≤ position ∧ (position : ℤ) < b.width := by omega
    have hs : (0 : ℤ) < size ∧ (size : ℤ) ≤ 64 := by omega
    simp only [setWord, guard_true hp, guard_true hs, Int.toNat_natCast, ← hn, hmask, shl_eq _ hmod,
      h₁, h₂, Option.bind_eq_bind, Option.bind_some, Option.pure_def]
  by_cases hspill : position % 64 + n > 64
  · have hi : position / 64 + 1 < b₂.length := by
      rw [length, hw₂, bitsetArraySize]
      omega
    obtain ⟨b₃, b₄, h₃, h₄, hw₄, hb₄⟩ := modifyWord_replace hi
      (lowMask (position % 64 + n - 64)) (v >>> (n - (position % 64 + n - 64)))
    refine ⟨b₄, ?_, hw₄.trans hw₂, fun p => ?_⟩
    · simp only [hfirst, if_pos hspill, lowBits_eq (by omega : position % 64 + n - 64 < 64), h₃,
        shr_eq v (by omega : n - (position % 64 + n - 64) < 64), h₄, Option.bind_eq_bind,
        Option.bind_some]
    · rw [hb₄, hb₂]
      by_cases hp : p / 64 = position / 64
      · rw [if_neg (by omega), if_pos hp]
        exact setWord_first hv hclear hp
      · rw [if_neg hp]
        by_cases hp' : p / 64 = position / 64 + 1
        · rw [if_pos hp']
          exact setWord_spill (by omega) hspill hv hp'
        · rw [if_neg hp', if_neg (by omega)]
  · refine ⟨b₂, by rw [hfirst, if_neg hspill], hw₂, fun p => ?_⟩
    rw [hb₂]
    by_cases hp : p / 64 = position / 64
    · rw [if_pos hp]
      exact setWord_first hv hclear hp
    · rw [if_neg hp, if_neg (by omega)]

/-- What `bf_bs_set_word` asserts. -/
theorem setWord_valid {b' : Bitset} {position size : ℤ} {val : Word}
    (h : b.setWord position size val = some b') :
    (0 ≤ position ∧ position < b.width) ∧ 0 < size ∧ size ≤ 64 := by
  obtain ⟨hpos, h⟩ := of_guard h
  exact ⟨hpos, (of_guard h).1⟩

/-! ## Reading up to 64 bits -/

/-- What `bf_bs_get_word` asserts. -/
theorem getWord_valid {bitOffset nBits : ℤ} {v : Word} (h : b.getWord bitOffset nBits = some v) :
    (0 ≤ bitOffset ∧ bitOffset < b.width) ∧ 0 < nBits ∧ nBits ≤ 64 := by
  obtain ⟨hoff, h⟩ := of_guard h
  exact ⟨hoff, (of_guard h).1⟩

/-- The bits shifted out of the word of the offset, -/
theorem getWord_first {bitOffset j : ℕ} (hj : bitOffset % 64 + j < 64) :
    ((b.bs.getD (bitOffset / 64) 0) >>> (bitOffset % 64)).getLsbD j = b.bit (bitOffset + j) := by
  have hsum : 64 * (bitOffset / 64) + (bitOffset % 64 + j) = bitOffset + j := by omega
  rw [BitVec.getLsbD_ushiftRight, getLsbD_getD hj, hsum]

/-- and with those of the next word behind them. -/
theorem getWord_spill {bitOffset j : ℕ} (hj : j < 64) (hmod : 0 < bitOffset % 64) :
    ((b.bs.getD (bitOffset / 64) 0) >>> (bitOffset % 64) |||
        (b.bs.getD (bitOffset / 64 + 1) 0) <<< (64 - bitOffset % 64)).getLsbD j =
      b.bit (bitOffset + j) := by
  have hlt : bitOffset % 64 < 64 := Nat.mod_lt _ (by decide)
  rw [BitVec.getLsbD_or, BitVec.getLsbD_shiftLeft, decide_eq_true hj, Bool.true_and]
  by_cases hfirst : bitOffset % 64 + j < 64
  · rw [getWord_first hfirst, decide_eq_true (by omega)]
    simp
  · have hsum : 64 * (bitOffset / 64 + 1) + (j - (64 - bitOffset % 64)) = bitOffset + j := by omega
    rw [BitVec.getLsbD_ushiftRight, BitVec.getLsbD_of_ge _ _ (by omega), Bool.false_or,
      decide_eq_false (by omega), Bool.not_false, Bool.true_and, getLsbD_getD (by omega), hsum]

theorem getWord_eq {bitOffset nBits : ℕ} (hoff : bitOffset < b.width) (h1 : 1 ≤ nBits)
    (h64 : nBits ≤ 64) :
    ∃ v, b.getWord bitOffset nBits = some v ∧ ∀ j, v.getLsbD j =
      (decide (j < min (b.width - bitOffset) nBits) && b.bit (bitOffset + j)) := by
  obtain ⟨n, hn⟩ : ∃ n, n = min (b.width - bitOffset) nBits := ⟨_, rfl⟩
  rw [← hn]
  have hlt : bitOffset % 64 < 64 := Nat.mod_lt _ (by decide)
  have hword := word_eq (div_lt_length hoff)
  -- the word before the mask
  obtain ⟨word, hinner, hbits⟩ : ∃ word, (if bitOffset % 64 ≠ 0 then
      (shr (b.bs.getD (bitOffset / 64) 0) (bitOffset % 64)).bind fun word =>
        if bitOffset % 64 + n > 64 then
          (b.word (bitOffset / 64 + 1)).bind fun word2 =>
            (shl word2 (n - (bitOffset % 64 + n - 64))).bind fun high => some (word ||| high)
        else some word
      else some (b.bs.getD (bitOffset / 64) 0)) = some word ∧
        ∀ j < n, word.getLsbD j = b.bit (bitOffset + j) := by
    by_cases hmod : bitOffset % 64 ≠ 0
    · rw [if_pos hmod, shr_eq _ hlt, Option.bind_some]
      by_cases hspill : bitOffset % 64 + n > 64
      · have hnext : bitOffset / 64 + 1 < b.length := by
          rw [length, bitsetArraySize]
          omega
        have hshift : n - (bitOffset % 64 + n - 64) = 64 - bitOffset % 64 := by omega
        refine ⟨_, by rw [if_pos hspill, word_eq hnext, Option.bind_some, hshift,
          shl_eq _ (by omega), Option.bind_some], fun j hj => ?_⟩
        exact getWord_spill (by omega) (by omega)
      · exact ⟨_, if_neg hspill, fun j hj => getWord_first (by omega)⟩
    · refine ⟨_, if_neg hmod, fun j hj => ?_⟩
      have hsum : 64 * (bitOffset / 64) + j = bitOffset + j := by omega
      rw [getLsbD_getD (by omega), hsum]
  have hoff' : (0 : ℤ) ≤ bitOffset ∧ (bitOffset : ℤ) < b.width := by omega
  have hbits' : (0 : ℤ) < nBits ∧ (nBits : ℤ) ≤ 64 := by omega
  have hget : b.getWord bitOffset nBits =
      if n < 64 then (lowBits n).map (word &&& ·) else some word := by
    simp only [getWord, guard_true hoff', guard_true hbits', Int.toNat_natCast, ← hn, hword,
      Option.bind_eq_bind, Option.bind_some, Option.pure_def, hinner]
    rw [Option.map_eq_bind]
    rfl
  by_cases hfull : n < 64
  · refine ⟨word &&& lowMask n, by rw [hget, if_pos hfull, lowBits_eq hfull]; rfl, fun j => ?_⟩
    rw [BitVec.getLsbD_and]
    by_cases hj : j < n
    · rw [getLsbD_lowMask n (by omega), hbits j hj, Bool.and_comm]
    · rw [decide_eq_false hj, Bool.false_and]
      by_cases hj' : j < 64
      · rw [getLsbD_lowMask n hj', decide_eq_false hj, Bool.and_false]
      · rw [BitVec.getLsbD_of_ge _ _ (by omega), Bool.false_and]
  · refine ⟨word, by rw [hget, if_neg hfull], fun j => ?_⟩
    by_cases hj : j < n
    · rw [hbits j hj, decide_eq_true hj, Bool.true_and]
    · rw [decide_eq_false hj, Bool.false_and, BitVec.getLsbD_of_ge _ _ (by omega)]

/-! ## Words and single bits -/

/-- What is written by `bf_bs_set_word` is what `bf_bs_get` reads, no other stored bit changes, and
    `bf_bs_get_word` reads what `bf_bs_get` does. Both clip to the width, and neither uses a word
    outside the array or shifts by 64. -/
theorem wordAccess (b : Bitset) {position size bitOffset nBits : ℕ} (val : Word)
    (hpos : position < b.width) (hsize : 1 ≤ size ∧ size ≤ 64) (hoff : bitOffset < b.width)
    (hbits : 1 ≤ nBits ∧ nBits ≤ 64) :
    (∃ b', b.setWord position size val = some b' ∧ b'.width = b.width ∧
      (∀ j < min size (b.width - position),
        b'.get (position + j : ℕ) = some (val.getLsbD j)) ∧
      ∀ p, p < position ∨ position + min size (b.width - position) ≤ p → b'.bit p = b.bit p) ∧
    ∃ v, b.getWord bitOffset nBits = some v ∧
      (∀ j < min nBits (b.width - bitOffset),
        b.get (bitOffset + j : ℕ) = some (v.getLsbD j)) ∧
      ∀ j, min nBits (b.width - bitOffset) ≤ j → v.getLsbD j = false := by
  obtain ⟨b', hset, hw, hwrite⟩ := setWord_eq val hpos hsize.1 hsize.2
  obtain ⟨v, hget, hread⟩ := getWord_eq hoff hbits.1 hbits.2
  refine ⟨⟨b', hset, hw, fun j hj => ?_, fun p hp => ?_⟩, v, hget, fun j hj => ?_, fun j hj => ?_⟩
  · rw [get_eq (by omega), hwrite, if_pos (by omega), Nat.add_sub_cancel_left]
  · rw [hwrite, if_neg (by omega)]
  · rw [get_eq (by omega), hread, decide_eq_true (by omega), Bool.true_and]
  · rw [hread, decide_eq_false (by omega), Bool.false_and]

/-- Eight bits at 60 in a set of 70, over two words. -/
theorem wordAccess_spill :
    ∃ b', (⟨70, [0, 0], by decide, by decide, rfl⟩ : Bitset).setWord (60 : ℕ) (8 : ℕ) 255 = some b' ∧
      ∀ j < min 8 (70 - 60), b'.get (60 + j : ℕ) = some ((255 : Word).getLsbD j) := by
  have hpos : 60 < (⟨70, [0, 0], by decide, by decide, rfl⟩ : Bitset).width := by decide
  obtain ⟨⟨b', hset, -, hwrite, -⟩, -⟩ := wordAccess _ 255 hpos
    (by decide : 1 ≤ 8 ∧ 8 ≤ 64) hpos (by decide : 1 ≤ 8 ∧ 8 ≤ 64)
  exact ⟨b', hset, hwrite⟩

end Bitset
