import TargetUtils.Library.Runs
import TargetUtils.Bitset.FirstClear

set_option autoImplicit false

/-! # Copying

`bf_bs_copy` copies the full words and then a partial one, which it takes to be there in every case:
when the width is a multiple of 64 it lies outside both arrays. -/

namespace Bitset

variable {b dst src x y : Bitset}

/-! ## Equality -/

theorem toInt_mul {i : ℕ} (hi : i < b.length) : toInt (i * 64) = (64 * i : ℕ) ∧ 64 * i < b.width := by
  have hsmall := b.width_lt
  rw [length, bitsetArraySize] at hi
  rw [Nat.mul_comm, toInt_of_lt (by omega)]
  exact ⟨rfl, by omega⟩

/-- Two words of the same place are equal when their bits below the width are. -/
theorem getWord_eq_iff {i : ℕ} (hw : x.width = y.width) (hi : i < x.length) :
    ∃ v v', x.getWord (toInt (i * 64)) 64 = some v ∧ y.getWord (toInt (i * 64)) 64 = some v' ∧
      (v = v' ↔ ∀ p, 64 * i ≤ p → p < 64 * (i + 1) → p < x.width → x.bit p = y.bit p) := by
  obtain ⟨hint, hlt⟩ := toInt_mul hi
  obtain ⟨v, hv, hbits⟩ := getWord_eq hlt (by decide : 1 ≤ 64) le_rfl
  obtain ⟨v', hv', hbits'⟩ := getWord_eq (hw ▸ hlt : 64 * i < y.width) (by decide : 1 ≤ 64) le_rfl
  rw [hint]
  refine ⟨v, v', hv, hv', ?_⟩
  constructor
  · rintro rfl p hlo hhi hpw
    obtain ⟨j, rfl⟩ := Nat.exists_eq_add_of_le hlo
    have hj := (hbits j).symm.trans (hbits' j)
    rwa [← hw, decide_eq_true (by omega), Bool.true_and, Bool.true_and] at hj
  · intro h
    refine BitVec.eq_of_getLsbD_eq fun j hj => ?_
    rw [hbits, hbits', ← hw]
    by_cases hin : j < min (x.width - 64 * i) 64
    · rw [h (64 * i + j) (by omega) (by omega) (by omega)]
    · rw [decide_eq_false hin, Bool.false_and, Bool.false_and]

theorem equalLoop_eq (hw : x.width = y.width) (k i : ℕ) (hik : i + k ≤ x.length) :
    ∃ e, equalLoop x y k i = some e ∧ (e = true ↔
      ∀ p, 64 * i ≤ p → p < 64 * (i + k) → p < x.width → x.bit p = y.bit p) := by
  induction k generalizing i with
  | zero =>
      refine ⟨true, rfl, iff_of_true rfl fun p hlo hhi => ?_⟩
      omega
  | succ k ih =>
      obtain ⟨v, v', hv, hv', heq⟩ := getWord_eq_iff hw (by omega : i < x.length)
      have hcall : equalLoop x y (k + 1) i = if v ≠ v' then some false else equalLoop x y k (i + 1) := by
        rw [equalLoop, hv, hv']
        rfl
      by_cases hne : v = v'
      · obtain ⟨e, he, hrest⟩ := ih (i + 1) (by omega)
        refine ⟨e, ?_, hrest.trans ⟨fun h p hlo hhi hpw => ?_, fun h p hlo hhi => ?_⟩⟩
        · rw [hcall, if_neg (not_not.2 hne), he]
        · by_cases hp : p < 64 * (i + 1)
          · exact heq.1 hne p hlo hp hpw
          · exact h p (by omega) (by omega) hpw
        · exact h p (by omega) (by omega)
      · refine ⟨false, by rw [hcall, if_pos hne], iff_of_false Bool.false_ne_true fun h => ?_⟩
        exact hne (heq.2 fun p hlo hhi hpw => h p hlo (by omega) hpw)

/-- `bf_bs_equal` compares the bits below the width and keeps them. -/
theorem equal_eq (hw : x.width = y.width) :
    ∃ e x' y', equal x y = some (e, x', y') ∧ x.maskTop = some x' ∧ y.maskTop = some y' ∧
      (e = true ↔ ∀ p < x.width, x.bit p = y.bit p) := by
  obtain ⟨x', hx, hxw, hxb⟩ := maskTop_eq x
  obtain ⟨y', hy, hyw, hyb⟩ := maskTop_eq y
  have hlen : x'.length = (x.width + 63) / 64 := by rw [length, bitsetArraySize, hxw]
  obtain ⟨e, he, hiff⟩ := equalLoop_eq (by rw [hxw, hyw, hw] : x'.width = y'.width) x'.length 0
    (by omega)
  refine ⟨e, x', y', ?_, hx, hy, hiff.trans ⟨fun h p hp => ?_, fun h p _ _ hp => ?_⟩⟩
  · rw [equal, if_neg (not_not.2 hw), hx, Option.bind_eq_bind, Option.bind_some, hy,
      Option.bind_eq_bind, Option.bind_some, he]
    rfl
  · have hbit := h p (by omega) (by omega) (by omega)
    rwa [hxb, hyb, ← hw, decide_eq_true hp, Bool.true_and, Bool.true_and] at hbit
  · rw [hxw] at hp
    rw [hxb, hyb, ← hw, h p hp]

/-! ## Copying a set -/

/-- The copy uses no word outside the arrays, and then the two sets are equal. -/
def CopiesAll (dst src : Bitset) : Prop :=
  ∃ dst', dst.copy src = some dst' ∧ (∃ x y, equal dst' src = some (true, x, y)) ∧
    ∀ p < src.width, dst'.get p = src.get p

/-- The loop over the full words. -/
theorem copy_loop (hw : src.width = dst.width) {n : ℕ} (hn : n ≤ src.width / 64) :
    ∃ dst', (List.range n).foldlM (fun (dst : Bitset) i => do
        let word ← src.word i
        dst.modifyWord i fun _ => word) dst = some dst' ∧ dst'.width = dst.width ∧
      ∀ p, dst'.bit p = if p < 64 * n then src.bit p else dst.bit p := by
  refine foldlM_range (P := fun i (d : Bitset) => d.width = dst.width ∧
    ∀ p, d.bit p = if p < 64 * i then src.bit p else dst.bit p) ⟨rfl, fun p => ?_⟩ ?_
  · rw [if_neg (by omega)]
  rintro i hi d ⟨hdw, hd⟩
  have hsrc : i < src.length := by
    rw [length, bitsetArraySize]
    omega
  have hdst : i < d.length := by rwa [length, hdw, ← hw]
  obtain ⟨d', hd', hdw', hbits⟩ := modifyWord_eq hdst (f := fun _ => src.bs.getD i 0)
    (g := fun j _ => (src.bs.getD i 0).getLsbD j) fun _ _ _ => rfl
  refine ⟨d', ?_, hdw'.trans hdw, fun p => ?_⟩
  · rw [word_eq hsrc, Option.bind_eq_bind, Option.bind_some, hd']
  · rw [hbits, hd]
    by_cases hp : p / 64 = i
    · have hsum : 64 * i + p % 64 = p := by omega
      rw [if_pos hp, if_pos (by omega), getLsbD_getD (Nat.mod_lt p (by decide)), hsum]
    · rw [if_neg hp]
      split_ifs with h1 h2 h3
      · rfl
      · omega
      · omega
      · rfl

/-- With a partial last word every bit below the width is copied. -/
theorem copy_eq (hw : src.width = dst.width) (hpart : src.width % 64 ≠ 0) :
    ∃ dst', dst.copy src = some dst' ∧ dst'.width = dst.width ∧
      ∀ p < src.width, dst'.bit p = src.bit p := by
  obtain ⟨d, hloop, hdw, hd⟩ := copy_loop hw (le_refl (src.width / 64))
  have hsrc : src.width / 64 < src.length := by
    rw [length, bitsetArraySize]
    omega
  have hdst : src.width / 64 < d.length := by rwa [length, hdw, ← hw]
  obtain ⟨d', hd', hdw', hbits⟩ := modifyWord_eq hdst
    (f := fun _ => src.bs.getD (src.width / 64) 0 &&& WordArray.lowMask (src.width % 64))
    (g := fun j _ => (src.bs.getD (src.width / 64) 0 &&&
      WordArray.lowMask (src.width % 64)).getLsbD j) fun _ _ _ => rfl
  refine ⟨d', ?_, hdw'.trans hdw, fun p hp => ?_⟩
  · rw [copy, guard_true hw]
    simp only [Option.bind_eq_bind, Option.bind_some] at hloop ⊢
    rw [hloop, Option.bind_some, word_eq hsrc, Option.bind_some,
      lowBits_eq (Nat.mod_lt _ (by decide)), Option.bind_some, hd']
  · rw [hbits, hd]
    by_cases hlast : p / 64 = src.width / 64
    · have hsum : 64 * (src.width / 64) + p % 64 = p := by omega
      have hmod : p % 64 < 64 := Nat.mod_lt p (by decide)
      rw [if_pos hlast, BitVec.getLsbD_and, WordArray.getLsbD_lowMask _ hmod, getLsbD_getD hmod,
        hsum, decide_eq_true (by omega), Bool.and_true]
    · rw [if_neg hlast, if_pos (by omega)]

/-- For every width and contents the copy is right unless the width is a multiple of 64, when it
    uses a word behind the end of both arrays. -/
theorem copiesAll_iff (hw : src.width = dst.width) : dst.CopiesAll src ↔ src.width % 64 ≠ 0 := by
  constructor
  · rintro ⟨dst', hcopy, -⟩ hfull
    obtain ⟨-, h⟩ := of_guard hcopy
    obtain ⟨d, -, h⟩ := Option.bind_eq_some_iff.1 h
    obtain ⟨word, hword, -⟩ := Option.bind_eq_some_iff.1 h
    rw [word_eq_none (by rw [length, bitsetArraySize]; omega)] at hword
    cases hword
  · intro hpart
    obtain ⟨dst', hcopy, hdw, hbits⟩ := copy_eq hw hpart
    obtain ⟨e, x', y', hequal, -, -, hiff⟩ := equal_eq (hdw.trans hw.symm)
    obtain rfl : e = true := hiff.2 fun p hp => hbits p (by omega)
    refine ⟨dst', hcopy, ⟨x', y', hequal⟩, fun p hp => ?_⟩
    rw [get_eq (by omega), get_eq hp, hbits p hp]

theorem copiesAll_iff_three :
    (oneWord 3 (by decide) 0).CopiesAll (oneWord 3 (by decide) 5) ↔
      (oneWord 3 (by decide) 5).width % 64 ≠ 0 :=
  copiesAll_iff rfl

/-- The copy of a set of 64 bits uses word 1 of an array of one word. -/
theorem copiesAll_false :
    ¬ ∀ dst src : Bitset, src.width = dst.width → dst.CopiesAll src := by
  intro hclaim
  obtain ⟨dst', hcopy, -⟩ := hclaim (oneWord 64 (by decide) 0) (oneWord 64 (by decide) 5) rfl
  have hnone : ((oneWord 64 (by decide) 0).copy (oneWord 64 (by decide) 5)).isSome = false := by
    decide +kernel
  rw [hcopy] at hnone
  cases hnone

end Bitset
