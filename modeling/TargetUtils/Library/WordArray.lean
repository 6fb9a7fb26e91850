import Mathlib.Data.List.Basic
import Mathlib.Tactic.SplitIfs

set_option autoImplicit false

/-! # Bits of word arrays

A list of words of `w` bits read as one sequence of bits: bit `p` is bit `p % w` of word `p / w`,
and bits behind the last word are clear. Writing one word changes the bits of that word only. Also
the mask of the low bits of a word and the search for its lowest set bit. -/

namespace WordArray

variable {w : ℕ}

/-- Bit `p` of the array. -/
def bit (l : List (BitVec w)) (p : ℕ) : Bool := (l.getD (p / w) 0).getLsbD (p % w)

theorem div_mod_of_lt {i j : ℕ} (hj : j < w) : (w * i + j) / w = i ∧ (w * i + j) % w = j := by
  have hw : 0 < w := Nat.zero_lt_of_lt hj
  refine ⟨?_, ?_⟩
  · rw [Nat.mul_add_div hw, Nat.div_eq_of_lt hj, Nat.add_zero]
  · rw [Nat.mul_add_mod, Nat.mod_eq_of_lt hj]

theorem bit_mul_add (l : List (BitVec w)) {i j : ℕ} (hj : j < w) :
    bit l (w * i + j) = (l.getD i 0).getLsbD j := by
  rw [bit, (div_mod_of_lt hj).1, (div_mod_of_lt hj).2]

theorem bit_of_length_le {l : List (BitVec w)} {p : ℕ} (h : l.length ≤ p / w) :
    bit l p = false := by
  rw [bit, List.getD_eq_getElem?_getD, List.getElem?_eq_none h]
  exact BitVec.getLsbD_zero

/-- Writing word `i`. -/
theorem bit_set {l : List (BitVec w)} {i : ℕ} (hi : i < l.length) (v : BitVec w) (p : ℕ) :
    bit (l.set i v) p = if p / w = i then v.getLsbD (p % w) else bit l p := by
  simp only [bit, List.getD_eq_getElem?_getD, List.getElem?_set]
  split_ifs with h1 h2 h3
  · rfl
  · exact absurd h1.symm h2
  · exact absurd h3.symm h1
  · rfl

/-! ## Masks -/

/-- The word with the low `n` bits set. -/
def lowMask (n : ℕ) : BitVec w := (1#w <<< n) - 1#w

theorem getLsbD_lowMask (n : ℕ) {j : ℕ} (hj : j < w) :
    (lowMask n : BitVec w).getLsbD j = decide (j < n) := by
  have hone : 1 < 2 ^ w := Nat.one_lt_two_pow (Nat.ne_zero_of_lt hj)
  have hshift : (1#w <<< n) = BitVec.ofNat w (2 ^ n) := by
    apply BitVec.eq_of_toNat_eq
    rw [BitVec.toNat_shiftLeft, BitVec.toNat_ofNat, BitVec.toNat_ofNat, Nat.mod_eq_of_lt hone,
      Nat.one_shiftLeft]
  have hpow : (lowMask n : BitVec w) = BitVec.ofNat w (2 ^ n - 1) := by
    rw [lowMask, hshift, BitVec.ofNat_sub_ofNat_of_le _ _ hone Nat.one_le_two_pow]
  rw [hpow, BitVec.getLsbD_ofNat, Nat.testBit_two_pow_sub_one]
  simp [hj]

/-! ## The lowest set bit -/

/-- One more than the index of the lowest set bit, 0 for the zero word. -/
def ffs (v : BitVec w) : ℕ := ((List.range w).find? fun j => v.getLsbD j).elim 0 (· + 1)

theorem ffs_cases (v : BitVec w) :
    (ffs v = 0 ∧ ∀ j < w, v.getLsbD j = false) ∨
      ∃ x < w, ffs v = x + 1 ∧ v.getLsbD x = true ∧ ∀ j < x, v.getLsbD j = false := by
  rw [ffs]
  cases h : (List.range w).find? fun j => v.getLsbD j with
  | none => exact Or.inl ⟨rfl, by simpa using h⟩
  | some x =>
      obtain ⟨hx, hmem, hleast⟩ := List.find?_range_eq_some.1 h
      exact Or.inr ⟨x, List.mem_range.1 hmem, rfl, hx, by simpa using hleast⟩

/-! ## Counting set bits -/

/-- The number of set bits. -/
def popcount (v : BitVec w) : ℕ := (List.range w).countP fun j => v.getLsbD j

/-- Counting word by word counts the positions. -/
theorem countP_range_succ_mul (l : List (BitVec w)) (i : ℕ) :
    (List.range (w * (i + 1))).countP (bit l) =
      (List.range (w * i)).countP (bit l) + popcount (l.getD i 0) := by
  rw [Nat.mul_succ, List.range_add, List.countP_append, List.countP_map, popcount]
  congr 1
  refine List.countP_congr fun j hj => ?_
  rw [Function.comp_apply, bit_mul_add l (List.mem_range.1 hj)]

/-! ## The first position in a range -/

/-- `o` is the first position from `lo` on and below `hi` at which `P` holds, if there is one. -/
def FirstIn (P : ℕ → Bool) (lo hi : ℕ) : Option ℕ → Prop
  | none => ∀ p, lo ≤ p → p < hi → P p = false
  | some p => lo ≤ p ∧ p < hi ∧ P p = true ∧ ∀ q, lo ≤ q → q < p → P q = false

variable {P : ℕ → Bool} {lo mid hi : ℕ}

theorem FirstIn.append {o : Option ℕ} (h : FirstIn P lo mid none) (h' : FirstIn P mid hi o)
    (hle : lo ≤ mid) : FirstIn P lo hi o := by
  have hbelow : ∀ p, lo ≤ p → p < mid → P p = false := h
  cases o with
  | none =>
      intro p hlo hhi
      by_cases hp : p < mid
      · exact hbelow p hlo hp
      · exact h' p (Nat.le_of_not_lt hp) hhi
  | some p =>
      obtain ⟨hmid, hhi, hP, hleast⟩ := h'
      refine ⟨Nat.le_trans hle hmid, hhi, hP, fun q hlo hq => ?_⟩
      by_cases hqm : q < mid
      · exact hbelow q hlo hqm
      · exact hleast q (Nat.le_of_not_lt hqm) hq

theorem FirstIn.mono {p : ℕ} (h : FirstIn P lo mid (some p)) (hle : mid ≤ hi) :
    FirstIn P lo hi (some p) := ⟨h.1, Nat.lt_of_lt_of_le h.2.1 hle, h.2.2⟩

/-- A first position among those below a bound. -/
theorem FirstIn.restrict {o : Option ℕ} {bound : ℕ}
    (h : FirstIn (fun p => decide (p < bound) && P p) lo hi o) (hle : bound ≤ hi) :
    FirstIn P lo bound o := by
  have hbelow : ∀ q, q < bound → (decide (q < bound) && P q) = P q := fun q hq => by
    rw [decide_eq_true hq, Bool.true_and]
  cases o with
  | none =>
      intro p hlo hhi
      rw [← hbelow p hhi]
      exact h p hlo (Nat.lt_of_lt_of_le hhi hle)
  | some p =>
      obtain ⟨hlo, -, hp, hleast⟩ := h
      obtain ⟨hhi, hP⟩ := Bool.and_eq_true_iff.1 hp
      have hpb := of_decide_eq_true hhi
      refine ⟨hlo, hpb, hP, fun q hq hqp => ?_⟩
      rw [← hbelow q (Nat.lt_trans hqp hpb)]
      exact hleast q hq hqp

/-- The search of a word whose bits below `k` are those of the positions from `base` on, and whose
    other bits are clear. -/
theorem firstIn_ffs {v : BitVec w} {base k : ℕ} (hv : ∀ j < k, v.getLsbD j = P (base + j))
    (hk : ∀ j, k ≤ j → v.getLsbD j = false) (hkw : k ≤ w) :
    FirstIn P base (base + k) (if ffs v = 0 then none else some (base + (ffs v - 1))) := by
  rcases ffs_cases v with ⟨hzero, hall⟩ | ⟨x, hx, hsucc, hset, hleast⟩
  · rw [if_pos hzero]
    intro p hlo hhi
    obtain ⟨j, rfl⟩ := Nat.exists_eq_add_of_le hlo
    have hj := Nat.add_lt_add_iff_left.1 hhi
    rw [← hv j hj]
    exact hall j (Nat.lt_of_lt_of_le hj hkw)
  · rw [hsucc, if_neg (Nat.succ_ne_zero x), Nat.add_sub_cancel]
    have hxk : x < k := by
      by_contra hge
      rw [hk x (Nat.le_of_not_lt hge)] at hset
      cases hset
    refine ⟨Nat.le_add_right .., Nat.add_lt_add_left hxk base, hv x hxk ▸ hset, fun q hlo hq => ?_⟩
    obtain ⟨j, rfl⟩ := Nat.exists_eq_add_of_le hlo
    have hj := Nat.add_lt_add_iff_left.1 hq
    rw [← hv j (Nat.lt_trans hj hxk)]
    exact hleast j hj

/-! ## All positions in a range -/

/-- The positions from `lo` on and below `hi` at which `P` holds, in increasing order. -/
def positions (P : ℕ → Bool) (lo hi : ℕ) : List ℕ := (List.range' lo (hi - lo)).filter P

theorem mem_positions {p : ℕ} : p ∈ positions P lo hi ↔ (lo ≤ p ∧ p < hi) ∧ P p = true := by
  rw [positions, List.mem_filter, List.mem_range'_1]
  refine and_congr_left fun _ => ?_
  omega

theorem positions_pairwise : (positions P lo hi).Pairwise (· < ·) := (List.pairwise_lt_range' 1).filter P

/-- No first position, no position at all; -/
theorem FirstIn.positions_nil (h : FirstIn P lo hi none) : positions P lo hi = [] := by
  refine List.filter_eq_nil_iff.2 fun p hp => ?_
  rw [List.mem_range'_1] at hp
  rw [h p hp.1 (by omega)]
  exact Bool.false_ne_true

/-- otherwise the first one comes before those behind it. -/
theorem FirstIn.positions_cons {p : ℕ} (h : FirstIn P lo hi (some p)) :
    positions P lo hi = p :: positions P (p + 1) hi := by
  obtain ⟨hlo, hhi, hp, hleast⟩ := h
  have hsum : hi - lo = (p - lo) + (hi - (p + 1) + 1) := by omega
  have hnone : FirstIn P lo p none := hleast
  have hbefore : (List.range' lo (p - lo)).filter P = [] := hnone.positions_nil
  rw [positions, hsum, ← List.range'_append_1, List.filter_append, hbefore, List.nil_append,
    Nat.add_sub_cancel' hlo, List.range'_succ, List.filter_cons_of_pos hp]
  rfl

end WordArray
