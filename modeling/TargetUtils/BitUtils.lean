import Mathlib.Data.Nat.Log
import Mathlib.Algebra.Order.Ring.Nat
import Mathlib.Tactic.Ring

set_option autoImplicit false

/-! # Machine integers and `bit_utils.h`

C integers are natural numbers below the width of their type, and every operation that can wrap
says so: `u32`/`u64` truncate, `u32Add`, `u32Sub` and `u64Sub` are the wrapping operators, and
`toInt` is the conversion of an unsigned 32-bit value to `int`.

The functions of `bit_utils.h` that are called are translated as they stand and characterized once:
`log2_uint32_ceil` is the ceiling logarithm (`log2Uint32Ceil_le_iff`) and `ctz` the exponent of the
largest power of two dividing a nonzero argument (`le_ctz_iff`). -/

/-! ## Wrapping arithmetic -/

def u32 (n : ℕ) : ℕ := n % 2 ^ 32

def u32Add (a b : ℕ) : ℕ := (a + b) % 2 ^ 32

def u32Sub (a b : ℕ) : ℕ := (a + 2 ^ 32 - b) % 2 ^ 32

def u64Add (a b : ℕ) : ℕ := (a + b) % 2 ^ 64

def u64Sub (a b : ℕ) : ℕ := (a + 2 ^ 64 - b) % 2 ^ 64

/-- `(uint32_t)-1`. -/
def u32Max : ℕ := 2 ^ 32 - 1

/-- Conversion of an unsigned value to `int` (two's complement of its low 32 bits). -/
def toInt (n : ℕ) : ℤ := if n % 2 ^ 32 < 2 ^ 31 then (n % 2 ^ 32 : ℕ) else (n % 2 ^ 32 : ℕ) - 2 ^ 32

/-- `1 << n` and `1u << n` at 32 bits; the shift count of a variable shift is taken modulo 32. -/
def shl1 (n : ℕ) : ℕ := 2 ^ (n % 32)

/-- Sign extension of a 32-bit pattern to a 64-bit word. -/
def sext32 (n : ℕ) : ℕ := if n < 2 ^ 31 then n else n + (2 ^ 64 - 2 ^ 32)

theorem u32_of_lt {n : ℕ} (h : n < 2 ^ 32) : u32 n = n := Nat.mod_eq_of_lt h

theorem u32Add_of_lt {a b : ℕ} (h : a + b < 2 ^ 32) : u32Add a b = a + b := Nat.mod_eq_of_lt h

theorem u32Sub_of_le {a b : ℕ} (h : b ≤ a) (ha : a < 2 ^ 32) : u32Sub a b = a - b := by
  unfold u32Sub
  omega

theorem u64Sub_of_le {a b : ℕ} (h : b ≤ a) (ha : a < 2 ^ 64) : u64Sub a b = a - b := by
  unfold u64Sub
  omega

theorem u64Sub_of_lt {a b : ℕ} (h : a < b) (hb : b < 2 ^ 64) :
    u64Sub a b = 2 ^ 64 - (b - a) := by
  unfold u64Sub
  omega

theorem toInt_of_lt {n : ℕ} (h : n < 2 ^ 31) : toInt n = n := by
  have hmod : n % 2 ^ 32 = n := Nat.mod_eq_of_lt (by omega)
  rw [toInt, hmod, if_pos h]

theorem shl1_of_lt {n : ℕ} (h : n < 32) : shl1 n = 2 ^ n := by
  rw [shl1, Nat.mod_eq_of_lt h]

/-- `x & ~((1ull << q) - 1)` rounds down to a multiple of `2 ^ q`. -/
theorem land_not_mask {x q : ℕ} (hx : x < 2 ^ 64) (hq : q ≤ 64) :
    x &&& (2 ^ 64 - 1 - (2 ^ q - 1)) = x / 2 ^ q * 2 ^ q := by
  have hpow : 2 ^ q ≤ 2 ^ 64 := Nat.pow_le_pow_right (by omega) hq
  have hpos : 0 < 2 ^ q := Nat.pow_pos (by omega)
  apply Nat.eq_of_testBit_eq
  intro i
  rw [show 2 ^ 64 - 1 - (2 ^ q - 1) = 2 ^ 64 - (2 ^ q - 1 + 1) by omega, Nat.testBit_and,
    Nat.testBit_two_pow_sub_succ (by omega), Nat.testBit_two_pow_sub_one, Nat.testBit_mul_two_pow,
    Nat.testBit_div_two_pow]
  by_cases hi : i < q
  · simp [hi]
  · rw [Nat.sub_add_cancel (by omega)]
    by_cases h64 : i < 64
    · simp [hi, h64, Nat.le_of_not_lt hi]
    · have hfalse : x.testBit i = false :=
        Nat.testBit_lt_two_pow (hx.trans_le (Nat.pow_le_pow_right (by omega) (by omega)))
      simp [hfalse]

/-! ## `bit_utils.h` -/

/-- `__builtin_clz` of a nonzero 32-bit argument. -/
def clz (x : ℕ) : ℕ := 31 - Nat.log2 x

/-- `log2_uint32_ceil`. -/
def log2Uint32Ceil (x : ℕ) : ℕ := if x > 1 then 32 - clz (x - 1) else 0

/-- `__builtin_ctz` of a nonzero argument: halvings until the value is odd, at most `fuel`. -/
def builtinCtz : (fuel x : ℕ) → ℕ
  | 0, _ => 0
  | fuel + 1, x => if x % 2 = 1 then 0 else builtinCtz fuel (x / 2) + 1

/-- `ctz`: the number of trailing zeroes, 32 for 0. -/
def ctz (x : ℕ) : ℕ := if x = 0 then 32 else builtinCtz 32 x

/-- `is_uint32_power2`. -/
def isUint32Power2 (x : ℕ) : Bool := decide (x > 0) && decide (x &&& (x - 1) = 0)

theorem isUint32Power2_iff (x : ℕ) : isUint32Power2 x = true ↔ ∃ k, x = 2 ^ k := by
  rw [isUint32Power2, Bool.and_eq_true, decide_eq_true_iff, decide_eq_true_iff]
  constructor
  · rintro ⟨hpos, hand⟩
    exact (Nat.and_sub_one_eq_zero_iff_isPowerOfTwo (by omega)).1 hand
  · rintro ⟨k, rfl⟩
    have hpos : 0 < 2 ^ k := Nat.pow_pos (by omega)
    exact ⟨hpos, (Nat.and_sub_one_eq_zero_iff_isPowerOfTwo (by omega)).2 ⟨k, rfl⟩⟩

theorem log2Uint32Ceil_eq_clog {x : ℕ} (hx : x < 2 ^ 32) : log2Uint32Ceil x = Nat.clog 2 x := by
  unfold log2Uint32Ceil clz
  split_ifs with h
  · have hlog : Nat.log2 (x - 1) < 32 := (Nat.log2_lt (by omega)).2 (by omega)
    have hlow : 2 ^ Nat.log2 (x - 1) ≤ x - 1 := Nat.log2_self_le (by omega)
    have hhigh : x - 1 < 2 ^ (Nat.log2 (x - 1) + 1) := Nat.lt_log2_self
    have hup : Nat.clog 2 x ≤ Nat.log2 (x - 1) + 1 :=
      Nat.clog_le_of_le_pow (by omega)
    have hdown : Nat.log2 (x - 1) < Nat.clog 2 x :=
      (Nat.lt_clog_iff_pow_lt (by omega)).2 (by omega)
    omega
  · exact (Nat.clog_of_right_le_one (by omega) 2).symm

/-- `log2_uint32_ceil` is the least exponent whose power of two reaches the argument. -/
theorem log2Uint32Ceil_le_iff {x : ℕ} (hx : x < 2 ^ 32) (c : ℕ) :
    log2Uint32Ceil x ≤ c ↔ x ≤ 2 ^ c := by
  rw [log2Uint32Ceil_eq_clog hx, Nat.clog_le_iff_le_pow (by omega)]

theorem log2Uint32Ceil_pow {c : ℕ} (hc : c < 32) : log2Uint32Ceil (2 ^ c) = c := by
  have hlt : 2 ^ c < 2 ^ 32 := Nat.pow_lt_pow_right (by omega) hc
  rw [log2Uint32Ceil_eq_clog hlt, Nat.clog_pow 2 c (by omega)]

theorem log2Uint32Ceil_le_32 {x : ℕ} (hx : x < 2 ^ 32) : log2Uint32Ceil x ≤ 32 :=
  (log2Uint32Ceil_le_iff hx 32).2 hx.le

theorem le_builtinCtz_iff {fuel x : ℕ} (hpos : 0 < x) (hx : x < 2 ^ fuel) (c : ℕ) :
    c ≤ builtinCtz fuel x ↔ 2 ^ c ∣ x := by
  induction fuel generalizing x c with
  | zero =>
      rw [Nat.pow_zero] at hx
      omega
  | succ fuel ih =>
      rw [builtinCtz]
      cases c with
      | zero => simp
      | succ c =>
          split_ifs with hodd
          · have hndvd : ¬ 2 ^ (c + 1) ∣ x := by
              intro hdvd
              have h2 : 2 ∣ x := (Nat.pow_dvd_pow 2 (by omega : 1 ≤ c + 1)).trans hdvd
              omega
            simp [hndvd]
          · have heven : x = 2 * (x / 2) := by omega
            have hhalf := ih (x := x / 2) (by omega) (by rw [Nat.pow_succ] at hx; omega) c
            rw [Nat.add_le_add_iff_right, hhalf]
            conv_rhs => rw [heven, Nat.pow_succ']
            exact (Nat.mul_dvd_mul_iff_left (by omega)).symm

/-- `ctz` bounds the exponents of the powers of two that divide the argument. -/
theorem le_ctz_iff {x : ℕ} (hx : x < 2 ^ 32) {c : ℕ} (hc : c ≤ 32) : c ≤ ctz x ↔ 2 ^ c ∣ x := by
  rw [ctz]
  split_ifs with h0
  · simp [h0, hc]
  · exact le_builtinCtz_iff (by omega) hx c

theorem ctz_pow {c : ℕ} (hc : c < 32) : ctz (2 ^ c) = c := by
  have hlt : 2 ^ c < 2 ^ 32 := Nat.pow_lt_pow_right (by omega) hc
  have hle : c ≤ ctz (2 ^ c) := (le_ctz_iff hlt (by omega)).2 (dvd_refl _)
  have hnlt : ¬ c + 1 ≤ ctz (2 ^ c) := by
    rw [le_ctz_iff hlt (by omega), Nat.pow_dvd_pow_iff_le_right (by omega)]
    omega
  omega

example : log2Uint32Ceil 5 = 3 ∧ ctz 96 = 5 := by decide
