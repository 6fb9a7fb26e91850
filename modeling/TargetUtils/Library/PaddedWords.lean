import Mathlib.Data.List.Lex
import Mathlib.Algebra.Order.Group.Nat
import Mathlib.Algebra.Order.Ring.Nat
import Mathlib.Data.Nat.Basic
import Mathlib.Tactic.SplitIfs
import Mathlib.Tactic.Ring

set_option autoImplicit false

/-! # Strings cut into zero-padded words

Strings over the nonzero digits of a base are compared word by word: the first `n` digits, padded
with zeroes at the end, are read as one big-endian number. Comparing these numbers first and the
rest of the strings after that is the lexicographic order (`lt_iff_encode`), a word whose last digit
is zero ends its string (`encode_mod_eq_zero`), and a word gives the digits back
(`decode_encode`). -/

/-! ## Prefix and rest -/

section

variable {α : Type*} [LinearOrder α]

/-- The lexicographic order looks at the first `n` elements and, where these agree, at the rest. -/
theorem List.lt_iff_take_drop (n : ℕ) (s t : List α) :
    s < t ↔ s.take n < t.take n ∨ s.take n = t.take n ∧ s.drop n < t.drop n := by
  induction n generalizing s t with
  | zero => simp
  | succ n ih =>
      cases s with
      | nil => cases t <;> simp
      | cons a s =>
          cases t with
          | nil => simp
          | cons b t =>
              simp only [List.take_succ_cons, List.drop_succ_cons, List.cons_lt_cons_iff,
                List.cons.injEq, ih s t]
              tauto

end

namespace PaddedWords

/-- The nonzero digits of base `b`. -/
abbrev Digit (b : ℕ) := {d : ℕ // 0 < d ∧ d < b}

variable {b n : ℕ} {s t : List (Digit b)}

/-- The first `n` digits as a big-endian number, with zeroes for missing ones. -/
def encode (b : ℕ) : (n : ℕ) → List (Digit b) → ℕ
  | 0, _ => 0
  | _ + 1, [] => 0
  | n + 1, d :: s => d.1 * b ^ n + encode b n s

/-- The `n` digits of a number up to the first zero. -/
def decode (b : ℕ) : (n w : ℕ) → List (Digit b)
  | 0, _ => []
  | n + 1, w =>
    if h : 0 < w / b ^ n % b ∧ w / b ^ n % b < b then ⟨w / b ^ n % b, h⟩ :: decode b n w else []

@[simp] theorem encode_nil (n : ℕ) : encode b n [] = 0 := by
  cases n <;> rfl

theorem encode_lt (hb : 0 < b) (n : ℕ) (s : List (Digit b)) : encode b n s < b ^ n := by
  induction n generalizing s with
  | zero => exact Nat.one_pos
  | succ n ih =>
      cases s with
      | nil => exact Nat.pow_pos hb
      | cons d s =>
          calc d.1 * b ^ n + encode b n s < d.1 * b ^ n + b ^ n := Nat.add_lt_add_left (ih s) _
            _ = (d.1 + 1) * b ^ n := (Nat.succ_mul _ _).symm
            _ ≤ b * b ^ n := Nat.mul_le_mul_right _ d.2.2
            _ = b ^ (n + 1) := (Nat.pow_succ').symm

/-- The leading digit decides, and where it is the same the others do. -/
theorem add_lt_add_iff {d e x y m : ℕ} (hx : x < m) (hy : y < m) :
    d * m + x < e * m + y ↔ d < e ∨ d = e ∧ x < y := by
  constructor
  · intro h
    rcases lt_trichotomy d e with hlt | rfl | hgt
    · exact Or.inl hlt
    · exact Or.inr ⟨rfl, Nat.lt_of_add_lt_add_left h⟩
    · have hle : (e + 1) * m ≤ d * m := Nat.mul_le_mul_right m hgt
      rw [Nat.succ_mul] at hle
      omega
  · rintro (hlt | ⟨rfl, hxy⟩)
    · have hle : (d + 1) * m ≤ e * m := Nat.mul_le_mul_right m hlt
      rw [Nat.succ_mul] at hle
      omega
    · exact Nat.add_lt_add_left hxy _

theorem encode_lt_encode (n : ℕ) (s t : List (Digit b)) :
    encode b n s < encode b n t ↔ s.take n < t.take n := by
  induction n generalizing s t with
  | zero => simp [encode]
  | succ n ih =>
      cases t with
      | nil => simp
      | cons e t =>
          have hb : 0 < b := e.2.1.trans e.2.2
          cases s with
          | nil =>
              have hpos : 0 < e.1 * b ^ n := Nat.mul_pos e.2.1 (Nat.pow_pos hb)
              simp only [encode, List.take_nil, List.take_succ_cons, List.nil_lt_cons, iff_true]
              exact Nat.lt_of_lt_of_le hpos (Nat.le_add_right _ _)
          | cons d s =>
              simp only [encode, List.take_succ_cons, List.cons_lt_cons_iff]
              rw [add_lt_add_iff (encode_lt hb n s) (encode_lt hb n t), ih s t,
                Subtype.mk_lt_mk.symm, Subtype.ext_iff]

theorem encode_eq_encode : encode b n s = encode b n t ↔ s.take n = t.take n := by
  have hlt := encode_lt_encode n s t
  have hgt := encode_lt_encode n t s
  constructor
  · intro h
    rw [h] at hlt hgt
    rcases lt_trichotomy (s.take n) (t.take n) with h' | h' | h'
    · exact absurd (hlt.2 h') (lt_irrefl _)
    · exact h'
    · exact absurd (hgt.2 h') (lt_irrefl _)
  · intro h
    rw [h] at hlt hgt
    rcases lt_trichotomy (encode b n s) (encode b n t) with h' | h' | h'
    · exact absurd (hlt.1 h') (lt_irrefl _)
    · exact h'
    · exact absurd (hgt.1 h') (lt_irrefl _)

/-- The order of strings: their words first, then what is behind them. -/
theorem lt_iff_encode (n : ℕ) (s t : List (Digit b)) :
    s < t ↔ encode b n s < encode b n t ∨ encode b n s = encode b n t ∧ s.drop n < t.drop n := by
  rw [encode_lt_encode, encode_eq_encode]
  exact List.lt_iff_take_drop n s t

/-- A word with a zero at the end is the last of its string. -/
theorem encode_mod_eq_zero (hn : 0 < n) : encode b n s % b = 0 ↔ s.length < n := by
  induction n generalizing s with
  | zero => exact absurd hn (lt_irrefl 0)
  | succ n ih =>
      cases s with
      | nil => simp
      | cons d s =>
          rw [encode, List.length_cons]
          cases n with
          | zero =>
              rw [Nat.pow_zero, Nat.mul_one, encode, Nat.add_zero, Nat.mod_eq_of_lt d.2.2]
              have hd := d.2.1
              omega
          | succ n =>
              have hdvd : b ∣ d.1 * b ^ (n + 1) := (dvd_pow_self b (Nat.succ_ne_zero n)).mul_left _
              rw [Nat.add_mod, Nat.mod_eq_zero_of_dvd hdvd, Nat.zero_add, Nat.mod_mod,
                ih (Nat.succ_pos n), Nat.add_lt_add_iff_right]

theorem decode_add (c w : ℕ) (hb : 0 < b) (n : ℕ) :
    decode b n (c * b ^ n + w) = decode b n w := by
  induction n generalizing c with
  | zero => rfl
  | succ n ih =>
      have hsplit : c * b ^ (n + 1) + w = c * b * b ^ n + w := by
        rw [Nat.pow_succ']
        ring
      have hdigit : (c * b * b ^ n + w) / b ^ n % b = w / b ^ n % b := by
        rw [Nat.mul_comm (c * b), Nat.mul_add_div (Nat.pow_pos hb), Nat.mul_comm c, Nat.mul_add_mod]
      rw [hsplit]
      simp only [decode, hdigit, ih (c * b)]

/-- A word gives the digits back that it was made of. -/
theorem decode_encode (n : ℕ) (s : List (Digit b)) : decode b n (encode b n s) = s.take n := by
  induction n generalizing s with
  | zero => rfl
  | succ n ih =>
      cases s with
      | nil => simp [decode]
      | cons d s =>
          have hb : 0 < b := d.2.1.trans d.2.2
          have hdigit : (d.1 * b ^ n + encode b n s) / b ^ n % b = d.1 := by
            rw [Nat.mul_comm, Nat.mul_add_div (Nat.pow_pos hb),
              Nat.div_eq_of_lt (encode_lt hb n s), Nat.add_zero, Nat.mod_eq_of_lt d.2.2]
          simp only [encode, decode, hdigit, d.2, and_self, dite_true, decode_add d.1 _ hb, ih,
            List.take_succ_cons]

end PaddedWords
