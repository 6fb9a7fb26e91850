import TargetUtils.Bitset.Words

set_option autoImplicit false

/-! # The next clear bit

`bf_bs_first_set` and `bf_bs_first_clr` scan the word of the start position, the words between, and
the top word, in which the bits above the width have been cleared. The check against the width is
only made when the top word is scanned last. A search that starts in the top word, finds every bit
below the width set and has bits above the width to look at finds the first of them clear and
returns the width (`RunsIntoPadding`). -/

namespace Bitset

open WordArray

variable {b : Bitset} {f : Word → Word} {g : Bool → Bool} {i : ℕ}

/-! ## The top word -/

theorem topWordMask_eq (b : Bitset) :
    ∃ mask, b.topWordMask = some mask ∧
      ∀ j < 64, mask.getLsbD j = decide (64 * (b.length - 1) + j < b.width) := by
  have hpos := b.width_pos
  have hmod : b.width % 64 < 64 := Nat.mod_lt _ (by decide)
  rw [topWordMask, length, bitsetArraySize]
  by_cases hpart : b.width % 64 ≠ 0
  · refine ⟨_, by rw [if_pos hpart, lowBits_eq hmod], fun j hj => ?_⟩
    rw [getLsbD_lowMask _ hj, decide_eq_decide]
    omega
  · refine ⟨_, if_neg hpart, fun j hj => ?_⟩
    rw [BitVec.getLsbD_allOnes, decide_eq_decide]
    omega

/-- A bit behind the array. -/
theorem bit_of_ge {p : ℕ} (hp : 64 * b.length ≤ p) : b.bit p = false := by
  refine bit_of_length_le ?_
  rw [b.length_eq]
  change b.length ≤ p / 64
  omega

/-- Masking the top word clears the bits at or above the width. -/
theorem maskTop_eq (b : Bitset) :
    ∃ b', b.maskTop = some b' ∧ b'.width = b.width ∧
      ∀ p, b'.bit p = (decide (p < b.width) && b.bit p) := by
  obtain ⟨mask, hmask, hbits⟩ := b.topWordMask_eq
  have hlen := b.length_pos
  obtain ⟨b', h', hw, hb⟩ := modifyWord_eq (i := b.length - 1) (by omega : b.length - 1 < b.length)
    (f := (· &&& mask)) (g := fun j x => x && mask.getLsbD j) fun x j _ => BitVec.getLsbD_and
  refine ⟨b', ?_, hw, fun p => ?_⟩
  · rw [maskTop, hmask, Option.bind_eq_bind, Option.bind_some, h']
  · rw [hb]
    split_ifs with hp
    · have hsum : 64 * (b.length - 1) + p % 64 = p := by omega
      rw [hbits _ (Nat.mod_lt p (by decide)), hsum, Bool.and_comm]
    · by_cases hlt : p / 64 < b.length
      · have hbelow : p < b.width := by
          rw [length, bitsetArraySize] at hlt hp
          omega
        rw [decide_eq_true hbelow, Bool.true_and]
      · rw [bit_of_ge (by omega), Bool.and_false]

/-! ## The search -/

/-- `f` changes every bit of a word by `g`. -/
def Bitwise (f : Word → Word) (g : Bool → Bool) : Prop :=
  ∀ x j, j < 64 → (f x).getLsbD j = g (x.getLsbD j)

theorem firstIn_shift (hf : Bitwise f g) {shift : ℕ} (hshift : shift < 64) (i : ℕ) :
    FirstIn (fun p => g (b.bit p)) (64 * i + shift) (64 * (i + 1))
      (if ffs (f (b.bs.getD i 0) >>> shift) = 0 then none
        else some (64 * i + shift + (ffs (f (b.bs.getD i 0) >>> shift) - 1))) := by
  have hend : 64 * (i + 1) = 64 * i + shift + (64 - shift) := by omega
  rw [hend]
  refine firstIn_ffs (fun j hj => ?_) (fun j hj => ?_) (by omega)
  · rw [BitVec.getLsbD_ushiftRight, hf _ _ (by omega), getLsbD_getD (by omega), Nat.add_assoc]
  · rw [BitVec.getLsbD_ushiftRight, BitVec.getLsbD_of_ge _ _ (by omega)]

theorem firstIn_word (hf : Bitwise f g) (i : ℕ) :
    FirstIn (fun p => g (b.bit p)) (64 * i) (64 * (i + 1))
      (if ffs (f (b.bs.getD i 0)) = 0 then none
        else some (64 * i + (ffs (f (b.bs.getD i 0)) - 1))) :=
  firstIn_ffs (fun j hj => by rw [hf _ _ hj, getLsbD_getD hj])
    (fun j hj => BitVec.getLsbD_of_ge _ j hj) le_rfl

/-- The loop over the words between finds the first position in them. -/
theorem firstLoop_eq (hf : Bitwise f g) (k i : ℕ) (hik : i + k ≤ b.length) :
    ∃ o, firstLoop f b k i = some (o.map fun p : ℕ => (p : ℤ)) ∧
      FirstIn (fun p => g (b.bit p)) (64 * i) (64 * (i + k)) o := by
  induction k generalizing i with
  | zero =>
      refine ⟨none, rfl, fun p hlo hhi => ?_⟩
      omega
  | succ k ih =>
      have hword := firstIn_word (b := b) hf i
      have hsmall := b.width_lt
      have hlen : b.length = (b.width + 63) / 64 := rfl
      have hffs : ffs (f (b.bs.getD i 0)) ≤ 64 := by
        rcases ffs_cases (f (b.bs.getD i 0)) with ⟨h, -⟩ | ⟨x, hx, h, -⟩ <;> omega
      rw [firstLoop, word_eq (by omega)]
      simp only [Option.bind_eq_bind, Option.bind_some, Option.pure_def]
      by_cases hzero : ffs (f (b.bs.getD i 0)) = 0
      · rw [if_pos hzero] at hword
        obtain ⟨o, ho, hfirst⟩ := ih (i + 1) (by omega)
        refine ⟨o, ?_, ?_⟩
        · rw [if_neg (not_not.2 hzero), ho]
        · rw [(by omega : i + (k + 1) = i + 1 + k)]
          exact hword.append hfirst (by omega)
      · rw [if_neg hzero] at hword
        refine ⟨_, ?_, hword.mono (by omega)⟩
        have hsub : 64 * i + ffs (f (b.bs.getD i 0)) - 1 = 64 * i + (ffs (f (b.bs.getD i 0)) - 1) :=
          by omega
        rw [if_pos hzero, Option.map_some, hsub, toInt_of_lt (by omega)]

theorem ffs_le (v : Word) : ffs v ≤ 64 := by
  rcases ffs_cases v with ⟨h, -⟩ | ⟨x, hx, h, -⟩ <;> omega

/-- Behind word `i` the first position is found and checked against the width. -/
theorem firstBehind_eq (hf : Bitwise f g) (hi : i + 1 < b.length) :
    ∃ o, FirstIn (fun p => g (b.bit p)) (64 * (i + 1)) (64 * b.length) o ∧
      firstBehind f b i = some (o.elim (-1) fun p : ℕ => if p < b.width then (p : ℤ) else -1) := by
  have hsmall := b.width_lt
  have hlen : b.length = (b.width + 63) / 64 := rfl
  obtain ⟨o, ho, hfirst⟩ := firstLoop_eq (b := b) hf (b.length - 1 - (i + 1)) (i + 1)
    (by omega : i + 1 + (b.length - 1 - (i + 1)) ≤ b.length)
  rw [(by omega : i + 1 + (b.length - 1 - (i + 1)) = b.length - 1)] at hfirst
  rw [firstBehind, ho]
  cases o with
  | some p =>
      have hp := hfirst.2.1
      refine ⟨some p, hfirst.mono (by omega), ?_⟩
      rw [Option.elim_some, if_pos (by omega)]
      rfl
  | none =>
      have hword := firstIn_word (b := b) hf (b.length - 1)
      rw [(by omega : b.length - 1 + 1 = b.length)] at hword
      have hx64 := ffs_le (f (b.bs.getD (b.length - 1) 0))
      refine ⟨_, hfirst.append hword (by omega), ?_⟩
      simp only [Option.map_none, Option.bind_eq_bind, Option.bind_some, Option.pure_def,
        word_eq (by omega : b.length - 1 < b.length)]
      by_cases hzero : ffs (f (b.bs.getD (b.length - 1) 0)) = 0
      · rw [if_pos hzero, if_neg (fun h => h.1 hzero), Option.elim_none]
      · rw [if_neg hzero, Option.elim_some, Nat.add_sub_assoc (by omega), toInt_of_lt (by omega)]
        split_ifs with h1 h2 h3
        · rfl
        · exact absurd h1.2 h2
        · exact absurd ⟨hzero, h3⟩ h1
        · rfl

/-- The result of the search from `s` on, by the first position in the masked words: a search that
    starts in the top word does not check it against the width. -/
theorem first_eq (hf : Bitwise f g) {position : ℤ} {s : ℕ} (hs : position + 1 = s)
    (hlt : s < b.width) :
    ∃ b' o, b.maskTop = some b' ∧ FirstIn (fun p => g (b'.bit p)) s (64 * b.length) o ∧
      first f b position = some (o.elim (-1) (fun p : ℕ =>
        if s / 64 = b.length - 1 ∨ p < b.width then (p : ℤ) else -1), b') := by
  obtain ⟨b', hmask, hw, -⟩ := maskTop_eq b
  have hsmall := b.width_lt
  have hlen : b.length = (b.width + 63) / 64 := rfl
  have hlen' : b'.length = b.length := by rw [length, length, hw]
  have hshift : s % 64 < 64 := Nat.mod_lt s (by decide)
  have hstart := firstIn_shift (b := b') hf hshift (s / 64)
  rw [Nat.div_add_mod] at hstart
  have hx64 := ffs_le (f (b'.bs.getD (s / 64) 0) >>> (s % 64))
  have hword := word_eq (b := b') (by omega : s / 64 < b'.length)
  have hcall : first f b position =
      if ffs (f (b'.bs.getD (s / 64) 0) >>> (s % 64)) ≠ 0 then
        some (toInt (64 * (s / 64) + ffs (f (b'.bs.getD (s / 64) 0) >>> (s % 64)) - 1 + s % 64), b')
      else if s / 64 = b.length - 1 then some (-1, b')
      else (firstBehind f b' (s / 64)).map fun p => (p, b') := by
    rw [first, if_neg (by omega), hs]
    simp only [Int.toNat_natCast, hmask, hword, shr_eq _ hshift, Option.bind_eq_bind,
      Option.bind_some, Option.pure_def, hlen']
  by_cases hzero : ffs (f (b'.bs.getD (s / 64) 0) >>> (s % 64)) = 0
  · rw [if_pos hzero] at hstart
    rw [if_neg (not_not.2 hzero)] at hcall
    by_cases htop : s / 64 = b.length - 1
    · rw [if_pos htop] at hcall
      rw [(by omega : s / 64 + 1 = b.length)] at hstart
      exact ⟨b', none, hmask, hstart, hcall⟩
    · obtain ⟨o, hfirst, ho⟩ := firstBehind_eq (b := b') hf (by omega : s / 64 + 1 < b'.length)
      rw [hlen'] at hfirst
      rw [if_neg htop, ho, hw, Option.map_some] at hcall
      refine ⟨b', o, hmask, hstart.append hfirst (by omega), hcall.trans ?_⟩
      simp only [htop, false_or]
  · rw [if_neg hzero] at hstart
    rw [if_pos hzero] at hcall
    have hp := hstart.2.1
    have hsum : 64 * (s / 64) + ffs (f (b'.bs.getD (s / 64) 0) >>> (s % 64)) - 1 + s % 64 =
        s + (ffs (f (b'.bs.getD (s / 64) 0) >>> (s % 64)) - 1) := by omega
    refine ⟨b', _, hmask, hstart.mono (by omega), hcall.trans ?_⟩
    rw [Option.elim_some, if_pos (by omega), hsum, toInt_of_lt (by omega)]

/-! ## The next clear bit -/

/-- The result is the first clear position behind `position`, or -1 if there is none, and the bits
    below the width stay. -/
def FindsClear (b : Bitset) (position : ℤ) : Prop :=
  ∃ r b', b.firstClr position = some (r, b') ∧ b'.width = b.width ∧
    (∀ p < b.width, b'.bit p = b.bit p) ∧
      ((∃ p : ℕ, r = p ∧ IsLeast {p : ℕ | position < p ∧ p < b.width ∧ b.bit p = false} p) ∨
        (r = -1 ∧ ∀ p : ℕ, position < p → p < b.width → b.bit p = true))

/-- The search starts in the top word, which has bits above the width, and every bit from there to
    the width is set. -/
def RunsIntoPadding (b : Bitset) (position : ℤ) : Prop :=
  b.width % 64 ≠ 0 ∧ position + 1 < b.width ∧ (position + 1) / 64 = (b.width - 1) / 64 ∧
    ∀ p : ℕ, position < p → p < b.width → b.bit p = true

instance (b : Bitset) (position : ℤ) : Decidable (b.RunsIntoPadding position) :=
  decidable_of_iff (b.width % 64 ≠ 0 ∧ position + 1 < b.width ∧
      (position + 1) / 64 = (b.width - 1) / 64 ∧
        ∀ p < b.width, position < (p : ℤ) → b.bit p = true)
    (and_congr_right fun _ => and_congr_right fun _ => and_congr_right fun _ =>
      forall_congr' fun _ => forall_comm)

theorem bitwise_not : Bitwise (~~~ ·) (!·) := fun x j hj => by
  rw [BitVec.getLsbD_not, decide_eq_true hj, Bool.true_and]

theorem firstClr_eq {position : ℤ} {s : ℕ} (hs : position + 1 = s) (hlt : s < b.width) :
    ∃ b' o, b'.width = b.width ∧ (∀ p < b.width, b'.bit p = b.bit p) ∧
      FirstIn (fun p => !(decide (p < b.width) && b.bit p)) s (64 * b.length) o ∧
      b.firstClr position = some (o.elim (-1) (fun p : ℕ =>
        if s / 64 = b.length - 1 ∨ p < b.width then (p : ℤ) else -1), b') := by
  obtain ⟨b', o, hmask, hfirst, hcall⟩ := first_eq (b := b) bitwise_not hs hlt
  obtain ⟨b'', hmask', hw, hbits⟩ := maskTop_eq b
  obtain rfl : b'' = b' := Option.some.inj (hmask'.symm.trans hmask)
  refine ⟨b'', o, hw, fun p hp => ?_, ?_, hcall⟩
  · rw [hbits, decide_eq_true hp, Bool.true_and]
  · simpa only [hbits] using hfirst

/-- Every position from `s` to the width is set. -/
theorem set_below_of_firstIn {s p : ℕ} (hp : b.width ≤ p)
    (hleast : ∀ q, s ≤ q → q < p → (!(decide (q < b.width) && b.bit q)) = false) {q : ℕ}
    (hs : s ≤ q) (hq : q < b.width) : b.bit q = true := by
  have h := hleast q hs (by omega)
  rw [decide_eq_true hq, Bool.true_and] at h
  simpa using h

/-- For every width, contents and start, `bf_bs_first_clr` is right unless it runs into the bits
    above the width. -/
theorem findsClear_iff {position : ℤ} (hlo : -1 ≤ position) (hhi : position ≤ b.width - 1) :
    b.FindsClear position ↔ ¬ b.RunsIntoPadding position := by
  obtain ⟨s, hs⟩ : ∃ s : ℕ, position + 1 = s := ⟨(position + 1).toNat, by omega⟩
  have hlen : b.length = (b.width + 63) / 64 := rfl
  by_cases hlt : s < b.width
  swap
  · -- the search starts at the width
    refine iff_of_true ⟨-1, b, if_pos (by omega), rfl, fun p _ => rfl, Or.inr ⟨rfl, ?_⟩⟩ ?_
    · intro p hp hpw
      omega
    · rintro ⟨-, hwidth, -⟩
      omega
  obtain ⟨b', o, hw, hkeep, hfirst, hcall⟩ := firstClr_eq hs hlt
  cases o with
  | none =>
      have hall : ∀ q, s ≤ q → q < 64 * b.length → (!(decide (q < b.width) && b.bit q)) = false :=
        hfirst
      refine iff_of_true ⟨_, b', hcall, hw, hkeep, Or.inr ⟨rfl, fun p hp hpw => ?_⟩⟩ ?_
      · exact set_below_of_firstIn le_rfl (fun q hq hqw => hall q hq (by omega)) (by omega) hpw
      · -- the masked top word is clear above the width, so there is no such position
        rintro ⟨hpart, -⟩
        have hpad := hall b.width (by omega) (by omega)
        simp at hpad
  | some p =>
      obtain ⟨hsp, hpl, hclr, hleast⟩ := hfirst
      beta_reduce at hclr hleast
      rw [Option.elim_some] at hcall
      by_cases hpw : p < b.width
      · rw [decide_eq_true hpw, Bool.true_and] at hclr
        rw [if_pos (Or.inr hpw)] at hcall
        refine iff_of_true ⟨_, b', hcall, hw, hkeep, Or.inl ⟨p, rfl, ⟨by omega, hpw, by simpa using
          hclr⟩, ?_⟩⟩ ?_
        · rintro q ⟨hq, hqw, hclear⟩
          by_contra hqp
          have hset := hleast q (by omega) (by omega)
          rw [decide_eq_true hqw, hclear] at hset
          cases hset
        · rintro ⟨-, -, -, hset⟩
          rw [hset p (by omega) hpw] at hclr
          cases hclr
      · -- the first clear position lies above the width: it is returned from the first word only
        have hset : ∀ q : ℕ, position < q → q < b.width → b.bit q = true := fun q hq hqw =>
          set_below_of_firstIn (by omega) hleast (by omega) hqw
        by_cases htop : s / 64 = b.length - 1
        · rw [if_pos (Or.inl htop)] at hcall
          refine iff_of_false ?_ (not_not.2 ⟨by omega, by omega, by omega, hset⟩)
          rintro ⟨r, b'', hcall', -, -, hr⟩
          obtain ⟨rfl, -⟩ := Prod.mk.inj (Option.some.inj (hcall.symm.trans hcall'))
          rcases hr with ⟨p', hp', hleast'⟩ | ⟨hr, -⟩
          · have := hleast'.1.2.1
            omega
          · omega
        · rw [if_neg (fun h => h.elim htop hpw)] at hcall
          refine iff_of_true ⟨_, b', hcall, hw, hkeep, Or.inr ⟨rfl, hset⟩⟩ ?_
          rintro ⟨-, -, hdiv, -⟩
          omega

theorem arraySize_one {width : ℕ} (h : 0 < width ∧ width ≤ 64) (v : Word) :
    [v].length = bitsetArraySize width := by
  rw [bitsetArraySize, List.length_singleton]
  omega

/-- A bitset of one word. -/
def oneWord (width : ℕ) (h : 0 < width ∧ width ≤ 64) (v : Word) : Bitset where
  width := width
  bs := [v]
  width_pos := h.1
  width_lt := h.2.trans_lt (by decide)
  length_eq := arraySize_one h v

/-- The three positions of a set with bits 0 and 1 set. -/
theorem findsClear_iff_three :
    (oneWord 3 (by decide) 3).FindsClear (-1) ↔ ¬ (oneWord 3 (by decide) 3).RunsIntoPadding (-1) :=
  findsClear_iff (by decide) (by decide)

/-- In a set of three set bits, position 3 is found. -/
theorem findsClear_false :
    ¬ ∀ (b : Bitset) (position : ℤ), -1 ≤ position → position ≤ b.width - 1 →
      b.FindsClear position := by
  intro hclaim
  obtain ⟨r, b', hcall, -, -, hr⟩ := hclaim (oneWord 3 (by decide) 7) (-1) (by decide) (by decide)
  have hthree : ((oneWord 3 (by decide) 7).firstClr (-1)).map Prod.fst = some 3 := by decide +kernel
  rw [hcall, Option.map_some, Option.some.injEq] at hthree
  rcases hr with ⟨p, hp, hleast⟩ | ⟨hr, -⟩
  · have hlt : p < 3 := hleast.1.2.1
    omega
  · omega

end Bitset
