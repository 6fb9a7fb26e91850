import TargetUtils.Bitset.Iteration
import TargetUtils.FBitset.Search
import Mathlib.Data.Finset.Card

set_option autoImplicit false

/-! # Bitsets as sets of positions

What the functions of `bitset.c` are for: any number of bitsets, each a set of positions below its
width, changed and asked through the interface. Started from `BF_BITSET` every bit above the width
stays clear (`Clean`), so in every run each answer is the one of the sets of positions
(`refines_sets`). Left out are the calls that miss their purpose: `bf_bs_copy_range`, a `bf_bs_copy`
of a multiple of 64 bits, and a `bf_bs_first_clr` that runs into the padding. So are a comparison and
a copy of a bitset with itself. -/

namespace Bitset

open WordArray
open FBitset (FirstOf)

variable {b : Bitset} {p : ℕ}

/-- A call on one bitset. -/
inductive Op
  | set (position val : ℤ)
  | get (position : ℤ)
  | setAll (val : ℤ)
  | firstSet (position : ℤ)
  | firstClr (position : ℤ)
  | all1s
  | all0s
  | setWord (position size : ℤ) (val : Word)
  | getWord (bitOffset nBits : ℤ)
  | popCount
deriving DecidableEq

/-- What the call returns, 0 where it returns nothing, and the bitset afterwards. -/
def Op.exec (b : Bitset) : Op → Option (ℤ × Bitset)
  | .set position val => (b.set position val).map fun r => (r.1.toInt, r.2)
  | .get position => (b.get position).map fun v => (v.toInt, b)
  | .setAll val => (b.setAll val).map fun b' => (0, b')
  | .firstSet position => b.firstSet position
  | .firstClr position => b.firstClr position
  | .all1s => b.all1s.map fun v => (v.toInt, b)
  | .all0s => b.all0s.map fun r => (r.1.toInt, r.2)
  | .setWord position size val => (b.setWord position size val).map fun b' => (0, b')
  | .getWord bitOffset nBits => (b.getWord bitOffset nBits).map fun v => ((v.toNat : ℤ), b)
  | .popCount => b.popCount

/-- Positions inside the set, up to 64 bits, and values that are booleans. -/
def Op.Legal (b : Bitset) : Op → Prop
  | .set position _ => 0 ≤ position ∧ position < b.width
  | .get position => 0 ≤ position ∧ position < b.width
  | .setAll val => val = 0 ∨ val = 1
  | .firstSet position => -1 ≤ position ∧ position < b.width
  | .firstClr position => (-1 ≤ position ∧ position < b.width) ∧ ¬ b.RunsIntoPadding position
  | .setWord position size _ => (0 ≤ position ∧ position < b.width) ∧ 1 ≤ size ∧ size ≤ 64
  | .getWord bitOffset nBits => (0 ≤ bitOffset ∧ bitOffset < b.width) ∧ 1 ≤ nBits ∧ nBits ≤ 64
  | .all1s | .all0s | .popCount => True

instance (b : Bitset) : (op : Op) → Decidable (op.Legal b)
  | .set _ _ | .get _ | .firstSet _ | .firstClr _ | .setWord _ _ _ | .getWord _ _ =>
    inferInstanceAs (Decidable (_ ∧ _))
  | .setAll _ => inferInstanceAs (Decidable (_ ∨ _))
  | .all1s | .all0s | .popCount => inferInstanceAs (Decidable True)

/-- What the call means for a set of positions below the width: `r` is returned, and `s'` is the set
    afterwards. -/
def Op.Spec (width : ℕ) (s : Finset ℕ) : Op → (r : ℤ) → (s' : Finset ℕ) → Prop
  | .set position val, r, s' => r = (decide (position.toNat ∈ s)).toInt ∧
      s' = if val = 0 then s.erase position.toNat else insert position.toNat s
  | .get position, r, s' => r = (decide (position.toNat ∈ s)).toInt ∧ s' = s
  | .setAll val, r, s' => r = 0 ∧ s' = if val = 0 then ∅ else Finset.range width
  | .firstSet position, r, s' => FirstOf {p | position < p ∧ p ∈ s} r ∧ s' = s
  | .firstClr position, r, s' => FirstOf {p | position < p ∧ p < width ∧ p ∉ s} r ∧ s' = s
  | .all1s, r, s' => r = (decide (s = Finset.range width)).toInt ∧ s' = s
  | .all0s, r, s' => r = (decide (s = ∅)).toInt ∧ s' = s
  | .setWord position size val, r, s' => r = 0 ∧ ∀ p : ℕ, p ∈ s' ↔ p < width ∧
      if position ≤ p ∧ p < position + size then val.getLsbD (p - position.toNat) = true else p ∈ s
  | .getWord bitOffset nBits, r, s' => (∃ v : Word, r = v.toNat ∧
      ∀ j : ℕ, v.getLsbD j = true ↔ j < nBits ∧ bitOffset.toNat + j ∈ s) ∧ s' = s
  | .popCount, r, s' => r = s.card ∧ s' = s

/-- No bit at or above the width is set. -/
def Clean (b : Bitset) : Prop := ∀ p, b.width ≤ p → b.bit p = false

/-- The set positions. -/
def members (b : Bitset) : Finset ℕ := (Finset.range b.width).filter fun p => b.bit p

theorem mem_members : p ∈ b.members ↔ p < b.width ∧ b.bit p = true := by
  rw [members, Finset.mem_filter, Finset.mem_range]

theorem Clean.mem (h : b.Clean) : p ∈ b.members ↔ b.bit p = true := by
  rw [mem_members]
  refine and_iff_right_of_imp fun hp => ?_
  by_contra hge
  rw [h p (not_lt.1 hge)] at hp
  cases hp

theorem Agrees.members {x : Bitset} (h : b.Agrees x) : x.members = b.members := by
  obtain ⟨hw, hbits⟩ := agrees_iff.1 h
  ext p
  rw [mem_members, mem_members, ← hw]
  refine and_congr_right fun hp => ?_
  rw [hbits p hp]

/-- A masked set has the same positions and no others. -/
theorem clean_of_maskTop {x : Bitset} (h : b.maskTop = some x) :
    x.width = b.width ∧ x.Clean ∧ x.members = b.members := by
  obtain ⟨x', hx', hw, hbits⟩ := maskTop_eq b
  obtain rfl : x' = x := Option.some.inj (hx'.symm.trans h)
  refine ⟨hw, ?_, (agrees_of_maskTop h).1.members⟩
  intro p hp
  rw [hbits, decide_eq_false (by omega), Bool.false_and]

/-! ## Writing -/

theorem modifyWord_some {i : ℕ} {f : Word → Word} {b' : Bitset} (h : b.modifyWord i f = some b') :
    i < b.length ∧ b'.width = b.width := by
  unfold modifyWord at h
  split_ifs at h with hi
  rw [b.length_eq] at hi
  exact ⟨hi, by rw [← Option.some.inj h]⟩

theorem fill_bit {x : Word} {v : Bool} (hx : ∀ j < 64, x.getLsbD j = v) (hp : p < b.width) :
    (b.fill x).bit p = v := by
  have hlt := div_lt_length hp
  unfold bit WordArray.bit fill
  rw [List.getD_eq_getElem?_getD, List.getElem?_replicate, if_pos hlt]
  exact hx _ (Nat.mod_lt p (by decide))

theorem setAll_eq {val : ℤ} (hval : val = 0 ∨ val = 1) :
    ∃ b', b.setAll val = some b' ∧ b'.width = b.width ∧ b'.Clean ∧
      b'.members = if val = 0 then ∅ else Finset.range b.width := by
  unfold setAll
  rcases hval with rfl | rfl
  · have hzero : ∀ p, (b.fill 0).bit p = false := by
      intro p
      unfold bit WordArray.bit fill
      rw [List.getD_eq_getElem?_getD, List.getElem?_replicate]
      split_ifs <;> simp
    refine ⟨b.fill 0, rfl, rfl, fun p _ => hzero p, ?_⟩
    rw [if_pos rfl, members, Finset.filter_eq_empty_iff]
    intro p _ hp
    exact Bool.false_ne_true ((hzero p).symm.trans hp)
  · obtain ⟨b', hmask, -⟩ := (b.fill (BitVec.allOnes 64)).maskTop_eq
    obtain ⟨hw, hclean, hmembers⟩ := clean_of_maskTop hmask
    refine ⟨b', by rw [if_pos rfl, hmask], hw, hclean, ?_⟩
    rw [hmembers, if_neg (by decide), members, Finset.filter_true_of_mem]
    · rfl
    · intro p hp
      exact fill_bit (fun j hj => BitVec.getLsbD_allOnes.trans (decide_eq_true hj))
        (Finset.mem_range.1 hp)

/-- `bf_bs_set` returns the bit and replaces it. -/
theorem set_eq (hp : p < b.width) (val : ℤ) :
    ∃ b', b.set p val = some (b.bit p, b') ∧ b'.width = b.width ∧
      ∀ q, b'.bit q = if q = p then decide (val ≠ 0) else b.bit q := by
  have hmod : p % 64 < 64 := Nat.mod_lt p (by decide)
  have hlt := div_lt_length hp
  have htmp : ∀ j < 64, ((1 : Word) <<< (p % 64)).getLsbD j = decide (j = p % 64) := by
    intro j hj
    by_cases h : j = p % 64
    · simp [h, hmod]
    · have hne : j - p % 64 = 0 → j < p % 64 := by omega
      simp [h, hj]
      omega
  have hand : ∀ j < 64, (b.bs.getD (p / 64) 0 &&& (1 : Word) <<< (p % 64)).getLsbD j =
      (decide (j = p % 64) && b.bit p) := by
    intro j hj
    rw [BitVec.getLsbD_and, htmp j hj, Bool.and_comm]
    by_cases h : j = p % 64
    · rw [h]
      rfl
    · simp [h]
  have hprev : decide (b.bs.getD (p / 64) 0 &&& (1 : Word) <<< (p % 64) ≠ 0) = b.bit p := by
    cases hbit : b.bit p with
    | false =>
        rw [decide_eq_false_iff_not, not_not]
        refine BitVec.eq_of_getLsbD_eq fun j hj => ?_
        rw [hand j hj, hbit, Bool.and_false]
        exact BitVec.getLsbD_zero.symm
    | true =>
        rw [decide_eq_true_iff]
        intro hzero
        have h := hand (p % 64) hmod
        rw [hzero, hbit] at h
        simp at h
  have hcall : b.set p val =
      if val ≠ 0 ∧ b.bit p = false then
        (b.modifyWord (p / 64) (· ||| (1 : Word) <<< (p % 64))).map fun b' => (b.bit p, b')
      else if val = 0 ∧ b.bit p = true then
        (b.modifyWord (p / 64) (· &&& ~~~((1 : Word) <<< (p % 64)))).map fun b' => (b.bit p, b')
      else some (b.bit p, b) := by
    rw [set, if_neg (by omega)]
    simp only [Int.toNat_natCast, shl_eq _ hmod, word_eq hlt, Option.bind_eq_bind,
      Option.bind_some, hprev, Option.pure_def, Option.map_eq_bind]
    rfl
  have hsame : ∀ q, q / 64 = p / 64 → (q % 64 = p % 64 ↔ q = p) := fun q hq => by omega
  rw [hcall]
  split_ifs with hset hclear
  · obtain ⟨b', hmodify, hw, hbits⟩ := modifyWord_eq hlt
      (f := (· ||| (1 : Word) <<< (p % 64))) (g := fun j v => v || decide (j = p % 64))
      fun x j hj => by rw [BitVec.getLsbD_or, htmp j hj]
    refine ⟨b', by rw [hmodify]; rfl, hw, fun q => ?_⟩
    rw [hbits]
    by_cases hq : q = p
    · simp [hq, hset.1]
    · rw [if_neg hq]
      split_ifs with hword
      · simp [mt (hsame q hword).1 hq]
      · rfl
  · obtain ⟨b', hmodify, hw, hbits⟩ := modifyWord_eq hlt
      (f := (· &&& ~~~((1 : Word) <<< (p % 64)))) (g := fun j v => v && !decide (j = p % 64))
      fun x j hj => by rw [BitVec.getLsbD_and, BitVec.getLsbD_not, htmp j hj]; simp [hj]
    refine ⟨b', by rw [hmodify]; rfl, hw, fun q => ?_⟩
    rw [hbits]
    by_cases hq : q = p
    · simp [hq, hclear.1]
    · rw [if_neg hq]
      split_ifs with hword
      · simp [mt (hsame q hword).1 hq]
      · rfl
  · refine ⟨b, rfl, rfl, fun q => ?_⟩
    split_ifs with hq
    · rw [hq]
      cases hbit : b.bit p <;> simp_all
    · rfl

/-- Both searches leave the set alone or mask it. -/
theorem first_state {f : Word → Word} {position r : ℤ} {b' : Bitset}
    (h : b.first f position = some (r, b')) : b' = b ∨ b.maskTop = some b' := by
  unfold first at h
  split_ifs at h with hrange
  · exact Or.inl (Prod.ext_iff.1 (Option.some.inj h)).2.symm
  · right
    obtain ⟨c, hmask, h⟩ := Option.bind_eq_some_iff.1 h
    obtain ⟨word, -, h⟩ := Option.bind_eq_some_iff.1 h
    obtain ⟨word', -, h⟩ := Option.bind_eq_some_iff.1 h
    rw [hmask]
    split_ifs at h
    · obtain ⟨-, hb⟩ := Prod.ext_iff.1 (Option.some.inj h)
      exact congrArg some hb
    · obtain ⟨-, hb⟩ := Prod.ext_iff.1 (Option.some.inj h)
      exact congrArg some hb
    · obtain ⟨p, -, hp⟩ := Option.map_eq_some_iff.1 h
      exact congrArg some (Prod.ext_iff.1 hp).2

/-- What a call has to keep, and the positions it leaves. -/
def Leaves (b : Bitset) (s : Finset ℕ) (b' : Bitset) : Prop :=
  b'.width = b.width ∧ b'.Clean ∧ b'.members = s

theorem leaves_self (h : b.Clean) : b.Leaves b.members b := ⟨rfl, h, rfl⟩

theorem leaves_of_maskTop {b' : Bitset} (h : b.maskTop = some b') : b.Leaves b.members b' :=
  clean_of_maskTop h

theorem leaves_of_first (h : b.Clean) {f : Word → Word} {position r : ℤ} {b' : Bitset}
    (hfirst : b.first f position = some (r, b')) : b.Leaves b.members b' := by
  rcases first_state hfirst with rfl | hmask
  · exact leaves_self h
  · exact leaves_of_maskTop hmask

/-- A write is described by the bits it leaves. -/
theorem leaves_of_bits {s : Finset ℕ} {b' : Bitset} (hw : b'.width = b.width)
    (hbits : ∀ p, b'.bit p = true ↔ p ∈ s) (hs : ∀ p ∈ s, p < b.width) : b.Leaves s b' := by
  have hclean : b'.Clean := by
    intro p hp
    rw [Bool.eq_false_iff]
    intro hbit
    have hlt := hs p ((hbits p).1 hbit)
    omega
  refine ⟨hw, hclean, ?_⟩
  ext p
  rw [hclean.mem, hbits]

/-! ## One call -/

theorem firstSet_spec (h : b.Clean) {position : ℤ} (hlo : -1 ≤ position)
    (hhi : position < b.width) : ∃ r b', b.firstSet position = some (r, b') ∧
      FirstOf {p | position < p ∧ p ∈ b.members} r ∧ b.Leaves b.members b' := by
  obtain ⟨s, hs⟩ := Int.eq_ofNat_of_zero_le (by omega : 0 ≤ position + 1)
  obtain ⟨b', o, hcall, -, hfirst⟩ := firstSet_eq (b := b) hs (by omega)
  refine ⟨_, b', hcall, ?_, leaves_of_first h hcall⟩
  cases o with
  | none =>
      refine Or.inr ⟨rfl, Set.eq_empty_of_forall_notMem ?_⟩
      rintro p ⟨hp, hmem⟩
      obtain ⟨hlt, hbit⟩ := mem_members.1 hmem
      rw [hfirst p (by omega) hlt] at hbit
      cases hbit
  | some p =>
      obtain ⟨hsp, hlt, hbit, hleast⟩ := hfirst
      refine Or.inl ⟨p, rfl, ⟨by omega, mem_members.2 ⟨hlt, hbit⟩⟩, ?_⟩
      rintro q ⟨hq, hmem⟩
      by_contra hqp
      have hclear := hleast q (by omega) (not_le.1 hqp)
      rw [(mem_members.1 hmem).2] at hclear
      cases hclear

theorem firstClr_spec (h : b.Clean) {position : ℤ} (hlo : -1 ≤ position)
    (hhi : position < b.width) (hpad : ¬ b.RunsIntoPadding position) :
    ∃ r b', b.firstClr position = some (r, b') ∧
      FirstOf {p | position < p ∧ p < b.width ∧ p ∉ b.members} r ∧ b.Leaves b.members b' := by
  obtain ⟨r, b', hcall, -, -, hr⟩ := (findsClear_iff hlo (by omega)).2 hpad
  have hset : {p : ℕ | position < p ∧ p < b.width ∧ p ∉ b.members} =
      {p : ℕ | position < p ∧ p < b.width ∧ b.bit p = false} := by
    ext p
    refine and_congr_right fun _ => and_congr_right fun _ => ?_
    rw [h.mem, Bool.not_eq_true]
  refine ⟨r, b', hcall, ?_, leaves_of_first h hcall⟩
  rw [hset]
  rcases hr with hr | ⟨hr, hall⟩
  · exact Or.inl hr
  · refine Or.inr ⟨hr, Set.eq_empty_of_forall_notMem ?_⟩
    rintro p ⟨hp, hlt, hbit⟩
    rw [hall p hp hlt] at hbit
    cases hbit

theorem set_spec (h : b.Clean) (hp : p < b.width) (val : ℤ) :
    ∃ b', b.set p val = some (decide (p ∈ b.members), b') ∧
      b.Leaves (if val = 0 then b.members.erase p else insert p b.members) b' := by
  obtain ⟨b', hcall, hw, hbits⟩ := set_eq hp val
  have hmem : decide (p ∈ b.members) = b.bit p := by
    rw [Bool.eq_iff_iff, decide_eq_true_iff, h.mem]
  refine ⟨b', by rw [hcall, hmem], leaves_of_bits hw (fun q => ?_) fun q hq => ?_⟩
  · rw [hbits]
    by_cases hval : val = 0
    · by_cases hq : q = p <;> simp [hval, hq, h.mem]
    · by_cases hq : q = p <;> simp [hval, hq, h.mem]
  · split_ifs at hq
    · exact (mem_members.1 (Finset.mem_of_mem_erase hq)).1
    · rcases Finset.mem_insert.1 hq with rfl | hq
      · exact hp
      · exact (mem_members.1 hq).1

theorem all1s_spec (h : b.Clean) :
    b.all1s = some (decide (b.members = Finset.range b.width)) := by
  obtain ⟨r, hcall, hr⟩ := b.all1s_eq
  have hfull : r = true ↔ b.members = Finset.range b.width := by
    rw [hr, and_iff_left (show ∀ p, b.width ≤ p → b.bit p = false from h), members,
      Finset.filter_eq_self]
    simp only [Finset.mem_range]
  rw [hcall, Option.some.injEq, Bool.eq_iff_iff, hfull, decide_eq_true_iff]

theorem all0s_spec (b : Bitset) : ∃ b', b.all0s = some (decide (b.members = ∅), b') ∧
    b.Leaves b.members b' := by
  obtain ⟨r, b', hcall, hmask, hr⟩ := b.all0s_eq
  have hempty : r = true ↔ b.members = ∅ := by
    rw [hr, members, Finset.filter_eq_empty_iff]
    simp only [Finset.mem_range, Bool.not_eq_true]
  refine ⟨b', ?_, leaves_of_maskTop hmask⟩
  have hval : r = decide (b.members = ∅) := by
    rw [Bool.eq_iff_iff, hempty, decide_eq_true_iff]
  rw [hcall, hval]

theorem popCount_spec (b : Bitset) : ∃ b', b.popCount = some ((b.members.card : ℤ), b') ∧
    b.Leaves b.members b' := by
  obtain ⟨b', hcall, hmask⟩ := b.popCount_eq
  refine ⟨b', ?_, leaves_of_maskTop hmask⟩
  have hcard : b.members.card = (List.range b.width).countP b.bit := by
    rw [members, List.countP_eq_length_filter]
    simp [Finset.card, Multiset.range]
  rw [hcall, hcard]

theorem setWord_spec (h : b.Clean) {position size : ℤ} (hpos : 0 ≤ position ∧ position < b.width)
    (hsize : 1 ≤ size ∧ size ≤ 64) (val : Word) :
    ∃ b' s', b.setWord position size val = some b' ∧ b.Leaves s' b' ∧ ∀ p : ℕ, p ∈ s' ↔
      p < b.width ∧ if position ≤ p ∧ p < position + size then
        val.getLsbD (p - position.toNat) = true else p ∈ b.members := by
  obtain ⟨position, rfl⟩ := Int.eq_ofNat_of_zero_le hpos.1
  obtain ⟨size, rfl⟩ := Int.eq_ofNat_of_zero_le (by omega : 0 ≤ size)
  obtain ⟨b', hcall, hw, hbits⟩ := setWord_eq (b := b) val (by omega : position < b.width)
    (by omega) (by omega : size ≤ 64)
  have hclean : b'.Clean := by
    intro p hp
    rw [hbits, if_neg (by omega)]
    exact h p (by omega)
  refine ⟨b', b'.members, hcall, ⟨hw, hclean, rfl⟩, fun p => ?_⟩
  rw [mem_members, hw]
  refine and_congr_right fun hp => ?_
  rw [hbits, h.mem, Int.toNat_natCast]
  by_cases hin : position ≤ p ∧ p < position + size
  · rw [if_pos (by omega), if_pos (by omega)]
  · rw [if_neg (by omega), if_neg (by omega)]

theorem getWord_spec {bitOffset nBits : ℤ} (hoff : 0 ≤ bitOffset ∧ bitOffset < b.width)
    (hbits : 1 ≤ nBits ∧ nBits ≤ 64) :
    ∃ v, b.getWord bitOffset nBits = some v ∧
      ∀ j : ℕ, v.getLsbD j = true ↔ j < nBits ∧ bitOffset.toNat + j ∈ b.members := by
  obtain ⟨bitOffset, rfl⟩ := Int.eq_ofNat_of_zero_le hoff.1
  obtain ⟨nBits, rfl⟩ := Int.eq_ofNat_of_zero_le (by omega : 0 ≤ nBits)
  obtain ⟨v, hcall, hv⟩ := getWord_eq (b := b) (by omega : bitOffset < b.width) (by omega)
    (by omega : nBits ≤ 64)
  refine ⟨v, hcall, fun j => ?_⟩
  rw [hv, Bool.and_eq_true, decide_eq_true_iff, mem_members, Int.toNat_natCast, ← and_assoc]
  exact and_congr_left fun _ => by omega

/-- Every call on a clean bitset does what it means for the set of positions. -/
theorem Op.exec_spec (h : b.Clean) (op : Op) (hop : op.Legal b) :
    ∃ r b' s', op.exec b = some (r, b') ∧ op.Spec b.width b.members r s' ∧ b.Leaves s' b' := by
  cases op with
  | set position val =>
      obtain ⟨p, rfl⟩ := Int.eq_ofNat_of_zero_le hop.1
      obtain ⟨b', hcall, hleaves⟩ := set_spec h (Int.ofNat_lt.1 hop.2) val
      exact ⟨_, b', _, congrArg (Option.map _) hcall, ⟨rfl, rfl⟩, hleaves⟩
  | get position =>
      obtain ⟨p, rfl⟩ := Int.eq_ofNat_of_zero_le hop.1
      have hget : b.get p = some (decide (p ∈ b.members)) := by
        rw [get_eq (Int.ofNat_lt.1 hop.2), Option.some.injEq, Bool.eq_iff_iff, decide_eq_true_iff,
          h.mem]
      exact ⟨_, b, _, congrArg (Option.map _) hget, ⟨rfl, rfl⟩, leaves_self h⟩
  | setAll val =>
      obtain ⟨b', hcall, hleaves⟩ := setAll_eq (b := b) hop
      exact ⟨_, b', _, congrArg (Option.map _) hcall, ⟨rfl, rfl⟩, hleaves⟩
  | firstSet position =>
      obtain ⟨r, b', hcall, hr, hleaves⟩ := firstSet_spec h hop.1 hop.2
      exact ⟨r, b', _, hcall, ⟨hr, rfl⟩, hleaves⟩
  | firstClr position =>
      obtain ⟨r, b', hcall, hr, hleaves⟩ := firstClr_spec h hop.1.1 hop.1.2 hop.2
      exact ⟨r, b', _, hcall, ⟨hr, rfl⟩, hleaves⟩
  | all1s => exact ⟨_, b, _, congrArg (Option.map _) (all1s_spec h), ⟨rfl, rfl⟩, leaves_self h⟩
  | all0s =>
      obtain ⟨b', hcall, hleaves⟩ := b.all0s_spec
      exact ⟨_, b', _, congrArg (Option.map _) hcall, ⟨rfl, rfl⟩, hleaves⟩
  | setWord position size val =>
      obtain ⟨b', s', hcall, hleaves, hs⟩ := setWord_spec h hop.1 hop.2 val
      exact ⟨_, b', s', congrArg (Option.map _) hcall, ⟨rfl, hs⟩, hleaves⟩
  | getWord bitOffset nBits =>
      obtain ⟨v, hcall, hv⟩ := getWord_spec hop.1 hop.2
      exact ⟨_, b, _, congrArg (Option.map _) hcall, ⟨⟨v, rfl, hv⟩, rfl⟩, leaves_self h⟩
  | popCount =>
      obtain ⟨b', hcall, hleaves⟩ := b.popCount_spec
      exact ⟨_, b', _, hcall, ⟨rfl, rfl⟩, hleaves⟩

/-! ## Two bitsets -/

theorem equal_spec (x y : Bitset) : ∃ x' y',
    equal x y = some (decide (x.width = y.width ∧ x.members = y.members), x', y') ∧
      (x.Clean → x.Leaves x.members x') ∧ (y.Clean → y.Leaves y.members y') := by
  by_cases hw : x.width = y.width
  · obtain ⟨e, x', y', hcall, hx, hy, he⟩ := equal_eq hw
    have hmembers : e = decide (x.width = y.width ∧ x.members = y.members) := by
      rw [Bool.eq_iff_iff, decide_eq_true_iff, and_iff_right hw, he]
      constructor
      · intro h
        exact (agrees_iff.2 ⟨hw, h⟩).members.symm
      · intro h p hp
        have hmem : p ∈ x.members ↔ p ∈ y.members := by rw [h]
        rw [mem_members, mem_members, ← hw, and_iff_right hp, and_iff_right hp] at hmem
        exact Bool.eq_iff_iff.2 hmem
    exact ⟨x', y', by rw [hcall, hmembers], fun _ => leaves_of_maskTop hx,
      fun _ => leaves_of_maskTop hy⟩
  · refine ⟨x, y, ?_, leaves_self, leaves_self⟩
    rw [equal, if_pos hw, decide_eq_false fun h => hw h.1]

theorem copy_spec {dst src : Bitset} (hw : src.width = dst.width) (hpart : src.width % 64 ≠ 0) :
    ∃ dst', dst.copy src = some dst' ∧ dst.Leaves src.members dst' := by
  obtain ⟨dst', hcall, hdw, hbits⟩ := copy_eq hw hpart
  refine ⟨dst', hcall, hdw, ?_, (agrees_iff.2 ⟨by omega, fun p hp => (hbits p hp).symm⟩).members⟩
  -- the last word is masked, and behind it there is nothing
  obtain ⟨-, h⟩ := of_guard hcall
  obtain ⟨d, hloop, h⟩ := Option.bind_eq_some_iff.1 h
  obtain ⟨word, -, h⟩ := Option.bind_eq_some_iff.1 h
  obtain ⟨mask, hmask, h⟩ := Option.bind_eq_some_iff.1 h
  rw [lowBits_eq (Nat.mod_lt _ (by decide)), Option.some.injEq] at hmask
  obtain ⟨hlast, hwidth⟩ := modifyWord_some h
  obtain ⟨d', hd', -, hbits'⟩ := modifyWord_eq hlast (f := fun _ => word &&& mask)
    (g := fun j _ => (word &&& mask).getLsbD j) fun _ _ _ => rfl
  obtain rfl : d' = dst' := Option.some.inj (hd'.symm.trans h)
  intro p hp
  rw [hbits']
  split_ifs with hword
  · rw [BitVec.getLsbD_and, ← hmask, getLsbD_lowMask _ (Nat.mod_lt p (by decide)),
      decide_eq_false (by omega), Bool.and_false]
  · refine bit_of_ge ?_
    rw [length, bitsetArraySize]
    omega

/-! ## Runs -/

section Family

variable {ι : Type*} [DecidableEq ι]

/-- A call on a family of bitsets. -/
inductive Call (ι : Type*)
  | one (i : ι) (op : Op)
  | equal (x y : ι)
  | copy (dst src : ι)
deriving DecidableEq

/-- What the call returns, and the bitsets afterwards. -/
def Call.exec (bs : ι → Bitset) : Call ι → Option (ℤ × (ι → Bitset))
  | .one i op => (op.exec (bs i)).map fun r => (r.1, Function.update bs i r.2)
  | .equal x y => (Bitset.equal (bs x) (bs y)).map fun r =>
      (r.1.toInt, Function.update (Function.update bs x r.2.1) y r.2.2)
  | .copy dst src => ((bs dst).copy (bs src)).map fun b => (0, Function.update bs dst b)

/-- Calls with two sets are made on different ones, copies between sets of one width that is not a
    multiple of 64. -/
def Call.Legal (bs : ι → Bitset) : Call ι → Prop
  | .one i op => op.Legal (bs i)
  | .equal x y => x ≠ y
  | .copy dst src => dst ≠ src ∧ (bs src).width = (bs dst).width ∧ (bs src).width % 64 ≠ 0

/-- One call and its answer, for calls the interface allows. -/
def Step (bs : ι → Bitset) (e : Call ι × ℤ) (bs' : ι → Bitset) : Prop :=
  e.1.Legal bs ∧ e.1.exec bs = some (e.2, bs')

/-- What a call and its answer mean for sets of positions below the widths. -/
def SetStep (width : ι → ℕ) (s : ι → Finset ℕ) (e : Call ι × ℤ) (s' : ι → Finset ℕ) : Prop :=
  match e.1 with
  | .one i op => ∃ t, op.Spec (width i) (s i) e.2 t ∧ s' = Function.update s i t
  | .equal x y => e.2 = (decide (width x = width y ∧ s x = s y)).toInt ∧ s' = s
  | .copy dst src => e.2 = 0 ∧ s' = Function.update s dst (s src)

/-- The bitsets are clean and hold the sets. -/
structure Holds (width : ι → ℕ) (s : ι → Finset ℕ) (bs : ι → Bitset) : Prop where
  width : ∀ i, (bs i).width = width i
  clean : ∀ i, (bs i).Clean
  members : ∀ i, (bs i).members = s i

variable {width : ι → ℕ} {s : ι → Finset ℕ} {bs bs' : ι → Bitset}

theorem Holds.update (h : Holds width s bs) {i : ι} {t : Finset ℕ} {b : Bitset}
    (hb : (bs i).Leaves t b) : Holds width (Function.update s i t) (Function.update bs i b) := by
  obtain ⟨hw, hclean, hmembers⟩ := hb
  constructor
  · intro k
    by_cases hk : k = i
    · rw [hk, Function.update_self, hw, h.width]
    · rw [Function.update_of_ne hk, h.width]
  · intro k
    by_cases hk : k = i
    · rw [hk, Function.update_self]
      exact hclean
    · rw [Function.update_of_ne hk]
      exact h.clean k
  · intro k
    by_cases hk : k = i
    · rw [hk, Function.update_self, Function.update_self, hmembers]
    · rw [Function.update_of_ne hk, Function.update_of_ne hk, h.members]

/-- Every legal call returns, and means for the sets what it should. -/
theorem Holds.exec (h : Holds width s bs) {c : Call ι} (hc : c.Legal bs) :
    ∃ r bs' s', c.exec bs = some (r, bs') ∧ SetStep width s (c, r) s' ∧ Holds width s' bs' := by
  cases c with
  | one i op =>
      obtain ⟨r, b', t, hcall, hspec, hleaves⟩ := op.exec_spec (h.clean i) hc
      rw [h.width, h.members] at hspec
      exact ⟨r, _, _, congrArg (Option.map _) hcall, ⟨t, hspec, rfl⟩, h.update hleaves⟩
  | equal x y =>
      obtain ⟨x', y', hcall, hx, hy⟩ := equal_spec (bs x) (bs y)
      have hx := h.update (hx (h.clean x))
      rw [h.members, Function.update_eq_self] at hx
      have hne : Function.update bs x x' y = bs y := Function.update_of_ne (Ne.symm hc) _ _
      have hy := hx.update (i := y) (hne ▸ hy (h.clean y))
      rw [hne, h.members, Function.update_eq_self] at hy
      rw [h.width, h.width, h.members, h.members] at hcall
      exact ⟨_, _, s, congrArg (Option.map _) hcall, ⟨rfl, rfl⟩, hy⟩
  | copy dst src =>
      obtain ⟨-, hw, hpart⟩ := hc
      obtain ⟨b, hcall, hleaves⟩ := copy_spec hw hpart
      rw [h.members] at hleaves
      exact ⟨0, _, _, congrArg (Option.map _) hcall, ⟨rfl, rfl⟩, h.update hleaves⟩

theorem Holds.step (h : Holds width s bs) {e : Call ι × ℤ} (hstep : Step bs e bs') :
    ∃ s', SetStep width s e s' ∧ Holds width s' bs' := by
  obtain ⟨hc, hcall⟩ := hstep
  obtain ⟨r, bs'', s', hcall', hset, hholds⟩ := h.exec hc
  have heq := Option.some.inj (hcall'.symm.trans hcall)
  rw [Prod.mk.injEq] at heq
  obtain ⟨rfl, rfl⟩ := heq
  exact ⟨s', hset, hholds⟩

/-- A run of calls is a run of the sets with the same answers. -/
theorem Holds.run (h : Holds width s bs) {es : List (Call ι × ℤ)} (hrun : Run Step bs es bs') :
    ∃ s', Run (SetStep width) s es s' ∧ Holds width s' bs' := by
  induction hrun with
  | nil => exact ⟨s, Run.nil, h⟩
  | snoc _ hlast ih =>
      obtain ⟨s', hs', hholds⟩ := ih
      obtain ⟨s'', hset, hholds'⟩ := hholds.step hlast
      exact ⟨s'', hs'.snoc hset, hholds'⟩

omit [DecidableEq ι] in
theorem holds_zeroed (hwidth : ∀ i, 0 < width i ∧ width i < 2 ^ 31) :
    Holds width (fun _ => ∅) fun i => zeroed (width i) (hwidth i) := by
  have hzero : ∀ i p, (zeroed (width i) (hwidth i)).bit p = false := by
    intro i p
    unfold bit WordArray.bit zeroed
    rw [List.getD_eq_getElem?_getD, List.getElem?_replicate]
    split_ifs <;> simp
  refine ⟨fun _ => rfl, fun i p _ => hzero i p, fun i => ?_⟩
  rw [members, Finset.filter_eq_empty_iff]
  intro p _ hp
  exact Bool.false_ne_true ((hzero i p).symm.trans hp)

/-- From empty bitsets on, every run has the answers of a run of sets of positions, and every further
    legal call returns what it means for the sets reached. -/
theorem refines_sets (hwidth : ∀ i, 0 < width i ∧ width i < 2 ^ 31) {es : List (Call ι × ℤ)}
    (hrun : Run Step (fun i => zeroed (width i) (hwidth i)) es bs) :
    ∃ s, Run (SetStep width) (fun _ => ∅) es s ∧ (∀ i p, p ∈ s i ↔ (bs i).get p = some true) ∧
      ∀ c : Call ι, c.Legal bs → ∃ r bs' s', c.exec bs = some (r, bs') ∧
        SetStep width s (c, r) s' ∧ Holds width s' bs' := by
  obtain ⟨s, hs, hholds⟩ := (holds_zeroed hwidth).run hrun
  refine ⟨s, hs, fun i p => ?_, fun c hc => hholds.exec hc⟩
  rw [← hholds.members, mem_members]
  constructor
  · rintro ⟨hp, hbit⟩
    rw [get_eq hp, hbit]
  · intro hget
    by_cases hp : p < (bs i).width
    · rw [get_eq hp, Option.some.injEq] at hget
      exact ⟨hp, hget⟩
    · rw [Bitset.get, if_pos (by omega)] at hget
      simp at hget

instance (bs : ι → Bitset) : (c : Call ι) → Decidable (c.Legal bs)
  | .one i op => inferInstanceAs (Decidable (op.Legal (bs i)))
  | .equal x y => inferInstanceAs (Decidable (x ≠ y))
  | .copy _ _ => inferInstanceAs (Decidable (_ ∧ _))

/-- Two bitsets of 67 bits: bits are set in both words, searched, counted, copied and compared. -/
theorem refines_sets_several :
    let events : List (Call Bool × ℤ) := [(.one true (.set 1 1), 0), (.one true (.set 66 1), 0),
      (.one true (.setWord 62 4 15), 0), (.one true (.firstSet 1), 62),
      (.one true (.firstClr 61), -1), (.equal true false, 0), (.copy false true, 0),
      (.equal true false, 1), (.one true (.set 1 0), 1), (.one true .popCount, 5),
      (.one false (.getWord 60 7), 124)]
    ∃ bs, Run Step (fun _ : Bool => zeroed 67 (by decide)) events bs ∧
      ∃ s, Run (SetStep fun _ => 67) (fun _ => ∅) events s ∧
        (∀ i p, p ∈ s i ↔ (bs i).get p = some true) ∧
        ∀ c : Call Bool, c.Legal bs → ∃ r bs' s', c.exec bs = some (r, bs') ∧
          SetStep (fun _ => 67) s (c, r) s' ∧ Holds (fun _ => 67) s' bs' := by
  intro events
  have hrun : Run Step (fun _ : Bool => zeroed 67 (by decide)) events
      (stateAfter (executeLegal (fun bs c => c.Legal bs) Call.exec) _ (events.map Prod.fst)) :=
    Run.of_replies (fun _ _ _ _ hexec => executeLegal_some hexec) (by decide +kernel)
  exact ⟨_, hrun, refines_sets (fun _ => by decide) hrun⟩

end Family

end Bitset
