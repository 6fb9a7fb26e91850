import TargetUtils.Bitset.Copy
import Mathlib.Data.List.Forall2

set_option autoImplicit false

/-! # Observing a whole set

`bf_bs_all_0s`, `bf_bs_pop_count` and `bf_bs_equal` clear the bits of the top word above the width
before they look at it, and so answer by the bits below the width. `bf_bs_all_1s` compares the top
word as it stands with the mask: in a full set a bit above the width makes it answer false
(`PaddingMatters`), until another observer has cleared that bit. -/

namespace Bitset

open WordArray

variable {b x y : Bitset} {i : ℕ}

/-! ## All words equal -/

theorem getD_eq_iff (b : Bitset) (i : ℕ) (x : Word) :
    b.bs.getD i 0 = x ↔ ∀ j < 64, b.bit (64 * i + j) = x.getLsbD j := by
  constructor
  · rintro rfl j hj
    exact (getLsbD_getD hj).symm
  · intro h
    refine BitVec.eq_of_getLsbD_eq fun j hj => ?_
    rw [getLsbD_getD hj, h j hj]

/-- The loop for a word with all bits the same. -/
theorem allLoop_eq {x : Word} {v : Bool} (hx : ∀ j < 64, x.getLsbD j = v) (k i : ℕ)
    (hik : i + k ≤ b.length) :
    ∃ e, allLoop x b k i = some e ∧
      (e = true ↔ ∀ p, 64 * i ≤ p → p < 64 * (i + k) → b.bit p = v) := by
  induction k generalizing i with
  | zero =>
      refine ⟨true, rfl, iff_of_true rfl fun p hlo hhi => ?_⟩
      omega
  | succ k ih =>
      have hword := word_eq (b := b) (by omega : i < b.length)
      have hcall : allLoop x b (k + 1) i =
          if b.bs.getD i 0 ≠ x then some false else allLoop x b k (i + 1) := by
        rw [allLoop, hword]
        rfl
      by_cases heq : b.bs.getD i 0 = x
      · obtain ⟨e, he, hrest⟩ := ih (i + 1) (by omega)
        refine ⟨e, by rw [hcall, if_neg (not_not.2 heq), he], hrest.trans ?_⟩
        constructor
        · intro h p hlo hhi
          by_cases hp : p < 64 * (i + 1)
          · obtain ⟨j, rfl⟩ := Nat.exists_eq_add_of_le hlo
            rw [(getD_eq_iff b i x).1 heq j (by omega), hx j (by omega)]
          · exact h p (by omega) (by omega)
        · intro h p hlo hhi
          exact h p (by omega) (by omega)
      · refine ⟨false, by rw [hcall, if_pos heq], iff_of_false Bool.false_ne_true fun h => ?_⟩
        refine heq ((getD_eq_iff b i x).2 fun j hj => ?_)
        rw [h (64 * i + j) (by omega) (by omega), hx j hj]

/-- `bf_bs_all_1s` also asks for clear bits above the width. -/
theorem all1s_eq (b : Bitset) :
    ∃ r, b.all1s = some r ∧
      (r = true ↔ (∀ p < b.width, b.bit p = true) ∧ ∀ p, b.width ≤ p → b.bit p = false) := by
  have hlen := b.length_pos
  have hwidth : b.length = (b.width + 63) / 64 := rfl
  obtain ⟨mask, hmask, hbits⟩ := b.topWordMask_eq
  obtain ⟨full, hfull, hiff⟩ := allLoop_eq (b := b) (x := BitVec.allOnes 64) (v := true)
    (fun j hj => by rw [BitVec.getLsbD_allOnes, decide_eq_true hj]) (b.length - 1) 0 (by omega)
  -- the last comparison is with the mask of the top word in both branches
  have hcall : b.all1s =
      if full then some (decide (b.bs.getD (b.length - 1) 0 = mask)) else some false := by
    simp only [all1s, hfull, word_eq (by omega : b.length - 1 < b.length), Option.bind_eq_bind,
      Option.bind_some, Option.pure_def]
    rw [topWordMask] at hmask
    split_ifs at hmask ⊢ with hpart
    · rw [hmask, Option.bind_some]
    · rw [Option.some.inj hmask]
    · rfl
    · rfl
  have htop := getD_eq_iff b (b.length - 1) mask
  cases full with
  | false =>
      refine ⟨false, hcall, iff_of_false Bool.false_ne_true fun h => ?_⟩
      exact Bool.false_ne_true (hiff.2 fun p _ hp => h.1 p (by omega))
  | true =>
      refine ⟨_, hcall, ?_⟩
      rw [decide_eq_true_iff, htop]
      have hbelow := hiff.1 rfl
      constructor
      · intro h
        have hbit : ∀ p, 64 * (b.length - 1) ≤ p → p < 64 * b.length →
            b.bit p = decide (p < b.width) := fun p hlo hhi => by
          obtain ⟨j, rfl⟩ := Nat.exists_eq_add_of_le hlo
          rw [h j (by omega), hbits j (by omega)]
        refine ⟨fun p hp => ?_, fun p hp => ?_⟩
        · by_cases hlast : p < 64 * (b.length - 1)
          · exact hbelow p (by omega) (by omega)
          · rw [hbit p (by omega) (by omega), decide_eq_true hp]
        · by_cases hin : p < 64 * b.length
          · rw [hbit p (by omega) hin, decide_eq_false (by omega)]
          · exact bit_of_ge (by omega)
      · rintro ⟨hset, hclear⟩ j hj
        rw [hbits j hj]
        by_cases hp : 64 * (b.length - 1) + j < b.width
        · rw [hset _ hp, decide_eq_true hp]
        · rw [hclear _ (by omega), decide_eq_false hp]

theorem all0s_eq (b : Bitset) :
    ∃ r b', b.all0s = some (r, b') ∧ b.maskTop = some b' ∧
      (r = true ↔ ∀ p < b.width, b.bit p = false) := by
  obtain ⟨b', hmask, hw, hbits⟩ := maskTop_eq b
  have hwidth : b'.length = (b.width + 63) / 64 := by rw [length, hw]; rfl
  obtain ⟨r, hr, hiff⟩ := allLoop_eq (b := b') (x := 0) (v := false)
    (fun j _ => BitVec.getLsbD_zero) b'.length 0 (by omega)
  refine ⟨r, b', ?_, hmask, hiff.trans ⟨fun h p hp => ?_, fun h p _ _ => ?_⟩⟩
  · rw [all0s, hmask, Option.bind_eq_bind, Option.bind_some, hr]
    rfl
  · have hbit := h p (by omega) (by omega)
    rwa [hbits, decide_eq_true hp, Bool.true_and] at hbit
  · rw [hbits]
    by_cases hp : p < b.width
    · rw [h p hp, Bool.and_false]
    · rw [decide_eq_false hp, Bool.false_and]

/-! ## Counting -/

theorem countP_below (b : Bitset) :
    (List.range (64 * b.length)).countP (fun p => decide (p < b.width) && b.bit p) =
      (List.range b.width).countP b.bit := by
  have hwidth : b.length = (b.width + 63) / 64 := rfl
  have hsum : 64 * b.length = b.width + (64 * b.length - b.width) := by omega
  rw [hsum, List.range_add, List.countP_append, List.countP_map]
  have hzero : (List.range (64 * b.length - b.width)).countP
      ((fun p => decide (p < b.width) && b.bit p) ∘ fun j => b.width + j) = 0 := by
    rw [List.countP_eq_zero]
    intro j _
    simp
  rw [hzero, Nat.add_zero]
  refine List.countP_congr fun p hp => ?_
  rw [decide_eq_true (List.mem_range.1 hp), Bool.true_and]

/-- `bf_bs_pop_count` counts the set positions below the width. -/
theorem popCount_eq (b : Bitset) :
    ∃ b', b.popCount = some ((((List.range b.width).countP b.bit : ℕ) : ℤ), b') ∧
      b.maskTop = some b' := by
  obtain ⟨b', hmask, hw, hbits⟩ := maskTop_eq b
  have hsmall := b.width_lt
  obtain ⟨cnt, hloop, hcnt⟩ := foldlM_range (f := fun cnt i => (b'.word i).map (cnt + popcount ·))
    (P := fun i cnt => cnt = (List.range (64 * i)).countP b'.bit) (a := 0) (n := b'.length) rfl
    fun i hi cnt hcnt => ⟨cnt + popcount (b'.bs.getD i 0), by rw [word_eq hi, Option.map_some], by
      rw [hcnt]
      exact (countP_range_succ_mul b'.bs i).symm⟩
  have hcount : cnt = (List.range b.width).countP b.bit := by
    rw [hcnt, ← countP_below b, length, hw, ← length]
    exact List.countP_congr fun p _ => by rw [hbits]
  have hle : cnt ≤ b.width := by
    rw [hcount]
    exact List.countP_le_length.trans (List.length_range).le
  refine ⟨b', ?_, hmask⟩
  rw [popCount, hmask, Option.bind_eq_bind, Option.bind_some, hloop, Option.bind_eq_bind,
    Option.bind_some, toInt_of_lt (by omega), hcount]
  rfl

/-! ## Sequences of observers -/

/-- The observers of a bitset, which is one of the two sets that `bf_bs_equal` compares. -/
inductive Observer
  | all1s
  | all0s
  | popCount
  | equalTo (y : Bitset)
  | equalFrom (x : Bitset)

/-- What an observer returns. -/
inductive Answer
  | bool (v : Bool)
  | int (n : ℤ)
deriving DecidableEq

def Observer.exec (b : Bitset) : Observer → Option (Answer × Bitset)
  | .all1s => b.all1s.map fun v => (.bool v, b)
  | .all0s => b.all0s.map fun r => (.bool r.1, r.2)
  | .popCount => b.popCount.map fun r => (.int r.1, r.2)
  | .equalTo y => (equal b y).map fun r => (.bool r.1, r.2.1)
  | .equalFrom x => (equal x b).map fun r => (.bool r.1, r.2.2)

/-- The answers to a sequence of calls, and the bitset after them. -/
def observe (b : Bitset) : List Observer → Option (List Answer × Bitset)
  | [] => some ([], b)
  | c :: rest => do
    let (answer, b) ← c.exec b
    let (answers, b) ← observe b rest
    pure (answer :: answers, b)

/-- The widths are equal and so are the bits below them. -/
def Agrees (x y : Bitset) : Prop := x.width = y.width ∧ ∀ p : ℕ, p < x.width → x.get p = y.get p

/-- The answer that the positions below the width call for. -/
def Observer.Expects (b : Bitset) : Observer → Answer → Prop
  | .all1s, r => ∃ v, r = .bool v ∧ (v = true ↔ ∀ p : ℕ, p < b.width → b.get p = some true)
  | .all0s, r => ∃ v, r = .bool v ∧ (v = true ↔ ∀ p : ℕ, p < b.width → b.get p = some false)
  | .popCount, r => r = .int ((List.range b.width).countP fun p : ℕ => b.get p = some true : ℕ)
  | .equalTo y, r => ∃ v, r = .bool v ∧ (v = true ↔ b.Agrees y)
  | .equalFrom x, r => ∃ v, r = .bool v ∧ (v = true ↔ x.Agrees b)

/-- Every sequence of calls gets the answers that the positions below the width call for, and keeps
    these positions. -/
def ObservedBelow (b : Bitset) : Prop :=
  ∀ calls, ∃ answers b', b.observe calls = some (answers, b') ∧ b.Agrees b' ∧
    List.Forall₂ (Observer.Expects b) calls answers

/-- If they agree below the width, no sequence of calls tells the two sets apart. -/
def Indistinguishable (x y : Bitset) : Prop :=
  x.Agrees y → ∀ calls, (x.observe calls).map Prod.fst = (y.observe calls).map Prod.fst

/-- The set is full and a bit above the width is set. -/
def PaddingMatters (b : Bitset) : Prop :=
  (∀ p < b.width, b.bit p = true) ∧ ∃ p, b.width ≤ p ∧ b.bit p = true

theorem agrees_iff : x.Agrees y ↔ x.width = y.width ∧ ∀ p < x.width, x.bit p = y.bit p := by
  refine and_congr_right fun hw => forall_congr' fun p => forall_congr' fun hp => ?_
  rw [get_eq hp, get_eq (hw ▸ hp), Option.some.injEq]

theorem Agrees.refl (b : Bitset) : b.Agrees b := ⟨rfl, fun _ _ => rfl⟩

theorem Agrees.symm (h : x.Agrees y) : y.Agrees x :=
  ⟨h.1.symm, fun p hp => (h.2 p (h.1 ▸ hp)).symm⟩

theorem Agrees.trans {z : Bitset} (h : x.Agrees y) (h' : y.Agrees z) : x.Agrees z :=
  ⟨h.1.trans h'.1, fun p hp => (h.2 p hp).trans (h'.2 p (h.1 ▸ hp))⟩

/-- Only the positions below the width matter for what is expected, -/
theorem Observer.Expects.congr {c : Observer} {r : Answer} (h : b.Agrees x) (hr : c.Expects b r) :
    c.Expects x r := by
  have hall : ∀ v : Bool, (∀ p : ℕ, p < b.width → b.get p = some v) ↔
      ∀ p : ℕ, p < x.width → x.get p = some v := fun v => by
    rw [← h.1]
    exact forall_congr' fun p => forall_congr' fun hp => by rw [h.2 p hp]
  cases c with
  | all1s =>
      obtain ⟨v, rfl, hv⟩ := hr
      exact ⟨v, rfl, hv.trans (hall true)⟩
  | all0s =>
      obtain ⟨v, rfl, hv⟩ := hr
      exact ⟨v, rfl, hv.trans (hall false)⟩
  | popCount =>
      refine Eq.trans hr ?_
      rw [← h.1, List.countP_congr fun p hp => ?_]
      rw [h.2 p (List.mem_range.1 hp)]
  | equalTo y =>
      obtain ⟨v, rfl, hv⟩ := hr
      exact ⟨v, rfl, hv.trans ⟨h.symm.trans, h.trans⟩⟩
  | equalFrom y =>
      obtain ⟨v, rfl, hv⟩ := hr
      exact ⟨v, rfl, hv.trans ⟨fun hy => hy.trans h, fun hy => hy.trans h.symm⟩⟩

/-- and they determine it. -/
theorem Observer.Expects.unique {c : Observer} {r r' : Answer} (hr : c.Expects b r)
    (hr' : c.Expects b r') : r = r' := by
  have hbool : ∀ {q : Prop} {v v' : Bool}, (v = true ↔ q) → (v' = true ↔ q) → v = v' :=
    fun hv hv' => Bool.eq_iff_iff.2 (hv.trans hv'.symm)
  cases c with
  | popCount => exact Eq.trans hr (Eq.symm hr')
  | _ =>
      obtain ⟨v, rfl, hv⟩ := hr
      obtain ⟨v', rfl, hv'⟩ := hr'
      rw [hbool hv hv']

/-! ## One observer -/

/-- After the top word has been masked nothing is left above the width. -/
theorem agrees_of_maskTop (h : b.maskTop = some x) : b.Agrees x ∧ ¬ x.PaddingMatters := by
  obtain ⟨x', hmask, hw, hbits⟩ := maskTop_eq b
  obtain rfl : x' = x := Option.some.inj (hmask.symm.trans h)
  refine ⟨agrees_iff.2 ⟨hw.symm, fun p hp => ?_⟩, ?_⟩
  · rw [hbits, decide_eq_true hp, Bool.true_and]
  · rintro ⟨-, p, hp, hset⟩
    rw [hbits, decide_eq_false (by omega), Bool.false_and] at hset
    cases hset

theorem all_get_iff (v : Bool) :
    (∀ p : ℕ, p < b.width → b.get p = some v) ↔ ∀ p < b.width, b.bit p = v :=
  forall_congr' fun p => forall_congr' fun hp => by rw [get_eq hp, Option.some.injEq]

/-- `bf_bs_all_1s` is right unless the padding matters. -/
theorem all1s_eq_iff (b : Bitset) : ∃ v, b.all1s = some v ∧
    ((v = true ↔ ∀ p : ℕ, p < b.width → b.get p = some true) ↔ ¬ b.PaddingMatters) := by
  obtain ⟨v, hv, hiff⟩ := b.all1s_eq
  refine ⟨v, hv, ?_⟩
  rw [hiff, all_get_iff, PaddingMatters]
  constructor
  · rintro h ⟨hfull, p, hp, hset⟩
    rw [(h.2 hfull).2 p hp] at hset
    cases hset
  · intro hpad
    refine ⟨And.left, fun hfull => ⟨hfull, fun p hp => ?_⟩⟩
    exact Bool.eq_false_iff.2 fun hset => hpad ⟨hfull, p, hp, hset⟩

/-- A call on a set whose padding does not matter. -/
theorem Observer.exec_spec (c : Observer) (hpad : ¬ b.PaddingMatters) :
    ∃ r b', c.exec b = some (r, b') ∧ c.Expects b r ∧ b.Agrees b' ∧ ¬ b'.PaddingMatters := by
  cases c with
  | all1s =>
      obtain ⟨v, hv, hiff⟩ := b.all1s_eq_iff
      exact ⟨_, b, by rw [exec, hv]; rfl, ⟨v, rfl, hiff.2 hpad⟩, Agrees.refl b, hpad⟩
  | all0s =>
      obtain ⟨v, b', hv, hmask, hiff⟩ := b.all0s_eq
      exact ⟨_, b', by rw [exec, hv]; rfl, ⟨v, rfl, hiff.trans (all_get_iff false).symm⟩,
        agrees_of_maskTop hmask⟩
  | popCount =>
      obtain ⟨b', hcall, hmask⟩ := b.popCount_eq
      refine ⟨_, b', by rw [exec, hcall]; rfl, ?_, agrees_of_maskTop hmask⟩
      rw [Expects, List.countP_congr fun p hp => ?_]
      rw [get_eq (List.mem_range.1 hp)]
      simp
  | equalTo y =>
      by_cases hw : b.width = y.width
      · obtain ⟨v, b', y', hcall, hmask, -, hiff⟩ := equal_eq hw
        refine ⟨_, b', by rw [exec, hcall]; rfl, ⟨v, rfl, hiff.trans ?_⟩, agrees_of_maskTop hmask⟩
        rw [agrees_iff, and_iff_right hw]
      · refine ⟨_, b, by rw [exec, equal, if_pos hw]; rfl, ⟨false, rfl, ?_⟩, Agrees.refl b, hpad⟩
        exact iff_of_false Bool.false_ne_true fun h => hw h.1
  | equalFrom x =>
      by_cases hw : x.width = b.width
      · obtain ⟨v, x', b', hcall, -, hmask, hiff⟩ := equal_eq hw
        refine ⟨_, b', by rw [exec, hcall]; rfl, ⟨v, rfl, hiff.trans ?_⟩, agrees_of_maskTop hmask⟩
        rw [agrees_iff, and_iff_right hw]
      · refine ⟨_, b, by rw [exec, equal, if_pos hw]; rfl, ⟨false, rfl, ?_⟩, Agrees.refl b, hpad⟩
        exact iff_of_false Bool.false_ne_true fun h => hw h.1

/-! ## The contract -/

theorem observe_spec (calls : List Observer) (hpad : ¬ b.PaddingMatters) :
    ∃ answers b', b.observe calls = some (answers, b') ∧ b.Agrees b' ∧
      List.Forall₂ (Observer.Expects b) calls answers := by
  induction calls generalizing b with
  | nil => exact ⟨[], b, rfl, Agrees.refl b, List.Forall₂.nil⟩
  | cons c rest ih =>
      obtain ⟨r, b', hexec, hr, hb', hpad'⟩ := c.exec_spec hpad
      obtain ⟨answers, b'', hrest, hb'', hall⟩ := ih hpad'
      refine ⟨r :: answers, b'', ?_, hb'.trans hb'', List.Forall₂.cons hr (hall.imp ?_)⟩
      · simp only [observe, hexec, hrest, Option.bind_eq_bind, Option.bind_some, Option.pure_def]
      · exact fun _ _ h => h.congr hb'.symm

/-- Two sets that are observed by their positions below the width are told apart by them only. -/
theorem indistinguishable (hx : x.ObservedBelow) (hy : y.ObservedBelow) :
    x.Indistinguishable y := by
  intro hxy calls
  obtain ⟨rs, x', hx', -, hrs⟩ := hx calls
  obtain ⟨rs', y', hy', -, hrs'⟩ := hy calls
  have heq : rs = rs' := by
    clear hx' hy'
    induction hrs generalizing rs' with
    | nil =>
        cases hrs'
        rfl
    | cons hr _ ih =>
        cases hrs' with
        | cons hr' hrest' => rw [(hr.congr hxy).unique hr', ih _ hrest']
  rw [hx', hy', heq]
  rfl

/-- For any two sets, all observers answer by the positions below the width, keep them, and do not
    tell sets apart that agree there, if and only if the padding of neither matters. -/
theorem observedBelow_iff (x y : Bitset) :
    (x.ObservedBelow ∧ y.ObservedBelow ∧ x.Indistinguishable y) ↔
      ¬ x.PaddingMatters ∧ ¬ y.PaddingMatters := by
  have hone : ∀ b : Bitset, b.ObservedBelow ↔ ¬ b.PaddingMatters := fun b => by
    refine ⟨fun h => ?_, fun hpad calls => observe_spec calls hpad⟩
    obtain ⟨v, hv, hiff⟩ := b.all1s_eq_iff
    obtain ⟨answers, b', hcall, -, hall⟩ := h [.all1s]
    obtain ⟨rfl, -⟩ := Prod.mk.inj (Option.some.inj ((show b.observe [.all1s] =
      some ([.bool v], b) by rw [observe, Observer.exec, hv]; rfl).symm.trans hcall))
    obtain ⟨v', hv', hexpect⟩ := (List.forall₂_cons.1 hall).1
    rw [Answer.bool.injEq] at hv'
    exact hiff.1 (hv' ▸ hexpect)
  constructor
  · rintro ⟨hx, hy, -⟩
    exact ⟨(hone x).1 hx, (hone y).1 hy⟩
  · rintro ⟨hx, hy⟩
    have hx' := (hone x).2 hx
    have hy' := (hone y).2 hy
    exact ⟨hx', hy', indistinguishable hx' hy'⟩

/-- Three set bits and one above them: not all are found set. -/
theorem observedBelow_false : ¬ ∀ b : Bitset, b.ObservedBelow := by
  intro hclaim
  obtain ⟨answers, b', hcall, -, hall⟩ := hclaim (oneWord 3 (by decide) 15) [.all1s]
  have hanswer : ((oneWord 3 (by decide) 15).observe [.all1s]).map Prod.fst =
      some [.bool false] := by decide +kernel
  rw [hcall, Option.map_some, Option.some.injEq] at hanswer
  subst hanswer
  obtain ⟨v, hv, hexpect⟩ := (List.forall₂_cons.1 hall).1
  rw [Answer.bool.injEq] at hv
  have hfull : ∀ p : ℕ, p < 3 → (oneWord 3 (by decide) 15).get p = some true := by decide +kernel
  exact Bool.false_ne_true (hv.trans (hexpect.2 hfull))

end Bitset
