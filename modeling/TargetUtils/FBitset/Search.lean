import TargetUtils.FBitset.Basic
import TargetUtils.Library.Runs
import Mathlib.Order.Bounds.Basic

set_option autoImplicit false

/-! # The searches for contiguous clear bits

Both loops go from one free run to the next, forward or backward. A round finds the far end of the
run at `free_index`, which is a set bit or the end of the bitset (`firstClrLoop_round`,
`prevClrLoop_round`). When the run is too short, no block can start in it or reach into it, and the
search continues in the next run with the same blocks left to find (`startsAfter_eq`,
`startsBefore_eq`). -/

namespace FBitset

/-- A call of `bf_fbs_set` with a position inside the bitset. -/
def Step (bs : FBitset) (call : ℕ × Bool) (bs' : FBitset) : Prop :=
  call.1 < bs.width ∧ bs' = (bs.set call.1 call.2).2

/-- The bits from `b` to `b + count - 1` are clear. -/
def ClearBlock (bs : FBitset) (b count : ℕ) : Prop :=
  ∀ j, b ≤ j → j < b + count → bs.get j = false

/-- Where a clear block behind `position` starts. -/
def startsAfter (bs : FBitset) (position : ℤ) (count : ℕ) : Set ℕ :=
  {b | position < b ∧ b + count ≤ bs.width ∧ bs.ClearBlock b count}

/-- Where a clear block that ends before `position` starts. -/
def startsBefore (bs : FBitset) (position : ℤ) (count : ℕ) : Set ℕ :=
  {b | (b : ℤ) + count ≤ position ∧ bs.ClearBlock b count}

/-- The least member of the set, or -1 if there is none. -/
def FirstOf (s : Set ℕ) (r : ℤ) : Prop := (∃ b : ℕ, r = b ∧ IsLeast s b) ∨ r = -1 ∧ s = ∅

/-- The greatest member of the set, or -1 if there is none. -/
def LastOf (s : Set ℕ) (r : ℤ) : Prop := (∃ b : ℕ, r = b ∧ IsGreatest s b) ∨ r = -1 ∧ s = ∅

/-- No position outside the bitset is set. -/
def InWidth (bs : FBitset) : Prop := ∀ j ∈ bs.fbs, j < bs.width

/-! ## Runs -/

theorem set_width (bs : FBitset) (position : ℕ) (val : Bool) :
    (bs.set position val).2.width = bs.width := by
  cases val <;> rfl

theorem mem_set {bs : FBitset} {position j : ℕ} {val : Bool} :
    j ∈ (bs.set position val).2.fbs ↔ if j = position then val = true else j ∈ bs.fbs := by
  cases val with
  | true =>
      rw [set, if_pos rfl, Judy1.mem_set]
      by_cases h : j = position <;> simp [h]
  | false =>
      rw [set, if_neg (by simp), Judy1.mem_unset]
      by_cases h : j = position <;> simp [h]

theorem Step.inWidth {bs bs' : FBitset} {call : ℕ × Bool} (h : bs.InWidth)
    (hstep : Step bs call bs') : bs'.InWidth := by
  obtain ⟨hlt, rfl⟩ := hstep
  intro j hj
  rw [set_width]
  rw [mem_set] at hj
  split_ifs at hj with heq
  · exact heq ▸ hlt
  · exact h j hj

theorem inWidth_of_run {width : ℕ} {calls : List (ℕ × Bool)} {bs : FBitset}
    (h : Run Step (init width) calls bs) : bs.InWidth ∧ bs.width = width := by
  have hinit : (init width).InWidth := fun j hj => nomatch hj
  refine h.invariant (P := fun bs => bs.InWidth ∧ bs.width = width) ⟨hinit, rfl⟩ ?_
  rintro bs call bs' ⟨hin, hwidth⟩ hstep
  refine ⟨hstep.inWidth hin, ?_⟩
  rw [hstep.2, set_width, hwidth]

/-! ## Blocks -/

section Blocks

variable {bs : FBitset} {count : ℕ}

@[simp] theorem get_eq_false {j : ℕ} : bs.get j = false ↔ j ∉ bs.fbs := by
  rw [get, decide_eq_false_iff_not]

/-- A set bit inside the block rules it out. -/
theorem not_clearBlock {b j : ℕ} (hj : j ∈ bs.fbs) (h1 : b ≤ j) (h2 : j < b + count) :
    ¬ bs.ClearBlock b count := fun h => get_eq_false.1 (h j h1 h2) hj

/-- From a free run that ends at `stop` and is too short, and over the set bits behind it, no block
    starts. -/
theorem startsAfter_eq {freeIndex stop index : ℕ} (hshort : stop - freeIndex < count)
    (hstop : stop ∈ bs.fbs ∨ stop = bs.width) (hset : ∀ k, stop ≤ k → k < index → k ∈ bs.fbs)
    (hindex : freeIndex ≤ index) :
    bs.startsAfter (freeIndex - 1) count = bs.startsAfter (index - 1) count := by
  ext b
  refine and_congr_left fun ⟨hwidth, hclear⟩ => ⟨fun hb => ?_, fun hb => by omega⟩
  by_contra hlt
  rcases Nat.lt_or_ge b stop with hbs | hbs
  · rcases hstop with hstop | rfl
    · exact not_clearBlock hstop (by omega) (by omega) hclear
    · omega
  · exact not_clearBlock (hset b hbs (by omega)) le_rfl (by omega) hclear

/-- A free run that starts at `start` and is too short holds no block, nor do the set bits below. -/
theorem startsBefore_eq {freeIndex index : ℕ} (start : ℕ) (hcount : 0 < count)
    (hshort : freeIndex + 1 - start < count) (hstart : start = 0 ∨ start - 1 ∈ bs.fbs)
    (hset : ∀ k, index < k → k < start → k ∈ bs.fbs) (hindex : index < start)
    (hle : start ≤ freeIndex + 1) :
    bs.startsBefore (freeIndex + 1 : ℕ) count = bs.startsBefore (index + 1 : ℕ) count := by
  ext b
  refine and_congr_left fun hclear => ⟨fun hb => ?_, fun hb => by omega⟩
  by_contra hgt
  rcases Nat.lt_or_ge (b + count) start with hbs | hbs
  · exact not_clearBlock (hset (b + count - 1) (by omega) (by omega)) (by omega) (by omega) hclear
  · rcases hstart with rfl | hstart
    · omega
    · exact not_clearBlock hstart (by omega) (by omega) hclear

end Blocks

/-! ## Forward -/

section Forward

variable {bs : FBitset} {count freeIndex : ℕ}

theorem InWidth.small (hin : bs.InWidth) (hwidth : bs.width < 2 ^ 31) : bs.fbs.Small :=
  fun j hj => (hin j hj).trans (by omega)

/-- A round finds the end of the free run at `free_index`. -/
theorem firstClrLoop_round (count : ℕ) (hwidth : bs.width < 2 ^ 31) (hin : bs.InWidth)
    (hfree : freeIndex ∉ bs.fbs) (hlt : freeIndex < bs.width) :
    ∃ stop, freeIndex < stop ∧ stop ≤ bs.width ∧ (∀ j, freeIndex ≤ j → j < stop → j ∉ bs.fbs) ∧
      (stop ∈ bs.fbs ∨ stop = bs.width) ∧
      ∀ fuel index, bs.fbs.firstEmpty stop = some index →
        firstClrLoop bs.fbs bs.width count (fuel + 1) freeIndex freeIndex =
          if count ≤ stop - freeIndex then some (freeIndex : ℤ)
          else firstClrLoop bs.fbs bs.width count fuel index index := by
  have hround : ∀ stop, freeIndex < stop → stop ≤ bs.width →
      u64Sub (u64Add (stop - 1) 1) freeIndex = stop - freeIndex ∧
        bs.fbs.nextEmpty (stop - 1) = bs.fbs.firstEmpty stop := by
    intro stop h1 h2
    rw [Judy1.nextEmpty_eq (by omega), Nat.sub_add_cancel (by omega), u64Add,
      Nat.sub_add_cancel (by omega), Nat.mod_eq_of_lt (by omega), u64Sub_of_le h1.le (by omega)]
    exact ⟨rfl, rfl⟩
  cases hnext : bs.fbs.next freeIndex with
  | none =>
      obtain ⟨hlen, hempty⟩ := hround bs.width hlt le_rfl
      refine ⟨bs.width, hlt, le_rfl, fun j h1 h2 => ?_, Or.inr rfl, fun fuel index hindex => ?_⟩
      · rcases Nat.eq_or_lt_of_le h1 with rfl | h1
        · exact hfree
        · exact Judy1.next_eq_none.1 hnext j h1
      · rw [firstClrLoop, if_pos hlt, hnext]
        simp only [u32Sub_of_le (show 1 ≤ bs.width by omega) (show bs.width < 2 ^ 32 by omega),
          hlen, hempty, hindex, toInt_of_lt (hlt.trans hwidth), ge_iff_le]
  | some stop =>
      obtain ⟨hset, hgt, hmin⟩ := Judy1.next_eq_some.1 hnext
      have hstop := hin stop hset
      obtain ⟨hlen, hempty⟩ := hround stop hgt hstop.le
      refine ⟨stop, hgt, hstop.le, fun j h1 h2 => ?_, Or.inl hset, fun fuel index hindex => ?_⟩
      · rcases Nat.eq_or_lt_of_le h1 with rfl | h1
        · exact hfree
        · exact hmin j h1 h2
      · rw [firstClrLoop, if_pos hlt, hnext]
        simp only [u64Sub_of_le (show 1 ≤ stop by omega) (show stop < 2 ^ 64 by omega), hlen,
          hempty, hindex, toInt_of_lt (hlt.trans hwidth), ge_iff_le]

theorem startsAfter_eq_empty (hcount : 0 < count) (h : bs.width ≤ freeIndex) :
    bs.startsAfter (freeIndex - 1) count = ∅ := by
  refine Set.eq_empty_of_forall_notMem fun b hb => ?_
  obtain ⟨hgt, hle, -⟩ := hb
  omega

/-- From a free index on, the loop ends with the first clear block. The induction is on the distance
    to the end of the bitset, which every round makes smaller. -/
theorem firstClrLoop_returns (hwidth : bs.width < 2 ^ 31) (hin : bs.InWidth) (hcount : 0 < count)
    (hfree : freeIndex ∉ bs.fbs) :
    ∃ r, Returns (fun fuel => firstClrLoop bs.fbs bs.width count fuel freeIndex freeIndex) r ∧
      FirstOf (bs.startsAfter (freeIndex - 1) count) r := by
  induction hd : bs.width - freeIndex using Nat.strong_induction_on generalizing freeIndex with
  | _ d ih =>
    rcases Nat.lt_or_ge freeIndex bs.width with hlt | hge
    · obtain ⟨stop, hgt, hle, hrun, hstop, hloop⟩ :=
        firstClrLoop_round count hwidth hin hfree hlt
      obtain ⟨index, hindex, hge, -, hnot, hset⟩ :=
        Judy1.firstEmpty_spec (hin.small hwidth) (i := stop) (by omega)
      have hround := fun fuel => hloop fuel index hindex
      by_cases hfits : count ≤ stop - freeIndex
      · simp only [if_pos hfits] at hround
        refine ⟨freeIndex, Returns.of_succ hround (Returns.const rfl),
          Or.inl ⟨freeIndex, rfl, ⟨by omega, by omega, fun j h1 h2 => ?_⟩, fun b hb => ?_⟩⟩
        · exact get_eq_false.2 (hrun j h1 (by omega))
        · have := hb.1
          omega
      · simp only [if_neg hfits] at hround
        obtain ⟨r, hr, hfirst⟩ := ih (bs.width - index) (by omega) hnot rfl
        refine ⟨r, Returns.of_succ hround hr, ?_⟩
        rw [startsAfter_eq (by omega) hstop hset (by omega)]
        exact hfirst
    · have hround : ∀ fuel, firstClrLoop bs.fbs bs.width count (fuel + 1) freeIndex freeIndex =
          some (-1) := fun fuel => by rw [firstClrLoop, if_neg (by omega)]
      exact ⟨-1, Returns.of_succ hround (Returns.const rfl),
        Or.inr ⟨rfl, startsAfter_eq_empty hcount hge⟩⟩

/-- The forward search on any bitset that the calls of `bf_fbs_set` lead to. -/
theorem firstClrContiguous_exact {width : ℕ} (hwidth : width < 2 ^ 31) {calls : List (ℕ × Bool)}
    (h : Run Step (init width) calls bs) {position : ℤ} (hlo : -1 ≤ position)
    (hhi : position < width) (hcount : 0 < count) (hcount32 : count < 2 ^ 32) :
    ∃ r, Returns (fun fuel => bs.firstClrContiguous fuel position count) (r, bs) ∧
      FirstOf (bs.startsAfter position count) r := by
  obtain ⟨hin, rfl⟩ := inWidth_of_run h
  obtain ⟨start, hstart⟩ : ∃ start : ℕ, position + 1 = start :=
    ⟨_, (Int.toNat_of_nonneg (by omega)).symm⟩
  obtain rfl : position = (start : ℤ) - 1 := by omega
  simp only [firstClrContiguous, hstart, Int.toNat_natCast]
  by_cases hguard : (start : ℤ) < 0 ∨ u32Add start count > bs.width
  · simp only [if_pos hguard]
    refine ⟨-1, Returns.const rfl, Or.inr ⟨rfl, Set.eq_empty_of_forall_notMem fun b hb => ?_⟩⟩
    obtain ⟨hgt, hle, -⟩ := hb
    rw [u32Add_of_lt (by omega)] at hguard
    omega
  · simp only [if_neg hguard]
    obtain ⟨freeIndex, hfirst, hge, -, hfree, hset⟩ :=
      Judy1.firstEmpty_spec (hin.small hwidth) (i := start) (by omega)
    have hskip : bs.startsAfter (start - 1) count = bs.startsAfter (freeIndex - 1) count := by
      rcases Nat.eq_or_lt_of_le hge with rfl | hlt
      · rfl
      · exact startsAfter_eq (by omega) (Or.inl (hset start le_rfl hlt)) hset hge
    simp only [hfirst, hskip]
    by_cases hend : freeIndex ≥ bs.width
    · simp only [if_pos hend]
      exact ⟨-1, Returns.const rfl, Or.inr ⟨rfl, startsAfter_eq_empty hcount hend⟩⟩
    · simp only [if_neg hend]
      by_cases hone : count = 1
      · subst hone
        simp only [if_true, toInt_of_lt (show freeIndex < 2 ^ 31 by omega)]
        refine ⟨freeIndex, Returns.const rfl,
          Or.inl ⟨freeIndex, rfl, ⟨by omega, by omega, fun j h1 h2 => ?_⟩, fun b hb => ?_⟩⟩
        · obtain rfl : j = freeIndex := by omega
          exact get_eq_false.2 hfree
        · have := hb.1
          omega
      · simp only [if_neg hone]
        obtain ⟨r, hr, hout⟩ := firstClrLoop_returns hwidth hin hcount hfree
        exact ⟨r, hr.map _, hout⟩

/-- Position 2 of 8 is set: a block of three is searched from the start. -/
theorem firstClrContiguous_exact_eight :
    ∃ r, Returns (fun fuel => ((init 8).set 2 true).2.firstClrContiguous fuel (-1) 3)
        (r, ((init 8).set 2 true).2) ∧
      FirstOf (((init 8).set 2 true).2.startsAfter (-1) 3) r :=
  have hrun : Run Step (init 8) ([] ++ [(2, true)]) ((init 8).set 2 true).2 :=
    Run.nil.snoc ⟨by decide, rfl⟩
  firstClrContiguous_exact (by omega) hrun le_rfl (by omega) (by omega) (by omega)

example : ((init 8).set 2 true).2.firstClrContiguous 3 (-1) 3 =
    some (3, ((init 8).set 2 true).2) := by decide

end Forward

/-! ## Backward -/

section Backward

variable {bs : FBitset} {count freeIndex : ℕ}

/-- One round, with the index behind the last set bit below `last_free` written once. -/
theorem prevClrLoop_succ (fbs : Judy1) (count fuel freeIndex lastFree : ℕ) :
    prevClrLoop fbs count (fuel + 1) freeIndex lastFree =
      if count ≤ u64Sub (u64Add freeIndex 1) ((fbs.prev lastFree).elim 0 (u64Add · 1)) then
        some (toInt (u64Sub (u64Add freeIndex 1) count))
      else (fbs.prevEmpty ((fbs.prev lastFree).elim 0 (u64Add · 1))).elim (some (-1)) fun index =>
        prevClrLoop fbs count fuel index index := by
  rw [prevClrLoop]
  cases fbs.prev lastFree with
  | none =>
      simp only [Option.elim_none, ge_iff_le]
      cases fbs.prevEmpty 0 <;> rfl
  | some index =>
      simp only [Option.elim_some, ge_iff_le]
      cases fbs.prevEmpty (u64Add index 1) <;> rfl

/-- A round finds the start of the free run at `free_index`; when no bit below is set that is 0. -/
theorem prevClrLoop_round (hcount : 0 < count) (hlt : freeIndex < 2 ^ 31)
    (hfree : freeIndex ∉ bs.fbs) :
    ∃ start, start ≤ freeIndex ∧ (∀ j, start ≤ j → j ≤ freeIndex → j ∉ bs.fbs) ∧
      (start = 0 ∨ start - 1 ∈ bs.fbs) ∧
      ∀ fuel, prevClrLoop bs.fbs count (fuel + 1) freeIndex freeIndex =
        if count ≤ freeIndex + 1 - start then some ((freeIndex + 1 - count : ℕ) : ℤ)
        else (bs.fbs.prevEmpty start).elim (some (-1)) fun index =>
          prevClrLoop bs.fbs count fuel index index := by
  have hnext : u64Add freeIndex 1 = freeIndex + 1 := Nat.mod_eq_of_lt (by omega)
  have hround : ∀ start, start ≤ freeIndex → ∀ rest : Option ℤ,
      (if count ≤ u64Sub (freeIndex + 1) start then some (toInt (u64Sub (freeIndex + 1) count))
        else rest) =
        if count ≤ freeIndex + 1 - start then some ((freeIndex + 1 - count : ℕ) : ℤ) else rest := by
    intro start hle rest
    rw [u64Sub_of_le (show start ≤ freeIndex + 1 by omega) (by omega)]
    by_cases hfits : count ≤ freeIndex + 1 - start
    · rw [if_pos hfits, if_pos hfits, u64Sub_of_le (by omega) (by omega), toInt_of_lt (by omega)]
    · rw [if_neg hfits, if_neg hfits]
  cases hprev : bs.fbs.prev freeIndex with
  | none =>
      refine ⟨0, by omega, fun j _ h2 => ?_, Or.inl rfl, fun fuel => ?_⟩
      · rcases Nat.eq_or_lt_of_le h2 with rfl | h2
        · exact hfree
        · exact Judy1.prev_eq_none.1 hprev j h2
      · rw [prevClrLoop_succ, hprev, hnext, Option.elim_none, hround 0 (by omega)]
  | some last =>
      obtain ⟨hset, hlast, hmax⟩ := Judy1.prev_eq_some.1 hprev
      refine ⟨last + 1, hlast, fun j h1 h2 => ?_, Or.inr hset, fun fuel => ?_⟩
      · rcases Nat.eq_or_lt_of_le h2 with rfl | h2
        · exact hfree
        · exact hmax j h1 h2
      · have hnext' : u64Add last 1 = last + 1 := Nat.mod_eq_of_lt (by omega)
        rw [prevClrLoop_succ, hprev, hnext, Option.elim_some, hnext', hround (last + 1) hlast]

theorem startsBefore_eq_empty (stop : ℕ) (hcount : 0 < count) (hset : ∀ k < stop, k ∈ bs.fbs)
    {position : ℕ} (hshort : position < stop + count) : bs.startsBefore position count = ∅ := by
  refine Set.eq_empty_of_forall_notMem fun b hb => ?_
  obtain ⟨hle, hclear⟩ := hb
  exact not_clearBlock (hset b (by omega)) le_rfl (by omega) hclear

/-- From a free index downward the loop ends with the last clear block. -/
theorem prevClrLoop_returns (hcount : 0 < count) (hlt : freeIndex < 2 ^ 31)
    (hfree : freeIndex ∉ bs.fbs) :
    ∃ r, Returns (fun fuel => prevClrLoop bs.fbs count fuel freeIndex freeIndex) r ∧
      LastOf (bs.startsBefore (freeIndex + 1 : ℕ) count) r := by
  induction freeIndex using Nat.strong_induction_on with
  | _ freeIndex ih =>
    obtain ⟨start, hle, hrun, hstart, hround⟩ := prevClrLoop_round hcount hlt hfree
    by_cases hfits : count ≤ freeIndex + 1 - start
    · simp only [if_pos hfits] at hround
      refine ⟨_, Returns.of_succ hround (Returns.const rfl),
        Or.inl ⟨_, rfl, ⟨by omega, fun j h1 h2 => ?_⟩, fun b hb => ?_⟩⟩
      · exact get_eq_false.2 (hrun j (by omega) (by omega))
      · have := hb.1
        omega
    · simp only [if_neg hfits] at hround
      cases hprev : bs.fbs.prevEmpty start with
      | none =>
          simp only [hprev, Option.elim_none] at hround
          have hset := Judy1.prevEmpty_eq_none.1 hprev
          exact ⟨-1, Returns.of_succ hround (Returns.const rfl),
            Or.inr ⟨rfl, startsBefore_eq_empty _ hcount hset (by omega)⟩⟩
      | some index =>
          obtain ⟨hnot, hindex, hset⟩ := Judy1.prevEmpty_eq_some.1 hprev
          simp only [hprev, Option.elim_some] at hround
          obtain ⟨r, hr, hlast⟩ := ih index (by omega) (by omega) hnot
          refine ⟨r, Returns.of_succ hround hr, ?_⟩
          rw [startsBefore_eq _ hcount (by omega) hstart hset hindex (by omega)]
          exact hlast

/-- The backward search on any bitset that the calls of `bf_fbs_set` lead to. -/
theorem prevClrContiguous_exact {width : ℕ} (hwidth : width < 2 ^ 31) {calls : List (ℕ × Bool)}
    (h : Run Step (init width) calls bs) {position : ℤ} (hlo : 0 ≤ position)
    (hhi : position ≤ width) (hcount : 0 < count) :
    ∃ r, Returns (fun fuel => bs.prevClrContiguous fuel position count) (r, bs) ∧
      LastOf (bs.startsBefore position count) r := by
  obtain ⟨hin, rfl⟩ := inWidth_of_run h
  lift position to ℕ using hlo
  rcases Nat.eq_zero_or_pos position with rfl | hpos
  · simp only [prevClrContiguous, if_pos (show ((0 : ℕ) : ℤ) ≤ 0 by omega)]
    refine ⟨-1, Returns.const rfl, Or.inr ⟨rfl, ?_⟩⟩
    exact startsBefore_eq_empty 0 hcount (by omega) (by omega)
  obtain ⟨last, rfl⟩ := Nat.exists_eq_add_of_le' hpos
  have hlast : (((last + 1 : ℕ) : ℤ) - 1).toNat = last := by omega
  have hsum : u32 (last + 1) = last + 1 := u32_of_lt (by omega)
  simp only [prevClrContiguous, if_neg (show ¬ ((last + 1 : ℕ) : ℤ) ≤ 0 by omega), hlast, hsum]
  by_cases hguard : last + 1 < count ∨ last ≥ bs.width
  · simp only [if_pos hguard]
    refine ⟨-1, Returns.const rfl, Or.inr ⟨rfl, ?_⟩⟩
    exact startsBefore_eq_empty 0 hcount (by omega) (by omega)
  · simp only [if_neg hguard]
    cases hempty : bs.fbs.lastEmpty last with
    | none =>
        have hset := Judy1.lastEmpty_eq_none.1 hempty
        refine ⟨-1, Returns.const rfl, Or.inr ⟨rfl, ?_⟩⟩
        exact startsBefore_eq_empty (last + 1) hcount (fun k hk => hset k (by omega))
          (by omega)
    | some freeIndex =>
        obtain ⟨hfree, hle, hset⟩ := Judy1.lastEmpty_eq_some.1 hempty
        have hskip : bs.startsBefore (last + 1 : ℕ) count =
            bs.startsBefore (freeIndex + 1 : ℕ) count := by
          rcases Nat.eq_or_lt_of_le hle with rfl | hlt
          · rfl
          · exact startsBefore_eq (last + 1) hcount (by omega) (Or.inr (hset last hlt le_rfl))
              (fun k h1 h2 => hset k h1 (by omega)) (by omega) le_rfl
        simp only [hskip]
        by_cases hone : count = 1
        · subst hone
          simp only [if_true, toInt_of_lt (show freeIndex < 2 ^ 31 by omega)]
          refine ⟨freeIndex, Returns.const rfl,
            Or.inl ⟨freeIndex, rfl, ⟨by omega, fun j h1 h2 => ?_⟩, fun b hb => ?_⟩⟩
          · obtain rfl : j = freeIndex := by omega
            exact get_eq_false.2 hfree
          · have := hb.1
            omega
        · simp only [if_neg hone]
          obtain ⟨r, hr, hout⟩ := prevClrLoop_returns hcount (by omega) hfree
          exact ⟨r, hr.map _, hout⟩

/-- Position 5 of 8 is set: a block of three is searched from the end. -/
theorem prevClrContiguous_exact_eight :
    ∃ r, Returns (fun fuel => ((init 8).set 5 true).2.prevClrContiguous fuel 8 3)
        (r, ((init 8).set 5 true).2) ∧
      LastOf (((init 8).set 5 true).2.startsBefore 8 3) r :=
  have hrun : Run Step (init 8) ([] ++ [(5, true)]) ((init 8).set 5 true).2 :=
    Run.nil.snoc ⟨by decide, rfl⟩
  prevClrContiguous_exact (by omega) hrun (by omega) le_rfl (by omega)

example : ((init 8).set 5 true).2.prevClrContiguous 3 8 3 =
    some (2, ((init 8).set 5 true).2) := by decide

end Backward

end FBitset
