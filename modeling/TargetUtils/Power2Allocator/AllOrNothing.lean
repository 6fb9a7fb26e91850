import TargetUtils.Power2Allocator.Reserve
import Mathlib

set_option autoImplicit false

/-! # Releasing a group at once, or not at all

`power2_allocator_release_multiple` reads the size of the first block only and finds out about the
others one round at a time. A group of equal blocks at the stride of the highest class is released
entirely, aligned or not: while the loop runs, the free lists are canonical from the next block of
the group on (`AgreesFrom`). Of any other group the first block is released in any case, so the call
is neither a refusal nor a release of the group. -/

namespace Power2Allocator

variable {a a₀ : Power2Allocator} {L : ℕ} {p : Pool} {size count i s n b : ℕ} {es : List (Call × ℤ)}

/-! ## What a call promises -/

/-- Some free chunk holds the index. -/
def IndexFree (a : Power2Allocator) (j : ℕ) : Prop :=
  ∃ x : Chunk, a.IsFree x ∧ x.start ≤ j ∧ j < x.stop

/-- An error changes nothing; a success means that the `n` blocks from `i` on at the stride of the
    class of the first were all in use with the size of the first, and they and nothing else are now
    free. -/
structure AllOrNothing (a : Power2Allocator) (i n : ℕ) : Prop where
  nothing : (a.releaseMultiple i n).1 ≠ 0 →
    (a.releaseMultiple i n).2.freeLists = a.freeLists ∧
      (a.releaseMultiple i n).2.inuseList = a.inuseList
  all : (a.releaseMultiple i n).1 = 0 → ∃ s, a.inuseList.lookup i = some s ∧
    (∀ j ∈ List.range' i n (2 ^ Nat.clog 2 s), a.inuseList.lookup j = some s ∧
      ∀ k, j ≤ k → k < j + s → (a.releaseMultiple i n).2.IndexFree k) ∧
    ∀ k, (a.releaseMultiple i n).2.inuseList.lookup k =
      if k ∈ List.range' i n (2 ^ Nat.clog 2 s) then none else a.inuseList.lookup k

/-- A block of the highest class at the index is the first of `n` blocks of its size at the stride
    of the class. -/
def WholeGroup (a : Power2Allocator) (i n : ℕ) : Prop :=
  ∀ s, a.inuseList.lookup i = some s → log2Uint32Ceil s = a.noFreeLists - 1 →
    ∀ j ∈ List.range' i n a.maxSize, a.inuseList.lookup j = some s

theorem Represents.wholeGroup_iff (h : a.Represents L p) : a.WholeGroup i n ↔
    ∀ s, p.blocks.lookup i = some s → Nat.clog 2 s = L →
      ∀ j ∈ List.range' i n (2 ^ L), p.blocks.lookup j = some s := by
  rw [WholeGroup, h.inuse, h.maxSize, h.holds.noFreeLists, Nat.add_sub_cancel]
  refine forall_congr' fun s => forall_congr' fun hi => ?_
  obtain ⟨hpos, hin, hsmall⟩ := h.block_bounds hi
  rw [log2Uint32Ceil_eq_clog (by omega)]

/-! ## The loop on a whole group -/

/-- The in-use list is the one of the pool, and so are the chunks from `b` on. -/
structure AgreesFrom (a : Power2Allocator) (L : ℕ) (p : Pool) (b : ℕ) : Prop where
  chunks : ∃ C, a.Holds L C ∧ ∀ x, b ≤ x.start → (x ∈ C ↔ x ∈ canonicalChunks L p.free)
  totalSize : a.totalSize = p.total
  small : p.total < 2 ^ 31
  inuse : a.inuseList = p.blocks

theorem Represents.agreesFrom (h : a.Represents L p) (b : ℕ) : a.AgreesFrom L p b :=
  ⟨⟨_, h.holds, fun _ _ => Iff.rfl⟩, h.totalSize, h.small, h.inuse⟩

theorem AgreesFrom.releaseMultipleLoop_succ (h : a.AgreesFrom L p b)
    (hi : p.blocks.lookup i = some s) (hbi : b ≤ i) (n : ℕ) :
    Power2Allocator.releaseMultipleLoop L s (n + 1) a i =
      Power2Allocator.releaseMultipleLoop L s n (a.afterRound i s (p.nextStart i)) (i + 2 ^ L) := by
  obtain ⟨C, hholds, hC⟩ := h.chunks
  exact hholds.releaseMultipleLoop_succ h.inuse h.totalSize h.small hi
    (fun x hx => hC x (hbi.trans hx)) n

/-- A round makes the chunks canonical behind the block, frees everything up to there and keeps what
    is free before the block. -/
theorem AgreesFrom.afterRound (h : a.AgreesFrom L p b) (hi : p.blocks.lookup i = some s)
    (hbi : b ≤ i) :
    (a.afterRound i s (p.nextStart i)).AgreesFrom L (p.give i) (p.nextStart i) ∧
      (∀ j < i, a.IndexFree j → (a.afterRound i s (p.nextStart i)).IndexFree j) ∧
      ∀ j, i ≤ j → j < p.nextStart i → (a.afterRound i s (p.nextStart i)).IndexFree j := by
  obtain ⟨⟨C, hholds, hC⟩, htotal, hsmall, hinuse⟩ := h
  have hpos := p.pos i s hi
  obtain ⟨hprev, hnext⟩ := Pool.between_of_block hi
  obtain ⟨-, hround⟩ := hholds.afterRound hinuse hsmall hi fun x hx => hC x (hbi.trans hx)
  obtain ⟨-, htot, huse⟩ := afterRound_usage a i s (p.nextStart i)
  refine ⟨⟨⟨_, hround, fun x hx => ?_⟩, htot.trans htotal, hsmall, ?_⟩, fun j hj hfree => ?_,
    fun j h1 h2 => ?_⟩
  · -- no chunk of an interval that ends at the next block starts behind it
    have hout : ∀ g e, g ≤ e → e ≤ p.nextStart i → x ∉ greedyChunks L g (e - g) := by
      intro g e hge he hx'
      obtain ⟨haligned, -, hstop, -⟩ := mem_greedyChunks hx'
      have := haligned.len_pos
      rw [Chunk.stop] at hstop
      omega
    have hunion := mem_canonicalChunks_union (L := L) (Pool.isGap_give hi)
      (fun j => Pool.not_free_of_block hi) hprev (by omega : i < i + s) hnext x
    have hx1 := hout (i + s) (p.nextStart i) hnext le_rfl
    have hx2 := hout i (p.nextStart i) (by omega) le_rfl
    have hx3 := hout (p.prevEnd i) i hprev (by omega)
    have hx4 := hout (p.prevEnd i) (p.nextStart i) (by omega) le_rfl
    have hCx := hC x (by omega)
    rw [Pool.free_give hi, hunion]
    simp only [Set.mem_union, Set.mem_sdiff, Set.mem_ofPred_eq]
    tauto
  · rw [huse, hinuse]
    rfl
  · obtain ⟨x, hx, hxj⟩ := hfree
    refine ⟨x, (hround.chunks x).2 (Or.inl ⟨(hholds.chunks x).1 hx, fun hx' => ?_⟩), hxj⟩
    have hstart := (mem_greedyChunks hx').2.1
    omega
  · obtain ⟨x, hx, hxj⟩ := greedyChunks_cover (L := L) (n := p.nextStart i - i) h1 (by omega)
    exact ⟨x, (hround.chunks x).2 (Or.inr hx), hxj⟩

/-- The loop releases a group whose blocks are all in use with the same size. -/
theorem AgreesFrom.releaseMultipleLoop (h : a.AgreesFrom L p b)
    (hblocks : ∀ j ∈ List.range' i n (2 ^ L), p.blocks.lookup j = some s)
    (hb : ∀ j ∈ List.range' i n (2 ^ L), b ≤ j) :
    (Power2Allocator.releaseMultipleLoop L s n a i).1 = 0 ∧
      (Power2Allocator.releaseMultipleLoop L s n a i).2.inuseList =
        (p.giveAll (List.range' i n (2 ^ L))).blocks ∧
      (∀ k < b, a.IndexFree k →
        (Power2Allocator.releaseMultipleLoop L s n a i).2.IndexFree k) ∧
      ∀ j ∈ List.range' i n (2 ^ L), ∀ k, j ≤ k → k < j + s →
        (Power2Allocator.releaseMultipleLoop L s n a i).2.IndexFree k := by
  induction n generalizing a p i b with
  | zero => exact ⟨rfl, h.inuse, fun k _ hk => hk, fun j hj => by cases hj⟩
  | succ n ih =>
      have hmem : i ∈ List.range' i (n + 1) (2 ^ L) := by simp [List.range'_succ]
      have hi := hblocks i hmem
      have hbi := hb i hmem
      have hpos := p.pos i s hi
      obtain ⟨-, hnext⟩ := Pool.between_of_block hi
      obtain ⟨hagrees, hold, hnew⟩ := h.afterRound hi hbi
      -- the next block of the group ends the free space behind this one
      obtain ⟨hrc, huse, hkeep, hrest⟩ := ih hagrees
        (fun j hj => (Pool.lookup_give_of_mem hblocks hj).2) fun j hj => by
          have hj' := List.mem_cons_of_mem i hj
          rw [← List.range'_succ] at hj'
          exact Pool.nextStart_le (hblocks j hj') (Pool.lookup_give_of_mem hblocks hj).1
      rw [h.releaseMultipleLoop_succ hi hbi, List.range'_succ]
      refine ⟨hrc, huse, fun k hk hfree => ?_, fun j hj k h1 h2 => ?_⟩
      · exact hkeep k (by omega) (hold k (by omega) hfree)
      · rcases List.mem_cons.1 hj with rfl | hj
        · exact hkeep k (by omega) (hnew k h1 (by omega))
        · exact hrest j hj k h1 h2

/-! ## The loop on anything else -/

/-- The loop only takes entries out of the in-use list. -/
theorem releaseMultipleLoop_lookup {k : ℕ} (log2 s n i : ℕ) (a : Power2Allocator)
    (hk : a.inuseList.lookup k = none) :
    (releaseMultipleLoop log2 s n a i).2.inuseList.lookup k = none := by
  induction n generalizing a i with
  | zero => exact hk
  | succ n ih =>
      have hstep : ∃ x m f, releaseMultipleLoop log2 s (n + 1) a i =
          if (a.removeFreeIndex x m).1 ≠ 0 then (-1, (a.removeFreeIndex x m).2.bfSysAssert false)
          else releaseMultipleLoop log2 s n
            (((a.removeFreeIndex x m).2.insertOneFree i f).markFree i) (u32Add i (shl1 log2)) :=
        ⟨_, _, _, rfl⟩
      obtain ⟨x, m, f, hstep⟩ := hstep
      have hremove := removeFreeIndex_sameUsage a x m
      rw [hstep]
      by_cases hrc : (a.removeFreeIndex x m).1 ≠ 0
      · simp only [if_pos hrc, bfSysAssert, hremove.2.2]
        exact hk
      · have hround := hremove.trans (insertOneFree_sameUsage _ i f)
        rw [if_neg hrc]
        apply ih
        simp only [markFree, bfSysAssert, hround.2.2, OrderedMap.lookup_erase, hk, ite_self]

/-- Whatever follows, the first block is released. -/
theorem Represents.first_released (h : a.Represents L p) (hi : p.blocks.lookup i = some s)
    (hclog : Nat.clog 2 s = L) (hn : 2 ≤ n) :
    (a.releaseMultiple i n).2.inuseList.lookup i = none := by
  obtain ⟨n, rfl⟩ := Nat.exists_eq_add_of_le' (by omega : 1 ≤ n)
  rw [h.releaseMultiple_eq_loop (by omega) hi hclog,
    (h.agreesFrom i).releaseMultipleLoop_succ hi le_rfl]
  apply releaseMultipleLoop_lookup
  rw [(afterRound_usage a i s (p.nextStart i)).2.2, OrderedMap.lookup_erase, if_pos rfl]

/-! ## All or nothing -/

theorem Represents.allOrNothing_of_refused (h : a.Represents L p) (hn : 2 ≤ n)
    (hrefused : ∀ s, p.blocks.lookup i = some s → Nat.clog 2 s ≠ L) : a.AllOrNothing i n := by
  have hr := h.releaseMultiple_refused (by omega : n ≠ 1) hrefused
  refine ⟨fun _ => ?_, fun hrc => ?_⟩
  · rw [hr]
    exact ⟨rfl, rfl⟩
  · rw [hr] at hrc
    cases hrc

theorem Represents.allOrNothing_of_group (h : a.Represents L p) (hn : 2 ≤ n)
    (hclog : Nat.clog 2 s = L)
    (hblocks : ∀ j ∈ List.range' i n (2 ^ L), p.blocks.lookup j = some s) :
    a.AllOrNothing i n := by
  have hi := hblocks i (List.mem_range'.2 ⟨0, by omega, by simp⟩)
  obtain ⟨hrc, huse, -, hfree⟩ := (h.agreesFrom 0).releaseMultipleLoop hblocks
    fun j _ => Nat.zero_le j
  rw [← h.releaseMultiple_eq_loop (by omega) hi hclog] at hrc huse hfree
  refine ⟨fun hne => absurd hrc hne, fun _ => ⟨s, by rw [h.inuse, hi], ?_⟩⟩
  rw [hclog]
  refine ⟨fun j hj => ⟨by rw [h.inuse, hblocks j hj], hfree j hj⟩, fun k => ?_⟩
  rw [huse, Pool.lookup_giveAll, h.inuse]

/-- In every state of a run in which no reserved range slipped through, `release_multiple` of at
    least two blocks is all or nothing if and only if the index is not the one of a block of the
    highest class or that block is the first of a whole group. -/
theorem allOrNothing_iff (hsize : size < 2 ^ 32) (hsmall : size * count < 2 ^ 31)
    (hcreate : create size count = some a₀) (hrun : Run (Step Call.Clean) a₀ es a) (hn : 2 ≤ n) :
    a.AllOrNothing i n ↔ a.WholeGroup i n := by
  obtain ⟨L, p, -, -, hp⟩ := exists_pool_of_keeps (fun h => h.keeps_clean) hsize hsmall hcreate hrun
  rw [hp.wholeGroup_iff]
  constructor
  · intro hall s hi hclog
    have hgone := hp.first_released hi hclog hn
    by_cases hrc : (a.releaseMultiple i n).1 = 0
    · obtain ⟨s', hi', hblocks, -⟩ := hall.all hrc
      rw [hp.inuse] at hi' hblocks
      obtain rfl : s = s' := Option.some.inj (hi.symm.trans hi')
      rw [hclog] at hblocks
      exact fun j hj => (hblocks j hj).1
    · -- an error that changed nothing would have left the first block in use
      rw [(hall.nothing hrc).2, hp.inuse, hi] at hgone
      cases hgone
  · intro hwhole
    by_cases hrefused : ∀ s, p.blocks.lookup i = some s → Nat.clog 2 s ≠ L
    · exact hp.allOrNothing_of_refused hn hrefused
    · push Not at hrefused
      obtain ⟨s, hi, hclog⟩ := hrefused
      exact hp.allOrNothing_of_group hn hclog (hwhole s hi hclog)

/-- Two equal blocks off the grid, of 3 indices at 1 and at 5, in a pool of two blocks of 4. -/
theorem allOrNothing_iff_unaligned : ∃ a, create 4 2 = some a ∧
    (((a.reserve 1 3).2.reserve 5 3).2.AllOrNothing 1 2 ↔
      ((a.reserve 1 3).2.reserve 5 3).2.WholeGroup 1 2) := by
  obtain ⟨a, hcreate, -⟩ := create_represents (by decide : 2 < 32) (by decide : 4 = 2 ^ 2)
    (by decide : 4 * 2 < 2 ^ 31)
  have hnil : Run (Step Call.Clean) a [] a := Run.nil
  have hfirst := run_call hnil (c := .reserve 1 3)
    ⟨by decide, by decide, fun h => by have := h.2; omega⟩ 0 rfl
  have hsecond := run_call hfirst (c := .reserve 5 3)
    ⟨by decide, by decide, fun h => by have := h.2; omega⟩ 0 rfl
  exact ⟨a, hcreate, allOrNothing_iff (by decide : 4 < 2 ^ 32) (by decide : 4 * 2 < 2 ^ 31)
    hcreate hsecond le_rfl⟩

/-- With blocks of 4 at 0 and of 3 at 4, a group of two is released from 0 on without error or
    failed assertion: the second round frees index 7 although it is free already. -/
theorem allOrNothing_false :
    ¬ ∀ (size count : ℕ) (a₀ a : Power2Allocator) (es : List (Call × ℤ)) (i n : ℕ), size < 2 ^ 32 →
      size * count < 2 ^ 31 → create size count = some a₀ → Run (Step Call.Clean) a₀ es a →
      2 ≤ n → a.AllOrNothing i n := by
  intro hclaim
  have hstate : (create 4 2).any (fun a =>
      decide (((a.reserve 0 4).2.reserve 4 3).2.inuseList.lookup 0 = some 4 ∧
        ((a.reserve 0 4).2.reserve 4 3).2.inuseList.lookup 4 = some 3 ∧
        (((a.reserve 0 4).2.reserve 4 3).2.releaseMultiple 0 2).1 = 0 ∧
        (((a.reserve 0 4).2.reserve 4 3).2.releaseMultiple 0 2).2.asserts = true ∧
        ((((a.reserve 0 4).2.reserve 4 3).2.releaseMultiple 0 2).2.freeList 2).lookup 4 = some 4 ∧
        ((((a.reserve 0 4).2.reserve 4 3).2.releaseMultiple 0 2).2.freeList 0).lookup 7 =
          some 1)) = true := by
    decide +kernel
  obtain ⟨a, hcreate, hb⟩ := (Option.any_eq_true _ _).1 hstate
  obtain ⟨hzero, hfour, hrc, -⟩ := of_decide_eq_true hb
  have hnil : Run (Step Call.Clean) a [] a := Run.nil
  have hfirst := run_call hnil (c := .reserve 0 4)
    ⟨by decide, by decide, fun h => by have := h.2; omega⟩ 0 rfl
  have hsecond := run_call hfirst (c := .reserve 4 3)
    ⟨by decide, by decide, fun h => by have := h.2; omega⟩ 0 rfl
  have hall := hclaim 4 2 a _ _ 0 2 (by decide) (by decide) hcreate hsecond le_rfl
  obtain ⟨s, hs, hblocks, -⟩ := hall.all hrc
  obtain rfl : 4 = s := Option.some.inj (hzero.symm.trans hs)
  rw [show Nat.clog 2 4 = 2 from Nat.clog_pow 2 2 (by decide)] at hblocks
  have hentry := (hblocks 4 (by decide)).1
  rw [hfour] at hentry
  cases hentry

end Power2Allocator
