import TargetUtils.Power2Allocator.FreeLists
import TargetUtils.Power2Allocator.Pool

set_option autoImplicit false

/-! # The allocator refines the pool

`Represents a L p` ties an allocator to an abstract pool: the in-use list is the pool's block map and
the free lists hold the canonical chunks of the pool's free set, nothing else. Every operation on
single blocks preserves it and computes the corresponding pool operation; this is where the local
edits of `alloc` and the whole-gap edits of `release` and `reserve` meet.

Below `2 ^ 31` indices every index is a nonnegative `int`. `Tracks a L p` asks only that no sum of
an index and a request wraps, which `alloc` and `release` need in any pool. -/

namespace Power2Allocator

/-- The allocator state that stands for the pool `p`, with blocks of at most `2 ^ L` indices. -/
structure Represents (a : Power2Allocator) (L : ℕ) (p : Pool) : Prop where
  holds : a.Holds L (canonicalChunks L p.free)
  maxSize : a.maxSize = 2 ^ L
  totalSize : a.totalSize = p.total
  small : p.total < 2 ^ 31
  dvd : 2 ^ L ∣ p.total
  inuse : a.inuseList = p.blocks

/-- The allocator state that stands for the pool `p` of any size below `2 ^ 32`: one more chunk after
    the last index still ends at a `uint32_t`, or exactly where it wraps. -/
structure Tracks (a : Power2Allocator) (L : ℕ) (p : Pool) : Prop where
  holds : a.Holds L (canonicalChunks L p.free)
  maxSize : a.maxSize = 2 ^ L
  totalSize : a.totalSize = p.total
  room : p.total + 2 ^ L ≤ 2 ^ 32
  inuse : a.inuseList = p.blocks

variable {a : Power2Allocator} {L : ℕ} {p : Pool}

theorem Represents.tracks (h : a.Represents L p) : a.Tracks L p := by
  have hcap := h.holds.cap
  have hsmall := h.small
  have hL : 2 ^ L ≤ 2 ^ 31 := Nat.pow_le_pow_right (by omega) (by omega)
  exact ⟨h.holds, h.maxSize, h.totalSize, by omega, h.inuse⟩

theorem Tracks.represents (h : a.Tracks L p) (hsmall : p.total < 2 ^ 31) (hdvd : 2 ^ L ∣ p.total) :
    a.Represents L p :=
  ⟨h.holds, h.maxSize, h.totalSize, hsmall, hdvd, h.inuse⟩

theorem Represents.block_bounds (h : a.Represents L p) {i s : ℕ}
    (hi : p.blocks.lookup i = some s) : 0 < s ∧ i + s ≤ p.total ∧ p.total < 2 ^ 31 :=
  ⟨p.pos i s hi, p.inside i s hi, h.small⟩

theorem Tracks.total_lt (h : a.Tracks L p) : p.total < 2 ^ 32 := by
  have hroom := h.room
  have hpos : 0 < 2 ^ L := Nat.pow_pos (by omega)
  omega

/-- Replacing the free lists' chunks and the in-use list by those of another pool of the same size. -/
theorem Tracks.of_holds (h : a.Tracks L p) {a' : Power2Allocator} {p' : Pool}
    (hholds : a'.Holds L (canonicalChunks L p'.free)) (hmax : a'.maxSize = a.maxSize)
    (htotal : a'.totalSize = a.totalSize) (htotal' : p'.total = p.total)
    (hinuse : a'.inuseList = p'.blocks) : a'.Tracks L p' :=
  ⟨hholds, hmax.trans h.maxSize, (htotal.trans h.totalSize).trans htotal'.symm,
    htotal' ▸ h.room, hinuse⟩

theorem Represents.of_holds (h : a.Represents L p) {a' : Power2Allocator} {p' : Pool}
    (hholds : a'.Holds L (canonicalChunks L p'.free)) (hmax : a'.maxSize = a.maxSize)
    (htotal : a'.totalSize = a.totalSize) (htotal' : p'.total = p.total)
    (hinuse : a'.inuseList = p'.blocks) : a'.Represents L p' :=
  (h.tracks.of_holds hholds hmax htotal htotal' hinuse).represents (htotal' ▸ h.small)
    (htotal' ▸ h.dvd)

/-- The pool determines the allocator. -/
theorem Tracks.unique {a' : Power2Allocator} (h : a.Tracks L p) (h' : a'.Tracks L p) : a = a' := by
  have hlists : a.freeLists = a'.freeLists := by
    have hlen := h.holds.length
    have hlen' := h'.holds.length
    refine List.ext_getElem (hlen.trans hlen'.symm) fun c hc hc' => ?_
    refine OrderedMap.ext_lookup fun i => Option.ext fun n => ?_
    have hchunk := (h.holds.chunks ⟨c, i, n⟩).trans (h'.holds.chunks ⟨c, i, n⟩).symm
    simpa [IsFree, freeList, List.getD_eq_getElem?_getD, hc, hc'] using hchunk
  obtain ⟨ms, ts, nf, fl, iu, as⟩ := a
  obtain ⟨ms', ts', nf', fl', iu', as'⟩ := a'
  have h1 := h.maxSize.trans h'.maxSize.symm
  have h2 := h.totalSize.trans h'.totalSize.symm
  have h3 := h.holds.noFreeLists.trans h'.holds.noFreeLists.symm
  have h4 := h.inuse.trans h'.inuse.symm
  have h5 := h.holds.asserts.trans h'.holds.asserts.symm
  simp only at h1 h2 h3 h4 h5 hlists
  subst h1 h2 h3 h4 h5 hlists
  rfl

theorem Represents.unique {a' : Power2Allocator} (h : a.Represents L p)
    (h' : a'.Represents L p) : a = a' := h.tracks.unique h'.tracks

/-! ## In-use list -/

theorem Holds.markInuse {C : Set Chunk} (h : a.Holds L C) {i s : ℕ}
    (hi : a.inuseList.lookup i = none) : (a.markInuse i s).Holds L C := by
  simp only [Power2Allocator.markInuse, hi, Option.getD_none, decide_true, bfSysAssert_true]
  exact ⟨h.cap, h.noFreeLists, h.length, h.asserts, h.chunks⟩

theorem Holds.markFree {C : Set Chunk} (h : a.Holds L C) {i s : ℕ}
    (hi : a.inuseList.lookup i = some s) : (a.markFree i).Holds L C := by
  simp only [Power2Allocator.markFree, hi, Option.isSome_some, bfSysAssert_true]
  exact ⟨h.cap, h.noFreeLists, h.length, h.asserts, h.chunks⟩

theorem Tracks.getIndexSize_none (h : a.Tracks L p) {i : ℕ} (hi : p.blocks.lookup i = none) :
    a.getIndexSize i = (u32Max, a) := by
  rw [getIndexSize, h.inuse, hi]

theorem Represents.getIndexSize_none (h : a.Represents L p) {i : ℕ}
    (hi : p.blocks.lookup i = none) : a.getIndexSize i = (u32Max, a) :=
  h.tracks.getIndexSize_none hi

theorem Tracks.getIndexSize_some (h : a.Tracks L p) {i s : ℕ}
    (hi : p.blocks.lookup i = some s) : a.getIndexSize i = (s, a) := by
  have hpos := p.pos i s hi
  simp [getIndexSize, h.inuse, hi, hpos.ne']

theorem Represents.getIndexSize_some (h : a.Represents L p) {i s : ℕ}
    (hi : p.blocks.lookup i = some s) : a.getIndexSize i = (s, a) ∧ s ≠ u32Max := by
  obtain ⟨hpos, hin, hsmall⟩ := h.block_bounds hi
  refine ⟨h.tracks.getIndexSize_some hi, ?_⟩
  rw [u32Max]
  omega

/-- Where free space before `i` starts, as `release` and `reserve` compute it. -/
theorem Tracks.prevEnd_eq (h : a.Tracks L p) (i : ℕ) :
    (if (a.getPrevInuseBlock i).1 ≠ u32Max then
        u32Add (a.getPrevInuseBlock i).1 (a.getPrevInuseBlock i).2 else 0) = p.prevEnd i := by
  rw [getPrevInuseBlock, h.inuse, Pool.prevEnd]
  cases hprev : p.blocks.prev i with
  | none => simp
  | some x =>
      obtain ⟨hk, -, -⟩ := OrderedMap.prev_eq_some.1 (show p.blocks.prev i = some (x.1, x.2) from hprev)
      have hpos := p.pos x.1 x.2 hk
      have hin := p.inside x.1 x.2 hk
      have htotal := h.total_lt
      have hne : x.1 ≠ u32Max := by
        rw [u32Max]
        omega
      simp only [Option.getD_some, Option.map_some, if_pos hne]
      exact u32Add_of_lt (by omega)

theorem Represents.prevEnd_eq (h : a.Represents L p) (i : ℕ) :
    (if (a.getPrevInuseBlock i).1 ≠ u32Max then
        u32Add (a.getPrevInuseBlock i).1 (a.getPrevInuseBlock i).2 else 0) = p.prevEnd i :=
  h.tracks.prevEnd_eq i

/-- Where free space after `i` ends; only the blocks in use matter. -/
theorem nextStart_eq_of (hinuse : a.inuseList = p.blocks) (htotal : a.totalSize = p.total)
    (hlt : p.total < 2 ^ 32) (i : ℕ) :
    (if (a.getNextInuseBlock i).1 = u32Max then a.totalSize else (a.getNextInuseBlock i).1) =
      p.nextStart i := by
  rw [getNextInuseBlock, hinuse, Pool.nextStart]
  cases hnext : p.blocks.next i with
  | none => simp [htotal]
  | some x =>
      obtain ⟨hk, -, -⟩ := OrderedMap.next_eq_some.1 (show p.blocks.next i = some (x.1, x.2) from hnext)
      have hpos := p.pos x.1 x.2 hk
      have hin := p.inside x.1 x.2 hk
      have hne : x.1 ≠ u32Max := by
        rw [u32Max]
        omega
      simp only [Option.getD_some, Option.map_some, if_neg hne]

theorem Represents.nextStart_eq (h : a.Represents L p) (i : ℕ) :
    (if (a.getNextInuseBlock i).1 = u32Max then a.totalSize else (a.getNextInuseBlock i).1) =
      p.nextStart i := nextStart_eq_of h.inuse h.totalSize h.tracks.total_lt i

/-! ## Create -/

theorem canonicalChunks_empty (L total : ℕ) :
    canonicalChunks L (Pool.empty total).free = {x | x ∈ greedyChunks L 0 total} := by
  have hmem : ∀ j, j ∈ (Pool.empty total).free ↔ j < total := fun j => by
    simp [Pool.free, Pool.empty]
  ext x
  constructor
  · rintro ⟨g, e, hgap, hx⟩
    have hg : g = 0 := by
      by_contra hne
      refine hgap.left (g - 1) (by omega) ((hmem _).2 ?_)
      have := (hmem g).1 (hgap.subset g le_rfl hgap.lt)
      omega
    have he : e = total := by
      have h1 : ¬ e < total := fun hlt => hgap.right ((hmem e).2 hlt)
      have h2 := (hmem (e - 1)).1 (hgap.subset (e - 1) (by have := hgap.lt; omega)
        (by have := hgap.lt; omega))
      omega
    subst hg he
    exact hx
  · intro hx
    rcases Nat.eq_zero_or_pos total with rfl | hpos
    · simp at hx
    · exact ⟨0, total, ⟨hpos, fun j _ hj => (hmem j).2 hj, fun j hj => by omega,
        fun hj => absurd ((hmem total).1 hj) (by omega)⟩, hx⟩

theorem createLoop_sameUsage (size n : ℕ) (a : Power2Allocator) (i : ℕ) :
    SameUsage a (createLoop size n a i) := by
  induction n generalizing a i with
  | zero => exact SameUsage.refl a
  | succ n ih => exact (insertOneFree_sameUsage a i size).trans (ih _ _)

/-- A fresh allocator stands for the empty pool. -/
theorem create_tracks {size count : ℕ} (hL : L < 32) (hsize : size = 2 ^ L)
    (hlt : size * count < 2 ^ 32) :
    ∃ a, create size count = some a ∧ a.Tracks L (Pool.empty (size * count)) := by
  have hloop : ∀ n i (a : Power2Allocator), 2 ^ L * (i + n) < 2 ^ 32 →
      a.Holds L {x | x ∈ greedyChunks L 0 (2 ^ L * i)} →
      (createLoop (2 ^ L) n a (2 ^ L * i)).Holds L {x | x ∈ greedyChunks L 0 (2 ^ L * (i + n))} := by
    intro n
    induction n with
    | zero => exact fun i a _ h => h
    | succ n ih =>
        intro i a hlt h
        have hle : 2 ^ L * (i + 1) ≤ 2 ^ L * (i + (n + 1)) := Nat.mul_le_mul_left _ (by omega)
        have hsucc : 2 ^ L * (i + 1) = 2 ^ L * i + 2 ^ L := by ring
        have hins := h.insertOneFree (i := 2 ^ L * i) (n := 2 ^ L) (by omega) (by
          intro x hx hxi
          obtain ⟨haligned, -, hstop, -⟩ := mem_greedyChunks hx
          have hpos := haligned.len_pos
          rw [Chunk.stop] at hstop
          omega)
        have happend := greedyChunks_append_of_dvd (L := L) (i := 0) (e := 2 ^ L * (i + 1))
          (d := 2 ^ L * i) (Nat.zero_le _) (by omega) (Nat.dvd_mul_right _ _)
        rw [Nat.sub_zero, Nat.sub_zero, hsucc, Nat.add_sub_cancel_left] at happend
        have hset : {x | x ∈ greedyChunks L 0 (2 ^ L * i)} ∪ {x | x ∈ greedyChunks L (2 ^ L * i) (2 ^ L)}
            = {x | x ∈ greedyChunks L 0 (2 ^ L * (i + 1))} := by
          ext x
          rw [hsucc, happend]
          simp
        rw [hset] at hins
        have hrec := ih (i + 1) _ (by rwa [show i + 1 + n = i + (n + 1) by omega]) hins
        rw [createLoop, u32Add_of_lt (by omega), ← hsucc, show i + (n + 1) = i + 1 + n by omega]
        exact hrec
  subst hsize
  have hpow : isUint32Power2 (2 ^ L) = true := (isUint32Power2_iff _).2 ⟨L, rfl⟩
  rw [create, if_pos hpow, log2Uint32Ceil_pow hL, u32_of_lt (by omega)]
  refine ⟨_, rfl, ?_⟩
  have hholds := hloop count 0
    { maxSize := 2 ^ L, totalSize := 2 ^ L * count, noFreeLists := L + 1
      freeLists := List.replicate (L + 1) OrderedMap.empty, inuseList := OrderedMap.empty
      asserts := true } (by simpa using hlt)
    ⟨hL, rfl, by simp, rfl, fun x => by
      simp [IsFree, freeList, List.getD_eq_getElem?_getD, List.getElem?_replicate]
      split_ifs <;> simp⟩
  rw [Nat.zero_add, Nat.mul_zero] at hholds
  -- both sides are multiples of `2 ^ L`
  have hroom : 2 ^ L * count + 2 ^ L ≤ 2 ^ 32 := by
    have hsplit : 2 ^ 32 = 2 ^ L * 2 ^ (32 - L) := by
      rw [← Nat.pow_add]
      congr 1
      omega
    rw [hsplit] at hlt ⊢
    exact Nat.mul_le_mul_left (2 ^ L) (lt_of_mul_lt_mul_left hlt (Nat.zero_le _))
  exact ⟨canonicalChunks_empty L _ ▸ hholds, (createLoop_sameUsage ..).1,
    (createLoop_sameUsage ..).2.1, hroom, (createLoop_sameUsage ..).2.2⟩

theorem create_represents {size count : ℕ} (hL : L < 32) (hsize : size = 2 ^ L)
    (hsmall : size * count < 2 ^ 31) :
    ∃ a, create size count = some a ∧ a.Represents L (Pool.empty (size * count)) := by
  obtain ⟨a, hcreate, h⟩ := create_tracks hL hsize (show size * count < 2 ^ 32 by omega)
  exact ⟨a, hcreate, h.represents hsmall (hsize ▸ Nat.dvd_mul_right _ _)⟩

/-! ## Release and reserve -/

theorem Represents.release_absent (h : a.Represents L p) {i : ℕ}
    (hi : p.blocks.lookup i = none) : a.release i = (-1, a) := by
  rw [release, h.getIndexSize_none hi]
  simp

/-- `power2_allocator_release` gives the block back, unless its size is the one that stands for a
    block not in use. -/
theorem Tracks.release (h : a.Tracks L p) {i s : ℕ} (hi : p.blocks.lookup i = some s)
    (hne : s ≠ u32Max) : (a.release i).1 = 0 ∧ (a.release i).2.Tracks L (p.give i) := by
  have hpos := p.pos i s hi
  have hin := p.inside i s hi
  have hlt := h.total_lt
  have hget := h.getIndexSize_some hi
  obtain ⟨hprev, hnext⟩ := Pool.between_of_block hi
  have hgap := Pool.isGap_give hi
  have htotal := p.nextStart_le_total i
  have hdisj : ∀ j, i ≤ j → j < i + s → j ∉ p.free := fun j => Pool.not_free_of_block hi
  have hunion := mem_canonicalChunks_union (L := L) hgap hdisj hprev (by omega) hnext
  -- the chunks of both neighbouring remainders are in the free lists
  have hback := mem_canonicalChunks_of_union (L := L) hgap hdisj hprev
    (by omega : i < i + s) hnext
  have hleft : ∀ x ∈ greedyChunks L (p.prevEnd i) (i - p.prevEnd i),
      x ∈ canonicalChunks L p.free := fun x hx => (hback x).2 (Or.inr (Or.inl hx))
  have hright : ∀ x ∈ greedyChunks L (i + s) (p.nextStart i - (i + s)),
      x ∈ canonicalChunks L p.free := fun x hx => (hback x).2 (Or.inr (Or.inr hx))
  have hrem1 := h.holds.removeFreeIndex (by omega) hleft
  have hrem2 := hrem1.2.removeFreeIndex (i := i + s) (n := p.nextStart i - (i + s)) (by omega) (by
    intro x hx
    refine ⟨hright x hx, fun hx' => ?_⟩
    obtain ⟨haligned, -, h1, -⟩ := mem_greedyChunks hx'
    obtain ⟨-, h2, -, -⟩ := mem_greedyChunks hx
    have := haligned.len_pos
    rw [Chunk.stop] at h1
    omega)
  have hins := hrem2.2.insertOneFree (i := p.prevEnd i) (n := p.nextStart i - p.prevEnd i)
    (by omega) (by
      intro x hx hxi
      -- a canonical chunk that starts in the gap belongs to one of the remainders
      obtain ⟨⟨hx, hn1⟩, hn2⟩ := hx
      rcases (hback x).1 hx with hx | hx | hx
      · exact hx.2 ((hgap.mem_greedyChunks_iff x).2 ⟨hx.1, hxi.1, by omega⟩)
      · exact hn1 hx
      · exact hn2 hx)
  have hset : canonicalChunks L (p.give i).free =
      ((canonicalChunks L p.free \ {x | x ∈ greedyChunks L (p.prevEnd i) (i - p.prevEnd i)}) \
        {x | x ∈ greedyChunks L (i + s) (p.nextStart i - (i + s))}) ∪
          {x | x ∈ greedyChunks L (p.prevEnd i) (p.nextStart i - p.prevEnd i)} := by
    ext x
    rw [Pool.free_give hi, hunion]
    simp only [Set.mem_union, Set.mem_sdiff, Set.mem_ofPred_eq]
    tauto
  rw [← hset] at hins
  have hsize : u32Add (u32Add s (i - p.prevEnd i)) (p.nextStart i - (i + s)) =
      p.nextStart i - p.prevEnd i := by
    rw [u32Add_of_lt (by omega : s + (i - p.prevEnd i) < 2 ^ 32), u32Add_of_lt (by omega)]
    omega
  have hsame := (removeFreeIndex_sameUsage a (p.prevEnd i) (i - p.prevEnd i)).trans
    ((removeFreeIndex_sameUsage _ (i + s) (p.nextStart i - (i + s))).trans
      (insertOneFree_sameUsage _ (p.prevEnd i) (p.nextStart i - p.prevEnd i)))
  simp only [Power2Allocator.release, hget, if_neg hne, h.prevEnd_eq,
    nextStart_eq_of h.inuse h.totalSize hlt i,
    u32Add_of_lt (by omega : i + s < 2 ^ 32), u32Sub_of_le hprev (by omega),
    u32Sub_of_le hnext (by omega), hsize, hrem1.1, hrem2.1, ne_eq, not_true_eq_false, if_false]
  refine ⟨trivial, h.of_holds (hins.markFree (s := s) ?_) ?_ ?_ rfl ?_⟩
  · rw [hsame.2.2, h.inuse, hi]
  · exact hsame.1
  · exact hsame.2.1
  · simp only [Power2Allocator.markFree, bfSysAssert, hsame.2.2, h.inuse]
    rfl

theorem Represents.release (h : a.Represents L p) {i s : ℕ} (hi : p.blocks.lookup i = some s) :
    (a.release i).1 = 0 ∧ (a.release i).2.Represents L (p.give i) := by
  obtain ⟨hrc, ht⟩ := h.tracks.release hi (h.getIndexSize_some hi).2
  exact ⟨hrc, ht.represents h.small h.dvd⟩

/-- The three tests of `power2_allocator_reserve`. -/
theorem Represents.reserve_refused (h : a.Represents L p) {i s : ℕ}
    (hout : p.blocks.lookup i ≠ none ∨ i < p.prevEnd i ∨ p.nextStart i < u32Add i s) :
    a.reserve i s = (1, a) := by
  cases hi : p.blocks.lookup i with
  | some t =>
      obtain ⟨hget, hne⟩ := h.getIndexSize_some hi
      simp [Power2Allocator.reserve, hget, hne]
  | none =>
      simp only [Power2Allocator.reserve, h.getIndexSize_none hi, ne_self_iff_false, if_false,
        h.prevEnd_eq, h.nextStart_eq]
      by_cases hprev : i < p.prevEnd i
      · rw [if_pos hprev]
      · have hnext : u32Add i s > p.nextStart i :=
          (hout.resolve_left fun hne => hne hi).resolve_left hprev
        rw [if_neg hprev, if_pos hnext]

/-- `power2_allocator_reserve` refuses a range that is not entirely free. -/
theorem Represents.reserve_of_not_fits (h : a.Represents L p) {i s : ℕ} (hs : 0 < s)
    (hw : i + s < 2 ^ 32) (hfit : ¬ p.Fits i s) : a.reserve i s = (1, a) := by
  rw [Pool.fits_iff hs] at hfit
  apply h.reserve_refused
  rw [u32Add_of_lt hw]
  by_cases hi : p.blocks.lookup i = none
  · have hout : ¬ (p.prevEnd i ≤ i ∧ i + s ≤ p.nextStart i) := fun hb => hfit ⟨hi, hb⟩
    omega
  · exact Or.inl hi

/-- Whatever range passes the tests is reserved. -/
theorem Represents.reserve_accepted (h : a.Represents L p) {i s : ℕ}
    (hi : p.blocks.lookup i = none) (hprev : p.prevEnd i ≤ i)
    (hnext : u32Add i s ≤ p.nextStart i) : (a.reserve i s).1 = 0 := by
  have htotal := p.nextStart_le_total i
  have hsmall := h.small
  -- behind the last block the gap may be empty
  have hle : p.prevEnd i ≤ p.nextStart i := by
    rcases p.nextStart_cases i with hn | ⟨k, t, hk, hik, hn⟩
    · exact hn ▸ p.prevEnd_le_total i
    · omega
  have hrem := h.holds.removeFreeIndex (i := p.prevEnd i) (n := p.nextStart i - p.prevEnd i)
    (by omega) (fun x hx => by
      have hpos : p.prevEnd i < p.nextStart i := by
        by_contra hcon
        rw [Nat.sub_eq_zero_of_le (by omega), greedyChunks_zero] at hx
        cases hx
      exact ⟨_, _, Pool.isGap_of_lt hi hpos, hx⟩)
  have hcond : ¬ i < p.prevEnd i ∧ ¬ u32Add i s > p.nextStart i := by omega
  simp only [Power2Allocator.reserve, h.getIndexSize_none hi, ne_self_iff_false, if_false,
    h.prevEnd_eq, h.nextStart_eq, u32Sub_of_le hle (by omega), if_neg hcond.1, if_neg hcond.2,
    hrem.1]

/-- `power2_allocator_reserve` takes a free range. -/
theorem Represents.reserve (h : a.Represents L p) {i s : ℕ} (hs : 0 < s) (hfit : p.Fits i s) :
    (a.reserve i s).1 = 0 ∧ (a.reserve i s).2.Represents L (p.take i s hs hfit) := by
  obtain ⟨hi, hprev, hnext⟩ := (Pool.fits_iff hs).1 hfit
  have hgap := Pool.isGap_of_absent hi hs hprev hnext
  have htotal := p.nextStart_le_total i
  have hsmall := h.small
  have hdiff := mem_canonicalChunks_diff (L := L) hgap hprev (by omega : i < i + s) hnext
  have hrem := h.holds.removeFreeIndex (i := p.prevEnd i) (n := p.nextStart i - p.prevEnd i)
    (by omega) (fun x hx => ⟨_, _, hgap, hx⟩)
  have hins := hrem.2.insertAround hprev (by omega) hnext (by omega) (by
    rintro x ⟨hx, hn⟩ hxi
    exact hn ((hgap.mem_greedyChunks_iff x).2 ⟨hx, hxi⟩))
  have hset : canonicalChunks L (p.take i s hs hfit).free =
      (canonicalChunks L p.free \ {x | x ∈ greedyChunks L (p.prevEnd i)
        (p.nextStart i - p.prevEnd i)}) ∪ ({x | x ∈ greedyChunks L (p.prevEnd i) (i - p.prevEnd i)} ∪
          {x | x ∈ greedyChunks L (i + s) (p.nextStart i - (i + s))}) := by
    ext x
    rw [Pool.free_take hs hfit, hdiff]
    rfl
  rw [← hset] at hins
  have hsame := (removeFreeIndex_sameUsage a (p.prevEnd i) (p.nextStart i - p.prevEnd i)).trans
    ((insertOneFree_sameUsage _ (p.prevEnd i) (i - p.prevEnd i)).trans
      (insertOneFree_sameUsage _ (i + s) (p.nextStart i - (i + s))))
  have hcond : ¬ i < p.prevEnd i ∧ ¬ i + s > p.nextStart i := by omega
  simp only [Power2Allocator.reserve, h.getIndexSize_none hi, ne_self_iff_false, if_false,
    h.prevEnd_eq, h.nextStart_eq, u32Add_of_lt (by omega : i + s < 2 ^ 32),
    u32Sub_of_le (by omega : p.prevEnd i ≤ p.nextStart i) (by omega), u32Sub_of_le hprev (by omega),
    u32Sub_of_le hnext (by omega), if_neg hcond.1, if_neg hcond.2, hrem.1]
  refine ⟨trivial, h.of_holds (hins.markInuse ?_) hsame.1 hsame.2.1 rfl ?_⟩
  · rw [hsame.2.2, h.inuse, hi]
  · simp only [Power2Allocator.markInuse, bfSysAssert, hsame.2.2, h.inuse]
    rfl

end Power2Allocator
