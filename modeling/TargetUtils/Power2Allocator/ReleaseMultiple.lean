import TargetUtils.Power2Allocator.Refinement

set_option autoImplicit false

/-! # Releasing a group of blocks

`power2_allocator_release_multiple` never coalesces with the free space before a block: "when
count > 1, the index will be aligned at the highest log available". At a multiple of `2 ^ L` the
greedy decomposition of a gap splits (`greedyChunks_append_of_dvd`), so for such an index the
shortcut lands on the canonical chunks. As the pool determines the allocator
(`Represents.unique`), the result is the one of single releases in any order. -/

namespace Power2Allocator

variable {a : Power2Allocator} {L : ℕ} {p : Pool}

/-- Releasing blocks one after the other. -/
theorem Represents.foldl_release (h : a.Represents L p) {l : List ℕ} (hnodup : l.Nodup)
    (hl : ∀ i ∈ l, p.blocks.lookup i ≠ none) :
    (l.foldl (fun a i => (a.release i).2) a).Represents L (p.giveAll l) := by
  induction l generalizing a p with
  | nil => exact h
  | cons i rest ih =>
      obtain ⟨hnot, hnodup⟩ := List.nodup_cons.1 hnodup
      obtain ⟨s, hs⟩ := Option.ne_none_iff_exists'.1 (hl i (List.mem_cons_self ..))
      refine ih (h.release hs).2 hnodup fun j hj => ?_
      rw [Pool.give, OrderedMap.lookup_erase, if_neg (fun he : j = i => hnot (he ▸ hj))]
      exact hl j (List.mem_cons_of_mem _ hj)

/-! ## One round -/

/-- The allocator after the round for the block of `s` indices at `i`, with free space up to `e`
    behind it. -/
def afterRound (a : Power2Allocator) (i s e : ℕ) : Power2Allocator :=
  ((a.removeFreeIndex (i + s) (e - (i + s))).2.insertOneFree i (e - i)).markFree i

/-- A round touches the in-use list only at its index. -/
theorem afterRound_usage (a : Power2Allocator) (i s e : ℕ) :
    (a.afterRound i s e).maxSize = a.maxSize ∧ (a.afterRound i s e).totalSize = a.totalSize ∧
      (a.afterRound i s e).inuseList = a.inuseList.erase i := by
  have hsame := (removeFreeIndex_sameUsage a (i + s) (e - (i + s))).trans
    (insertOneFree_sameUsage _ i (e - i))
  refine ⟨hsame.1, hsame.2.1, ?_⟩
  simp only [afterRound, Power2Allocator.markFree, bfSysAssert, hsame.2.2]

/-- A round exchanges the chunks behind the block for those from the block on, and only needs the
    free lists to be canonical from there on. -/
theorem Holds.afterRound {C : Set Chunk} (h : a.Holds L C) (hinuse : a.inuseList = p.blocks)
    (hsmall : p.total < 2 ^ 31) {i s : ℕ} (hi : p.blocks.lookup i = some s)
    (hC : ∀ x, i ≤ x.start → (x ∈ C ↔ x ∈ canonicalChunks L p.free)) :
    (a.removeFreeIndex (i + s) (p.nextStart i - (i + s))).1 = 0 ∧
      (a.afterRound i s (p.nextStart i)).Holds L
        ((C \ {x | x ∈ greedyChunks L (i + s) (p.nextStart i - (i + s))}) ∪
          {x | x ∈ greedyChunks L i (p.nextStart i - i)}) := by
  have hpos := p.pos i s hi
  obtain ⟨hprev, hnext⟩ := Pool.between_of_block hi
  have hgap := Pool.isGap_give hi
  have htotal := p.nextStart_le_total i
  have hback := mem_canonicalChunks_of_union (L := L) hgap
    (fun j => Pool.not_free_of_block hi) hprev (by omega : i < i + s) hnext
  have hrem := h.removeFreeIndex (i := i + s) (n := p.nextStart i - (i + s)) (by omega)
    (fun x hx => by
      have hstart := (mem_greedyChunks hx).2.1
      exact (hC x (by omega)).2 ((hback x).2 (Or.inr (Or.inr hx))))
  have hins := hrem.2.insertOneFree (i := i) (n := p.nextStart i - i) (by omega) (by
    rintro x ⟨hx, hn⟩ hxi
    rcases (hback x).1 ((hC x hxi.1).1 hx) with hx | hx | hx
    · exact hx.2 ((hgap.mem_greedyChunks_iff x).2 ⟨hx.1, by omega, by omega⟩)
    · obtain ⟨haligned, -, hstop, -⟩ := mem_greedyChunks hx
      have := haligned.len_pos
      rw [Chunk.stop] at hstop
      omega
    · exact hn hx)
  have hsame := (removeFreeIndex_sameUsage a (i + s) (p.nextStart i - (i + s))).trans
    (insertOneFree_sameUsage _ i (p.nextStart i - i))
  refine ⟨hrem.1, hins.markFree (s := s) ?_⟩
  rw [hsame.2.2, hinuse, hi]

/-- At a multiple of `2 ^ L` a round is a release. -/
theorem Represents.releaseAligned (h : a.Represents L p) {i s : ℕ}
    (hi : p.blocks.lookup i = some s) (hdvd : 2 ^ L ∣ i) :
    (a.afterRound i s (p.nextStart i)).Represents L (p.give i) := by
  obtain ⟨hpos, hin, hsmall⟩ := h.block_bounds hi
  obtain ⟨hprev, hnext⟩ := Pool.between_of_block hi
  have hgap := Pool.isGap_give hi
  have htotal := p.nextStart_le_total i
  have hdisj : ∀ j, i ≤ j → j < i + s → j ∉ p.free := fun j => Pool.not_free_of_block hi
  have hunion := mem_canonicalChunks_union (L := L) hgap hdisj hprev (by omega) hnext
  have hback := mem_canonicalChunks_of_union (L := L) hgap hdisj hprev
    (by omega : i < i + s) hnext
  have hsplit := greedyChunks_append_of_dvd (L := L) hprev (by omega : i ≤ p.nextStart i) hdvd
  have hleft : ∀ x ∈ greedyChunks L (p.prevEnd i) (i - p.prevEnd i), x.start < i := by
    intro x hx
    obtain ⟨haligned, -, hstop, -⟩ := mem_greedyChunks hx
    have := haligned.len_pos
    rw [Chunk.stop] at hstop
    omega
  have hright : ∀ x ∈ greedyChunks L (i + s) (p.nextStart i - (i + s)), i < x.start := by
    intro x hx
    have := (mem_greedyChunks hx).2.1
    omega
  obtain ⟨-, hround⟩ := h.holds.afterRound h.inuse hsmall hi fun x _ => Iff.rfl
  have hset : canonicalChunks L (p.give i).free =
      (canonicalChunks L p.free \ {x | x ∈ greedyChunks L (i + s) (p.nextStart i - (i + s))}) ∪
        {x | x ∈ greedyChunks L i (p.nextStart i - i)} := by
    ext x
    have hx := hback x
    have hlr : x ∈ greedyChunks L (p.prevEnd i) (i - p.prevEnd i) →
        x ∉ greedyChunks L (i + s) (p.nextStart i - (i + s)) := fun h1 h2 => by
      have := hleft x h1
      have := hright x h2
      omega
    rw [Pool.free_give hi, hunion, hsplit]
    simp only [Set.mem_union, Set.mem_sdiff, Set.mem_ofPred_eq, List.mem_append]
    tauto
  rw [← hset] at hround
  obtain ⟨hmax, htot, hinuse⟩ := afterRound_usage a i s (p.nextStart i)
  refine h.of_holds hround hmax htot rfl ?_
  rw [hinuse, h.inuse]
  rfl

/-- The loop goes on behind a round that finds a block of `s` indices. -/
theorem Holds.releaseMultipleLoop_succ {C : Set Chunk} (h : a.Holds L C)
    (hinuse : a.inuseList = p.blocks) (htotal : a.totalSize = p.total) (hsmall : p.total < 2 ^ 31)
    {i s : ℕ} (hi : p.blocks.lookup i = some s)
    (hC : ∀ x, i ≤ x.start → (x ∈ C ↔ x ∈ canonicalChunks L p.free)) (n : ℕ) :
    Power2Allocator.releaseMultipleLoop L s (n + 1) a i =
      Power2Allocator.releaseMultipleLoop L s n (a.afterRound i s (p.nextStart i)) (i + 2 ^ L) := by
  have hcap := h.cap
  have hL31 : 2 ^ L ≤ 2 ^ 31 := Nat.pow_le_pow_right (by omega) (by omega)
  have hpos := p.pos i s hi
  obtain ⟨-, hnext⟩ := Pool.between_of_block hi
  have hle := p.nextStart_le_total i
  obtain ⟨hrc, -⟩ := h.afterRound hinuse hsmall hi hC
  have hsize : u32Add s (p.nextStart i - (i + s)) = p.nextStart i - i := by
    rw [u32Add_of_lt (by omega)]
    omega
  rw [Power2Allocator.releaseMultipleLoop]
  simp only [nextStart_eq_of hinuse htotal (by omega : p.total < 2 ^ 32), u32Add_of_lt (by omega : i + s < 2 ^ 32),
    u32Sub_of_le hnext (by omega), hrc, ne_self_iff_false, if_false, hsize, shl1_of_lt hcap,
    u32Add_of_lt (by omega : i + 2 ^ L < 2 ^ 32)]
  rfl

/-! ## The loop -/

theorem Pool.lookup_give_of_mem {i j s n : ℕ}
    (hblocks : ∀ j ∈ List.range' i (n + 1) (2 ^ L), p.blocks.lookup j = some s)
    (hj : j ∈ List.range' (i + 2 ^ L) n (2 ^ L)) : i < j ∧ (p.give i).blocks.lookup j = some s := by
  have hlt : i < j := by
    obtain ⟨k, -, rfl⟩ := List.mem_range'.1 hj
    have : 0 < 2 ^ L := Nat.pow_pos (by omega)
    omega
  refine ⟨hlt, ?_⟩
  rw [Pool.give, OrderedMap.lookup_erase, if_neg hlt.ne']
  exact hblocks j (by rw [List.range'_succ]; exact List.mem_cons_of_mem _ hj)

theorem Represents.releaseMultipleLoop (h : a.Represents L p) {s n i : ℕ} (hdvd : 2 ^ L ∣ i)
    (hblocks : ∀ j ∈ List.range' i n (2 ^ L), p.blocks.lookup j = some s) :
    (Power2Allocator.releaseMultipleLoop L s n a i).1 = 0 ∧
      (Power2Allocator.releaseMultipleLoop L s n a i).2.Represents L
        (p.giveAll (List.range' i n (2 ^ L))) := by
  induction n generalizing a p i with
  | zero => exact ⟨rfl, h⟩
  | succ n ih =>
      have hi := hblocks i (by simp [List.range'_succ])
      have hstep := h.releaseAligned hi hdvd
      rw [h.holds.releaseMultipleLoop_succ h.inuse h.totalSize h.small hi (fun _ _ => Iff.rfl),
        List.range'_succ]
      exact ih hstep (Nat.dvd_add hdvd (dvd_refl _)) fun j hj =>
        (Pool.lookup_give_of_mem hblocks hj).2

/-! ## The checks before the loop -/

theorem Represents.releaseMultiple_eq_loop (h : a.Represents L p) {s n i : ℕ} (hn : n ≠ 1)
    (hi : p.blocks.lookup i = some s) (hclog : Nat.clog 2 s = L) :
    a.releaseMultiple i n = Power2Allocator.releaseMultipleLoop L s n a i := by
  have hcap := h.holds.cap
  obtain ⟨hpos, hin, hsmall⟩ := h.block_bounds hi
  obtain ⟨hget, hne⟩ := h.getIndexSize_some hi
  have hlog : log2Uint32Ceil s = L := (log2Uint32Ceil_eq_clog (by omega)).trans hclog
  rw [Power2Allocator.releaseMultiple, if_neg hn, hget]
  simp only [if_neg hne, hlog, h.holds.noFreeLists,
    u32Sub_of_le (by omega : 1 ≤ L + 1) (by omega), Nat.add_sub_cancel, ne_self_iff_false, if_false]

/-- Without a block of the highest class at the index nothing happens. -/
theorem Represents.releaseMultiple_refused (h : a.Represents L p) {n i : ℕ} (hn : n ≠ 1)
    (hrefused : ∀ s, p.blocks.lookup i = some s → Nat.clog 2 s ≠ L) :
    a.releaseMultiple i n = (-1, a) := by
  have hcap := h.holds.cap
  rw [Power2Allocator.releaseMultiple, if_neg hn]
  cases hi : p.blocks.lookup i with
  | none => simp only [h.getIndexSize_none hi, if_true]
  | some s =>
      obtain ⟨hpos, hin, hsmall⟩ := h.block_bounds hi
      obtain ⟨hget, hne⟩ := h.getIndexSize_some hi
      have hlog : log2Uint32Ceil s ≠ L := by
        rw [log2Uint32Ceil_eq_clog (by omega)]
        exact hrefused s hi
      simp only [hget, if_neg hne, h.holds.noFreeLists,
        u32Sub_of_le (by omega : 1 ≤ L + 1) (by omega), Nat.add_sub_cancel, if_pos hlog]

/-- `power2_allocator_release_multiple` of an aligned group of at least two blocks. -/
theorem Represents.releaseMultiple (h : a.Represents L p) {s n i : ℕ} (hn : 2 ≤ n)
    (hdvd : 2 ^ L ∣ i) (hclog : Nat.clog 2 s = L)
    (hblocks : ∀ j ∈ List.range' i n (2 ^ L), p.blocks.lookup j = some s) :
    (a.releaseMultiple i n).1 = 0 ∧
      (a.releaseMultiple i n).2.Represents L (p.giveAll (List.range' i n (2 ^ L))) := by
  have hi := hblocks i (List.mem_range'.2 ⟨0, by omega, by simp⟩)
  rw [h.releaseMultiple_eq_loop (by omega) hi hclog]
  exact h.releaseMultipleLoop hdvd hblocks

end Power2Allocator
