import TargetUtils.Power2Allocator.Refinement

set_option autoImplicit false

/-! # Allocation of one block

`power2_allocator_alloc` takes the first chunk of sufficient length from the lists of class
`log2_uint32_ceil(size)` and above and cuts the block out of it, as far right as alignment allows.
Since a free aligned run always lies inside one canonical chunk (`exists_chunk_of_run`), the search
fails only when no aligned place is left. -/

namespace Power2Allocator

variable {a : Power2Allocator} {L : ℕ} {p : Pool}

/-! ## Search -/

/-- What `remove_one_free` and the scan over several lists have in common: either no chunk of the
    classes searched is long enough and nothing changes, or one such chunk leaves the free lists. -/
def Extracts (a : Power2Allocator) (C : Set Chunk) (q size freeSize : ℕ)
    (r : ℕ × ℕ × Power2Allocator) : Prop :=
  (r = (u32Max, freeSize, a) ∧ ∀ x ∈ C, q ≤ x.cls → x.len < size) ∨
    ∃ x ∈ C, q ≤ x.cls ∧ size ≤ x.len ∧
      r = (x.start, x.len, a.setFreeList x.cls ((a.freeList x.cls).erase x.start))

theorem Holds.removeOneFree {C : Set Chunk} (h : a.Holds L C) {c size : ℕ} (hc : c ≤ L)
    (hsize : size ≤ 2 ^ c) (freeSize : ℕ) :
    a.removeOneFree c size freeSize = (u32Max, freeSize, a) ∧ (∀ x ∈ C, x.cls = c → x.len < size) ∨
      ∃ x ∈ C, x.cls = c ∧ size ≤ x.len ∧ a.removeOneFree c size freeSize =
        (x.start, x.len, a.setFreeList x.cls ((a.freeList x.cls).erase x.start)) := by
  have hcap := h.cap
  have hlists := h.noFreeLists
  rw [Power2Allocator.removeOneFree, if_neg (by omega), shl1_of_lt (by omega), decide_eq_true hsize,
    bfSysAssert_true]
  simp only
  cases hwalk : (a.freeList c).walk (fun _ v => decide (v ≥ size)) (a.freeList c).card
      ((a.freeList c).first 0) with
  | none =>
      refine Or.inl ⟨rfl, fun x hx hxc => ?_⟩
      have hlook := (h.chunks x).2 hx
      rw [IsFree, hxc] at hlook
      have := (OrderedMap.walk_first_eq_none Nat.zero_le).1 hwalk _ _ hlook
      simpa using this
  | some y =>
      obtain ⟨i, n⟩ := y
      obtain ⟨hlook, hlen⟩ := OrderedMap.walk_first_eq_some Nat.zero_le hwalk
      exact Or.inr ⟨⟨c, i, n⟩, (h.chunks ⟨c, i, n⟩).1 hlook, rfl, by simpa using hlen, rfl⟩

/-- The scan stops at the first list with a chunk that is long enough. -/
theorem Holds.allocScan {C : Set Chunk} (h : a.Holds L C) (hcls : ∀ x ∈ C, x.cls ≤ L)
    (hstart : ∀ x ∈ C, x.start ≠ u32Max) {q size : ℕ} (hsize : size ≤ 2 ^ q) (freeSize : ℕ) :
    Extracts a C q size freeSize (allocScan size (L + 1 - q) a q freeSize) := by
  obtain ⟨n, hn⟩ : ∃ n, n = L + 1 - q := ⟨_, rfl⟩
  rw [← hn]
  induction n generalizing q with
  | zero =>
      refine Or.inl ⟨rfl, fun x hx hq => ?_⟩
      have := hcls x hx
      omega
  | succ n ih =>
      rw [Power2Allocator.allocScan]
      rcases h.removeOneFree (c := q) (by omega) hsize freeSize with
        ⟨hr, hnone⟩ | ⟨x, hx, hxq, hlen, hr⟩
      · rw [hr]
        simp only [ne_self_iff_false, if_false]
        have hmono : 2 ^ q ≤ 2 ^ (q + 1) := Nat.pow_le_pow_right (by omega) (by omega)
        rcases ih (q := q + 1) (hsize.trans hmono) (by omega) with ⟨hrest, hall⟩ | ⟨x, hx, hxq, hx'⟩
        · refine Or.inl ⟨hrest, fun x hx hq => ?_⟩
          rcases Nat.eq_or_lt_of_le hq with heq | hlt
          · exact hnone x hx heq.symm
          · exact hall x hx hlt
        · exact Or.inr ⟨x, hx, by omega, hx'⟩
      · rw [hr]
        simp only [ne_eq, hstart x hx, not_false_eq_true, if_true]
        exact Or.inr ⟨x, hx, hxq.ge, hlen, rfl⟩

/-! ## Placement -/

/-- The placement inside a chunk: aligned, and the request fits. -/
theorem lastFit_spec {x : Chunk} {q size : ℕ} (haligned : x.Aligned L) (hq : q ≤ x.cls)
    (hL : L < 32) (hpos : 0 < size) (hsize : size ≤ 2 ^ q) (hlen : size ≤ x.len)
    (hstop : x.stop + 2 ^ L ≤ 2 ^ 32) :
    2 ^ q ∣ lastFit q size x.start x.len ∧ x.start ≤ lastFit q size x.start x.len ∧
      lastFit q size x.start x.len + size ≤ x.stop := by
  rw [Chunk.stop] at hstop ⊢
  have hcls := haligned.cls_le
  have hq0 : 0 < 2 ^ q := Nat.pow_pos (by omega)
  have hqL : 2 ^ q ≤ 2 ^ L := Nat.pow_le_pow_right (by omega) (by omega)
  obtain ⟨k, hk⟩ := (Nat.pow_dvd_pow 2 hq).trans haligned.dvd
  -- the last aligned index of the chunk is at `m` strides
  obtain ⟨m, hm⟩ : ∃ m, m = (x.start + x.len - 1) / 2 ^ q := ⟨_, rfl⟩
  have hle : 2 ^ q * m ≤ x.start + x.len - 1 := hm ▸ Nat.mul_div_le _ _
  have hkm : k ≤ m := by
    rw [hm, Nat.le_div_iff_mul_le hq0, Nat.mul_comm, ← hk]
    omega
  have hmul : 2 ^ q * k ≤ 2 ^ q * m := Nat.mul_le_mul_left _ hkm
  have hfit : lastFit q size x.start x.len =
      if x.start + x.len < 2 ^ q * m + size then 2 ^ q * m - 2 ^ q else 2 ^ q * m := by
    simp only [lastFit]
    rw [u32Add_of_lt (by omega : x.start + x.len < 2 ^ 32), u32Sub_of_le (by omega) (by omega),
      land_not_mask (by omega) (by omega), ← hm, Nat.mul_comm m, u32_of_lt (by omega),
      shl1_of_lt (by omega), u32Add_of_lt (by omega)]
    split_ifs with hlt
    · refine u32Sub_of_le ?_ (by omega)
      have hk0 : 0 < m := by
        rcases Nat.eq_zero_or_pos m with h0 | h0
        · subst h0
          omega
        · exact h0
      exact Nat.le_mul_of_pos_right _ hk0
    · rfl
  rw [hfit]
  split_ifs with hlt
  · -- the chunk starts at a smaller multiple, for otherwise the request would fit at its start
    have hlt' : k < m := by
      rcases Nat.eq_or_lt_of_le hkm with heq | hlt'
      · subst heq
        omega
      · exact hlt'
    obtain ⟨d, rfl⟩ : ∃ d, m = k + 1 + d := ⟨m - (k + 1), by omega⟩
    have hsplit : 2 ^ q * (k + 1 + d) = 2 ^ q * (k + d) + 2 ^ q := by ring
    have hmono : 2 ^ q * k ≤ 2 ^ q * (k + d) := Nat.mul_le_mul_left _ (by omega)
    rw [hsplit, Nat.add_sub_cancel]
    exact ⟨Nat.dvd_mul_right _ _, by omega, by omega⟩
  · exact ⟨Nat.dvd_mul_right _ _, by omega, by omega⟩

/-! ## Alloc -/

theorem Tracks.alloc_too_large (h : a.Tracks L p) {s : ℕ} (hs : 2 ^ L < s) :
    a.alloc s = (-1, a) := by
  rw [Power2Allocator.alloc, if_pos (by rw [h.maxSize]; exact hs)]

theorem Represents.alloc_too_large (h : a.Represents L p) {s : ℕ} (hs : 2 ^ L < s) :
    a.alloc s = (-1, a) := h.tracks.alloc_too_large hs

/-- `power2_allocator_alloc` finds an aligned place if there is one. -/
theorem Tracks.alloc (h : a.Tracks L p) {s : ℕ} (hs : 0 < s) (hsL : s ≤ 2 ^ L) :
    (a.alloc s = (-1, a) ∧ ∀ i, 2 ^ Nat.clog 2 s ∣ i → ¬ p.Fits i s) ∨
      ∃ i, ∃ hfit : p.Fits i s, 2 ^ Nat.clog 2 s ∣ i ∧ (a.alloc s).1 = toInt i ∧
        (a.alloc s).2.Tracks L (p.take i s hs hfit) := by
  have hcap := h.holds.cap
  have hroom := h.room
  have hL31 : 2 ^ L ≤ 2 ^ 31 := Nat.pow_le_pow_right (by omega) (by omega)
  have hlog : log2Uint32Ceil s = Nat.clog 2 s := log2Uint32Ceil_eq_clog (by omega)
  obtain ⟨q, hq⟩ : ∃ q, q = Nat.clog 2 s := ⟨_, rfl⟩
  rw [← hq] at hlog ⊢
  have hsq : s ≤ 2 ^ q := hq ▸ Nat.le_pow_clog (by omega) s
  have hqL : q ≤ L := hq ▸ Nat.clog_le_of_le_pow hsL
  have hbounds := fun x (hx : x ∈ canonicalChunks L p.free) => Pool.chunk_bounds hx
  have hscan := h.holds.allocScan (q := q) (fun x hx => (hbounds x hx).1.cls_le) (fun x hx => by
    have hstop := (hbounds x hx).2
    have hpos := (hbounds x hx).1.len_pos
    rw [Chunk.stop] at hstop
    rw [u32Max]
    omega) hsq 0
  rw [Power2Allocator.alloc, if_neg (by rw [h.maxSize]; omega), hlog, h.holds.noFreeLists]
  rcases hscan with ⟨hr, hnone⟩ | ⟨x, hx, hxq, hlen, hr⟩
  · refine Or.inl ⟨by simp [hr], fun i hdvd hfit => ?_⟩
    obtain ⟨x, hx, hxq, h1, h2⟩ :=
      exists_chunk_of_run (fun j => Pool.free_lt) hqL hdvd hs hq.symm hfit
    have := hnone x hx hxq
    rw [Chunk.stop] at h2
    omega
  · obtain ⟨haligned, hstop⟩ := hbounds x hx
    obtain ⟨i, hi⟩ : ∃ i, i = lastFit q s x.start x.len := ⟨_, rfl⟩
    have hplace := lastFit_spec haligned hxq hcap hs hsq hlen (by omega)
    rw [← hi] at hplace
    obtain ⟨hdvd, hge, hin⟩ := hplace
    rw [Chunk.stop] at hstop hin
    have hne : x.start ≠ u32Max := by
      rw [u32Max]
      omega
    have hfit : p.Fits i s := fun j h1 h2 =>
      (canonicalChunks_subset hx).2 j (by omega) (by rw [Chunk.stop]; omega)
    have hins := (h.holds.erase hx haligned.cls_le).insertAround hge (by omega : i ≤ i + s) hin
      (by omega) (by
        rintro y ⟨hy, hyx⟩ hystart
        have hypos := (hbounds y hy).1.len_pos
        exact hyx (canonicalChunks_unique hy hx ⟨le_rfl, by rw [Chunk.stop]; omega⟩ hystart))
    have hset : canonicalChunks L (p.take i s hs hfit).free =
        (canonicalChunks L p.free \ {x}) ∪ ({y | y ∈ greedyChunks L x.start (i - x.start)} ∪
          {y | y ∈ greedyChunks L (i + s) (x.start + x.len - (i + s))}) := by
      ext y
      rw [Pool.free_take hs hfit, mem_canonicalChunks_hole hx hge (by omega) hin]
      rfl
    rw [← hset] at hins
    have hsame := ((SameUsage.refl a).setFreeList x.cls ((a.freeList x.cls).erase x.start)).trans
      ((insertOneFree_sameUsage _ x.start (i - x.start)).trans
        (insertOneFree_sameUsage _ (i + s) (x.start + x.len - (i + s))))
    refine Or.inr ⟨i, hfit, hdvd, ?_⟩
    simp only [hr, if_neg hne, ← hi, u32Add_of_lt (by omega : i + s < 2 ^ 32),
      u32Add_of_lt (by omega : x.start + x.len < 2 ^ 32), u32Sub_of_le hge (by omega),
      u32Sub_of_le hin (by omega), ge_iff_le, hge, hin, decide_true, bfSysAssert_true]
    refine ⟨trivial, h.of_holds (hins.markInuse ?_) hsame.1 hsame.2.1 rfl ?_⟩
    · rw [hsame.2.2, h.inuse, hfit.absent hs]
    · simp only [Power2Allocator.markInuse, bfSysAssert, hsame.2.2, h.inuse]
      rfl

theorem Represents.alloc (h : a.Represents L p) {s : ℕ} (hs : 0 < s) (hsL : s ≤ 2 ^ L) :
    (a.alloc s = (-1, a) ∧ ∀ i, 2 ^ Nat.clog 2 s ∣ i → ¬ p.Fits i s) ∨
      ∃ i, ∃ hfit : p.Fits i s, 2 ^ Nat.clog 2 s ∣ i ∧ (a.alloc s).1 = i ∧
        (a.alloc s).2.Represents L (p.take i s hs hfit) := by
  rcases h.tracks.alloc hs hsL with hnone | ⟨i, hfit, hdvd, hrc, ht⟩
  · exact Or.inl hnone
  · have hin := hfit.inside hs
    have hsmall := h.small
    exact Or.inr ⟨i, hfit, hdvd, hrc.trans (toInt_of_lt (by omega)), ht.represents hsmall h.dvd⟩

end Power2Allocator
