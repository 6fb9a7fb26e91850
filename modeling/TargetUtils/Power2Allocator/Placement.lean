import TargetUtils.Power2Allocator.Guarantees

set_option autoImplicit false

/-! # Where blocks are placed

Which of the places left a request gets. `power2_allocator_alloc` takes the first entry of the first
free list that has one long enough, and the last place in it; `power2_allocator_alloc_multiple` takes
the first place for the whole group (`placement_of_run`). -/

namespace Power2Allocator

variable {a a₀ : Power2Allocator} {L size count s : ℕ} {p : Pool} {es : List (Call × ℤ)}

/-- The entry `x` has room for `s` indices; no entry with room for them is in a list of class `q` or
    above but below that of `x`, or before `x` in the same list. -/
structure BestFit (a : Power2Allocator) (q s : ℕ) (x : Chunk) : Prop where
  free : a.IsFree x
  cls : q ≤ x.cls
  room : s ≤ x.len
  least : ∀ y, a.IsFree y → q ≤ y.cls → s ≤ y.len →
    x.cls < y.cls ∨ x.cls = y.cls ∧ x.start ≤ y.start

/-! ## One block -/

/-- `remove_one_free` finds the first entry of its list with room. -/
theorem removeOneFree_le {c k v freeSize : ℕ} (hc : c < a.noFreeLists) (hsize : s ≤ shl1 c)
    (hk : (a.freeList c).lookup k = some v) (hv : s ≤ v)
    (hne : (a.removeOneFree c s freeSize).1 ≠ u32Max) :
    (a.removeOneFree c s freeSize).1 ≤ k := by
  revert hne
  rw [removeOneFree, if_neg (not_le.2 hc), decide_eq_true hsize, bfSysAssert_true]
  simp only
  cases hwalk : (a.freeList c).walk (fun _ v => decide (v ≥ s)) (a.freeList c).card
      ((a.freeList c).first 0) with
  | none => exact fun hne => absurd rfl hne
  | some y => exact fun _ => OrderedMap.walk_first_le Nat.zero_le hwalk hk (decide_eq_true hv)

theorem Holds.allocScan_bestFit {C : Set Chunk} (h : a.Holds L C)
    (hstart : ∀ x ∈ C, x.start ≠ u32Max) {q : ℕ} (hsize : s ≤ 2 ^ q) (freeSize : ℕ) :
    (Power2Allocator.allocScan s (L + 1 - q) a q freeSize).1 = u32Max ∨ ∃ x, a.BestFit q s x ∧
      (Power2Allocator.allocScan s (L + 1 - q) a q freeSize).1 = x.start ∧
      (Power2Allocator.allocScan s (L + 1 - q) a q freeSize).2.1 = x.len := by
  have hcap := h.cap
  obtain ⟨n, hn⟩ : ∃ n, n = L + 1 - q := ⟨_, rfl⟩
  rw [← hn]
  induction n generalizing q with
  | zero => exact Or.inl rfl
  | succ n ih =>
      unfold Power2Allocator.allocScan
      rcases h.removeOneFree (c := q) (by omega) hsize freeSize with
        ⟨hr, hnone⟩ | ⟨x, hx, hxq, hlen, hr⟩
      · rw [hr]
        simp only [ne_self_iff_false, if_false]
        have hmono : 2 ^ q ≤ 2 ^ (q + 1) := Nat.pow_le_pow_right (by omega) (by omega)
        rcases ih (hsize.trans hmono) (by omega) with hrest | ⟨x, hx, hrest⟩
        · exact Or.inl hrest
        · refine Or.inr ⟨x, ⟨hx.free, by have := hx.cls; omega, hx.room, fun y hy hyq hys => ?_⟩, hrest⟩
          rcases Nat.eq_or_lt_of_le hyq with heq | hlt
          · exact absurd (hnone y ((h.chunks y).1 hy) heq.symm) (not_lt.2 hys)
          · exact hx.least y hy hlt hys
      · have hne : (a.removeOneFree q s freeSize).1 ≠ u32Max := by
          rw [hr]
          exact hstart x hx
        rw [if_pos hne, hr]
        refine Or.inr ⟨x, ⟨(h.chunks x).2 hx, hxq.ge, hlen, fun y hy hyq hys => ?_⟩, rfl, rfl⟩
        rcases Nat.eq_or_lt_of_le hyq with heq | hlt
        · -- the entry found is the first of its list
          have hfree : (a.freeList q).lookup y.start = some y.len := by
            rw [heq]
            exact hy
          have hle := removeOneFree_le (by rw [h.noFreeLists]; omega)
            (by rwa [shl1_of_lt (by omega)]) hfree hys hne
          rw [hr] at hle
          exact Or.inr ⟨hxq.trans heq, hle⟩
        · exact Or.inl (hxq ▸ hlt)

/-- No aligned place in the chunk is behind the one chosen. -/
theorem le_lastFit {start len q j : ℕ} (hq : q < 32) (hpos : 0 < s) (hsize : s ≤ 2 ^ q)
    (hstop : start + len + 2 ^ q ≤ 2 ^ 32) (hj : 2 ^ q ∣ j)
    (hin : j + s ≤ start + len) : j ≤ lastFit q s start len := by
  have hq0 : 0 < 2 ^ q := Nat.two_pow_pos q
  obtain ⟨t, rfl⟩ := hj
  obtain ⟨m, hm⟩ : ∃ m, m = (start + len - 1) / 2 ^ q := ⟨_, rfl⟩
  have hle : 2 ^ q * m ≤ start + len - 1 := hm ▸ Nat.mul_div_le _ _
  have htm : t ≤ m := by
    rw [hm, Nat.le_div_iff_mul_le hq0, Nat.mul_comm]
    omega
  simp only [lastFit]
  rw [u32Add_of_lt (by omega : start + len < 2 ^ 32), u32Sub_of_le (by omega) (by omega),
    land_not_mask (by omega) (by omega), ← hm, Nat.mul_comm m, u32_of_lt (by omega),
    shl1_of_lt hq, u32Add_of_lt (by omega)]
  split_ifs with hlt
  · have hlt' : t < m := by
      rcases Nat.eq_or_lt_of_le htm with rfl | hlt'
      · omega
      · exact hlt'
    have hmul : 2 ^ q * t + 2 ^ q ≤ 2 ^ q * m := by
      rw [← Nat.mul_succ]
      exact Nat.mul_le_mul_left _ hlt'
    rw [u32Sub_of_le (by omega) (by omega)]
    omega
  · exact Nat.mul_le_mul_left _ htm

theorem alloc_fst (hs : s ≤ a.maxSize) :
    (a.alloc s).1 =
      let r := allocScan s (a.noFreeLists - log2Uint32Ceil s) a (log2Uint32Ceil s) 0
      if r.1 = u32Max then -1 else toInt (lastFit (log2Uint32Ceil s) s r.1 r.2.1) := by
  rw [Power2Allocator.alloc, if_neg (not_lt.2 hs)]
  simp only
  split_ifs <;> rfl

/-- The place of a block: the last one in the entry that fits best. -/
theorem Represents.alloc_place (h : a.Represents L p) (hs : 0 < s) (hsL : s ≤ 2 ^ L) {i : ℕ}
    (hi : (a.alloc s).1 = i) : ∃ x, a.BestFit (Nat.clog 2 s) s x ∧
      IsGreatest {j | 2 ^ Nat.clog 2 s ∣ j ∧ x.start ≤ j ∧ j + s ≤ x.stop} i := by
  have hcap := h.holds.cap
  have hsmall := h.small
  have hL31 : 2 ^ L ≤ 2 ^ 31 := Nat.pow_le_pow_right (by omega) (by omega)
  have hlog : log2Uint32Ceil s = Nat.clog 2 s := log2Uint32Ceil_eq_clog (by omega)
  have hsq : s ≤ 2 ^ Nat.clog 2 s := Nat.le_pow_clog (by omega) s
  have hqL : Nat.clog 2 s ≤ L := Nat.clog_le_of_le_pow hsL
  have hpow : 2 ^ Nat.clog 2 s ≤ 2 ^ L := Nat.pow_le_pow_right (by omega) hqL
  have hbounds := fun x (hx : x ∈ canonicalChunks L p.free) => Pool.chunk_bounds hx
  have hstart : ∀ x ∈ canonicalChunks L p.free, x.start ≠ u32Max := by
    intro x hx
    have hstop := (hbounds x hx).2
    rw [Chunk.stop] at hstop
    rw [u32Max]
    omega
  have hfst := alloc_fst (a := a) (s := s) (by rw [h.maxSize]; exact hsL)
  rw [hlog, h.holds.noFreeLists, hi] at hfst
  rcases h.holds.allocScan_bestFit hstart hsq 0 with hr | ⟨x, hx, hrstart, hrlen⟩
  · simp only [hr, if_true] at hfst
    omega
  · have hmem := (h.holds.chunks x).1 hx.free
    obtain ⟨haligned, hstop⟩ := hbounds x hmem
    have hplace := lastFit_spec haligned hx.cls hcap hs hsq hx.room (by omega)
    simp only [hrstart, hrlen, if_neg (hstart x hmem)] at hfst
    obtain ⟨hdvd, hge, hin⟩ := hplace
    rw [toInt_of_lt (by omega), Int.natCast_inj] at hfst
    subst hfst
    refine ⟨x, hx, ⟨hdvd, hge, hin⟩, ?_⟩
    rintro j ⟨hj, -, hjin⟩
    rw [Chunk.stop] at hjin hstop
    exact le_lastFit (by omega) hs hsq (by omega) hj hjin

/-! ## A group of blocks -/

/-- The search stops at the first place where the group fits. -/
theorem groupSearch_least {m : JudyL} {total count align : ℕ}
    (hkeys : ∀ k v, m.lookup k = some v → k < total) (htotal : total ≤ 2 ^ 31)
    (halign : align ≤ 2 ^ 31) (hcount : 0 < count) {fuel index : ℕ} (hdvd : align ∣ index)
    {blocks : List (ℕ × ℕ)} (h : groupSearch m L s count align fuel index = some (some blocks)) :
    ∃ b, contiguousBlocks m L s count b (m.lookup b) = some blocks ∧
      ∀ b', index ≤ b' → b' < b → align ∣ b' →
        contiguousBlocks m L s count b' (m.lookup b') = none := by
  induction fuel generalizing index with
  | zero => exact nomatch h
  | succ fuel ih =>
      rw [groupSearch] at h
      cases hfirst : m.first index with
      | none => simp [hfirst] at h
      | some x =>
          obtain ⟨k, v⟩ := x
          obtain ⟨hlook, hle, hmin⟩ := OrderedMap.first_eq_some.1 hfirst
          have hk := hkeys k v hlook
          simp only [hfirst, u32_of_lt (by omega : index + align < 2 ^ 32)] at h
          have hbefore : ∀ b', index ≤ b' → b' < k →
              contiguousBlocks m L s count b' (m.lookup b') = none :=
            fun b' h1 h2 => contiguousBlocks_of_absent hcount (hmin b' h1 h2)
          -- the place searched next is one stride further, past the position alone
          have hnext : contiguousBlocks m L s count index (m.lookup index) = none →
              groupSearch m L s count align fuel (index + align) = some (some blocks) →
              ∃ b, contiguousBlocks m L s count b (m.lookup b) = some blocks ∧
                ∀ b', index ≤ b' → b' < b → align ∣ b' →
                  contiguousBlocks m L s count b' (m.lookup b') = none := by
            intro hindex hrest
            obtain ⟨b, hb, hall⟩ := ih (Nat.dvd_add hdvd (dvd_refl _)) hrest
            refine ⟨b, hb, fun b' h1 h2 h3 => ?_⟩
            rcases Nat.eq_or_lt_of_le h1 with rfl | hlt
            · exact hindex
            · have hstride := Nat.le_of_dvd (by omega) (Nat.dvd_sub h3 hdvd)
              exact hall b' (by omega) h2 h3
          split_ifs at h with hmod
          · refine hnext (hbefore index le_rfl (lt_of_le_of_ne hle ?_)) h
            rintro rfl
            exact hmod (Nat.mod_eq_zero_of_dvd hdvd)
          · cases hcont : contiguousBlocks m L s count k (some v) with
            | some found =>
                simp only [hcont, Option.some.injEq] at h
                exact ⟨k, by rw [hlook, hcont, h], fun b' h1 h2 _ => hbefore b' h1 h2⟩
            | none =>
                rw [hcont] at h
                refine hnext ?_ h
                rcases Nat.eq_or_lt_of_le hle with rfl | hlt
                · rw [hlook, hcont]
                · exact hbefore index le_rfl hlt

/-- The place of a group: the first one. -/
theorem Represents.allocMultiple_place (h : a.Represents L p) (hs : 0 < s)
    (hclog : Nat.clog 2 s = L) {n fuel b : ℕ} (hn : 2 ≤ n) {r : ℤ × Power2Allocator}
    (hr : a.allocMultiple fuel s n = some r) (hb : r.1 = b) :
    IsLeast {b | 2 ^ Nat.clog 2 (2 ^ L * n) ∣ b ∧ ∀ j ∈ List.range' b n (2 ^ L), p.Fits j s} b := by
  have hsmall := h.small
  rcases (h.allocMultiple hs hclog hn).2 fuel r hr with ⟨rfl, -⟩ | ⟨b₀, hdvd, hrc, hfits, -⟩
  · exact absurd hb (by simp)
  obtain rfl : b₀ = b := Int.natCast_inj.1 (hrc.symm.trans hb)
  refine ⟨⟨hdvd, hfits⟩, fun b' hb' => ?_⟩
  obtain ⟨hdvd', hfits'⟩ := hb'
  by_contra hlt
  have hgridL := pow_dvd_align L (by omega : 0 < n)
  have hroom := h.group_le_total hs (by omega) (hgridL.trans hdvd) hfits
  have hkeys : ∀ k v, (a.freeList L).lookup k = some v → k < p.total := by
    intro k v hk
    have hle := h.key_le hk
    have hpos := Nat.two_pow_pos L
    omega
  rw [h.allocMultiple_eq hclog hn, h.u32_group (by omega), if_neg (by omega)] at hr
  obtain ⟨found, hfound, rfl⟩ := Option.map_eq_some_iff.1 hr
  cases found with
  | none => exact absurd hb (by simp)
  | some blocks =>
      have halign : 2 ^ Nat.clog 2 (2 ^ L * n) ≤ 2 ^ 31 :=
        Nat.pow_le_pow_right (by omega) (Nat.clog_le_of_le_pow (by omega))
      obtain ⟨b₁, hb₁, hfirst⟩ :=
        groupSearch_least hkeys hsmall.le halign (by omega) (Nat.dvd_zero _) hfound
      have hbounds : ∀ k v, (a.freeList L).lookup k = some v → k < 2 ^ 32 ∧ L < 31 :=
        fun k v hk => h.key_bounds hk
      obtain ⟨-, hblocks⟩ := (contiguousBlocks_eq_some_iff hbounds).1 hb₁
      have hbase : (blocks.headD (0, 0)).1 = b₁ := by
        obtain ⟨n, rfl⟩ := Nat.exists_eq_add_of_le' (by omega : 1 ≤ n)
        rw [hblocks, List.range'_succ]
        rfl
      obtain ⟨v, hv, -⟩ := ((contiguousBlocks_eq_some_iff hbounds).1 hb₁).1 b₁
        (List.mem_range'.2 ⟨0, by omega, by rw [Nat.mul_zero, Nat.add_zero]⟩)
      have hb₁lt := hkeys _ _ hv
      simp only [Option.elim_some, hbase] at hb
      rw [toInt_of_lt (by omega), Int.natCast_inj] at hb
      subst hb
      -- the search has passed the smaller place
      have hsome := (contiguousBlocks_eq_some_iff hbounds).2
        ⟨(h.fits_iff_allChunks hs hclog (hgridL.trans hdvd')).1 hfits', rfl⟩
      rw [hfirst b' (Nat.zero_le _) (not_le.1 hlt) hdvd'] at hsome
      exact nomatch hsome

/-! ## Runs -/

/-- In every state, a block is cut off the end of the entry that fits it best: that with the least
    index of the least sufficient class that has one long enough. A group of blocks gets the first
    aligned place where it fits. -/
theorem placement_of_run (hsize : size < 2 ^ 32) (hsmall : size * count < 2 ^ 31)
    (hcreate : create size count = some a₀) (hrun : Run (Step Call.Legal) a₀ es a)
    (hs : 1 ≤ s) (hmax : s ≤ a.maxSize) :
    (∀ i : ℕ, (a.alloc s).1 = i → ∃ x, a.BestFit (log2Uint32Ceil s) s x ∧
      IsGreatest {j | 2 ^ log2Uint32Ceil s ∣ j ∧ x.start ≤ j ∧ j + s ≤ x.stop} i) ∧
    ∀ n fuel r, ∀ b : ℕ, 2 ≤ n → log2Uint32Ceil s = a.noFreeLists - 1 →
      a.allocMultiple fuel s n = some r → r.1 = b →
      IsLeast {b | 2 ^ Nat.clog 2 (a.maxSize * n) ∣ b ∧ a.GroupAvailable b n s} b := by
  obtain ⟨L, p, -, -, hp⟩ := exists_pool_of_run hsize hsmall hcreate (run_harmless hrun)
  rw [hp.maxSize] at hmax
  have hcap := hp.holds.cap
  have hL : 2 ^ L ≤ 2 ^ 31 := Nat.pow_le_pow_right (by omega) (by omega)
  rw [log2Uint32Ceil_eq_clog (by omega)]
  refine ⟨fun i hi => hp.alloc_place hs hmax hi, fun n fuel r b hn hclass hr hb => ?_⟩
  rw [hp.holds.noFreeLists, Nat.add_sub_cancel] at hclass
  simp only [hp.maxSize, hp.groupAvailable_iff hs]
  exact hp.allocMultiple_place hs hclass hn hr hb

/-- A block of 3 and a group of two such blocks, where two blocks of 3 are in use. -/
theorem placement_of_run_three : ∃ a, create 4 4 = some a ∧
    (∃ i : ℕ, (a.afterTwo.alloc 3).1 = i ∧ ∃ x, a.afterTwo.BestFit (log2Uint32Ceil 3) 3 x ∧
      IsGreatest {j | 2 ^ log2Uint32Ceil 3 ∣ j ∧ x.start ≤ j ∧ j + 3 ≤ x.stop} i) ∧
    ∃ r, ∃ b : ℕ, a.afterTwo.allocMultiple 3 3 2 = some r ∧ r.1 = b ∧
      IsLeast {b | 2 ^ Nat.clog 2 (a.afterTwo.maxSize * 2) ∣ b ∧ a.afterTwo.GroupAvailable b 2 3} b := by
  obtain ⟨a, hcreate, hmax, hlists, -, -, halloc, hgroup⟩ := exists_afterTwo
  obtain ⟨r, hr, hrc⟩ := Option.map_eq_some_iff.1 hgroup
  have hrun : Run (Step Call.Legal) a _ a.afterTwo :=
    run_afterTwo a ⟨by decide, by decide⟩ ⟨by decide, by decide⟩
  obtain ⟨hone, hmultiple⟩ := placement_of_run (by decide : 4 < 2 ^ 32)
    (by decide : 4 * 4 < 2 ^ 31) hcreate hrun (by decide : 1 ≤ 3) (by rw [hmax]; decide)
  exact ⟨a, hcreate, ⟨8, halloc, hone 8 halloc⟩, r, 8, hr, hrc,
    hmultiple 2 3 r 8 (le_refl 2) (by rw [hlists]; decide) hr hrc⟩

end Power2Allocator
