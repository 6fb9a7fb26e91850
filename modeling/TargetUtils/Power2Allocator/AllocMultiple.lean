import TargetUtils.Power2Allocator.Alloc

set_option autoImplicit false

/-! # Allocation of a group of blocks

`power2_allocator_alloc_multiple` serves only sizes of the highest class. A block of such a size fits
at a multiple of `2 ^ L` exactly when a long enough chunk of class `L` starts there
(`Represents.fits_iff_chunk`), so the search for `count` consecutive chunks on the grid of `align`
finds a place whenever there is one. The positions tried are the multiples of `align`: the search
position grows by `align` in every round, wherever `JLF` moved the index. -/

namespace Power2Allocator

variable {a : Power2Allocator} {L : ℕ} {p : Pool}

/-! ## Search -/

/-- A long enough chunk starts at each of the indices. -/
def AllChunks (m : JudyL) (size : ℕ) (l : List ℕ) : Prop :=
  ∀ j ∈ l, ∃ v, m.lookup j = some v ∧ size ≤ v

theorem contiguousBlocks_eq_some_iff {m : JudyL}
    (hkeys : ∀ k v, m.lookup k = some v → k < 2 ^ 32 ∧ L < 31)
    {size n index : ℕ} {blocks : List (ℕ × ℕ)} :
    contiguousBlocks m L size n index (m.lookup index) = some blocks ↔
      AllChunks m size (List.range' index n (2 ^ L)) ∧
        blocks = (List.range' index n (2 ^ L)).map fun j => (j, (m.lookup j).getD 0) := by
  induction n generalizing index blocks with
  | zero => simp [contiguousBlocks, AllChunks, eq_comm]
  | succ n ih =>
      rw [List.range'_succ]
      cases hv : m.lookup index with
      | none => simp [contiguousBlocks, AllChunks, hv]
      | some v =>
          obtain ⟨hbound, hL⟩ := hkeys index v hv
          have hstride : 2 ^ L < 2 ^ 31 := Nat.pow_lt_pow_right (by omega) hL
          have hnext : u64Add index (sext32 (shl1 L)) = index + 2 ^ L := by
            rw [shl1_of_lt (by omega : L < 32), sext32, if_pos hstride, u64Add]
            exact Nat.mod_eq_of_lt (by omega)
          have hindex : u32 index = index := u32_of_lt hbound
          simp only [contiguousBlocks, hnext]
          by_cases hlt : v < size
          · rw [if_pos hlt]
            constructor
            · intro h
              cases h
            · rintro ⟨hall, -⟩
              obtain ⟨w, hw, hle⟩ := hall index (List.mem_cons_self ..)
              rw [hv, Option.some.injEq] at hw
              omega
          · rw [if_neg hlt, Option.map_eq_some_iff]
            constructor
            · rintro ⟨rest, hrest, rfl⟩
              obtain ⟨hall, rfl⟩ := ih.1 hrest
              refine ⟨fun j hj => ?_, by simp [hv, hindex]⟩
              rcases List.mem_cons.1 hj with rfl | hj
              · exact ⟨v, hv, by omega⟩
              · exact hall j hj
            · rintro ⟨hall, rfl⟩
              exact ⟨_, ih.2 ⟨fun j hj => hall j (List.mem_cons_of_mem _ hj), rfl⟩,
                by simp [hv, hindex]⟩

theorem contiguousBlocks_of_absent {m : JudyL} {size n index : ℕ} (hn : 0 < n)
    (h : m.lookup index = none) : contiguousBlocks m L size n index (m.lookup index) = none := by
  cases n with
  | zero => omega
  | succ n => rw [h, contiguousBlocks]

/-- The search stops, for its position grows by `align` until no chunk is left. -/
theorem groupSearch_isSome {m : JudyL} {total size count align : ℕ}
    (hkeys : ∀ k v, m.lookup k = some v → k < total) (hroom : total + align ≤ 2 ^ 32)
    {fuel index : ℕ} (hfuel : total ≤ index + fuel * align) :
    (groupSearch m L size count align (fuel + 1) index).isSome := by
  induction fuel generalizing index with
  | zero =>
      have hnone : m.first index = none := OrderedMap.first_eq_none.2 fun k hk => by
        cases hlook : m.lookup k with
        | none => rfl
        | some v =>
            have := hkeys k v hlook
            omega
      simp [groupSearch, hnone]
  | succ fuel ih =>
      rw [groupSearch]
      cases hfirst : m.first index with
      | none => simp
      | some x =>
          obtain ⟨k, v⟩ := x
          obtain ⟨hlook, hle, -⟩ := OrderedMap.first_eq_some.1 hfirst
          have hk := hkeys k v hlook
          have hrec := @ih (index + align) (by
            rw [Nat.add_mul, Nat.one_mul] at hfuel
            omega)
          simp only [u32_of_lt (by omega : index + align < 2 ^ 32)]
          split_ifs
          · exact hrec
          · split
            · rfl
            · exact hrec

/-- A failed search has tried every multiple of `align`. -/
theorem groupSearch_eq_none {m : JudyL} {total size count align : ℕ}
    (hkeys : ∀ k v, m.lookup k = some v → k < total) (htotal : total ≤ 2 ^ 31)
    (halign : align ≤ 2 ^ 31) (hcount : 0 < count) {fuel index : ℕ} (hdvd : align ∣ index)
    (h : groupSearch m L size count align fuel index = some none) {b : ℕ} (hb : index ≤ b)
    (hbdvd : align ∣ b) : contiguousBlocks m L size count b (m.lookup b) = none := by
  induction fuel generalizing index with
  | zero => simp [groupSearch] at h
  | succ fuel ih =>
      rw [groupSearch] at h
      cases hfirst : m.first index with
      | none => exact contiguousBlocks_of_absent hcount (OrderedMap.first_eq_none.1 hfirst b hb)
      | some x =>
          obtain ⟨k, v⟩ := x
          obtain ⟨hlook, hle, hmin⟩ := OrderedMap.first_eq_some.1 hfirst
          have hk := hkeys k v hlook
          have hrec := @ih (index + align) (Nat.dvd_add hdvd (dvd_refl _))
          simp only [hfirst, u32_of_lt (by omega : index + align < 2 ^ 32)] at h
          -- the next candidate is the search position itself or lies a stride further
          have hnext : b ≠ index → index + align ≤ b := fun hne => by
            have := Nat.le_of_dvd (by omega) (Nat.dvd_sub hbdvd hdvd)
            omega
          have hfail : k ≠ b → m.lookup b = none ∨ index + align ≤ b := fun hkb => by
            by_cases hbi : b = index
            · exact Or.inl (hmin b hb (by omega))
            · exact Or.inr (hnext hbi)
          split_ifs at h with hmod
          · rcases hfail (fun hkb => hmod (Nat.mod_eq_zero_of_dvd (hkb ▸ hbdvd))) with hnone | hge
            · exact contiguousBlocks_of_absent hcount hnone
            · exact hrec h hge
          · cases hcont : contiguousBlocks m L size count k (some v) with
            | some blocks => simp [hcont] at h
            | none =>
                rw [hcont] at h
                by_cases hkb : k = b
                · rw [← hkb, hlook, hcont]
                · rcases hfail hkb with hnone | hge
                  · exact contiguousBlocks_of_absent hcount hnone
                  · exact hrec h hge

theorem groupSearch_eq_some {m : JudyL} {size count align fuel index : ℕ}
    {blocks : List (ℕ × ℕ)} (h : groupSearch m L size count align fuel index = some (some blocks)) :
    ∃ b, align ∣ b ∧ contiguousBlocks m L size count b (m.lookup b) = some blocks := by
  induction fuel generalizing index with
  | zero => simp [groupSearch] at h
  | succ fuel ih =>
      rw [groupSearch] at h
      cases hfirst : m.first index with
      | none => simp [hfirst] at h
      | some x =>
          obtain ⟨k, v⟩ := x
          have hlook := (OrderedMap.first_eq_some.1 hfirst).1
          simp only [hfirst] at h
          split_ifs at h with hmod
          · exact ih h
          · cases hcont : contiguousBlocks m L size count k (some v) with
            | none =>
                rw [hcont] at h
                exact ih h
            | some found =>
                simp only [hcont, Option.some.injEq] at h
                exact ⟨k, Nat.dvd_of_mod_eq_zero (by omega), by rw [hlook, hcont, h]⟩

/-! ## Taking the blocks -/

/-- A block of the highest class fits at a grid index exactly when a long enough chunk starts there. -/
theorem Represents.fits_iff_chunk (h : a.Represents L p) {s b : ℕ} (hs : 0 < s)
    (hclog : Nat.clog 2 s = L) (hdvd : 2 ^ L ∣ b) :
    p.Fits b s ↔ ∃ v, (a.freeList L).lookup b = some v ∧ s ≤ v := by
  constructor
  · intro hfit
    obtain ⟨x, hx, hcls, h1, h2⟩ :=
      exists_chunk_of_run (fun j => Pool.free_lt) le_rfl hdvd hs hclog hfit
    obtain ⟨haligned, -⟩ := Pool.chunk_bounds hx
    have hxL : x.cls = L := le_antisymm haligned.cls_le hcls
    have hlen := haligned.len_le
    have hxdvd := haligned.dvd
    rw [hxL] at hlen hxdvd
    rw [Chunk.stop] at h2
    have hstart : x.start = b := by
      by_contra hne
      have := Nat.le_of_dvd (by omega) (Nat.dvd_sub hdvd hxdvd)
      omega
    have hlook := (h.holds.chunks x).2 hx
    rw [IsFree, hxL, hstart] at hlook
    exact ⟨x.len, hlook, by omega⟩
  · rintro ⟨v, hv, hle⟩ j h1 h2
    have hx : (⟨L, b, v⟩ : Chunk) ∈ canonicalChunks L p.free := (h.holds.chunks _).1 hv
    refine (canonicalChunks_subset hx).2 j h1 ?_
    change j < b + v
    omega

/-- The removal loop takes blocks at the starts of different chunks out of the free set. -/
theorem Holds.takeBlocks {s : ℕ} (hs : 0 < s) {blocks : List (ℕ × ℕ)}
    (h : a.Holds L (canonicalChunks L p.free)) (hsmall : p.total < 2 ^ 31)
    (hnodup : (blocks.map Prod.fst).Nodup)
    (hblocks : ∀ b ∈ blocks, ⟨L, b.1, b.2⟩ ∈ canonicalChunks L p.free ∧ s ≤ b.2) :
    SameUsage a (takeBlocks L s blocks a) ∧ ∃ p' : Pool, p'.total = p.total ∧
      (∀ k, p'.blocks.lookup k =
        if k ∈ blocks.map Prod.fst then some s else p.blocks.lookup k) ∧
      (Power2Allocator.takeBlocks L s blocks a).Holds L (canonicalChunks L p'.free) := by
  induction blocks generalizing a p with
  | nil => exact ⟨⟨rfl, rfl, rfl⟩, p, rfl, fun k => by simp, h⟩
  | cons b rest ih =>
      obtain ⟨i, v⟩ := b
      rw [List.map_cons, List.nodup_cons] at hnodup
      obtain ⟨hx, hle⟩ := hblocks (i, v) (List.mem_cons_self ..)
      simp only at hx hle hnodup
      obtain ⟨haligned, hstop⟩ := Pool.chunk_bounds hx
      rw [Chunk.stop] at hstop
      simp only at hstop
      have hfit : p.Fits i s := fun j h1 h2 =>
        (canonicalChunks_subset hx).2 j h1 (by rw [Chunk.stop]; simp only; omega)
      have hhole := mem_canonicalChunks_hole hx (le_refl i) (by omega : i < i + s)
        (by rw [Chunk.stop]; simp only; omega)
      have hset : canonicalChunks L (p.take i s hs hfit).free =
          (canonicalChunks L p.free \ {⟨L, i, v⟩}) ∪
            {y | y ∈ greedyChunks L (i + s) (v - s)} := by
        ext y
        rw [Pool.free_take hs hfit, hhole, Chunk.stop, Nat.sub_self, greedyChunks_zero,
          show i + v - (i + s) = v - s by omega]
        simp
      have hpresent : ((a.freeList L).lookup i).isSome = true := by
        have hlook := (h.chunks _).2 hx
        rw [IsFree] at hlook
        simp [hlook]
      have hins := (h.erase hx le_rfl).insertOneFree (i := i + s) (n := v - s) (by omega) (by
        rintro y ⟨hy, hne⟩ hyi
        have hypos := (Pool.chunk_bounds hy).1.len_pos
        refine hne (canonicalChunks_unique hy hx (j := y.start) ⟨le_rfl, ?_⟩ ⟨?_, ?_⟩) <;>
          simp only [Chunk.stop] <;> omega)
      rw [← hset] at hins
      have hrest := ih hins hsmall hnodup.2 fun b hb => by
        obtain ⟨hbC, hbs⟩ := hblocks b (List.mem_cons_of_mem _ hb)
        refine ⟨?_, hbs⟩
        rw [hset]
        refine Or.inl ⟨hbC, fun he => hnodup.1 ?_⟩
        have hbi : b.1 = i := congrArg Chunk.start he
        exact hbi ▸ List.mem_map_of_mem hb
      have hstep : Power2Allocator.takeBlocks L s ((i, v) :: rest) a =
          Power2Allocator.takeBlocks L s rest
            ((a.setFreeList L ((a.freeList L).erase i)).insertOneFree (i + s) (v - s)) := by
        rw [Power2Allocator.takeBlocks, List.foldl_cons]
        simp only [hpresent, bfSysAssert_true, u32Add_of_lt (by omega : i + s < 2 ^ 32),
          u32Sub_of_le hle (by omega)]
        rfl
      obtain ⟨hsame, p', htotal, hlook, hholds⟩ := hrest
      rw [hstep]
      have herase := (SameUsage.refl a).setFreeList L ((a.freeList L).erase i)
      refine ⟨herase.trans ((insertOneFree_sameUsage _ _ _).trans hsame), p', htotal,
        fun k => ?_, hholds⟩
      rw [hlook k, Pool.take, OrderedMap.lookup_insert]
      by_cases hk : k ∈ rest.map Prod.fst
      · rw [if_pos hk, if_pos (by simp only [List.map_cons, List.mem_cons]; exact Or.inr hk)]
      · by_cases hki : k = i <;> simp [hk, hki]

/-- The marking loop adds the blocks to the in-use list. -/
theorem Holds.markBlocks {C : Set Chunk} (h : a.Holds L C) (s base n k : ℕ)
    (hbound : base + (k + n) * 2 ^ L < 2 ^ 32) (f : ℕ → ℕ)
    (habsent : ∀ j ∈ List.range' (base + k * 2 ^ L) n (2 ^ L), a.inuseList.lookup j = none) :
    ∃ a', ((((List.range' (base + k * 2 ^ L) n (2 ^ L)).map fun j => (j, f j)).zipIdx k).foldl
        (fun a b => (a.bfSysAssert
          (b.1.1 = u32Add base (b.2 * shl1 L % 2 ^ 32))).markInuse b.1.1 s) a) = a' ∧
      a'.Holds L C ∧ a'.maxSize = a.maxSize ∧ a'.totalSize = a.totalSize ∧
      ∀ j, a'.inuseList.lookup j =
        if j ∈ List.range' (base + k * 2 ^ L) n (2 ^ L) then some s else a.inuseList.lookup j := by
  induction n generalizing a k with
  | zero => exact ⟨a, by simp, h, rfl, rfl, fun j => by simp⟩
  | succ n ih =>
      have hcap := h.cap
      have hpos : 0 < 2 ^ L := Nat.pow_pos (by omega)
      have hmul : (k + (n + 1)) * 2 ^ L = k * 2 ^ L + n * 2 ^ L + 2 ^ L := by ring
      have hnext : base + k * 2 ^ L + 2 ^ L = base + (k + 1) * 2 ^ L := by ring
      have hbase : decide (base + k * 2 ^ L = u32Add base (k * shl1 L % 2 ^ 32)) = true := by
        rw [decide_eq_true_iff, shl1_of_lt hcap, Nat.mod_eq_of_lt (by omega),
          u32Add_of_lt (by omega)]
      have hnone := habsent _ (by rw [List.range'_succ]; exact List.mem_cons_self ..)
      have hmark := h.markInuse (s := s) hnone
      have hgt : ∀ j ∈ List.range' (base + (k + 1) * 2 ^ L) n (2 ^ L), j ≠ base + k * 2 ^ L := by
        intro j hj
        obtain ⟨d, -, rfl⟩ := List.mem_range'.1 hj
        omega
      obtain ⟨a', ha', hholds, hmax, htotal, hlook⟩ := ih hmark (k + 1)
        (by rw [show k + 1 + n = k + (n + 1) by omega]; exact hbound) (fun j hj => by
          rw [show (a.markInuse (base + k * 2 ^ L) s).inuseList =
            a.inuseList.insert (base + k * 2 ^ L) s from rfl, OrderedMap.lookup_insert,
            if_neg (hgt j hj)]
          refine habsent j ?_
          rw [List.range'_succ, hnext]
          exact List.mem_cons_of_mem _ hj)
      refine ⟨a', ?_, hholds, hmax, htotal, fun j => ?_⟩
      · rw [List.range'_succ, hnext, List.map_cons, List.zipIdx_cons, List.foldl_cons]
        simp only [hbase, bfSysAssert_true]
        exact ha'
      · rw [hlook j, List.range'_succ, hnext]
        simp only [Power2Allocator.markInuse, bfSysAssert, OrderedMap.lookup_insert, List.mem_cons]
        by_cases hj : j ∈ List.range' (base + (k + 1) * 2 ^ L) n (2 ^ L)
        · simp [hj]
        · by_cases hjb : j = base + k * 2 ^ L <;> simp [hj, hjb]

/-! ## Alloc multiple -/

/-- A chunk of the highest class reserves a full stride of the pool. -/
theorem Represents.key_le (h : a.Represents L p) {k v : ℕ}
    (hk : (a.freeList L).lookup k = some v) : k + 2 ^ L ≤ p.total := by
  have hx : (⟨L, k, v⟩ : Chunk) ∈ canonicalChunks L p.free := (h.holds.chunks _).1 hk
  obtain ⟨haligned, hstop⟩ := Pool.chunk_bounds hx
  have hpos : 0 < v := haligned.len_pos
  have hdvd : 2 ^ L ∣ k := haligned.dvd
  change k + v ≤ p.total at hstop
  have := Nat.le_of_dvd (by omega) (Nat.dvd_sub h.dvd hdvd)
  omega

theorem Represents.key_bounds (h : a.Represents L p) {k v : ℕ}
    (hk : (a.freeList L).lookup k = some v) : k < 2 ^ 32 ∧ L < 31 := by
  have hle := h.key_le hk
  have hsmall := h.small
  have hpos : 0 < 2 ^ L := Nat.pow_pos (by omega)
  exact ⟨by omega, (Nat.pow_lt_pow_iff_right (by omega : 1 < 2)).1 (by omega)⟩

theorem Represents.group_le_total (h : a.Represents L p) {b n s : ℕ} (hs : 0 < s) (hn : 0 < n)
    (hdvd : 2 ^ L ∣ b) (hfits : ∀ j ∈ List.range' b n (2 ^ L), p.Fits j s) :
    b + 2 ^ L * n ≤ p.total := by
  have hlast := (hfits (b + 2 ^ L * (n - 1))
    (List.mem_range'.2 ⟨n - 1, by omega, rfl⟩)).inside hs
  have hdvd' : 2 ^ L ∣ b + 2 ^ L * (n - 1) := Nat.dvd_add hdvd (Nat.dvd_mul_right _ _)
  have hle := Nat.le_of_dvd (by omega) (Nat.dvd_sub h.dvd hdvd')
  have hmul : 2 ^ L * n = 2 ^ L * (n - 1) + 2 ^ L := by
    obtain ⟨m, rfl⟩ : ∃ m, n = m + 1 := ⟨n - 1, by omega⟩
    rw [Nat.add_sub_cancel]
    ring
  omega

/-- Sizes of a lower class, and groups of no blocks, are refused. -/
theorem Represents.allocMultiple_refused (h : a.Represents L p) {s n : ℕ} (hs : s < 2 ^ 32)
    (hn : n ≠ 1) (hrefused : Nat.clog 2 s ≠ L ∨ n = 0) (fuel : ℕ) :
    a.allocMultiple fuel s n = some (-1, a) := by
  have hcap := h.holds.cap
  have hlists := h.holds.noFreeLists
  have htop : u32Sub a.noFreeLists 1 = L := by
    rw [hlists, u32Sub_of_le (by omega) (by omega)]
    rfl
  rw [Power2Allocator.allocMultiple, if_neg hn]
  simp only [log2Uint32Ceil_eq_clog hs, htop]
  split_ifs with h1 h2
  · rfl
  · rfl
  · rw [allocIntV2, if_pos (by omega)]

/-- A group fits on the grid exactly when long enough chunks start at all of its places. -/
theorem Represents.fits_iff_allChunks (h : a.Represents L p) {s b n : ℕ} (hs : 0 < s)
    (hclog : Nat.clog 2 s = L) (hdvd : 2 ^ L ∣ b) :
    (∀ j ∈ List.range' b n (2 ^ L), p.Fits j s) ↔
      AllChunks (a.freeList L) s (List.range' b n (2 ^ L)) := by
  have hgrid : ∀ j ∈ List.range' b n (2 ^ L), 2 ^ L ∣ j := fun j hj => by
    obtain ⟨i, -, rfl⟩ := List.mem_range'.1 hj
    exact Nat.dvd_add hdvd (Nat.dvd_mul_right _ _)
  exact forall₂_congr fun j hj => h.fits_iff_chunk hs hclog (hgrid j hj)

theorem pow_dvd_align {n : ℕ} (L : ℕ) (hn : 0 < n) : 2 ^ L ∣ 2 ^ Nat.clog 2 (2 ^ L * n) :=
  Nat.pow_dvd_pow 2 ((Nat.clog_pow 2 L (by omega)).symm.le.trans
    (Nat.clog_mono_right 2 (Nat.le_mul_of_pos_right _ hn)))

/-- The product of stride and count only wraps when the group is larger than the pool. -/
theorem Represents.u32_group (h : a.Represents L p) {n : ℕ} (hle : 2 ^ L * n ≤ p.total) :
    u32 (2 ^ L * n) = 2 ^ L * n := by
  have hsmall := h.small
  exact u32_of_lt (by omega)

/-- What the call computes for a group of the highest class. -/
theorem Represents.allocMultiple_eq (h : a.Represents L p) {s n : ℕ} (hclog : Nat.clog 2 s = L)
    (hn : 2 ≤ n) (fuel : ℕ) :
    a.allocMultiple fuel s n = if p.total < u32 (2 ^ L * n) then some (-1, a) else
      (groupSearch (a.freeList L) L s n (2 ^ Nat.clog 2 (u32 (2 ^ L * n))) fuel 0).map fun found =>
        found.elim (-1, a) fun blocks => (toInt (blocks.headD (0, 0)).1,
          markBlocks L s (blocks.headD (0, 0)).1 blocks (takeBlocks L s blocks a)) := by
  have hcap := h.holds.cap
  have hsmall := h.small
  have htop : u32Sub a.noFreeLists 1 = L := by
    rw [h.holds.noFreeLists, u32Sub_of_le (by omega) (by omega)]
    rfl
  have hL31 : 2 ^ L ≤ 2 ^ 31 := Nat.pow_le_pow_right (by omega) (by omega)
  have hsL : s ≤ 2 ^ L := hclog ▸ Nat.le_pow_clog (by omega) s
  have hlog : log2Uint32Ceil s = L := (log2Uint32Ceil_eq_clog (by omega)).trans hclog
  have hcount : ¬ (False ∨ n = 0) := fun hc => hc.elim id (by omega)
  simp only [Power2Allocator.allocMultiple, if_neg (by omega : ¬ n = 1), hlog, shl1_of_lt hcap,
    htop, ne_self_iff_false, if_false, h.totalSize]
  by_cases hbig : p.total < u32 (2 ^ L * n)
  · rw [if_pos hbig, if_pos hbig]
  · have hclog31 : Nat.clog 2 (u32 (2 ^ L * n)) ≤ 31 := Nat.clog_le_of_le_pow (by omega)
    have halign : shl1 (log2Uint32Ceil (u32 (2 ^ L * n))) = 2 ^ Nat.clog 2 (u32 (2 ^ L * n)) := by
      rw [log2Uint32Ceil_eq_clog (by omega), shl1_of_lt (by omega)]
    rw [if_neg hbig, if_neg hbig]
    simp only [allocIntV2, htop, ne_self_iff_false, if_neg hcount, halign, shl1_of_lt hcap,
      decide_eq_true hsL, bfSysAssert_true]
    cases groupSearch (a.freeList L) L s n (2 ^ Nat.clog 2 (u32 (2 ^ L * n))) fuel 0 with
    | none => rfl
    | some found =>
        cases found with
        | none => rfl
        | some blocks => rfl

/-- Taking and marking the blocks of a group that fits. -/
theorem Represents.takeGroup (h : a.Represents L p) {s b n : ℕ} (hs : 0 < s)
    (hclog : Nat.clog 2 s = L) (hn : 0 < n) (hdvd : 2 ^ L ∣ b)
    (hfits : ∀ j ∈ List.range' b n (2 ^ L), p.Fits j s) {blocks : List (ℕ × ℕ)}
    (hblocks : blocks =
      (List.range' b n (2 ^ L)).map fun j => (j, ((a.freeList L).lookup j).getD 0)) :
    (blocks.headD (0, 0)).1 = b ∧ ∃ p' : Pool,
      (markBlocks L s b blocks (takeBlocks L s blocks a)).Represents L p' ∧ p'.total = p.total ∧
        ∀ k, p'.blocks.lookup k =
          if k ∈ List.range' b n (2 ^ L) then some s else p.blocks.lookup k := by
  have hsmall := h.small
  have hpos : 0 < 2 ^ L := Nat.pow_pos (by omega)
  have hbound := h.group_le_total hs hn hdvd hfits
  have hfst : blocks.map Prod.fst = List.range' b n (2 ^ L) := by
    rw [hblocks, List.map_map]
    exact List.map_id' _
  obtain ⟨hsame, p', htot, hlook, hholds⟩ := h.holds.takeBlocks hs hsmall
    (show (blocks.map Prod.fst).Nodup from hfst ▸ List.nodup_range' (2 ^ L) hpos) (fun x hx => by
      rw [hblocks, List.mem_map] at hx
      obtain ⟨j, hj, rfl⟩ := hx
      obtain ⟨w, hw, hle⟩ := (h.fits_iff_allChunks hs hclog hdvd).1 hfits j hj
      simp only [hw, Option.getD_some]
      exact ⟨(h.holds.chunks ⟨L, j, w⟩).1 hw, hle⟩)
  obtain ⟨a', ha', hholds', hmax, htot', hlook'⟩ := hholds.markBlocks s b n 0
    (by rw [Nat.zero_add, Nat.mul_comm]; omega)
    (fun j => ((a.freeList L).lookup j).getD 0) (fun j hj => by
      rw [Nat.zero_mul, Nat.add_zero] at hj
      rw [hsame.2.2, h.inuse]
      exact (hfits j hj).absent hs)
  rw [Nat.zero_mul, Nat.add_zero] at ha' hlook'
  have hmark : markBlocks L s b blocks (takeBlocks L s blocks a) = a' := by
    rw [← ha', ← hblocks]
    rfl
  refine ⟨?_, p', ?_, htot, fun k => by rw [hlook k, hfst]⟩
  · obtain ⟨m, rfl⟩ : ∃ m, n = m + 1 := ⟨n - 1, by omega⟩
    rw [hblocks, List.range'_succ]
    rfl
  · rw [hmark]
    refine h.of_holds hholds' (hmax.trans hsame.1) (htot'.trans hsame.2.1) htot ?_
    refine OrderedMap.ext_lookup fun k => ?_
    rw [hlook' k, hlook k, hfst, hsame.2.2, h.inuse]

/-- `power2_allocator_alloc_multiple` finds an aligned place for a group if there is one. -/
theorem Represents.allocMultiple (h : a.Represents L p) {s n : ℕ} (hs : 0 < s)
    (hclog : Nat.clog 2 s = L) (hn : 2 ≤ n) :
    (∃ fuel, (a.allocMultiple fuel s n).isSome) ∧
      ∀ fuel r, a.allocMultiple fuel s n = some r →
        (r = (-1, a) ∧ ∀ b, 2 ^ Nat.clog 2 (2 ^ L * n) ∣ b →
          ¬ ∀ j ∈ List.range' b n (2 ^ L), p.Fits j s) ∨
        ∃ b : ℕ, 2 ^ Nat.clog 2 (2 ^ L * n) ∣ b ∧ r.1 = b ∧
          (∀ j ∈ List.range' b n (2 ^ L), p.Fits j s) ∧
          ∃ p' : Pool, r.2.Represents L p' ∧ p'.total = p.total ∧
            ∀ k, p'.blocks.lookup k =
              if k ∈ List.range' b n (2 ^ L) then some s else p.blocks.lookup k := by
  have hsmall := h.small
  have hpos : 0 < 2 ^ L := Nat.pow_pos (by omega)
  have hgridL := pow_dvd_align L (by omega : 0 < n)
  have hroom : ∀ b, 2 ^ Nat.clog 2 (2 ^ L * n) ∣ b →
      (∀ j ∈ List.range' b n (2 ^ L), p.Fits j s) → 2 ^ L * n ≤ p.total := by
    intro b hb hfits
    have := h.group_le_total hs (by omega) (hgridL.trans hb) hfits
    omega
  by_cases hbig : p.total < u32 (2 ^ L * n)
  · simp only [h.allocMultiple_eq hclog hn, if_pos hbig, Option.isSome_some, exists_const,
      Option.some.injEq, true_and]
    rintro fuel r rfl
    refine Or.inl ⟨rfl, fun b hb hfits => ?_⟩
    have hle := hroom b hb hfits
    rw [h.u32_group hle] at hbig
    omega
  have halign31 : 2 ^ Nat.clog 2 (u32 (2 ^ L * n)) ≤ 2 ^ 31 :=
    Nat.pow_le_pow_right (by omega) (Nat.clog_le_of_le_pow (by omega))
  have hkeys : ∀ k v, (a.freeList L).lookup k = some v → k + 2 ^ L ≤ p.total :=
    fun k v hk => h.key_le hk
  have hkeys' : ∀ k v, (a.freeList L).lookup k = some v → k < p.total := fun k v hk => by
    have := hkeys k v hk
    omega
  simp only [h.allocMultiple_eq hclog hn, if_neg hbig, Option.isSome_map, Option.map_eq_some_iff]
  constructor
  · refine ⟨p.total + 1 + 1, groupSearch_isSome hkeys' (by omega) ?_⟩
    have := Nat.le_mul_of_pos_right (p.total + 1)
      (Nat.pow_pos (n := Nat.clog 2 (u32 (2 ^ L * n))) (by omega : 0 < 2))
    omega
  · rintro fuel r ⟨found, hfound, rfl⟩
    cases found with
    | none =>
        refine Or.inl ⟨rfl, fun b hb hfits => ?_⟩
        have hwrap := h.u32_group (hroom b hb hfits)
        have hnone := groupSearch_eq_none hkeys' hsmall.le halign31 (by omega) (Nat.dvd_zero _)
          hfound (Nat.zero_le b) (by rwa [hwrap])
        have hsome := (contiguousBlocks_eq_some_iff fun k v hk => h.key_bounds hk).2
          ⟨(h.fits_iff_allChunks hs hclog (hgridL.trans hb)).1 hfits, rfl⟩
        rw [hnone] at hsome
        cases hsome
    | some blocks =>
        obtain ⟨b, hb, hcont⟩ := groupSearch_eq_some hfound
        obtain ⟨hall, hblocks⟩ := (contiguousBlocks_eq_some_iff fun k v hk => h.key_bounds hk).1 hcont
        -- the last block lies inside the pool, so nothing wrapped
        obtain ⟨v, hv, -⟩ := hall (b + 2 ^ L * (n - 1)) (List.mem_range'.2 ⟨n - 1, by omega, rfl⟩)
        have hlast := hkeys _ _ hv
        have hmul : 2 ^ L * n = 2 ^ L * (n - 1) + 2 ^ L := by
          obtain ⟨m, rfl⟩ : ∃ m, n = m + 1 := ⟨n - 1, by omega⟩
          rw [Nat.add_sub_cancel]
          ring
        rw [h.u32_group (by omega)] at hb
        have hdvd := hgridL.trans hb
        have hfits := (h.fits_iff_allChunks hs hclog hdvd).2 hall
        obtain ⟨hbase, p', hp', htot, hlook⟩ := h.takeGroup hs hclog (by omega) hdvd hfits hblocks
        simp only [Option.elim_some, hbase]
        exact Or.inr ⟨b, hb, toInt_of_lt (by omega), hfits, p', hp', htot, hlook⟩

end Power2Allocator
