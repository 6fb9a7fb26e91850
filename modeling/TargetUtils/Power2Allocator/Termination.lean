import TargetUtils.Power2Allocator.Runs

set_option autoImplicit false

/-! # Termination of the search for a group

The position of the search is a 64-bit Judy index, but the next one is kept in a `uint32_t`. Of a
pool with more than `2 ^ 31` indices all of this needs only that free chunks start at 32-bit indices
(`KeysSmall`), which every operation keeps. Behind the last multiple of `align` the position wraps to
0, so a search that finds no group ends exactly when no chunk is left from that multiple on
(`groupSearch_none_iff`). -/

namespace Power2Allocator

variable {a a' : Power2Allocator} {L : ℕ}

/-! ## Where chunks start -/

/-- Every free chunk starts at a 32-bit index. -/
def KeysSmall (a : Power2Allocator) : Prop :=
  ∀ c k v, (a.freeList c).lookup k = some v → k < 2 ^ 32

theorem u32Max_lt : u32Max < 2 ^ 32 := by decide

theorem u32Add_lt (i j : ℕ) : u32Add i j < 2 ^ 32 := Nat.mod_lt _ (by omega)

theorem KeysSmall.congr (h : a.KeysSmall) (hsame : a'.freeLists = a.freeLists) : a'.KeysSmall := by
  intro c k v hk
  rw [freeList, hsame] at hk
  exact h c k v hk

theorem KeysSmall.bfSysAssert (h : a.KeysSmall) (cond : Bool) : (a.bfSysAssert cond).KeysSmall :=
  h.congr rfl

theorem KeysSmall.assertFreeLog2 (h : a.KeysSmall) (c i : ℕ) : (a.assertFreeLog2 c i).KeysSmall :=
  h.congr rfl

theorem KeysSmall.markInuse (h : a.KeysSmall) (i n : ℕ) : (a.markInuse i n).KeysSmall :=
  h.congr rfl

theorem KeysSmall.markFree (h : a.KeysSmall) (i : ℕ) : (a.markFree i).KeysSmall := h.congr rfl

theorem KeysSmall.setFreeList (h : a.KeysSmall) {c : ℕ} {m : JudyL}
    (hm : ∀ k v, m.lookup k = some v → k < 2 ^ 32) : (a.setFreeList c m).KeysSmall := by
  by_cases hc : c < a.freeLists.length
  · intro d k v hk
    rw [freeList_setFreeList hc] at hk
    split_ifs at hk
    · exact hm k v hk
    · exact h d k v hk
  · exact h.congr (List.set_eq_of_length_le (Nat.le_of_not_lt hc))

theorem KeysSmall.insert (h : a.KeysSmall) {i : ℕ} (hi : i < 2 ^ 32) (c n : ℕ) :
    ∀ k v, ((a.freeList c).insert i n).lookup k = some v → k < 2 ^ 32 := by
  intro k v hk
  rw [OrderedMap.lookup_insert] at hk
  split_ifs at hk with hki
  · exact hki ▸ hi
  · exact h c k v hk

theorem KeysSmall.erase (h : a.KeysSmall) (c i : ℕ) :
    ∀ k v, ((a.freeList c).erase i).lookup k = some v → k < 2 ^ 32 := by
  intro k v hk
  rw [OrderedMap.lookup_erase] at hk
  split_ifs at hk
  exact h c k v hk

theorem KeysSmall.insertOneFree (h : a.KeysSmall) {i : ℕ} (hi : i < 2 ^ 32) (n : ℕ) :
    (a.insertOneFree i n).KeysSmall := by
  have hloop : ∀ fuel (a : Power2Allocator) i r, a.KeysSmall → i < 2 ^ 32 →
      (insertOneFreeLoop fuel a i r).KeysSmall := by
    intro fuel
    induction fuel with
    | zero => exact fun a i r h _ => h
    | succ fuel ih =>
        intro a i r h hi
        have hcheck := h.assertFreeLog2 (a.freeLog2 i r) i
        simp only [insertOneFreeLoop]
        split_ifs
        · exact h
        · exact ((hcheck.bfSysAssert _).bfSysAssert _).setFreeList (hcheck.insert hi _ _)
        · exact ih _ _ _ ((hcheck.bfSysAssert _).setFreeList (hcheck.insert hi _ _)) (u32Add_lt _ _)
  exact hloop n a i n h hi

theorem KeysSmall.removeFreeIndex (h : a.KeysSmall) (i n : ℕ) :
    (a.removeFreeIndex i n).2.KeysSmall := by
  have hloop : ∀ fuel (a : Power2Allocator) i r, a.KeysSmall →
      (removeFreeIndexLoop fuel a i r).2.KeysSmall := by
    intro fuel
    induction fuel with
    | zero => exact fun a i r h => h
    | succ fuel ih =>
        intro a i r h
        have hcheck := h.assertFreeLog2 (a.freeLog2 i r) i
        simp only [removeFreeIndexLoop]
        split_ifs
        · exact h
        · split
          · exact hcheck.bfSysAssert _
          · exact (hcheck.setFreeList (hcheck.erase _ _)).bfSysAssert _
        · split
          · exact hcheck.bfSysAssert _
          · exact ih _ _ _ ((hcheck.setFreeList (hcheck.erase _ _)).bfSysAssert _)
  exact hloop n a i n h

theorem KeysSmall.removeOneFree (h : a.KeysSmall) (c size freeSize : ℕ) :
    (a.removeOneFree c size freeSize).1 < 2 ^ 32 ∧
      (a.removeOneFree c size freeSize).2.2.KeysSmall := by
  simp only [Power2Allocator.removeOneFree]
  split_ifs
  · exact ⟨u32Max_lt, h⟩
  · split
    · exact ⟨u32Max_lt, h⟩
    · next i v hwalk =>
        exact ⟨h c i v (OrderedMap.walk_first_eq_some Nat.zero_le hwalk).1,
          (h.bfSysAssert _).setFreeList (h.erase _ _)⟩

theorem KeysSmall.allocScan (h : a.KeysSmall) (size fuel i freeSize : ℕ) :
    (allocScan size fuel a i freeSize).1 < 2 ^ 32 ∧
      (allocScan size fuel a i freeSize).2.2.KeysSmall := by
  induction fuel generalizing a i freeSize with
  | zero => exact ⟨u32Max_lt, h⟩
  | succ fuel ih =>
      have hone := h.removeOneFree i size freeSize
      simp only [Power2Allocator.allocScan]
      split_ifs
      · exact hone
      · exact ih hone.2 _ _

/-! ## The calls -/

theorem KeysSmall.alloc (h : a.KeysSmall) (size : ℕ) : (a.alloc size).2.KeysSmall := by
  have hscan := h.allocScan size (a.noFreeLists - log2Uint32Ceil size) (log2Uint32Ceil size) 0
  simp only [Power2Allocator.alloc]
  split_ifs
  · exact h
  · exact hscan.2
  · refine KeysSmall.markInuse (KeysSmall.insertOneFree ?_ (u32Add_lt _ _) _) _ _
    exact ((hscan.2.bfSysAssert _).bfSysAssert _).insertOneFree hscan.1 _

theorem KeysSmall.getIndexSize (h : a.KeysSmall) (i : ℕ) : (a.getIndexSize i).2.KeysSmall := by
  rw [Power2Allocator.getIndexSize]
  split
  · exact h
  · exact h.bfSysAssert _

/-- Where free space before an index starts, as `release` and `reserve` compute it. -/
theorem prevEnd_lt (prev : ℕ × ℕ) :
    (if prev.1 ≠ u32Max then u32Add prev.1 prev.2 else 0) < 2 ^ 32 := by
  split_ifs
  · exact u32Add_lt _ _
  · omega

theorem KeysSmall.release (h : a.KeysSmall) (i : ℕ) : (a.release i).2.KeysSmall := by
  have hget := h.getIndexSize i
  simp only [Power2Allocator.release]
  generalize a.getIndexSize i = g at hget ⊢
  obtain ⟨size, b⟩ := g
  have hprev := prevEnd_lt (b.getPrevInuseBlock i)
  simp only at hget ⊢
  generalize (if (b.getPrevInuseBlock i).1 ≠ u32Max then
    u32Add (b.getPrevInuseBlock i).1 (b.getPrevInuseBlock i).2 else 0) = freeIndex at hprev ⊢
  generalize (if (b.getNextInuseBlock i).1 = u32Max then b.totalSize
    else (b.getNextInuseBlock i).1) = nextIndex
  have hleft := hget.removeFreeIndex freeIndex (u32Sub i freeIndex)
  split_ifs
  · exact hget
  · exact hleft.bfSysAssert _
  · exact (hleft.removeFreeIndex _ _).bfSysAssert _
  · exact KeysSmall.markFree ((hleft.removeFreeIndex _ _).insertOneFree hprev _) _

theorem KeysSmall.reserve (h : a.KeysSmall) (i n : ℕ) : (a.reserve i n).2.KeysSmall := by
  have hget := h.getIndexSize i
  simp only [Power2Allocator.reserve]
  generalize a.getIndexSize i = g at hget ⊢
  obtain ⟨size, b⟩ := g
  have hprev := prevEnd_lt (b.getPrevInuseBlock i)
  simp only at hget ⊢
  generalize (if (b.getPrevInuseBlock i).1 ≠ u32Max then
    u32Add (b.getPrevInuseBlock i).1 (b.getPrevInuseBlock i).2 else 0) = freeIndex at hprev ⊢
  generalize (if (b.getNextInuseBlock i).1 = u32Max then b.totalSize
    else (b.getNextInuseBlock i).1) = nextIndex
  have hgap := hget.removeFreeIndex freeIndex (u32Sub nextIndex freeIndex)
  split_ifs
  · exact hget
  · exact hget
  · exact hget
  · exact hgap.bfSysAssert _
  · refine KeysSmall.markInuse (KeysSmall.insertOneFree ?_ (u32Add_lt _ _) _) _ _
    exact hgap.insertOneFree hprev _

theorem KeysSmall.takeBlocks (h : a.KeysSmall) (log2 size : ℕ) (blocks : List (ℕ × ℕ)) :
    (takeBlocks log2 size blocks a).KeysSmall := by
  rw [Power2Allocator.takeBlocks]
  induction blocks generalizing a with
  | nil => exact h
  | cons b rest ih =>
      rw [List.foldl_cons]
      refine ih (KeysSmall.insertOneFree ?_ (u32Add_lt _ _) _)
      exact (h.setFreeList (h.erase log2 b.1)).bfSysAssert _

theorem KeysSmall.markBlocks (h : a.KeysSmall) (log2 size base : ℕ) (blocks : List (ℕ × ℕ)) :
    (markBlocks log2 size base blocks a).KeysSmall := by
  rw [Power2Allocator.markBlocks]
  induction blocks.zipIdx generalizing a with
  | nil => exact h
  | cons b rest ih => exact ih ((h.bfSysAssert _).markInuse _ _)

theorem KeysSmall.allocMultiple (h : a.KeysSmall) {fuel size count : ℕ} {r : ℤ × Power2Allocator}
    (hr : a.allocMultiple fuel size count = some r) : r.2.KeysSmall := by
  simp only [Power2Allocator.allocMultiple, allocIntV2] at hr
  split_ifs at hr
  · exact Option.some.inj hr ▸ h.alloc size
  · exact Option.some.inj hr ▸ h
  · exact Option.some.inj hr ▸ h
  · exact Option.some.inj hr ▸ h
  · split at hr
    · cases hr
    · exact Option.some.inj hr ▸ h.bfSysAssert _
    · exact Option.some.inj hr ▸ ((h.bfSysAssert _).takeBlocks _ _ _).markBlocks _ _ _ _

theorem KeysSmall.releaseMultipleLoop (h : a.KeysSmall) {i : ℕ} (hi : i < 2 ^ 32)
    (log2 size n : ℕ) : (releaseMultipleLoop log2 size n a i).2.KeysSmall := by
  induction n generalizing a i with
  | zero => exact h
  | succ n ih =>
      simp only [Power2Allocator.releaseMultipleLoop]
      generalize (if (a.getNextInuseBlock i).1 = u32Max then a.totalSize
        else (a.getNextInuseBlock i).1) = nextIndex
      have hgap := h.removeFreeIndex (u32Add i size) (u32Sub nextIndex (u32Add i size))
      split_ifs
      · exact hgap.bfSysAssert _
      · exact ih (KeysSmall.markFree (hgap.insertOneFree hi _) _) (u32Add_lt _ _)

theorem KeysSmall.releaseMultiple (h : a.KeysSmall) {i : ℕ} (hi : i < 2 ^ 32) (n : ℕ) :
    (a.releaseMultiple i n).2.KeysSmall := by
  have hget := h.getIndexSize i
  simp only [Power2Allocator.releaseMultiple]
  split_ifs
  · exact h.release i
  · exact hget
  · exact hget
  · exact hget.releaseMultipleLoop hi _ _ _

/-- The contract of a call, with the index of a group a `uint32_t`. -/
def Call.LegalWord (a : Power2Allocator) : Call → Prop
  | .releaseMultiple index count => index < 2 ^ 32 ∧ a.GroupOrRefused index count
  | c => c.Legal a

theorem KeysSmall.step (h : a.KeysSmall) {e : Call × ℤ} (hstep : Step Call.LegalWord a e a') :
    a'.KeysSmall := by
  obtain ⟨call, rc⟩ := e
  obtain ⟨hok, fuel, hexec⟩ := hstep
  cases call with
  | alloc s =>
      obtain rfl : (a.alloc s).2 = a' := congrArg Prod.snd (Option.some.inj hexec)
      exact h.alloc s
  | allocMultiple s n => exact h.allocMultiple hexec
  | reserve i s =>
      obtain rfl : (a.reserve i s).2 = a' := congrArg Prod.snd (Option.some.inj hexec)
      exact h.reserve i s
  | release i =>
      obtain rfl : (a.release i).2 = a' := congrArg Prod.snd (Option.some.inj hexec)
      exact h.release i
  | releaseMultiple i n =>
      obtain rfl : (a.releaseMultiple i n).2 = a' := congrArg Prod.snd (Option.some.inj hexec)
      exact h.releaseMultiple hok.1 n

theorem create_keysSmall {size count : ℕ} (hcreate : create size count = some a) : a.KeysSmall := by
  have hloop : ∀ n (a : Power2Allocator) i, a.KeysSmall → i < 2 ^ 32 →
      (createLoop size n a i).KeysSmall := by
    intro n
    induction n with
    | zero => exact fun a i h _ => h
    | succ n ih => exact fun a i h hi => ih _ _ (h.insertOneFree hi size) (u32Add_lt _ _)
  rw [create] at hcreate
  split_ifs at hcreate
  obtain rfl := Option.some.inj hcreate
  refine hloop count _ 0 (fun c k v hk => ?_) (by omega)
  rw [freeList, List.getD_eq_getElem?_getD, List.getElem?_replicate] at hk
  split_ifs at hk <;> cases hk

theorem keysSmall_of_run {size count : ℕ} {a₀ : Power2Allocator} {es : List (Call × ℤ)}
    (hcreate : create size count = some a₀) (hrun : Run (Step Call.LegalWord) a₀ es a) :
    a.KeysSmall :=
  hrun.invariant (P := KeysSmall) (create_keysSmall hcreate) fun _ _ _ h hstep => h.step hstep

/-! ## The search -/

/-- Long enough chunks for a group start at a multiple of `align`. -/
def HasGroup (m : JudyL) (log2 size count align : ℕ) : Prop :=
  ∃ b, align ∣ b ∧ AllChunks m size (List.range' b count (2 ^ log2))

/-- No chunk starts in the last `align` indices below `2 ^ 32`. -/
def TopClear (m : JudyL) (align : ℕ) : Prop := ∀ k v, m.lookup k = some v → k + align < 2 ^ 32

section Search

variable {m : JudyL} {size count align : ℕ}

/-- At the place of a group the search ends. -/
theorem groupSearch_of_allChunks (hkeys : ∀ k v, m.lookup k = some v → k < 2 ^ 32 ∧ L < 31)
    (hcount : 0 < count) {b : ℕ} (hdvd : align ∣ b)
    (hall : AllChunks m size (List.range' b count (2 ^ L))) (fuel : ℕ) :
    (groupSearch m L size count align (fuel + 1) b).isSome := by
  obtain ⟨w, hw, -⟩ := hall b (List.mem_range'.2 ⟨0, hcount, by simp⟩)
  have hfirst : m.first b = some (b, w) :=
    OrderedMap.first_eq_some.2 ⟨hw, le_rfl, fun i h1 h2 => by omega⟩
  have hblocks := (contiguousBlocks_eq_some_iff hkeys).2 ⟨hall, rfl⟩
  rw [hw] at hblocks
  simp [groupSearch, hfirst, Nat.mod_eq_zero_of_dvd hdvd, hblocks]

/-- From any place before a group the search ends, for it comes to the place of the group. -/
theorem groupSearch_isSome_of_group (hkeys : ∀ k v, m.lookup k = some v → k < 2 ^ 32 ∧ L < 31)
    (hcount : 0 < count) {b : ℕ} (hdvd : align ∣ b)
    (hall : AllChunks m size (List.range' b count (2 ^ L))) {fuel index : ℕ}
    (hindex : align ∣ index) (hle : index ≤ b) (hfuel : b ≤ index + fuel * align) :
    (groupSearch m L size count align (fuel + 1) index).isSome := by
  induction fuel generalizing index with
  | zero =>
      obtain rfl : index = b := by omega
      exact groupSearch_of_allChunks hkeys hcount hdvd hall 0
  | succ fuel ih =>
      rcases Nat.eq_or_lt_of_le hle with rfl | hlt
      · exact groupSearch_of_allChunks hkeys hcount hdvd hall _
      · obtain ⟨w, hw, -⟩ := hall b (List.mem_range'.2 ⟨0, hcount, by simp⟩)
        have hb := (hkeys b w hw).1
        have hnext : index + align ≤ b := by
          have := Nat.le_of_dvd (by omega) (Nat.dvd_sub hdvd hindex)
          omega
        have hrec := ih (Nat.dvd_add hindex (dvd_refl _)) hnext (by
          rw [Nat.add_mul, Nat.one_mul] at hfuel
          omega)
        rw [groupSearch]
        simp only [u32_of_lt (by omega : index + align < 2 ^ 32)]
        cases hfirst : m.first index with
        | none => rfl
        | some x =>
            obtain ⟨k, v⟩ := x
            simp only
            split_ifs
            · exact hrec
            · split
              · rfl
              · exact hrec

/-- When a chunk is left behind the last multiple of `align` and there is no group, the position
    wraps and the search goes on for ever. -/
theorem groupSearch_eq_none_of_top (hkeys : ∀ k v, m.lookup k = some v → k < 2 ^ 32 ∧ L < 31)
    (halign : align ∣ 2 ^ 32) {k v : ℕ} (hk : m.lookup k = some v) (htop : 2 ^ 32 ≤ k + align)
    (hnone : ¬ HasGroup m L size count align) (fuel : ℕ) {index : ℕ} (hindex : align ∣ index)
    (hle : index + align ≤ 2 ^ 32) : groupSearch m L size count align fuel index = none := by
  induction fuel generalizing index with
  | zero => rfl
  | succ fuel ih =>
      have hrec : groupSearch m L size count align fuel (u32 (index + align)) = none := by
        rcases Nat.eq_or_lt_of_le hle with heq | hlt
        · have hzero : u32 (index + align) = 0 := by
            rw [u32, heq, Nat.mod_self]
          have halign0 : 0 + align ≤ 2 ^ 32 := by
            rw [Nat.zero_add]
            exact (Nat.le_add_left align index).trans hle
          rw [hzero]
          exact ih (dvd_zero align) halign0
        · have hdvd := Nat.dvd_add hindex (dvd_refl align)
          have := Nat.le_of_dvd (by omega) (Nat.dvd_sub halign hdvd)
          rw [u32_of_lt hlt]
          exact ih hdvd (by omega)
      rw [groupSearch]
      cases hfirst : m.first index with
      | none =>
          rw [OrderedMap.first_eq_none.1 hfirst k (by omega)] at hk
          cases hk
      | some x =>
          obtain ⟨j, w⟩ := x
          have hj := (OrderedMap.first_eq_some.1 hfirst).1
          simp only
          split_ifs with hmod
          · exact hrec
          · cases hcont : contiguousBlocks m L size count j (some w) with
            | none => exact hrec
            | some blocks =>
                rw [← hj] at hcont
                exact absurd ⟨j, Nat.dvd_of_mod_eq_zero (by omega),
                  ((contiguousBlocks_eq_some_iff hkeys).1 hcont).1⟩ hnone

theorem groupSearch_none_iff (hkeys : ∀ k v, m.lookup k = some v → k < 2 ^ 32 ∧ L < 31)
    (hcount : 0 < count) {q : ℕ} (hq : q ≤ 31) :
    (∃ fuel, (groupSearch m L size count (2 ^ q) fuel 0).isSome) ↔
      HasGroup m L size count (2 ^ q) ∨ TopClear m (2 ^ q) := by
  have hpos : 0 < 2 ^ q := Nat.pow_pos (by omega)
  have hle : 2 ^ q ≤ 2 ^ 31 := Nat.pow_le_pow_right (by omega) hq
  constructor
  · rintro ⟨fuel, hfuel⟩
    by_contra hneither
    obtain ⟨hnone, htop⟩ := not_or.1 hneither
    rw [TopClear] at htop
    push Not at htop
    obtain ⟨k, v, hk, hktop⟩ := htop
    rw [groupSearch_eq_none_of_top hkeys (Nat.pow_dvd_pow 2 (by omega)) hk hktop hnone fuel
      (dvd_zero _) (by omega)] at hfuel
    cases hfuel
  · rintro (⟨b, hdvd, hall⟩ | htop)
    · refine ⟨b + 1, groupSearch_isSome_of_group hkeys hcount hdvd hall (dvd_zero _)
        (Nat.zero_le b) ?_⟩
      rw [Nat.zero_add]
      exact Nat.le_mul_of_pos_right _ hpos
    · obtain ⟨total, hroom⟩ : ∃ total, total + 2 ^ q = 2 ^ 32 := ⟨2 ^ 32 - 2 ^ q, by omega⟩
      have hbelow : ∀ k v, m.lookup k = some v → k < total := fun k v hk => by
        have := htop k v hk
        omega
      refine ⟨total + 1, groupSearch_isSome hbelow hroom.le ?_⟩
      rw [Nat.zero_add]
      exact Nat.le_mul_of_pos_right _ hpos

end Search

/-! ## Termination -/

theorem KeysSmall.allocMultiple_isSome_iff (hkeys : a.KeysSmall) {s n : ℕ} (hs : s < 2 ^ 32)
    (hn : 2 ≤ n) (htotal : 2 ^ Nat.clog 2 s * n ≤ a.totalSize)
    (hround : 2 ^ Nat.clog 2 s * n ≤ 2 ^ 31) :
    (∃ fuel, (a.allocMultiple fuel s n).isSome) ↔
      Nat.clog 2 s ≠ u32Sub a.noFreeLists 1 ∨
        HasGroup (a.freeList (Nat.clog 2 s)) (Nat.clog 2 s) s n
          (2 ^ Nat.clog 2 (2 ^ Nat.clog 2 s * n)) ∨
        TopClear (a.freeList (Nat.clog 2 s)) (2 ^ Nat.clog 2 (2 ^ Nat.clog 2 s * n)) := by
  obtain ⟨L, hL⟩ : ∃ L, Nat.clog 2 s = L := ⟨_, rfl⟩
  rw [hL] at htotal hround ⊢
  have hlog : log2Uint32Ceil s = L := (log2Uint32Ceil_eq_clog hs).trans hL
  have hL31 : L < 31 := by
    have h2 : 2 ^ L * 2 ≤ 2 ^ 31 := (Nat.mul_le_mul_left _ hn).trans hround
    rw [← Nat.pow_succ, Nat.pow_le_pow_iff_right (by omega)] at h2
    omega
  have hclog : Nat.clog 2 (2 ^ L * n) ≤ 31 := Nat.clog_le_of_le_pow hround
  have halign : shl1 (log2Uint32Ceil (2 ^ L * n)) = 2 ^ Nat.clog 2 (2 ^ L * n) := by
    rw [log2Uint32Ceil_eq_clog (by omega), shl1_of_lt (by omega)]
  have hword : u32 (2 ^ L * n) = 2 ^ L * n := u32_of_lt (by omega)
  simp only [Power2Allocator.allocMultiple, if_neg (by omega : ¬ n = 1), hlog,
    shl1_of_lt (by omega : L < 32), hword, if_neg (by omega : ¬ a.totalSize < 2 ^ L * n), halign]
  by_cases hclass : L ≠ u32Sub a.noFreeLists 1
  · simp [hclass]
  · have hlists : (a.bfSysAssert (decide (s ≤ shl1 L))).freeList L = a.freeList L := rfl
    simp only [hclass, if_false, allocIntV2, false_or, if_neg (by omega : ¬ n = 0), hlists]
    rw [← groupSearch_none_iff (fun k v hk => ⟨hkeys L k v hk, hL31⟩) (by omega) hclog]
    refine exists_congr fun fuel => ?_
    cases groupSearch (a.freeList L) L s n (2 ^ Nat.clog 2 (2 ^ L * n)) fuel 0 with
    | none => rfl
    | some found => cases found <;> simp

/-- In every state that a run leads to, the search of `power2_allocator_alloc_multiple` ends exactly
    when the size is not of the highest class (there is no search), when a group is there to be found,
    or when no free chunk of the highest class starts in the last `align` indices below `2 ^ 32`. -/
theorem allocMultiple_ends_iff {size count : ℕ} {a₀ : Power2Allocator} {es : List (Call × ℤ)}
    (hcreate : create size count = some a₀) (hrun : Run (Step Call.LegalWord) a₀ es a) {s n : ℕ}
    (hs : s < 2 ^ 32) (hn : 2 ≤ n) (htotal : 2 ^ Nat.clog 2 s * n ≤ a.totalSize)
    (hround : 2 ^ Nat.clog 2 s * n ≤ 2 ^ 31) :
    (∃ fuel, (a.allocMultiple fuel s n).isSome) ↔
      Nat.clog 2 s ≠ u32Sub a.noFreeLists 1 ∨
        HasGroup (a.freeList (Nat.clog 2 s)) (Nat.clog 2 s) s n
          (2 ^ Nat.clog 2 (2 ^ Nat.clog 2 s * n)) ∨
        TopClear (a.freeList (Nat.clog 2 s)) (2 ^ Nat.clog 2 (2 ^ Nat.clog 2 s * n)) :=
  (keysSmall_of_run hcreate hrun).allocMultiple_isSome_iff hs hn htotal hround

/-- A group of two blocks where two blocks are in use. -/
theorem allocMultiple_ends_iff_two : ∃ a, create 4 4 = some a ∧
    ((∃ fuel, (a.afterTwo.allocMultiple fuel 4 2).isSome) ↔
      Nat.clog 2 4 ≠ u32Sub a.afterTwo.noFreeLists 1 ∨
        HasGroup (a.afterTwo.freeList (Nat.clog 2 4)) (Nat.clog 2 4) 4 2
          (2 ^ Nat.clog 2 (2 ^ Nat.clog 2 4 * 2)) ∨
        TopClear (a.afterTwo.freeList (Nat.clog 2 4)) (2 ^ Nat.clog 2 (2 ^ Nat.clog 2 4 * 2))) := by
  have hclog : Nat.clog 2 4 = 2 := Nat.clog_pow 2 2 (by omega)
  obtain ⟨a, hcreate, -, -, htotal, -⟩ := exists_afterTwo
  have hrun : Run (Step Call.LegalWord) a _ a.afterTwo :=
    run_afterTwo a ⟨by decide, by decide⟩ ⟨by decide, by decide⟩
  exact ⟨a, hcreate, allocMultiple_ends_iff hcreate hrun (by omega) le_rfl
    (by rw [hclog, htotal]; omega) (by rw [hclog]; omega)⟩

/-- Of a pool of three blocks of `2 ^ 30` the first is taken. A group of two would have to start at 0
    or at `2 ^ 31`, and the position after `2 ^ 31` is 0 again. -/
theorem allocMultiple_endless : ∃ a₀ a es, create (2 ^ 30) 3 = some a₀ ∧
    Run (Step Call.LegalWord) a₀ es a ∧ 2 ^ Nat.clog 2 (2 ^ 30) * 2 ≤ a.totalSize ∧
      2 ^ Nat.clog 2 (2 ^ 30) * 2 ≤ 2 ^ 31 ∧ ∀ fuel, a.allocMultiple fuel (2 ^ 30) 2 = none := by
  have hfacts : (create (2 ^ 30) 3).map (fun a => (((a.alloc (2 ^ 30)).2.freeList 30).entries,
      (a.alloc (2 ^ 30)).2.totalSize, (a.alloc (2 ^ 30)).2.noFreeLists)) =
      some ([(2 ^ 30, 2 ^ 30), (2 ^ 31, 2 ^ 30)], 3 * 2 ^ 30, 31) := by decide +kernel
  obtain ⟨a₀, hcreate, ha⟩ := Option.map_eq_some_iff.1 hfacts
  simp only [Prod.mk.injEq] at ha
  obtain ⟨hentries, htotal, hlists⟩ := ha
  have hclog : Nat.clog 2 (2 ^ 30) = 30 := Nat.clog_pow 2 30 (by omega)
  have hrun : Run (Step Call.LegalWord) a₀ ([] ++ [(.alloc (2 ^ 30), (a₀.alloc (2 ^ 30)).1)])
      (a₀.alloc (2 ^ 30)).2 := run_call Run.nil ⟨by omega, by omega⟩ 0 rfl
  have hchunk : ∀ k v, ((a₀.alloc (2 ^ 30)).2.freeList 30).lookup k = some v →
      k = 2 ^ 30 ∨ k = 2 ^ 31 := fun k v hk => by
    rw [← OrderedMap.mem_entries, hentries] at hk
    simp only [List.mem_cons, Prod.mk.injEq, List.not_mem_nil, or_false] at hk
    exact hk.imp And.left And.left
  refine ⟨a₀, _, _, hcreate, hrun, by rw [hclog, htotal]; omega, by rw [hclog]; omega, ?_⟩
  have hiff := (keysSmall_of_run hcreate hrun).allocMultiple_isSome_iff (s := 2 ^ 30) (n := 2)
    (by omega) le_rfl (by rw [hclog, htotal]; omega) (by rw [hclog]; omega)
  have halign : Nat.clog 2 (2 ^ 30 * 2) = 31 := Nat.clog_pow 2 31 (by omega)
  rw [hclog, halign, hlists] at hiff
  by_contra hsome
  push Not at hsome
  obtain ⟨fuel, hfuel⟩ := hsome
  rcases hiff.1 ⟨fuel, Option.isSome_iff_ne_none.2 hfuel⟩ with hclass | ⟨b, hdvd, hall⟩ | htop
  · exact hclass (by decide)
  · obtain ⟨v, hv, -⟩ := hall b (by simp [List.range'])
    obtain ⟨w, hw, -⟩ := hall (b + 2 ^ 30) (by simp [List.range'])
    have hb := hchunk b v hv
    have hb' := hchunk _ w hw
    omega
  · have hlast : ((a₀.alloc (2 ^ 30)).2.freeList 30).lookup (2 ^ 31) = some (2 ^ 30) := by
      rw [← OrderedMap.mem_entries, hentries]
      simp
    have := htop _ _ hlast
    omega

end Power2Allocator
