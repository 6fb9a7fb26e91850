import TargetUtils.Power2Allocator.Runs

set_option autoImplicit false

/-! # What the allocator guarantees its clients

In every state a run can reach, `alloc` and `alloc_multiple` refuse a request exactly when no aligned
place is left and otherwise take only what they return, and releasing an aligned group at once is the
same as releasing its blocks one by one. -/

namespace Power2Allocator

variable {a a₀ : Power2Allocator} {L : ℕ} {p : Pool} {size count : ℕ} {es : List (Call × ℤ)}

/-- `[i, i + s)` lies inside the pool and meets no block in use. -/
def Available (a : Power2Allocator) (i s : ℕ) : Prop :=
  i + s ≤ a.totalSize ∧ ∀ k t, a.inuseList.lookup k = some t →
    Disjoint (Set.Ico i (i + s)) (Set.Ico k (k + t))

theorem Represents.available_iff (h : a.Represents L p) {i s : ℕ} (hs : 0 < s) :
    a.Available i s ↔ p.Fits i s := by
  rw [Available, h.totalSize, h.inuse]
  constructor
  · rintro ⟨hin, hout⟩ j h1 h2
    exact ⟨by omega, fun k t hk hkj =>
      Set.disjoint_left.1 (hout k t hk) (Set.mem_Ico.2 ⟨h1, h2⟩) (Set.mem_Ico.2 hkj)⟩
  · intro hfit
    refine ⟨hfit.inside hs, fun k t hk => Set.disjoint_left.2 fun j hj hkj => ?_⟩
    rw [Set.mem_Ico] at hj hkj
    exact Pool.not_free_of_block hk hkj.1 hkj.2 (hfit j hj.1 hj.2)

/-! ## Alloc -/

/-- `alloc` refuses a request of admissible size exactly when no aligned place is available, and then
    changes nothing; otherwise the in-use list gains the block returned. -/
theorem alloc_sound_complete (hsize : size < 2 ^ 32) (hsmall : size * count < 2 ^ 31)
    (hcreate : create size count = some a₀) (hrun : Run (Step Call.Legal) a₀ es a) {s : ℕ}
    (hs : 1 ≤ s) (hmax : s ≤ a.maxSize) :
    ((a.alloc s).1 = -1 ↔ ¬ ∃ i, 2 ^ Nat.clog 2 s ∣ i ∧ a.Available i s) ∧
      ((a.alloc s).1 = -1 → (a.alloc s).2 = a) ∧
      ((a.alloc s).1 ≠ -1 → ∃ i : ℕ, (a.alloc s).1 = i ∧ 2 ^ Nat.clog 2 s ∣ i ∧
        a.Available i s ∧ (a.alloc s).2.inuseList = a.inuseList.insert i s) := by
  obtain ⟨L, p, -, -, hp⟩ := exists_pool_of_run hsize hsmall hcreate (run_harmless hrun)
  rw [hp.maxSize] at hmax
  have havailable := fun i => hp.available_iff (i := i) hs
  rcases hp.alloc hs hmax with ⟨hr, hnone⟩ | ⟨i, hfit, hdvd, hrc, hp'⟩
  · rw [hr]
    refine ⟨iff_of_true rfl ?_, fun _ => rfl, fun hne => absurd rfl hne⟩
    rintro ⟨i, hdvd, hi⟩
    exact hnone i hdvd ((havailable i).1 hi)
  · have hne : (a.alloc s).1 ≠ -1 := by
      rw [hrc]
      omega
    refine ⟨iff_of_false hne ?_, fun h => absurd h hne, fun _ => ?_⟩
    · exact not_not.2 ⟨i, hdvd, (havailable i).2 hfit⟩
    · exact ⟨i, hrc, hdvd, (havailable i).2 hfit, by rw [hp'.inuse, hp.inuse]; rfl⟩

/-- A request of 3 indices where two blocks of 3 are in use. -/
theorem alloc_sound_complete_three : ∃ a, create 4 4 = some a ∧ ∃ i : ℕ,
    (a.afterTwo.alloc 3).1 = i ∧ 2 ^ Nat.clog 2 3 ∣ i ∧ a.afterTwo.Available i 3 ∧
      (a.afterTwo.alloc 3).2.inuseList = a.afterTwo.inuseList.insert i 3 := by
  obtain ⟨a, hcreate, hmax, -, -, -, halloc, -⟩ := exists_afterTwo
  have hrun : Run (Step Call.Legal) a _ a.afterTwo :=
    run_afterTwo a ⟨by decide, by decide⟩ ⟨by decide, by decide⟩
  refine ⟨a, hcreate, (alloc_sound_complete (by decide : 4 < 2 ^ 32) (by decide : 4 * 4 < 2 ^ 31)
    hcreate hrun (by decide : 1 ≤ 3) (by rw [hmax]; decide)).2.2 ?_⟩
  rw [halloc]
  decide

/-! ## Alloc multiple -/

/-- The group of `n` blocks of `s` indices at stride `a.maxSize` from `b` on is available. -/
def GroupAvailable (a : Power2Allocator) (b n s : ℕ) : Prop :=
  ∀ i < n, a.Available (b + i * a.maxSize) s

theorem Represents.groupAvailable_iff (h : a.Represents L p) {b n s : ℕ} (hs : 0 < s) :
    a.GroupAvailable b n s ↔ ∀ j ∈ List.range' b n (2 ^ L), p.Fits j s := by
  rw [GroupAvailable, h.maxSize]
  constructor
  · intro hall j hj
    obtain ⟨i, hi, rfl⟩ := List.mem_range'.1 hj
    rw [Nat.mul_comm]
    exact (h.available_iff hs).1 (hall i hi)
  · intro hall i hi
    exact (h.available_iff hs).2 (hall _ (List.mem_range'.2 ⟨i, hi, by rw [Nat.mul_comm]⟩))

/-- `alloc_multiple` of at least two blocks of the highest class always returns; it refuses exactly
    when no aligned group is available, and otherwise the in-use list gains the group returned. -/
theorem allocMultiple_sound_complete (hsize : size < 2 ^ 32) (hsmall : size * count < 2 ^ 31)
    (hcreate : create size count = some a₀) (hrun : Run (Step Call.Legal) a₀ es a) {s n : ℕ}
    (hs : 1 ≤ s) (hs32 : s < 2 ^ 32) (hclass : log2Uint32Ceil s = a.noFreeLists - 1) (hn : 2 ≤ n) :
    (∃ fuel, (a.allocMultiple fuel s n).isSome) ∧
      ∀ fuel r, a.allocMultiple fuel s n = some r →
        (r.1 = -1 ↔ ¬ ∃ b, 2 ^ Nat.clog 2 (a.maxSize * n) ∣ b ∧ a.GroupAvailable b n s) ∧
        (r.1 = -1 → r.2 = a) ∧
        (r.1 ≠ -1 → ∃ b : ℕ, r.1 = b ∧ 2 ^ Nat.clog 2 (a.maxSize * n) ∣ b ∧
          a.GroupAvailable b n s ∧ ∀ k, r.2.inuseList.lookup k =
            if ∃ i < n, k = b + i * a.maxSize then some s else a.inuseList.lookup k) := by
  obtain ⟨L, p, -, -, hp⟩ := exists_pool_of_run hsize hsmall hcreate (run_harmless hrun)
  have hclog : Nat.clog 2 s = L := by
    rw [← log2Uint32Ceil_eq_clog hs32, hclass, hp.holds.noFreeLists, Nat.add_sub_cancel]
  obtain ⟨hsome, hspec⟩ := hp.allocMultiple hs hclog hn
  have havailable := fun b => hp.groupAvailable_iff (b := b) (n := n) hs
  refine ⟨hsome, fun fuel r hr => ?_⟩
  rw [hp.maxSize]
  rcases hspec fuel r hr with ⟨rfl, hnone⟩ | ⟨b, hdvd, hrc, hfits, p', hp', -, hlook⟩
  · refine ⟨iff_of_true rfl ?_, fun _ => rfl, fun hne => absurd rfl hne⟩
    rintro ⟨b, hdvd, hb⟩
    exact hnone b hdvd ((havailable b).1 hb)
  · have hne : r.1 ≠ -1 := by
      rw [hrc]
      omega
    refine ⟨iff_of_false hne ?_, fun h => absurd h hne, fun _ => ?_⟩
    · exact not_not.2 ⟨b, hdvd, (havailable b).2 hfits⟩
    · refine ⟨b, hrc, hdvd, (havailable b).2 hfits, fun k => ?_⟩
      have hmem : k ∈ List.range' b n (2 ^ L) ↔ ∃ i < n, k = b + i * 2 ^ L := by
        simp only [List.mem_range', Nat.mul_comm]
      rw [hp'.inuse, hlook k, hp.inuse]
      simp only [hmem]

/-- A group of two blocks of 3 where two blocks of 3 are in use. -/
theorem allocMultiple_sound_complete_two : ∃ a r, create 4 4 = some a ∧
    a.afterTwo.allocMultiple 3 3 2 = some r ∧ ∃ b : ℕ, r.1 = b ∧
      2 ^ Nat.clog 2 (a.afterTwo.maxSize * 2) ∣ b ∧ a.afterTwo.GroupAvailable b 2 3 ∧
        ∀ k, r.2.inuseList.lookup k = if ∃ i < (2 : ℕ), k = b + i * a.afterTwo.maxSize then some 3
          else a.afterTwo.inuseList.lookup k := by
  obtain ⟨a, hcreate, -, hlists, -, -, -, hgroup⟩ := exists_afterTwo
  obtain ⟨r, hr, hrc⟩ := Option.map_eq_some_iff.1 hgroup
  have hrun : Run (Step Call.Legal) a _ a.afterTwo :=
    run_afterTwo a ⟨by decide, by decide⟩ ⟨by decide, by decide⟩
  refine ⟨a, r, hcreate, hr, ((allocMultiple_sound_complete (by decide : 4 < 2 ^ 32)
    (by decide : 4 * 4 < 2 ^ 31) hcreate hrun (by decide : 1 ≤ 3) (by decide)
    (by rw [hlists]; decide) (le_refl 2)).2 3 r hr).2.2 ?_⟩
  rw [hrc]
  decide

/-! ## Release multiple -/

/-- The calls that `release_multiple` is compared with: one release for each index of the list. -/
def releaseEach (a : Power2Allocator) (l : List ℕ) : Power2Allocator :=
  l.foldl (fun a i => (a.release i).2) a

/-- Releasing a group whose index is aligned at the highest class is the same as releasing its blocks
    one by one, in any order. -/
theorem releaseMultiple_eq_releaseEach (hsize : size < 2 ^ 32) (hsmall : size * count < 2 ^ 31)
    (hcreate : create size count = some a₀) (hrun : Run (Step Call.Legal) a₀ es a) {s n i : ℕ}
    (hn : 2 ≤ n) (hclass : log2Uint32Ceil s = a.noFreeLists - 1)
    (hblocks : ∀ k < n, a.inuseList.lookup (i + k * 2 ^ log2Uint32Ceil s) = some s)
    (haligned : 2 ^ log2Uint32Ceil s ∣ i) {order : List ℕ}
    (horder : order.Perm ((List.range n).map fun k => i + k * 2 ^ log2Uint32Ceil s)) :
    (a.releaseMultiple i n).1 = 0 ∧
      (a.releaseMultiple i n).2.freeLists = (a.releaseEach order).freeLists ∧
      (a.releaseMultiple i n).2.inuseList = (a.releaseEach order).inuseList := by
  obtain ⟨L, p, -, -, hp⟩ := exists_pool_of_run hsize hsmall hcreate (run_harmless hrun)
  have hlog : log2Uint32Ceil s = L := by
    rw [hclass, hp.holds.noFreeLists, Nat.add_sub_cancel]
  rw [hlog] at haligned hblocks horder
  have hblocks' : ∀ j ∈ List.range' i n (2 ^ L), p.blocks.lookup j = some s := by
    intro j hj
    obtain ⟨k, hk, rfl⟩ := List.mem_range'.1 hj
    rw [Nat.mul_comm, ← hp.inuse]
    exact hblocks k hk
  obtain ⟨hpos, hin, hlt⟩ := hp.block_bounds
    (hblocks' i (List.mem_range'.2 ⟨0, by omega, by simp⟩))
  have hclog : Nat.clog 2 s = L := (log2Uint32Ceil_eq_clog (by omega)).symm.trans hlog
  obtain ⟨hrc, hmultiple⟩ := hp.releaseMultiple hn haligned hclog hblocks'
  have hmem : ∀ k, k ∈ List.range' i n (2 ^ L) ↔ k ∈ order := by
    intro k
    simp only [horder.mem_iff, List.mem_range', List.mem_map, List.mem_range, Nat.mul_comm,
      eq_comm]
  have hnodup : order.Nodup := horder.nodup_iff.2 (List.Nodup.map (fun x y hxy => by
    have hmul : x * 2 ^ L = y * 2 ^ L := Nat.add_left_cancel hxy
    exact Nat.eq_of_mul_eq_mul_right (Nat.pow_pos (by omega)) hmul) List.nodup_range)
  have heach := hp.foldl_release hnodup fun j hj => by
    rw [hblocks' j ((hmem j).2 hj)]
    exact Option.some_ne_none s
  rw [← Pool.giveAll_congr hmem] at heach
  have heq := hmultiple.unique heach
  refine ⟨hrc, ?_, ?_⟩
  · rw [heq, releaseEach]
  · rw [heq, releaseEach]

/-- Two blocks of 3 at 0 and 4, released at once or in reverse order. -/
theorem releaseMultiple_eq_releaseEach_two : ∃ a, create 4 2 = some a ∧
    (((a.reserve 0 3).2.reserve 4 3).2.releaseMultiple 0 2).2.freeLists =
      (((a.reserve 0 3).2.reserve 4 3).2.releaseEach [4, 0]).freeLists := by
  have hstate : (create 4 2).any (fun a =>
      let b := ((a.reserve 0 3).2.reserve 4 3).2
      decide (log2Uint32Ceil 3 = b.noFreeLists - 1 ∧
        ∀ k < 2, b.inuseList.lookup (0 + k * 2 ^ log2Uint32Ceil 3) = some 3)) = true := by
    decide +kernel
  obtain ⟨a, hcreate, hb⟩ := (Option.any_eq_true _ _).1 hstate
  obtain ⟨hclass, hblocks⟩ := of_decide_eq_true hb
  have hnil : Run (Step Call.Legal) a [] a := Run.nil
  have hfirst := run_call hnil (c := .reserve 0 3) ⟨by decide, by decide⟩ 0 rfl
  have hsecond := run_call hfirst (c := .reserve 4 3) ⟨by decide, by decide⟩ 0 rfl
  exact ⟨a, hcreate, (releaseMultiple_eq_releaseEach (by decide : 4 < 2 ^ 32)
    (by decide : 4 * 2 < 2 ^ 31) hcreate hsecond (le_refl 2) hclass hblocks (by decide)
    (by decide)).2.1⟩

/-- Without the alignment the shortcut leaves free space in other chunks: blocks of 3 reserved at 1
    and 5 do not give back the two chunks of 4. -/
theorem releaseMultiple_unaligned :
    ¬ ∀ (size count : ℕ) (a₀ a : Power2Allocator) (es : List (Call × ℤ)) (s n i : ℕ)
      (order : List ℕ), size < 2 ^ 32 → size * count < 2 ^ 31 → create size count = some a₀ →
      Run (Step Call.Legal) a₀ es a → 2 ≤ n → log2Uint32Ceil s = a.noFreeLists - 1 →
      (∀ k < n, a.inuseList.lookup (i + k * 2 ^ log2Uint32Ceil s) = some s) →
      order.Perm ((List.range n).map fun k => i + k * 2 ^ log2Uint32Ceil s) →
      (a.releaseMultiple i n).1 = 0 ∧
        (a.releaseMultiple i n).2.freeLists = (a.releaseEach order).freeLists ∧
        (a.releaseMultiple i n).2.inuseList = (a.releaseEach order).inuseList := by
  intro hclaim
  have hstate : (create 4 2).any (fun a =>
      let b := ((a.reserve 1 3).2.reserve 5 3).2
      decide (log2Uint32Ceil 3 = b.noFreeLists - 1 ∧
        (∀ k < 2, b.inuseList.lookup (1 + k * 2 ^ log2Uint32Ceil 3) = some 3) ∧
        (b.releaseMultiple 1 2).2.freeLists ≠ (b.releaseEach [1, 5]).freeLists)) = true := by
    decide +kernel
  obtain ⟨a, hcreate, hb⟩ := (Option.any_eq_true _ _).1 hstate
  obtain ⟨hclass, hblocks, hne⟩ := of_decide_eq_true hb
  have hnil : Run (Step Call.Legal) a [] a := Run.nil
  have hfirst := run_call hnil (c := .reserve 1 3) ⟨by decide, by decide⟩ 0 rfl
  have hsecond := run_call hfirst (c := .reserve 5 3) ⟨by decide, by decide⟩ 0 rfl
  exact hne (hclaim 4 2 a _ _ 3 2 1 [1, 5] (by decide) (by decide) hcreate hsecond (le_refl 2)
    hclass hblocks (by decide)).2.1

end Power2Allocator
