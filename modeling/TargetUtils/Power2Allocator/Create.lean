import TargetUtils.Power2Allocator.Alloc

set_option autoImplicit false

/-! # What create returns

`power2_allocator_create` only tests that the block size is a power of two. The product it stores as
`total_size` and the index of the next block are `uint32_t`; when the product does not fit, the pool
that comes back is smaller than its free lists. Below that bound create is exact for every size and
count, also where indices are negative as `int`. -/

namespace Power2Allocator

variable {a : Power2Allocator} {L : ℕ} {p : Pool} {size count : ℕ}

/-- `count` free chunks of `size` indices that tile `[0, size * count)`, and nothing in use. -/
structure Fresh (a : Power2Allocator) (size count : ℕ) : Prop where
  totalSize : a.totalSize = size * count
  free : ∀ x, a.IsFree x ↔ ∃ i < count, x = ⟨log2Uint32Ceil size, size * i, size⟩
  inuse : a.inuseList = OrderedMap.empty

/-- Allocating a block of any admissible size succeeds, and releasing it leads back to `a`. -/
def Restores (a : Power2Allocator) (size count : ℕ) : Prop :=
  ∀ s, 0 < s →
    if s ≤ size ∧ 0 < count then
      ∃ i, i + s ≤ size * count ∧ (a.alloc s).1 = toInt i ∧ (a.alloc s).2.release i = (0, a)
    else a.alloc s = (-1, a)

theorem Tracks.alloc_release (h : a.Tracks L p) {s : ℕ} (hs : 0 < s) (hsL : s ≤ 2 ^ L) :
    (a.alloc s = (-1, a) ∧ ∀ i, 2 ^ Nat.clog 2 s ∣ i → ¬ p.Fits i s) ∨
      ∃ i, p.Fits i s ∧ (a.alloc s).1 = toInt i ∧ (a.alloc s).2.release i = (0, a) := by
  rcases h.alloc hs hsL with hnone | ⟨i, hfit, -, hrc, ht⟩
  · exact Or.inl hnone
  · have hne : s ≠ u32Max := by
      have hin := hfit.inside hs
      have hroom := h.room
      rw [u32Max]
      omega
    have hlook : (p.take i s hs hfit).blocks.lookup i = some s := by
      rw [Pool.take, OrderedMap.lookup_insert, if_pos rfl]
    obtain ⟨hzero, hback⟩ := ht.release hlook hne
    rw [Pool.give_take] at hback
    exact Or.inr ⟨i, hfit, hrc, Prod.ext hzero (hback.unique h)⟩

theorem Tracks.fresh (h : a.Tracks L (Pool.empty (2 ^ L * count))) :
    a.Fresh (2 ^ L) count := by
  refine ⟨h.totalSize, fun x => ?_, h.inuse⟩
  rw [h.holds.chunks, canonicalChunks_empty, log2Uint32Ceil_pow h.holds.cap, greedyChunks_mul]
  simp only [Set.mem_ofPred_eq, List.mem_map, List.mem_range]
  exact exists_congr fun i => and_congr_right fun _ => eq_comm

theorem Tracks.restores (h : a.Tracks L (Pool.empty (2 ^ L * count))) :
    a.Restores (2 ^ L) count := by
  intro s hs
  split_ifs with hok
  · rcases h.alloc_release hs hok.1 with ⟨-, hnone⟩ | ⟨i, hfit, hrc, hback⟩
    · -- the first block of the pool has room for the request
      refine absurd (fun j _ hj => ⟨?_, ?_⟩) (hnone 0 (dvd_zero _))
      · have hle : 2 ^ L ≤ 2 ^ L * count := Nat.le_mul_of_pos_right _ hok.2
        show j < 2 ^ L * count
        omega
      · simp [Pool.empty]
    · exact ⟨i, hfit.inside hs, hrc, hback⟩
  · by_cases hsL : s ≤ 2 ^ L
    · rcases h.alloc_release hs hsL with ⟨hr, -⟩ | ⟨i, hfit, -⟩
      · exact hr
      · obtain rfl : count = 0 := by omega
        have hin : i + s ≤ 2 ^ L * 0 := hfit.inside hs
        omega
    · exact h.alloc_too_large (by omega)

theorem create_totalSize (hcreate : create size count = some a) :
    a.totalSize = u32 (size * count) := by
  rw [create] at hcreate
  split_ifs at hcreate
  obtain rfl := Option.some.inj hcreate
  exact (createLoop_sameUsage ..).2.1

/-- A size that is no power of two is refused; for the others the pool is as described exactly when
    the number of indices is a `uint32_t`. -/
theorem create_consistent_iff (hsize : size < 2 ^ 32) :
    (create size count = none ∨
      ∃ a, create size count = some a ∧ a.Fresh size count ∧ a.Restores size count) ↔
      (isUint32Power2 size = true → size * count < 2 ^ 32) := by
  constructor
  · rintro (hnone | ⟨a, hcreate, hfresh, -⟩) hpow
    · rw [create, if_pos hpow] at hnone
      cases hnone
    · rw [← hfresh.totalSize, create_totalSize hcreate]
      exact Nat.mod_lt _ (by omega)
  · intro hfits
    by_cases hpow : isUint32Power2 size = true
    · obtain ⟨L, rfl⟩ := (isUint32Power2_iff size).1 hpow
      have hL : L < 32 := (Nat.pow_lt_pow_iff_right (by omega : 1 < 2)).1 hsize
      obtain ⟨a, hcreate, h⟩ := create_tracks hL rfl (hfits hpow)
      exact Or.inr ⟨a, hcreate, h.fresh, h.restores⟩
    · rw [create, if_neg hpow]
      exact Or.inl rfl

/-- Two blocks of the largest size: `total_size` is 0. -/
theorem create_inconsistent : ¬ (create (2 ^ 31) 2 = none ∨
    ∃ a, create (2 ^ 31) 2 = some a ∧ a.Fresh (2 ^ 31) 2 ∧ a.Restores (2 ^ 31) 2) := by
  have hpow : isUint32Power2 (2 ^ 31) = true := (isUint32Power2_iff _).2 ⟨31, rfl⟩
  rintro (hnone | ⟨a, hcreate, hfresh, -⟩)
  · rw [create, if_pos hpow] at hnone
    cases hnone
  · have htotal := hfresh.totalSize
    rw [create_totalSize hcreate] at htotal
    exact absurd htotal (by decide)

/-- A pool of three blocks of 4. -/
theorem create_consistent_iff_four : create 4 3 = none ∨
    ∃ a, create 4 3 = some a ∧ a.Fresh 4 3 ∧ a.Restores 4 3 :=
  (create_consistent_iff (by decide)).2 fun _ => by decide

end Power2Allocator
