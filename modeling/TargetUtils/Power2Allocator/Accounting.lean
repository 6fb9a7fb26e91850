import TargetUtils.Library.Intervals
import TargetUtils.Power2Allocator.Runs

set_option autoImplicit false

/-! # Accounting

The counters walk the in-use list. What they return is determined by the multiset of block sizes, and
since the blocks in use and the free chunks together cover every index of the pool once, sizes and
chunk lengths add up to the size of the pool (`Represents.sum_eq_total`). The shortcut of
`alloc_count_by_size` on `max_size` is right as long as no larger block has been reserved. -/

namespace Power2Allocator

variable {a : Power2Allocator} {L : ℕ} {p : Pool}

/-- The sizes of the blocks in use, in the order of their indices. -/
def sizes (a : Power2Allocator) : List ℕ := a.inuseList.entries.map Prod.snd

/-- The lengths of all free chunks together. -/
def freeTotal (a : Power2Allocator) : ℕ :=
  (a.freeLists.map fun m => (m.entries.map Prod.snd).sum).sum

/-! ## Walks -/

theorem foldl_count (size : ℕ) (l : List (ℕ × ℕ)) (n : ℤ) :
    l.foldl (fun count x => if x.2 = size then count + 1 else count) n =
      n + ((l.map Prod.snd).count size : ℕ) := by
  induction l generalizing n with
  | nil => simp
  | cons x rest ih =>
      rw [List.foldl_cons, ih, List.map_cons, List.count_cons]
      by_cases hx : x.2 = size
      · simp [hx]
        ring
      · simp [hx]

theorem foldl_u32Add (l : List (ℕ × ℕ)) (n : ℕ) (h : n + (l.map Prod.snd).sum < 2 ^ 32) :
    l.foldl (fun count x => u32Add count x.2) n = n + (l.map Prod.snd).sum := by
  induction l generalizing n with
  | nil => simp
  | cons x rest ih =>
      rw [List.map_cons, List.sum_cons] at h
      rw [List.foldl_cons, u32Add_of_lt (by omega), ih _ (by omega), List.map_cons, List.sum_cons,
        Nat.add_assoc]

theorem allocCountBySize_of_le {size : ℕ} (h : size ≤ a.maxSize) :
    a.allocCountBySize size = (a.sizes.count size : ℕ) := by
  rw [allocCountBySize, if_neg (by omega), OrderedMap.foldWalk_first _ Nat.zero_le, foldl_count,
    Int.zero_add, sizes]

theorem allocCountBySize_of_lt {size : ℕ} (h : a.maxSize < size) : a.allocCountBySize size = 0 := by
  rw [allocCountBySize, if_pos h]

theorem usage_eq (h : a.sizes.sum < 2 ^ 31) : a.usage = (a.sizes.sum : ℕ) := by
  rw [sizes] at h ⊢
  rw [usage, OrderedMap.foldWalk_first _ Nat.zero_le, foldl_u32Add _ _ (by omega), Nat.zero_add,
    toInt_of_lt h]

/-! ## Conservation -/

theorem Represents.apart_blocks (h : a.Represents L p) : a.inuseList.Apart := by
  intro i s k t hi hk j h1 h2 h3 h4
  rw [h.inuse] at hi hk
  exact Pool.start_unique hi hk ⟨h1, h2⟩ ⟨h3, h4⟩

theorem Represents.chunk_of_lookup (h : a.Represents L p) {c i n : ℕ}
    (hi : (a.freeList c).lookup i = some n) : (⟨c, i, n⟩ : Chunk) ∈ canonicalChunks L p.free :=
  (h.holds.chunks _).1 hi

theorem Represents.apart_chunks (h : a.Represents L p) (c : ℕ) : (a.freeList c).Apart := by
  intro i s k t hi hk j h1 h2 h3 h4
  exact congrArg Chunk.start
    (canonicalChunks_unique (h.chunk_of_lookup hi) (h.chunk_of_lookup hk) ⟨h1, h2⟩ ⟨h3, h4⟩)

/-- The free chunks cover the free indices. -/
theorem Represents.mem_free_iff (h : a.Represents L p) {j : ℕ} :
    j ∈ p.free ↔ ∃ c < L + 1, j ∈ (a.freeList c).cover := by
  rw [mem_iff_exists_chunk (L := L) fun j => Pool.free_lt]
  constructor
  · rintro ⟨x, hx, h1, h2⟩
    have hcls := (canonicalChunks_subset hx).1.cls_le
    exact ⟨x.cls, by omega, OrderedMap.mem_cover.2 ⟨x.start, x.len, (h.holds.chunks x).2 hx, h1, h2⟩⟩
  · rintro ⟨c, -, hj⟩
    obtain ⟨i, n, hi, h1, h2⟩ := OrderedMap.mem_cover.1 hj
    exact ⟨_, h.chunk_of_lookup hi, h1, h2⟩

theorem Represents.freeTotal_eq (h : a.Represents L p) :
    a.freeTotal = ((Finset.range (L + 1)).biUnion fun c => (a.freeList c).cover).card := by
  have hlists : a.freeLists = (List.range (L + 1)).map a.freeList := by
    refine List.ext_getElem (by simp [h.holds.length]) fun c hc _ => ?_
    simp [freeList, List.getD_eq_getElem?_getD, List.getElem?_eq_getElem hc]
  have hdisjoint : ∀ c ∈ Finset.range (L + 1), ∀ d ∈ Finset.range (L + 1), c ≠ d →
      Disjoint (a.freeList c).cover (a.freeList d).cover := by
    intro c _ d _ hne
    rw [Finset.disjoint_left]
    intro j hj hj'
    obtain ⟨i, n, hi, h1, h2⟩ := OrderedMap.mem_cover.1 hj
    obtain ⟨k, m, hk, h3, h4⟩ := OrderedMap.mem_cover.1 hj'
    exact hne (congrArg Chunk.cls
      (canonicalChunks_unique (h.chunk_of_lookup hi) (h.chunk_of_lookup hk) ⟨h1, h2⟩ ⟨h3, h4⟩))
  rw [freeTotal, hlists, List.map_map, Finset.card_biUnion hdisjoint,
    ← List.sum_toFinset _ (List.nodup_range), List.toFinset_range]
  exact Finset.sum_congr rfl fun c _ => OrderedMap.sum_eq_card_cover (h.apart_chunks c)

/-- Block sizes and chunk lengths add up to the size of the pool. -/
theorem Represents.sum_eq_total (h : a.Represents L p) : a.sizes.sum + a.freeTotal = p.total := by
  have hdisjoint : Disjoint a.inuseList.cover
      ((Finset.range (L + 1)).biUnion fun c => (a.freeList c).cover) := by
    rw [Finset.disjoint_left]
    intro j hj hj'
    simp only [Finset.mem_biUnion, Finset.mem_range] at hj'
    obtain ⟨i, s, hi, h1, h2⟩ := OrderedMap.mem_cover.1 hj
    rw [h.inuse] at hi
    exact Pool.not_free_of_block hi h1 h2 (h.mem_free_iff.2 hj')
  have hunion : a.inuseList.cover ∪
      ((Finset.range (L + 1)).biUnion fun c => (a.freeList c).cover) = Finset.range p.total := by
    ext j
    have hfree : (∃ c < L + 1, j ∈ (a.freeList c).cover) ↔ j ∈ p.free := h.mem_free_iff.symm
    simp only [Finset.mem_union, Finset.mem_biUnion, Finset.mem_range, hfree]
    rw [OrderedMap.mem_cover, h.inuse]
    constructor
    · rintro (⟨i, s, hi, h1, h2⟩ | hj)
      · have := p.inside i s hi
        omega
      · exact Pool.free_lt hj
    · intro hj
      by_contra hcon
      obtain ⟨hblock, hfree⟩ := not_or.1 hcon
      exact hfree ⟨hj, fun i s hi hij => hblock ⟨i, s, hi, hij⟩⟩
  rw [sizes, OrderedMap.sum_eq_card_cover h.apart_blocks, h.freeTotal_eq,
    ← Finset.card_union_of_disjoint hdisjoint, hunion, Finset.card_range]

/-! ## The counters agree -/

theorem sum_count {l : List ℕ} {N : ℕ} (h : ∀ x ∈ l, x < N) :
    ∑ s ∈ Finset.range N, ((l.count s : ℕ) : ℤ) = l.length := by
  have hcard := Multiset.sum_count_eq_card (s := Finset.range N) (m := (l : Multiset ℕ))
    fun x hx => Finset.mem_range.2 (h x hx)
  simp only [Multiset.coe_count, Multiset.coe_card] at hcard
  exact_mod_cast hcard

theorem sum_mul_count {l : List ℕ} {N : ℕ} (h : ∀ x ∈ l, x < N) :
    ∑ s ∈ Finset.range N, (s : ℤ) * ((l.count s : ℕ) : ℤ) = (l.sum : ℕ) := by
  have hsum := Finset.sum_list_count_of_subset l (Finset.range N) fun x hx =>
    Finset.mem_range.2 (h x (List.mem_toFinset.1 hx))
  rw [hsum, Nat.cast_sum]
  exact Finset.sum_congr rfl fun s _ => by rw [smul_eq_mul, Nat.cast_mul, mul_comm]

/-- The counters agree with the blocks in use, with each other and with the free chunks. -/
structure Accounted (a : Power2Allocator) : Prop where
  bySize : ∀ s < 2 ^ 32, a.allocCountBySize s = (a.sizes.count s : ℕ)
  count : ∑ s ∈ Finset.range (2 ^ 32), a.allocCountBySize s = a.allocCount
  usage : ∑ s ∈ Finset.range (2 ^ 32), s * a.allocCountBySize s = a.usage
  total : a.usage + a.freeTotal = a.totalSize

theorem Represents.size_bounds (h : a.Represents L p) {s : ℕ} (hs : s ∈ a.sizes) :
    0 < s ∧ s ≤ p.total := by
  rw [sizes, List.mem_map] at hs
  obtain ⟨⟨i, s⟩, hi, rfl⟩ := hs
  rw [OrderedMap.mem_entries, h.inuse] at hi
  have hpos := p.pos i s hi
  have hin := p.inside i s hi
  exact ⟨hpos, by simp only; omega⟩

/-- The counters are right exactly as long as no block in use is larger than `max_size`. -/
theorem Represents.accounted_iff (h : a.Represents L p) :
    a.Accounted ↔ ∀ s ∈ a.sizes, s ≤ a.maxSize := by
  have hsmall := h.small
  have hsum := h.sum_eq_total
  constructor
  · intro hacc s hs
    by_contra hlt
    have hle := (h.size_bounds hs).2
    have hcount := hacc.bySize s (by omega)
    rw [allocCountBySize_of_lt (by omega)] at hcount
    have := List.count_pos_iff.2 hs
    omega
  · intro hall
    have hbySize : ∀ s, a.allocCountBySize s = (a.sizes.count s : ℕ) := by
      intro s
      rcases le_or_gt s a.maxSize with hle | hlt
      · exact allocCountBySize_of_le hle
      · have hnot : s ∉ a.sizes := fun hs => absurd (hall s hs) (by omega)
        rw [allocCountBySize_of_lt hlt, List.count_eq_zero_of_not_mem hnot, Nat.cast_zero]
    have hword : ∀ s ∈ a.sizes, s < 2 ^ 32 := fun s hs => by
      have := (h.size_bounds hs).2
      omega
    have hlength : a.sizes.length ≤ a.sizes.sum :=
      List.length_le_sum_of_one_le _ fun s hs => (h.size_bounds hs).1
    have husage : a.usage = (a.sizes.sum : ℕ) := usage_eq (by omega)
    have hcount : a.allocCount = a.sizes.length := by
      have hcard : a.inuseList.card = a.sizes.length := (List.length_map _).symm
      rw [allocCount, hcard, u32_of_lt (by omega)]
    refine ⟨fun s _ => hbySize s, ?_, ?_, ?_⟩
    · simp only [hbySize]
      rw [sum_count hword, hcount]
    · simp only [hbySize]
      rw [sum_mul_count hword, husage]
    · rw [husage, h.totalSize, ← hsum]
      exact (Nat.cast_add _ _).symm

/-! ## After every run -/

theorem accounted_of_run_iff {size count : ℕ} {a₀ : Power2Allocator} {es : List (Call × ℤ)}
    (hsize : size < 2 ^ 32) (hsmall : size * count < 2 ^ 31) (hcreate : create size count = some a₀)
    (hrun : Run (Step Call.Legal) a₀ es a) :
    a.Accounted ↔ ∀ i s, a.inuseList.lookup i = some s → s ≤ a.maxSize := by
  obtain ⟨L, p, -, -, hp⟩ := exists_pool_of_run hsize hsmall hcreate (run_harmless hrun)
  rw [hp.accounted_iff]
  constructor
  · intro hall i s hi
    exact hall s (List.mem_map.2 ⟨(i, s), OrderedMap.mem_entries.2 hi, rfl⟩)
  · intro hall s hs
    obtain ⟨⟨i, s⟩, hi, rfl⟩ := List.mem_map.1 hs
    exact hall i s (OrderedMap.mem_entries.1 hi)

theorem accounted_of_run_iff_three : ∃ a, create 4 2 = some a ∧
    ((a.alloc 3).2.Accounted ↔
      ∀ i s, (a.alloc 3).2.inuseList.lookup i = some s → s ≤ (a.alloc 3).2.maxSize) := by
  obtain ⟨a, hcreate, -⟩ := create_represents (by decide : 2 < 32) (by decide : 4 = 2 ^ 2)
    (by decide : 4 * 2 < 2 ^ 31)
  have halloc := run_call (Run.nil : Run (Step Call.Legal) a [] a) (c := .alloc 3)
    ⟨by decide, by decide⟩ 0 rfl
  exact ⟨a, hcreate, accounted_of_run_iff (by decide) (by decide : 4 * 2 < 2 ^ 31) hcreate halloc⟩

/-- A block of 8 reserved in a pool with `max_size` 4 is in use, but not counted. -/
theorem accounted_false : ∃ a₀ a es, create 4 2 = some a₀ ∧ Run (Step Call.Legal) a₀ es a ∧
    a.allocCount = 1 ∧ a.usage = 8 ∧ a.inuseList.lookup 0 = some 8 ∧ a.allocCountBySize 8 = 0 ∧
      ¬ a.Accounted := by
  have hfacts : (create 4 2).map (fun a => ((a.reserve 0 8).2.allocCount, (a.reserve 0 8).2.usage,
      (a.reserve 0 8).2.inuseList.lookup 0, (a.reserve 0 8).2.allocCountBySize 8,
      (a.reserve 0 8).2.sizes)) = some (1, 8, some 8, 0, [8]) := by decide +kernel
  obtain ⟨a₀, hcreate, ha⟩ := Option.map_eq_some_iff.1 hfacts
  simp only [Prod.mk.injEq] at ha
  obtain ⟨hcount, husage, hlook, hbySize, hsizes⟩ := ha
  have hrun := run_call (Run.nil : Run (Step Call.Legal) a₀ [] a₀) (c := .reserve 0 8)
    ⟨by decide, by decide⟩ 0 rfl
  refine ⟨a₀, _, _, hcreate, hrun, hcount, husage, hlook, hbySize, fun hacc => ?_⟩
  have hright := hacc.bySize 8 (by omega)
  rw [hsizes] at hright
  exact absurd (hbySize.symm.trans hright) (by decide)

end Power2Allocator
