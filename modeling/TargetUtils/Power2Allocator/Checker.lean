import TargetUtils.Library.Marking
import TargetUtils.Power2Allocator.Runs

set_option autoImplicit false

/-! # The consistency checker

`power2_allocator_assert` combines four partial tests: the size class of every free chunk, a bit for
every index of a chunk or block, the presence of the greedy chunks of every gap, and nothing behind
`total_size`. None of them looks for a chunk too many or in the wrong list, but such a chunk would
mark an index that the chunk required there has marked: the check is exact for every state, reachable
or not. -/

namespace Power2Allocator

variable {a : Power2Allocator} {L : ℕ} {p : Pool}

/-- The states the checker is made for: as many free lists as `no_free_lists` says, blocks that are
    not empty, and ends that do not wrap. -/
structure Checkable (a : Power2Allocator) : Prop where
  lists_pos : 1 ≤ a.noFreeLists
  lists_le : a.noFreeLists ≤ 32
  length : a.freeLists.length = a.noFreeLists
  total_lt : a.totalSize < 2 ^ 32
  inuse_pos : ∀ i s, a.inuseList.lookup i = some s → 0 < s
  inuse_lt : ∀ i s, a.inuseList.lookup i = some s → i + s < 2 ^ 32
  free_lt : ∀ x, a.IsFree x → x.stop < 2 ^ 32

theorem Checkable.exists_cap (h : a.Checkable) : ∃ L, L < 32 ∧ a.noFreeLists = L + 1 := by
  have hpos := h.lists_pos
  have hle := h.lists_le
  exact ⟨a.noFreeLists - 1, by omega, by omega⟩

theorem Represents.checkable (h : a.Represents L p) : a.Checkable := by
  have hcap := h.holds.cap
  have hlists := h.holds.noFreeLists
  have hsmall := h.small
  refine ⟨by omega, by omega, h.holds.length.trans hlists.symm, ?_, fun i s hi => ?_,
    fun i s hi => ?_, fun x hx => ?_⟩
  · rw [h.totalSize]
    omega
  · rw [h.inuse] at hi
    exact p.pos i s hi
  · rw [h.inuse] at hi
    have := p.inside i s hi
    omega
  · have := (Pool.chunk_bounds ((h.holds.chunks x).1 hx)).2
    omega

/-! ## Marking -/

/-- The indices set in an array. -/
def marked (m : Judy1) : Set ℕ := {j | j ∈ m}

@[simp] theorem mem_marked {m : Judy1} {j : ℕ} : j ∈ marked m ↔ j ∈ m := Iff.rfl

@[simp] theorem marked_empty : marked OrderedMap.empty = ∅ := by
  ext j
  simp [← Judy1.lookup_eq_none]

theorem markLoop_spec {n : ℕ} (m : Judy1) {i e : ℕ} (hn : e = i + n) (he : e < 2 ^ 32) :
    ((markLoop e (n + 1) m i).isSome ↔ ∀ j, i ≤ j → j < e → j ∉ m) ∧
      ∀ m', markLoop e (n + 1) m i = some m' → ∀ j, j ∈ m' ↔ j ∈ m ∨ (i ≤ j ∧ j < e) := by
  induction n generalizing m i with
  | zero =>
      rw [markLoop, if_neg (by omega)]
      refine ⟨iff_of_true rfl fun j h1 h2 => by omega, fun m' hm' j => ?_⟩
      obtain rfl := Option.some.inj hm'
      exact ⟨Or.inl, fun h => h.resolve_right (by omega)⟩
  | succ n ih =>
      obtain ⟨hsome, hmem⟩ := ih (m.set i) (i := i + 1) (by omega)
      rw [markLoop, if_pos (by omega), u32Add_of_lt (by omega)]
      by_cases hi : i ∈ m
      · refine ⟨iff_of_false (by simp [hi]) fun h => h i le_rfl (by omega) hi, fun m' hm' => ?_⟩
        simp [hi] at hm'
      · simp only [hi, not_false_eq_true, guard_true, Option.pure_def, Option.bind_eq_bind,
          Option.bind_some]
        constructor
        · rw [hsome]
          constructor
          · intro h j h1 h2 hj
            rcases Nat.eq_or_lt_of_le h1 with rfl | hlt
            · exact hi hj
            · exact h j hlt h2 (Judy1.mem_set.2 (Or.inr hj))
          · intro h j h1 h2 hj
            rcases Judy1.mem_set.1 hj with rfl | hj
            · omega
            · exact h j (by omega) h2 hj
        · intro m' hm' j
          rw [hmem m' hm' j, Judy1.mem_set]
          by_cases hji : j = i
          · subst hji
            exact iff_of_true (Or.inl (Or.inl rfl)) (Or.inr ⟨le_rfl, by omega⟩)
          · have hle : i + 1 ≤ j ↔ i ≤ j := by omega
            rw [hle]
            simp [hji]

/-- An entry is marked unless one of its indices is. -/
theorem marks_markEntry {x : ℕ × ℕ} (hx : x.1 + x.2 < 2 ^ 32) :
    Marks marked (fun x => Set.Ico x.1 (x.1 + x.2)) (fun _ => True) markEntry x := by
  have hspec := fun m : Judy1 => markLoop_spec m (rfl : x.1 + x.2 = x.1 + x.2) hx
  constructor
  · intro m
    rw [markEntry, (hspec m).1, true_and, Set.disjoint_right]
    simp only [Set.mem_Ico, mem_marked, and_imp]
  · intro m m' hm'
    ext j
    rw [mem_marked, (hspec m).2 m' hm' j]
    rfl

/-- The length of a chunk fits its class. -/
def Sized (x : Chunk) : Prop := x.len ≤ 2 ^ x.cls ∧ 2 ^ x.cls < 2 * x.len

theorem marks_markFreeEntry {x : Chunk} (hx : x.stop < 2 ^ 32) (hcls : x.cls < 32) :
    Marks marked (fun x : Chunk => Set.Ico x.start x.stop) Sized
      (fun m x => markFreeEntry x.cls m (x.start, x.len)) x := by
  have hentry := marks_markEntry (x := (x.start, x.len)) hx
  have hsized : Sized x ↔ x.len ≤ shl1 x.cls ∧ x.len > shl1 x.cls / 2 := by
    rw [Sized, shl1_of_lt hcls]
    omega
  constructor
  · intro m
    have hiff := hentry.isSome_iff m
    rw [true_and] at hiff
    rw [hsized, markFreeEntry]
    by_cases h1 : x.len ≤ shl1 x.cls
    · by_cases h2 : x.len > shl1 x.cls / 2
      · simpa [h1, h2, Chunk.stop] using hiff
      · simp [h2]
    · simp [h1]
  · intro m m' hm'
    simp only [markFreeEntry, Option.bind_eq_bind, Option.bind_eq_some_iff] at hm'
    obtain ⟨-, -, -, -, hm'⟩ := hm'
    exact hentry.marked_eq m m' hm'

/-! ## The two arrays -/

/-- The entries of all free lists. -/
def freeChunks (a : Power2Allocator) : List Chunk :=
  (List.range a.noFreeLists).flatMap fun c => (a.freeList c).entries.map fun x => ⟨c, x.1, x.2⟩

theorem Checkable.mem_freeChunks (h : a.Checkable) {x : Chunk} :
    x ∈ a.freeChunks ↔ a.IsFree x := by
  simp only [freeChunks, List.mem_flatMap, List.mem_range, List.mem_map]
  constructor
  · rintro ⟨c, -, y, hy, rfl⟩
    exact OrderedMap.mem_entries.1 hy
  · intro hx
    refine ⟨x.cls, ?_, (x.start, x.len), OrderedMap.mem_entries.2 hx, rfl⟩
    by_contra hge
    rw [IsFree, freeList, List.getD_eq_getElem?_getD,
      List.getElem?_eq_none (by rw [h.length]; omega)] at hx
    cases hx

theorem Checkable.cls_lt (h : a.Checkable) {x : Chunk} (hx : a.IsFree x) : x.cls < 32 := by
  have hmem := h.mem_freeChunks.2 hx
  simp only [freeChunks, List.mem_flatMap, List.mem_range, List.mem_map] at hmem
  obtain ⟨c, hc, y, -, rfl⟩ := hmem
  exact lt_of_lt_of_le hc h.lists_le

theorem nodup_freeChunks (a : Power2Allocator) : a.freeChunks.Nodup := by
  refine List.nodup_flatMap.2 ⟨fun c _ => (a.freeList c).nodup_entries.map fun x y hxy => ?_, ?_⟩
  · simp only [Chunk.mk.injEq, true_and] at hxy
    exact Prod.ext hxy.1 hxy.2
  · refine List.pairwise_lt_range.imp fun {c d} hlt x hx hy => ?_
    obtain ⟨y, -, rfl⟩ := List.mem_map.1 hx
    obtain ⟨z, -, hz⟩ := List.mem_map.1 hy
    exact hlt.ne (congrArg Chunk.cls hz).symm

theorem Checkable.marks_freeChunks (h : a.Checkable) : ∀ x ∈ a.freeChunks,
    Marks marked (fun x : Chunk => Set.Ico x.start x.stop) Sized
      (fun m x => markFreeEntry x.cls m (x.start, x.len)) x := fun x hx =>
  have hfree := h.mem_freeChunks.1 hx
  marks_markFreeEntry (h.free_lt x hfree) (h.cls_lt hfree)

theorem Checkable.marks_inuse (h : a.Checkable) : ∀ x ∈ a.inuseList.entries,
    Marks marked (fun x => Set.Ico x.1 (x.1 + x.2)) (fun _ => True) markEntry x := fun x hx =>
  marks_markEntry (h.inuse_lt x.1 x.2 (OrderedMap.mem_entries.1 hx))

theorem freeArray_eq (a : Power2Allocator) :
    a.freeArray = a.freeChunks.foldl
      (fun r x => r.bind fun m => markFreeEntry x.cls m (x.start, x.len)) (some OrderedMap.empty) := by
  simp only [freeArray, freeChunks, List.foldl_flatMap, List.foldl_map,
    OrderedMap.foldWalk_first _ Nat.zero_le]

theorem inuseArray_eq (a : Power2Allocator) :
    a.inuseArray = a.inuseList.entries.foldl (fun r x => r.bind (markEntry · x))
      (some OrderedMap.empty) := by
  rw [inuseArray, OrderedMap.foldWalk_first _ Nat.zero_le]

/-- The free lists can be marked when every chunk has its size and no two chunks meet. -/
theorem Checkable.isSome_freeArray (h : a.Checkable) :
    a.freeArray.isSome ↔ (∀ x, a.IsFree x → Sized x) ∧ ∀ x y, a.IsFree x → a.IsFree y → x ≠ y →
      Disjoint (Set.Ico x.start x.stop) (Set.Ico y.start y.stop) := by
  rw [freeArray_eq, Marks.isSome_foldl_iff_of_nodup a.nodup_freeChunks h.marks_freeChunks,
    marked_empty]
  simp only [Set.empty_disjoint, and_true, h.mem_freeChunks]
  exact and_congr_right fun _ => ⟨fun hall x y hx hy => hall x hx y hy,
    fun hall x hx y hy => hall x y hx hy⟩

theorem Checkable.mem_freeArray (h : a.Checkable) {m : Judy1} (hm : a.freeArray = some m) (j : ℕ) :
    j ∈ m ↔ ∃ x, a.IsFree x ∧ x.start ≤ j ∧ j < x.stop := by
  rw [freeArray_eq] at hm
  rw [← mem_marked, Marks.marked_foldl h.marks_freeChunks hm, marked_empty]
  simp [h.mem_freeChunks]

/-- The in-use list can be marked when no two blocks meet. -/
theorem Checkable.isSome_inuseArray (h : a.Checkable) :
    a.inuseArray.isSome ↔ ∀ i s j t, a.inuseList.lookup i = some s → a.inuseList.lookup j = some t →
      i ≠ j → Disjoint (Set.Ico i (i + s)) (Set.Ico j (j + t)) := by
  rw [inuseArray_eq, Marks.isSome_foldl_iff_of_nodup a.inuseList.nodup_entries h.marks_inuse,
    marked_empty]
  simp only [Set.empty_disjoint, and_true, implies_true, true_and, Prod.forall,
    OrderedMap.mem_entries]
  constructor
  · intro hall i s j t hi hj hne
    exact hall i s hi j t hj fun he => hne (congrArg Prod.fst he)
  · intro hall i s hi j t hj hne
    refine hall i s j t hi hj fun hij => hne ?_
    subst hij
    rw [hi, Option.some.injEq] at hj
    rw [hj]

theorem Checkable.mem_inuseArray (h : a.Checkable) {m : Judy1} (hm : a.inuseArray = some m)
    (j : ℕ) : j ∈ m ↔ ∃ i s, a.inuseList.lookup i = some s ∧ i ≤ j ∧ j < i + s := by
  rw [inuseArray_eq] at hm
  rw [← mem_marked, Marks.marked_foldl h.marks_inuse hm, marked_empty]
  simp [OrderedMap.mem_entries]

/-! ## Gaps -/

/-- The free space `[i, i + n)` passes when its greedy chunks are in the free lists. -/
theorem freeListAssert_eq_some (hcap : L < 32) (hlists : a.noFreeLists = L + 1) {i n : ℕ}
    (hin : i + n < 2 ^ 32) :
    a.freeListAssert i n = some () ↔ ∀ x ∈ greedyChunks L i n, a.IsFree x := by
  have hloop : ∀ fuel i r, r ≤ fuel → i + r < 2 ^ 32 →
      (a.freeListAssertLoop fuel i r = some () ↔ ∀ x ∈ greedyChunks L i r, a.IsFree x) := by
    intro fuel
    induction fuel with
    | zero =>
        intro i r hr _
        obtain rfl : r = 0 := by omega
        simp [freeListAssertLoop]
    | succ fuel ih =>
        intro i r hr hir
        rw [freeListAssertLoop]
        by_cases h0 : r = 0
        · subst h0
          simp
        obtain ⟨c, hc⟩ : ∃ c, c = greedyClass L i r := ⟨_, rfl⟩
        have hcL : c ≤ L := hc ▸ greedyClass_le_cap ..
        have hpos : 0 < 2 ^ c := Nat.pow_pos (by omega)
        have hdvd : 2 ^ c ∣ i := hc ▸ pow_greedyClass_dvd ..
        have hc32 : c < 32 := by omega
        obtain ⟨hmod, hctz⟩ := aligned_of_dvd hc32 (by omega) hdvd
        rw [if_neg h0, greedyChunks_of_pos (by omega : 0 < r), List.forall_mem_cons, ← hc,
          freeLog2_eq hcap hlists (by omega : i < 2 ^ 32) (by omega : r < 2 ^ 32), ← hc]
        simp only [hc32, hmod, hctz, guard_true, Option.pure_def, Option.bind_eq_bind,
          Option.bind_some, IsFree]
        cases hlook : (a.freeList c).lookup i with
        | none => simp
        | some v =>
            rw [shl1_of_lt hc32, Option.bind_some, Option.some.injEq]
            split_ifs with hshort
            · rw [min_eq_left hshort.le, Nat.sub_self, greedyChunks_zero, Option.guard_eq_some']
              simp
            · have hstep := ih (i + 2 ^ c) (r - 2 ^ c) (by omega) (by omega)
              rw [min_eq_right (by omega), u32Add_of_lt (by omega), u32Sub_of_le (by omega) (by omega)]
              simp only [Option.bind_eq_some_iff, Option.guard_eq_some', exists_const, hstep, IsFree]
  exact hloop n i n le_rfl hin

/-- One step of the walk over the blocks. -/
theorem gapAssert_eq_some (hcap : L < 32) (hlists : a.noFreeLists = L + 1) (hlt : p.total < 2 ^ 32)
    {i s f : ℕ} (hi : p.blocks.lookup i = some s) :
    a.gapAssert (p.prevEnd i) (i, s) = some f ↔
      (∀ x ∈ greedyChunks L (p.prevEnd i) (i - p.prevEnd i), a.IsFree x) ∧ i + s = f := by
  have hpos := p.pos i s hi
  have hin := p.inside i s hi
  obtain ⟨hle, -⟩ := Pool.between_of_block hi
  rw [← freeListAssert_eq_some hcap hlists (by omega), gapAssert, u32_of_lt (by omega : i < 2 ^ 32),
    u32Sub_of_le hle (by omega), u32_of_lt (by omega)]
  cases a.freeListAssert (p.prevEnd i) (i - p.prevEnd i) <;> simp

/-- The walk passes when the chunks of the free space before every block are there, and it ends
    behind the last block. -/
theorem gapsAssert_eq_some (hcap : L < 32) (hlists : a.noFreeLists = L + 1)
    (hlt : p.total < 2 ^ 32) (hinuse : a.inuseList = p.blocks) {f : ℕ} :
    a.gapsAssert = some f ↔
      (∀ i, p.blocks.lookup i ≠ none →
        ∀ x ∈ greedyChunks L (p.prevEnd i) (i - p.prevEnd i), a.IsFree x) ∧
      p.prevEnd p.total = f := by
  have hloop : ∀ pre suf : List (ℕ × ℕ), p.blocks.entries = pre ++ suf →
      (suf.foldl (fun r x => r.bind (a.gapAssert · x))
          (some ((pre.getLast?.map fun x => x.1 + x.2).getD 0)) = some f ↔
        (∀ y ∈ suf, ∀ x ∈ greedyChunks L (p.prevEnd y.1) (y.1 - p.prevEnd y.1), a.IsFree x) ∧
          p.prevEnd p.total = f) := by
    intro pre suf
    induction suf generalizing pre with
    | nil =>
        intro happend
        -- every block starts before the end of the pool
        have hprev : p.blocks.prev p.total = pre.getLast? :=
          OrderedMap.prev_of_append happend (fun x hx => by
            have hmem : x ∈ p.blocks.entries := by rwa [happend, List.append_nil]
            have hpos := p.pos x.1 x.2 (OrderedMap.mem_entries.1 hmem)
            have hin := p.inside x.1 x.2 (OrderedMap.mem_entries.1 hmem)
            omega) (by simp)
        rw [Pool.prevEnd, hprev]
        simp
    | cons y rest ih =>
        intro happend
        obtain ⟨i, s⟩ := y
        have hsorted := p.blocks.sorted
        rw [happend, List.pairwise_append, List.pairwise_cons] at hsorted
        obtain ⟨-, ⟨hrest, -⟩, hpre⟩ := hsorted
        have hi : p.blocks.lookup i = some s := OrderedMap.mem_entries.1 (by simp [happend])
        have hprev : p.blocks.prev i = pre.getLast? :=
          OrderedMap.prev_of_append happend (fun x hx => hpre x hx (i, s) (List.mem_cons_self ..))
            (fun x hx => by
              rcases List.mem_cons.1 hx with rfl | hx
              · exact lt_irrefl _
              · exact (hrest x hx).asymm)
        have hend := ih (pre ++ [(i, s)]) (by simpa using happend)
        rw [List.getLast?_append, List.getLast?_singleton, Option.some_or, Option.map_some,
          Option.getD_some] at hend
        rw [List.foldl_cons, Option.bind_some, ← hprev, ← Pool.prevEnd, List.forall_mem_cons]
        have hstep := fun g => gapAssert_eq_some (a := a) (f := g) hcap hlists hlt hi
        cases hg : a.gapAssert (p.prevEnd i) (i, s) with
        | none =>
            rw [foldl_bind_none]
            refine iff_of_false (by simp) fun h => ?_
            rw [(hstep (i + s)).2 ⟨h.1.1, rfl⟩] at hg
            cases hg
        | some g =>
            obtain ⟨hfree, rfl⟩ := (hstep g).1 hg
            rw [hend, and_iff_right hfree]
  have hwalk := hloop [] p.blocks.entries rfl
  rw [gapsAssert, hinuse, OrderedMap.foldWalk_first _ Nat.zero_le]
  refine hwalk.trans (and_congr_left fun _ => ⟨fun h i hi => ?_, fun h y hy => ?_⟩)
  · obtain ⟨s, hs⟩ := Option.ne_none_iff_exists'.1 hi
    exact h (i, s) (OrderedMap.mem_entries.2 hs)
  · have hlook := OrderedMap.mem_entries.1 (show (y.1, y.2) ∈ p.blocks.entries from hy)
    exact h y.1 (by simp [hlook])

/-- The gap checks pass when every canonical chunk is in the free lists. -/
theorem gaps_checked_iff (hcap : L < 32) (hlists : a.noFreeLists = L + 1) (hlt : p.total < 2 ^ 32)
    (htotal : a.totalSize = p.total) (hinuse : a.inuseList = p.blocks) :
    (∃ f, a.gapsAssert = some f ∧ (if f ≠ a.totalSize then
        a.freeListAssert f (u32Sub a.totalSize f) else some ()) = some ()) ↔
      ∀ x ∈ canonicalChunks L p.free, a.IsFree x := by
  have hle := p.prevEnd_le_total p.total
  have hlast : (if p.prevEnd p.total ≠ p.total then
      a.freeListAssert (p.prevEnd p.total) (u32Sub p.total (p.prevEnd p.total)) else some ()) =
        some () ↔ ∀ x ∈ greedyChunks L (p.prevEnd p.total) (p.total - p.prevEnd p.total),
          a.IsFree x := by
    split_ifs with hne
    · rw [u32Sub_of_le hle hlt, freeListAssert_eq_some hcap hlists (by omega)]
    · rw [not_not.1 hne, Nat.sub_self, greedyChunks_zero]
      simp
  simp only [gapsAssert_eq_some hcap hlists hlt hinuse, Pool.mem_canonicalChunks_iff, htotal]
  constructor
  · rintro ⟨f, ⟨hblocks, rfl⟩, hend⟩ x ⟨i, rfl | hi, hx⟩
    · exact hlast.1 hend x hx
    · exact hblocks i hi x hx
  · intro h
    exact ⟨_, ⟨fun i hi x hx => h x ⟨i, Or.inr hi, hx⟩, rfl⟩,
      hlast.2 fun x hx => h x ⟨_, Or.inl rfl, hx⟩⟩

/-! ## Exactness -/

/-- The check, test by test. -/
theorem assert_eq_some_iff : a.assert = some () ↔ ∃ free inuse,
    a.freeArray = some free ∧ a.inuseArray = some inuse ∧
      (∀ i < a.totalSize, if i ∈ free then i ∉ inuse else i ∈ inuse) ∧
      (∃ f, a.gapsAssert = some f ∧ (if f ≠ a.totalSize then
        a.freeListAssert f (u32Sub a.totalSize f) else some ()) = some ()) ∧
      (∀ k, a.totalSize ≤ k → k ∉ free) ∧ ∀ k, a.totalSize ≤ k → k ∉ inuse := by
  simp only [assert, Option.bind_eq_bind, Option.bind_eq_some_iff, Option.guard_eq_some',
    Judy1.first_eq_none, exists_const]
  constructor
  · rintro ⟨free, hfree, inuse, hinuse, hcover, f, hgaps, _, hlast, hend, hend'⟩
    exact ⟨free, inuse, hfree, hinuse, hcover, ⟨f, hgaps, hlast⟩, hend, hend'⟩
  · rintro ⟨free, inuse, hfree, hinuse, hcover, ⟨f, hgaps, hlast⟩, hend, hend'⟩
    exact ⟨free, hfree, inuse, hinuse, hcover, f, hgaps, (), hlast, hend, hend'⟩

/-- Disjoint blocks inside the pool are the blocks of an abstract pool. -/
theorem Checkable.exists_pool (h : a.Checkable) (hblocks : a.BlocksDisjoint) :
    ∃ p : Pool, a.totalSize = p.total ∧ a.inuseList = p.blocks := by
  refine ⟨⟨a.totalSize, a.inuseList, h.inuse_pos, hblocks.1, fun i s j t hi hj hij => ?_⟩, rfl, rfl⟩
  have hpos := h.inuse_pos j t hj
  by_contra hlt
  exact Set.disjoint_left.1 (hblocks.2 i s j t hi hj hij.ne) (Set.mem_Ico.2 ⟨hij.le, by omega⟩)
    (Set.mem_Ico.2 ⟨le_rfl, by omega⟩)

/-- What a check that runs through has found out. -/
theorem Checkable.of_assert (h : a.Checkable) (hassert : a.assert = some ()) :
    a.BlocksDisjoint ∧ a.Canonical := by
  obtain ⟨free, inuse, hfree, hinuse, hcover, hgaps, hend, hend'⟩ := assert_eq_some_iff.1 hassert
  have hmemFree := h.mem_freeArray hfree
  have hmemInuse := h.mem_inuseArray hinuse
  obtain ⟨-, hapart⟩ := h.isSome_freeArray.1 (by rw [hfree]; rfl)
  have hblocks : a.BlocksDisjoint := by
    refine ⟨fun i s hi => ?_, h.isSome_inuseArray.1 (by rw [hinuse]; rfl)⟩
    have hpos := h.inuse_pos i s hi
    by_contra hgt
    exact hend' (i + s - 1) (by omega) ((hmemInuse _).2 ⟨i, s, hi, by omega, by omega⟩)
  obtain ⟨p, htotal, hp⟩ := h.exists_pool hblocks
  have hlt : p.total < 2 ^ 32 := htotal ▸ h.total_lt
  obtain ⟨L, hcap, hlists⟩ := h.exists_cap
  have hchunks := (gaps_checked_iff hcap hlists hlt htotal hp).1 hgaps
  refine ⟨hblocks, (canonical_iff hcap hlists hlt htotal hp).2 fun x => ⟨fun hx => ?_, hchunks x⟩⟩
  -- the start of the chunk is free, so the canonical chunk there has marked it
  obtain ⟨hsized, -⟩ := h.isSome_freeArray.1 (by rw [hfree]; rfl)
  have hpos : 0 < x.len := by
    have hpow : 0 < 2 ^ x.cls := Nat.pow_pos (by omega)
    have := (hsized x hx).2
    omega
  have hstart : x.start ∈ free := (hmemFree _).2 ⟨x, hx, le_rfl, by rw [Chunk.stop]; omega⟩
  have hin : x.start < a.totalSize := by
    by_contra hge
    exact hend x.start (by omega) hstart
  have hout : x.start ∉ inuse := by
    have := hcover x.start hin
    rwa [if_pos hstart] at this
  have hmem : x.start ∈ p.free := by
    refine ⟨htotal ▸ hin, fun i s hi hij => hout ((hmemInuse _).2 ⟨i, s, ?_, hij⟩)⟩
    rw [hp, hi]
  obtain ⟨y, hy, h1, h2⟩ := (mem_iff_exists_chunk (L := L) fun j => Pool.free_lt).1
    hmem
  have hxy : x = y := by
    by_contra hne
    exact Set.disjoint_left.1 (hapart x y hx (hchunks y hy) hne)
      (Set.mem_Ico.2 ⟨le_rfl, by rw [Chunk.stop]; omega⟩) (Set.mem_Ico.2 ⟨h1, h2⟩)
  exact hxy ▸ hy

/-- No canonical state is rejected. -/
theorem Checkable.assert_of (h : a.Checkable) (hblocks : a.BlocksDisjoint) (hcanonical : a.Canonical) :
    a.assert = some () := by
  obtain ⟨p, htotal, hp⟩ := h.exists_pool hblocks
  have hlt : p.total < 2 ^ 32 := htotal ▸ h.total_lt
  obtain ⟨L, hcap, hlists⟩ := h.exists_cap
  have hchunks := (canonical_iff hcap hlists hlt htotal hp).1 hcanonical
  obtain ⟨free, hfree⟩ := Option.isSome_iff_exists.1 (h.isSome_freeArray.2 (by
    refine ⟨fun x hx => ?_, fun x y hx hy hne => ?_⟩
    · obtain ⟨haligned, -⟩ := canonicalChunks_subset ((hchunks x).1 hx)
      exact ⟨haligned.len_le, haligned.lt_len⟩
    · refine Set.disjoint_left.2 fun j hj hj' => hne ?_
      exact canonicalChunks_unique ((hchunks x).1 hx) ((hchunks y).1 hy) hj hj'))
  obtain ⟨inuse, hinuse⟩ := Option.isSome_iff_exists.1 (h.isSome_inuseArray.2 hblocks.2)
  have hmemFree : ∀ j, j ∈ free ↔ j ∈ p.free := fun j => by
    rw [h.mem_freeArray hfree j, mem_iff_exists_chunk (L := L) fun j => Pool.free_lt]
    simp only [hchunks]
  have hmemInuse := h.mem_inuseArray hinuse
  rw [hp] at hmemInuse
  refine assert_eq_some_iff.2 ⟨free, inuse, hfree, hinuse, fun i hi => ?_,
    (gaps_checked_iff hcap hlists hlt htotal hp).2 fun x hx => (hchunks x).2 hx, fun k hk hmem => ?_,
    fun k hk hmem => ?_⟩
  · split_ifs with hmem
    · rw [hmemFree] at hmem
      rw [hmemInuse]
      rintro ⟨k, t, hk, hki⟩
      exact hmem.2 k t hk hki
    · rw [hmemFree] at hmem
      by_contra hnone
      rw [hmemInuse] at hnone
      exact hmem ⟨htotal ▸ hi, fun k t hk hki => hnone ⟨k, t, hk, hki⟩⟩
  · have := Pool.free_lt ((hmemFree k).1 hmem)
    omega
  · obtain ⟨i, s, hi, -, hlt'⟩ := (hmemInuse k).1 hmem
    have := p.inside i s hi
    omega

/-- `power2_allocator_assert` runs through exactly in the canonical states: blocks in use are disjoint
    and inside the pool, and the free lists hold the chunks of the gaps, nothing else. -/
theorem assert_exact (h : a.Checkable) :
    a.assert = some () ↔ a.BlocksDisjoint ∧ a.Canonical :=
  ⟨h.of_assert, fun hc => h.assert_of hc.1 hc.2⟩

/-- A pool of which two blocks are in use. -/
theorem assert_exact_two : ∃ a, create 4 4 = some a ∧
    (a.afterTwo.assert = some () ↔ a.afterTwo.BlocksDisjoint ∧ a.afterTwo.Canonical) := by
  obtain ⟨a, hcreate, -⟩ := exists_afterTwo
  have hrun : Run (Step Call.Legal) a _ a.afterTwo :=
    run_afterTwo a ⟨by decide, by decide⟩ ⟨by decide, by decide⟩
  obtain ⟨L, p, -, -, hp⟩ := exists_pool_of_run (by decide : 4 < 2 ^ 32)
    (by decide : 4 * 4 < 2 ^ 31) hcreate (run_harmless hrun)
  exact ⟨a, hcreate, assert_exact hp.checkable⟩

/-- A free chunk of 8 split into two halves is noticed. -/
example : ((create 8 1).bind fun a => ((a.setFreeList 3 OrderedMap.empty).setFreeList 2
    ((OrderedMap.empty.insert 0 4).insert 4 4)).assert) = none := by decide +kernel

/-- The check runs through after every run. -/
theorem assert_of_run {size count : ℕ} {a₀ : Power2Allocator} {es : List (Call × ℤ)}
    (hsize : size < 2 ^ 32) (hsmall : size * count < 2 ^ 31) (hcreate : create size count = some a₀)
    (hrun : Run (Step Call.Harmless) a₀ es a) : a.assert = some () := by
  obtain ⟨L, p, -, -, hp⟩ := exists_pool_of_run hsize hsmall hcreate hrun
  exact hp.checkable.assert_of hp.blocksDisjoint hp.canonical

end Power2Allocator
