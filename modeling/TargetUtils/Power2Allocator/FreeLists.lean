import TargetUtils.Power2Allocator.Basic
import TargetUtils.Library.FreeGaps

set_option autoImplicit false

/-! # The free lists as a set of chunks

The free lists of an allocator hold a set of chunks: list `c` maps a start index to a length. The
two chunk loops are characterized against the greedy decomposition: `insertOneFree` adds the chunks
of `greedyChunks` and `removeFreeIndex` removes them (`insertOneFree_holds`,
`removeFreeIndex_holds`). Neither touches anything but the free lists, and no assertion fails. -/

namespace Power2Allocator

/-- The chunk `x` is in the free lists. -/
def IsFree (a : Power2Allocator) (x : Chunk) : Prop :=
  (a.freeList x.cls).lookup x.start = some x.len

/-- `L + 1` free lists that hold exactly the chunks of `C`, and no failed assertion. -/
structure Holds (a : Power2Allocator) (L : ℕ) (C : Set Chunk) : Prop where
  cap : L < 32
  noFreeLists : a.noFreeLists = L + 1
  length : a.freeLists.length = L + 1
  asserts : a.asserts = true
  chunks : ∀ x, a.IsFree x ↔ x ∈ C

/-! ## Frame -/

@[simp] theorem bfSysAssert_true (a : Power2Allocator) : a.bfSysAssert true = a := by
  simp [bfSysAssert]

theorem aligned_of_dvd {c i : ℕ} (hc : c < 32) (hi : i < 2 ^ 32) (hdvd : 2 ^ c ∣ i) :
    i % shl1 c = 0 ∧ ctz i ≥ ctz (shl1 c) := by
  rw [shl1_of_lt hc, ctz_pow hc]
  exact ⟨Nat.mod_eq_zero_of_dvd hdvd, (le_ctz_iff hi (by omega)).2 hdvd⟩

theorem assertFreeLog2_eq {a : Power2Allocator} {c i : ℕ} (hc : c < 32) (hi : i < 2 ^ 32)
    (hdvd : 2 ^ c ∣ i) : a.assertFreeLog2 c i = a := by
  obtain ⟨hmod, hctz⟩ := aligned_of_dvd hc hi hdvd
  simp [assertFreeLog2, hc, hmod, hctz]

/-- An operation that only touches the free lists and the assertion record. -/
def SameUsage (a a' : Power2Allocator) : Prop :=
  a'.maxSize = a.maxSize ∧ a'.totalSize = a.totalSize ∧ a'.inuseList = a.inuseList

theorem SameUsage.refl (a : Power2Allocator) : SameUsage a a := ⟨rfl, rfl, rfl⟩

theorem SameUsage.bfSysAssert {a b : Power2Allocator} (h : SameUsage a b) (cond : Bool) :
    SameUsage a (b.bfSysAssert cond) := h

theorem SameUsage.assertFreeLog2 {a b : Power2Allocator} (h : SameUsage a b) (c i : ℕ) :
    SameUsage a (b.assertFreeLog2 c i) := ((h.bfSysAssert _).bfSysAssert _).bfSysAssert _

theorem SameUsage.setFreeList {a b : Power2Allocator} (h : SameUsage a b) (c : ℕ) (m : JudyL) :
    SameUsage a (b.setFreeList c m) := h

theorem SameUsage.trans {a b c : Power2Allocator} (h1 : SameUsage a b) (h2 : SameUsage b c) :
    SameUsage a c :=
  ⟨h2.1.trans h1.1, h2.2.1.trans h1.2.1, h2.2.2.trans h1.2.2⟩

theorem insertOneFree_sameUsage (a : Power2Allocator) (i n : ℕ) :
    SameUsage a (a.insertOneFree i n) := by
  have hloop : ∀ fuel (a : Power2Allocator) i r, SameUsage a (insertOneFreeLoop fuel a i r) := by
    intro fuel
    induction fuel with
    | zero => exact fun a i r => SameUsage.refl a
    | succ fuel ih =>
        intro a i r
        have hcheck := (SameUsage.refl a).assertFreeLog2 (a.freeLog2 i r) i
        simp only [insertOneFreeLoop]
        split_ifs
        · exact SameUsage.refl a
        · exact ((hcheck.bfSysAssert _).bfSysAssert _).setFreeList _ _
        · exact ((hcheck.bfSysAssert _).setFreeList _ _).trans (ih _ _ _)
  exact hloop n a i n

theorem removeFreeIndex_sameUsage (a : Power2Allocator) (i n : ℕ) :
    SameUsage a (a.removeFreeIndex i n).2 := by
  have hloop : ∀ fuel (a : Power2Allocator) i r,
      SameUsage a (removeFreeIndexLoop fuel a i r).2 := by
    intro fuel
    induction fuel with
    | zero => exact fun a i r => SameUsage.refl a
    | succ fuel ih =>
        intro a i r
        have hcheck := (SameUsage.refl a).assertFreeLog2 (a.freeLog2 i r) i
        simp only [removeFreeIndexLoop]
        split_ifs
        · exact SameUsage.refl a
        · split
          · exact hcheck.bfSysAssert _
          · exact (hcheck.setFreeList _ _).bfSysAssert _
        · split
          · exact hcheck.bfSysAssert _
          · exact ((hcheck.setFreeList _ _).bfSysAssert _).trans (ih _ _ _)
  exact hloop n a i n

/-! ## One chunk -/

theorem freeList_setFreeList {a : Power2Allocator} {c : ℕ} (hc : c < a.freeLists.length)
    (m : JudyL) (d : ℕ) :
    (a.setFreeList c m).freeList d = if d = c then m else a.freeList d := by
  simp only [freeList, setFreeList, List.getD_eq_getElem?_getD, List.getElem?_set]
  by_cases hd : d = c
  · subst hd
    simp [hc]
  · rw [if_neg (fun he => hd he.symm), if_neg hd]

variable {a : Power2Allocator} {L : ℕ} {C : Set Chunk}

/-- The free lists hold at most one chunk of a class at an index. -/
theorem Holds.unique (h : a.Holds L C) {x y : Chunk} (hx : x ∈ C) (hy : y ∈ C)
    (hcls : x.cls = y.cls) (hstart : x.start = y.start) : x = y := by
  have hlx := (h.chunks x).2 hx
  have hly := (h.chunks y).2 hy
  rw [IsFree, hcls, hstart] at hlx
  rw [IsFree, hlx] at hly
  obtain ⟨c, i, n⟩ := x
  obtain ⟨c', i', n'⟩ := y
  simp_all

theorem Holds.insert (h : a.Holds L C) {x : Chunk} (hcls : x.cls ≤ L) (hnew : ∀ n, ⟨x.cls, x.start, n⟩ ∉ C) :
    (a.setFreeList x.cls ((a.freeList x.cls).insert x.start x.len)).Holds L (insert x C) := by
  have hlen := h.length
  refine ⟨h.cap, h.noFreeLists, by simpa [setFreeList] using hlen, h.asserts, fun y => ?_⟩
  have hy := h.chunks y
  rw [IsFree] at hy ⊢
  rw [freeList_setFreeList (by omega), Set.mem_insert_iff, ← hy]
  by_cases hc : y.cls = x.cls
  · rw [if_pos hc, OrderedMap.lookup_insert, hc]
    by_cases hs : y.start = x.start
    · have hnone : ¬ (a.freeList x.cls).lookup y.start = some y.len := fun hl =>
        hnew y.len ((h.chunks ⟨x.cls, x.start, y.len⟩).1 (hs ▸ hl))
      rw [if_pos hs]
      simp only [hnone, or_false, Option.some.injEq]
      constructor
      · intro hl
        obtain ⟨c, i, n⟩ := x
        obtain ⟨c', i', n'⟩ := y
        simp_all
      · rintro rfl
        rfl
    · have hne : y ≠ x := fun he => hs (he ▸ rfl)
      rw [if_neg hs]
      simp [hne]
  · have hne : y ≠ x := fun he => hc (he ▸ rfl)
    rw [if_neg hc]
    simp [hne]

theorem Holds.erase (h : a.Holds L C) {x : Chunk} (hx : x ∈ C) (hcls : x.cls ≤ L) :
    (a.setFreeList x.cls ((a.freeList x.cls).erase x.start)).Holds L (C \ {x}) := by
  have hlen := h.length
  refine ⟨h.cap, h.noFreeLists, by simpa [setFreeList] using hlen, h.asserts, fun y => ?_⟩
  have hy := h.chunks y
  rw [IsFree] at hy ⊢
  rw [freeList_setFreeList (by omega), Set.mem_sdiff, Set.mem_singleton_iff, ← hy]
  by_cases hc : y.cls = x.cls
  · rw [if_pos hc, OrderedMap.lookup_erase, hc]
    by_cases hs : y.start = x.start
    · rw [if_pos hs]
      simp only [reduceCtorEq, false_iff, not_and, not_not]
      intro hl
      exact h.unique ((h.chunks y).1 (by rw [IsFree, hc]; exact hl)) hx hc hs
    · have hne : y ≠ x := fun he => hs (he ▸ rfl)
      rw [if_neg hs]
      simp [hne]
  · have hne : y ≠ x := fun he => hc (he ▸ rfl)
    rw [if_neg hc]
    simp [hne]

/-- `free_log2` is the greedy class, whatever the free lists hold. -/
theorem freeLog2_eq (hcap : L < 32) (hlists : a.noFreeLists = L + 1) {i n : ℕ} (hi : i < 2 ^ 32)
    (hn : n < 2 ^ 32) : a.freeLog2 i n = greedyClass L i n := by
  have hclog : log2Uint32Ceil n ≤ 32 := log2Uint32Ceil_le_32 hn
  have hclog' := log2Uint32Ceil_eq_clog hn
  have hmin : a.freeLog2 i n = min (min (ctz i) (log2Uint32Ceil n)) L := by
    simp only [freeLog2, hlists, u32Sub_of_le (show 1 ≤ L + 1 by omega) (by omega)]
    split_ifs <;> omega
  rw [hmin]
  apply le_antisymm
  · refine le_greedyClass_iff.2 ⟨by omega, by omega, ?_⟩
    exact (le_ctz_iff hi (by omega)).1 ((min_le_left _ _).trans (min_le_left _ _))
  · obtain ⟨h1, h2, h3⟩ := le_greedyClass_iff.1 (le_refl (greedyClass L i n))
    have hctz := (le_ctz_iff hi (by omega)).2 h3
    omega

theorem freeLog2_congr {b : Power2Allocator} (h : a.noFreeLists = b.noFreeLists) (i n : ℕ) :
    a.freeLog2 i n = b.freeLog2 i n := by
  simp only [freeLog2, h]

theorem Holds.freeLog2_eq (h : a.Holds L C) {i n : ℕ} (hi : i < 2 ^ 32) (hn : n < 2 ^ 32) :
    a.freeLog2 i n = greedyClass L i n :=
  Power2Allocator.freeLog2_eq h.cap h.noFreeLists hi hn

/-! ## The chunk loops -/

theorem Holds.insertOneFree (h : a.Holds L C) {i n : ℕ} (hin : i + n < 2 ^ 32)
    (hnew : ∀ x ∈ C, ¬ (i ≤ x.start ∧ x.start < i + n)) :
    (a.insertOneFree i n).Holds L (C ∪ {x | x ∈ greedyChunks L i n}) := by
  have hloop : ∀ fuel (a : Power2Allocator) (C : Set Chunk) (i r : ℕ), a.Holds L C → r ≤ fuel →
      i + r < 2 ^ 32 → (∀ x ∈ C, ¬ (i ≤ x.start ∧ x.start < i + r)) →
      (insertOneFreeLoop fuel a i r).Holds L (C ∪ {x | x ∈ greedyChunks L i r}) := by
    intro fuel
    induction fuel with
    | zero =>
        intro a C i r h hr _ _
        obtain rfl : r = 0 := by omega
        simpa [insertOneFreeLoop] using h
    | succ fuel ih =>
        intro a C i r h hr hir hnew
        rw [insertOneFreeLoop]
        by_cases h0 : r = 0
        · subst h0
          simpa using h
        rw [if_neg h0]
        obtain ⟨c, hc⟩ : ∃ c, c = greedyClass L i r := ⟨_, rfl⟩
        have hcap := h.cap
        have hcL : c ≤ L := hc ▸ greedyClass_le_cap ..
        have hpos : 0 < 2 ^ c := Nat.pow_pos (by omega)
        have hlt : 2 ^ c < 2 * r := hc ▸ pow_greedyClass_lt_two_mul (by omega)
        have hnone : (a.freeList c).lookup i = none := by
          by_contra hne
          obtain ⟨v, hv⟩ := Option.ne_none_iff_exists'.1 hne
          exact hnew ⟨c, i, v⟩ ((h.chunks ⟨c, i, v⟩).1 hv) ⟨le_rfl, by simp only; omega⟩
        have hins := h.insert (x := ⟨c, i, min r (2 ^ c)⟩) hcL fun v hv =>
          hnew _ hv ⟨le_rfl, by simp only; omega⟩
        have hdvd : 2 ^ c ∣ i := hc ▸ pow_greedyClass_dvd ..
        simp only [h.freeLog2_eq (by omega : i < 2 ^ 32) (by omega : r < 2 ^ 32), ← hc,
          assertFreeLog2_eq (by omega : c < 32) (by omega) hdvd, hnone, Option.getD_none,
          decide_true, bfSysAssert_true, shl1_of_lt (by omega : c < 32)]
        rw [greedyChunks_of_pos (by omega : 0 < r), ← hc]
        split_ifs with hshort
        · rw [min_eq_left hshort.le] at hins ⊢
          have hhalf : decide (r > 2 ^ c / 2) = true := by
            rw [decide_eq_true_iff]
            omega
          rw [hhalf, bfSysAssert_true]
          convert hins using 1
          ext x
          simp [or_comm]
        · rw [min_eq_right (by omega)] at hins ⊢
          rw [u32Add_of_lt (by omega), u32Sub_of_le (by omega) (by omega)]
          have hstep := ih _ _ (i + 2 ^ c) (r - 2 ^ c) hins (by omega) (by omega) (by
            rintro x (rfl | hx) hxi
            · simp only at hxi
              omega
            · exact hnew x hx (by omega))
          convert hstep using 1
          ext x
          simp only [Set.mem_union, Set.mem_ofPred_eq, List.mem_cons, Set.mem_insert_iff]
          tauto
  exact hloop n a C i n h le_rfl hin hnew

/-- What is inserted depends on the free lists only. -/
theorem insertOneFree_freeLists {a b : Power2Allocator} (hn : a.noFreeLists = b.noFreeLists)
    (hf : a.freeLists = b.freeLists) (i n : ℕ) :
    (a.insertOneFree i n).freeLists = (b.insertOneFree i n).freeLists := by
  have hloop : ∀ fuel (a b : Power2Allocator) i r, a.noFreeLists = b.noFreeLists →
      a.freeLists = b.freeLists →
      (insertOneFreeLoop fuel a i r).freeLists = (insertOneFreeLoop fuel b i r).freeLists := by
    intro fuel
    induction fuel with
    | zero => exact fun a b i r _ hf => hf
    | succ fuel ih =>
        intro a b i r hn hf
        simp only [insertOneFreeLoop, freeLog2_congr hn]
        split_ifs
        · exact hf
        · simp [setFreeList, freeList, assertFreeLog2, bfSysAssert, hf]
        · exact ih _ _ _ _ hn (by simp [setFreeList, freeList, assertFreeLog2, bfSysAssert, hf])
  exact hloop n a b i n hn hf

/-- Inserting the two remainders of `[g, e)` around `[i, b)`. -/
theorem Holds.insertAround (h : a.Holds L C) {g i b e : ℕ} (hgi : g ≤ i) (hib : i ≤ b)
    (hbe : b ≤ e) (he : e < 2 ^ 32) (hnew : ∀ x ∈ C, ¬ (g ≤ x.start ∧ x.start < e)) :
    ((a.insertOneFree g (i - g)).insertOneFree b (e - b)).Holds L
      (C ∪ ({x | x ∈ greedyChunks L g (i - g)} ∪ {x | x ∈ greedyChunks L b (e - b)})) := by
  have hleft := h.insertOneFree (i := g) (n := i - g) (by omega)
    (fun x hx hxi => hnew x hx (by omega))
  have hright := hleft.insertOneFree (i := b) (n := e - b) (by omega) (by
    rintro x (hx | hx) hxi
    · exact hnew x hx (by omega)
    · obtain ⟨haligned, -, hstop, -⟩ := mem_greedyChunks hx
      have hpos := haligned.len_pos
      rw [Chunk.stop] at hstop
      omega)
  rwa [Set.union_assoc] at hright

theorem Holds.removeFreeIndex (h : a.Holds L C) {i n : ℕ} (hin : i + n < 2 ^ 32)
    (hold : ∀ x ∈ greedyChunks L i n, x ∈ C) :
    (a.removeFreeIndex i n).1 = 0 ∧
      (a.removeFreeIndex i n).2.Holds L (C \ {x | x ∈ greedyChunks L i n}) := by
  have hloop : ∀ fuel (a : Power2Allocator) (C : Set Chunk) (i r : ℕ), a.Holds L C → r ≤ fuel →
      i + r < 2 ^ 32 → (∀ x ∈ greedyChunks L i r, x ∈ C) →
      (removeFreeIndexLoop fuel a i r).1 = 0 ∧
        (removeFreeIndexLoop fuel a i r).2.Holds L (C \ {x | x ∈ greedyChunks L i r}) := by
    intro fuel
    induction fuel with
    | zero =>
        intro a C i r h hr _ _
        obtain rfl : r = 0 := by omega
        exact ⟨rfl, by simpa [removeFreeIndexLoop] using h⟩
    | succ fuel ih =>
        intro a C i r h hr hir hold
        rw [removeFreeIndexLoop]
        by_cases h0 : r = 0
        · subst h0
          exact ⟨rfl, by simpa using h⟩
        rw [if_neg h0]
        obtain ⟨c, hc⟩ : ∃ c, c = greedyClass L i r := ⟨_, rfl⟩
        have hcap := h.cap
        have hcL : c ≤ L := hc ▸ greedyClass_le_cap ..
        have hpos : 0 < 2 ^ c := Nat.pow_pos (by omega)
        have hdvd : 2 ^ c ∣ i := hc ▸ pow_greedyClass_dvd ..
        have htail := fun x => mem_greedyChunks (L := L) (i := i + min r (2 ^ c))
          (n := r - min r (2 ^ c)) (x := x)
        rw [greedyChunks_of_pos (by omega : 0 < r), ← hc] at hold ⊢
        have hhead : ⟨c, i, min r (2 ^ c)⟩ ∈ C := hold _ (List.mem_cons_self ..)
        have hlook : (a.freeList c).lookup i = some (min r (2 ^ c)) := (h.chunks _).2 hhead
        have hers := h.erase hhead hcL
        simp only [h.freeLog2_eq (by omega : i < 2 ^ 32) (by omega : r < 2 ^ 32), ← hc,
          assertFreeLog2_eq (by omega : c < 32) (by omega) hdvd, hlook,
          shl1_of_lt (by omega : c < 32)]
        split_ifs with hshort
        · rw [min_eq_left hshort.le] at hers ⊢
          refine ⟨rfl, ?_⟩
          simpa using hers
        · rw [min_eq_right (by omega)] at hers htail hold ⊢
          rw [u32Add_of_lt (by omega), u32Sub_of_le (by omega) (by omega)]
          simp only [decide_true, bfSysAssert_true]
          have hstep := ih _ _ (i + 2 ^ c) (r - 2 ^ c) hers (by omega) (by omega) (by
            intro x hx
            refine ⟨hold x (List.mem_cons_of_mem _ hx), ?_⟩
            rintro rfl
            have := (htail _ hx).2.1
            simp only at this
            omega)
          refine ⟨hstep.1, ?_⟩
          convert hstep.2 using 1
          ext x
          simp only [Set.mem_sdiff, Set.mem_ofPred_eq, List.mem_cons, Set.mem_singleton_iff]
          tauto
  exact hloop n a C i n h le_rfl hin hold

end Power2Allocator
