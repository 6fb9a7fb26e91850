import TargetUtils.Library.Runs
import TargetUtils.Power2Allocator.FreeLists

set_option autoImplicit false

/-! # What `power2_allocator_insert_one_free` inserts

The entries that the loop inserts are the greedy decomposition of the interval
(`insertedEntries_eq`). So they are local: an interval that is shortened to a point inside one of
its chunks keeps all its other chunks (`decomposition_local`). -/

namespace Power2Allocator

variable {a b : Power2Allocator} {L i r fuel : ℕ} {D : List Chunk} {x : Chunk}

/-- The entries that the loop of `power2_allocator_insert_one_free` inserts, in order: the free
    list, the index and the length stored there. -/
def insertedEntries : ℕ → Power2Allocator → ℕ → ℕ → Option (List Chunk)
  | 0, _, _, _ => none
  | fuel + 1, a, curIndex, remSize =>
    if remSize = 0 then some []
    else
      let freeLog2 := a.freeLog2 curIndex remSize
      if remSize < shl1 freeLog2 then
        (insertedEntries fuel a (u32Add curIndex remSize) 0).map
          (⟨freeLog2, curIndex, remSize⟩ :: ·)
      else
        (insertedEntries fuel a (u32Add curIndex (shl1 freeLog2))
          (u32Sub remSize (shl1 freeLog2))).map (⟨freeLog2, curIndex, shl1 freeLog2⟩ :: ·)

/-- The loop ends, and has inserted the entries `D`. -/
def Inserts (a : Power2Allocator) (freeIndex size : ℕ) (D : List Chunk) : Prop :=
  Returns (fun fuel => insertedEntries fuel a freeIndex size) D

/-! ## The loop -/

/-- `JLI` of one entry. -/
def insertEntry (a : Power2Allocator) (x : Chunk) : Power2Allocator :=
  a.setFreeList x.cls ((a.freeList x.cls).insert x.start x.len)

theorem insertEntry_freeLists_congr (h : a.freeLists = b.freeLists) (x : Chunk) :
    (a.insertEntry x).freeLists = (b.insertEntry x).freeLists := by
  simp only [insertEntry, setFreeList, freeList, h]

theorem foldl_insertEntry_congr (h : a.freeLists = b.freeLists) (D : List Chunk) :
    (D.foldl insertEntry a).freeLists = (D.foldl insertEntry b).freeLists := by
  induction D generalizing a b with
  | nil => exact h
  | cons x D ih => exact ih (insertEntry_freeLists_congr h x)

theorem insertedEntries_congr (h : a.noFreeLists = b.noFreeLists) (fuel i r : ℕ) :
    insertedEntries fuel a i r = insertedEntries fuel b i r := by
  induction fuel generalizing i r with
  | zero => rfl
  | succ fuel ih =>
      simp only [insertedEntries, freeLog2_congr h, ih]

theorem insertedEntries_zero (h : insertedEntries fuel a i 0 = some D) : D = [] := by
  cases fuel with
  | zero => simp [insertedEntries] at h
  | succ fuel => simpa [insertedEntries] using h.symm

/-- The loop inserts its entries one after the other. -/
theorem insertOneFreeLoop_freeLists (h : insertedEntries (fuel + 1) a i r = some D) :
    (insertOneFreeLoop fuel a i r).freeLists = (D.foldl insertEntry a).freeLists := by
  induction fuel generalizing a i r D with
  | zero =>
      have hD : D = [] := by
        simp only [insertedEntries, Option.map_none, ite_self] at h
        split_ifs at h
        exact (Option.some.inj h).symm
      rw [hD]
      rfl
  | succ fuel ih =>
      rw [insertedEntries] at h
      rw [insertOneFreeLoop]
      dsimp only at h ⊢
      split_ifs at h ⊢ with h0 hshort
      · obtain rfl := Option.some.inj h
        rfl
      · obtain ⟨D', hD', rfl⟩ := Option.map_eq_some_iff.1 h
        obtain rfl := insertedEntries_zero hD'
        rfl
      · obtain ⟨D', hD', rfl⟩ := Option.map_eq_some_iff.1 h
        refine (ih (D := D') ?_).trans (foldl_insertEntry_congr ?_ D')
        · rw [insertedEntries_congr (b := a), hD']
          rfl
        · rfl

/-- One pass for each entry, and one to see that nothing is left. -/
theorem insertedEntries_eq (hcap : L < 32) (hlists : a.noFreeLists = L + 1) (hfuel : r < fuel)
    (hir : i + r < 2 ^ 32) : insertedEntries fuel a i r = some (greedyChunks L i r) := by
  induction fuel generalizing i r with
  | zero => omega
  | succ fuel ih =>
      rw [insertedEntries]
      by_cases h0 : r = 0
      · subst h0
        simp
      · have hcL : greedyClass L i r ≤ L := greedyClass_le_cap ..
        have hpos : 0 < 2 ^ greedyClass L i r := Nat.pow_pos (by omega)
        rw [if_neg h0, freeLog2_eq hcap hlists (by omega) (by omega)]
        dsimp only
        rw [shl1_of_lt (by omega), greedyChunks_of_pos (by omega)]
        generalize greedyClass L i r = c at hpos
        split_ifs with hshort
        · rw [min_eq_left hshort.le, ih (by omega) (by rw [u32Add_of_lt hir]; omega), Nat.sub_self,
            greedyChunks_zero, greedyChunks_zero]
          rfl
        · rw [min_eq_right (by omega), u32Add_of_lt (by omega), u32Sub_of_le (by omega) (by omega),
            ih (by omega) (by omega)]
          rfl

theorem inserts_greedyChunks (hcap : L < 32) (hlists : a.noFreeLists = L + 1)
    (hir : i + r < 2 ^ 32) : a.Inserts i r (greedyChunks L i r) :=
  ⟨r + 1, fun _ hfuel => insertedEntries_eq hcap hlists hfuel hir⟩

/-- A run of the loop with fuel to spare. -/
theorem inserts_of_eq (hcap : L < 32) (hlists : a.noFreeLists = L + 1) (hfuel : r < fuel)
    (hir : i + r < 2 ^ 32) (h : insertedEntries fuel a i r = some D) : a.Inserts i r D := by
  rw [insertedEntries_eq hcap hlists hfuel hir, Option.some.injEq] at h
  rw [← h]
  exact inserts_greedyChunks hcap hlists hir

theorem insertOneFree_freeLists_eq (hcap : L < 32) (hlists : a.noFreeLists = L + 1)
    (hir : i + r < 2 ^ 32) :
    (a.insertOneFree i r).freeLists = ((greedyChunks L i r).foldl insertEntry a).freeLists :=
  insertOneFreeLoop_freeLists (insertedEntries_eq hcap hlists (Nat.lt_succ_self r) hir)

/-! ## Locality -/

/-- The chunk is aligned for its class, and no smaller class would hold it. -/
def InClass (x : Chunk) : Prop :=
  2 ^ x.cls ∣ x.start ∧ x.len ≤ 2 ^ x.cls ∧ if x.cls = 0 then x.len = 1 else 2 ^ (x.cls - 1) < x.len

theorem inClass_of_aligned (h : x.Aligned L) : InClass x := by
  have hle := h.len_le
  have hlt := h.lt_len
  refine ⟨h.dvd, hle, ?_⟩
  split_ifs with h0
  · rw [h0] at hle hlt
    omega
  · obtain ⟨c, hc⟩ := Nat.exists_eq_succ_of_ne_zero h0
    rw [hc, Nat.pow_succ] at hlt
    rw [hc, Nat.succ_sub_one]
    omega

/-- The loop ends. What it inserts tiles the interval, and what it inserts for an interval that is
    cut short inside one of the chunks differs in this chunk only. -/
theorem decomposition_local (a : Power2Allocator) (hlists : 1 ≤ a.noFreeLists ∧ a.noFreeLists ≤ 32)
    {g n : ℕ} (hgn : g + n < 2 ^ 32) :
    ∃ D, a.Inserts g n D ∧ (a.insertOneFree g n).freeLists = (D.foldl insertEntry a).freeLists ∧
      Tiles g (g + n) D ∧ (∀ x ∈ D, InClass x) ∧ (∀ x ∈ D.dropLast, x.len = 2 ^ x.cls) ∧
      ∀ before x after, D = before ++ x :: after →
        ∀ i k, 1 ≤ k → x.start ≤ i → i + k ≤ x.stop →
          ∃ left right, a.Inserts x.start (i - x.start) left ∧
            a.Inserts g (i - g) (before ++ left) ∧
            a.Inserts (i + k) (x.stop - (i + k)) right ∧
            a.Inserts (i + k) (g + n - (i + k)) (right ++ after) := by
  obtain ⟨L, hL⟩ : ∃ L, a.noFreeLists = L + 1 := Nat.exists_eq_add_of_le' hlists.1
  have hcap : L < 32 := by omega
  refine ⟨greedyChunks L g n, inserts_greedyChunks hcap hL hgn,
    insertOneFree_freeLists_eq hcap hL hgn, greedyChunks_tiles L g n,
    fun x hx => inClass_of_aligned (mem_greedyChunks hx).1, fun x hx => full_of_mem_dropLast hx, ?_⟩
  intro before x after hD i k hk hi hik
  have hx : x ∈ greedyChunks L g n := by simp [hD]
  obtain ⟨-, hstart, hstop, -⟩ := mem_greedyChunks hx
  obtain ⟨hleft, hright⟩ := greedyChunks_cut hD hi (by omega) hik
  refine ⟨greedyChunks L x.start (i - x.start), greedyChunks L (i + k) (x.stop - (i + k)),
    inserts_greedyChunks hcap hL (by omega), ?_, inserts_greedyChunks hcap hL (by omega), ?_⟩
  · rw [← hleft]
    exact inserts_greedyChunks hcap hL (by omega)
  · rw [← hright]
    exact inserts_greedyChunks hcap hL (by omega)

theorem decomposition_local_five : ∃ a, create 16 2 = some a ∧
    a.Inserts 2 13 [⟨1, 2, 2⟩, ⟨2, 4, 4⟩, ⟨3, 8, 7⟩] ∧ a.Inserts 2 3 [⟨1, 2, 2⟩, ⟨0, 4, 1⟩] ∧
      a.Inserts 6 9 [⟨1, 6, 2⟩, ⟨3, 8, 7⟩] := by
  have hstate : (create 16 2).any (fun a => decide (a.noFreeLists = 5 ∧
      insertedEntries 14 a 2 13 = some [⟨1, 2, 2⟩, ⟨2, 4, 4⟩, ⟨3, 8, 7⟩] ∧
      insertedEntries 2 a 4 1 = some [⟨0, 4, 1⟩] ∧ insertedEntries 3 a 6 2 = some [⟨1, 6, 2⟩])) := by
    decide +kernel
  obtain ⟨a, hcreate, hfacts⟩ := (Option.any_eq_true _ _).1 hstate
  obtain ⟨hlists, hwhole, hbefore, hafter⟩ := of_decide_eq_true hfacts
  have hcap : 4 < 32 := by decide
  obtain ⟨D, hD, -, -, -, -, hlocal⟩ :=
    decomposition_local a (by omega) (g := 2) (n := 13) (by decide)
  obtain rfl := Returns.unique hD
    (inserts_of_eq hcap hlists (by decide : 13 < 14) (by decide) hwhole)
  obtain ⟨left, right, hleft, hcutLeft, hright, hcutRight⟩ :=
    hlocal [⟨1, 2, 2⟩] ⟨2, 4, 4⟩ [⟨3, 8, 7⟩] rfl 5 1 (by decide) (by decide) (by decide)
  obtain rfl := Returns.unique hleft
    (inserts_of_eq hcap hlists (by decide : 1 < 2) (by decide) hbefore)
  obtain rfl := Returns.unique hright
    (inserts_of_eq hcap hlists (by decide : 2 < 3) (by decide) hafter)
  exact ⟨a, hcreate, hD, hcutLeft, hcutRight⟩

end Power2Allocator
