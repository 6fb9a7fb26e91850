import TargetUtils.Library.Runs
import TargetUtils.Power2Allocator.AllocMultiple
import TargetUtils.Power2Allocator.ReleaseMultiple
import Mathlib

set_option autoImplicit false

/-! # Runs of the allocator

A client calls the interface in any order. The step lemma `Represents.step` says that every call
within its contract takes a represented pool to a represented pool; hence every state of every run
is canonical, and the free lists are a function of the blocks in use. -/

namespace Power2Allocator

/-! ## Calls -/

/-- The calls of the interface. -/
inductive Call
  | alloc (size : ℕ)
  | allocMultiple (size count : ℕ)
  | reserve (index size : ℕ)
  | release (index : ℕ)
  | releaseMultiple (index count : ℕ)
deriving DecidableEq

/-- The return value and the next state; only the search of `alloc_multiple` needs fuel. -/
def Call.exec (fuel : ℕ) (a : Power2Allocator) : Call → Option (ℤ × Power2Allocator)
  | .alloc size => some (a.alloc size)
  | .allocMultiple size count => a.allocMultiple fuel size count
  | .reserve index size => some (a.reserve index size)
  | .release index => some (a.release index)
  | .releaseMultiple index count => some (a.releaseMultiple index count)

/-- What `release_multiple` expects, beyond its own checks, of more than one block: the index is
    aligned and all blocks of the group are in use with the same size. -/
def GroupOrRefused (a : Power2Allocator) (index count : ℕ) : Prop :=
  count = 1 ∨ ∀ size, a.inuseList.lookup index = some size →
    log2Uint32Ceil size = a.noFreeLists - 1 →
      a.maxSize ∣ index ∧
        ∀ j ∈ List.range' index count a.maxSize, a.inuseList.lookup j = some size

/-- The contract of a call in state `a`: nonzero sizes and ranges that do not wrap. -/
def Call.Legal (a : Power2Allocator) : Call → Prop
  | .alloc size => 0 < size ∧ size < 2 ^ 32
  | .allocMultiple size count => 0 < size ∧ size < 2 ^ 32 ∧ count < 2 ^ 32
  | .reserve index size => 0 < size ∧ index + size < 2 ^ 32
  | .release _ => True
  | .releaseMultiple index count => a.GroupOrRefused index count

/-- One call and its return value, for calls that satisfy `ok`. -/
def Step (ok : Power2Allocator → Call → Prop) (a : Power2Allocator) (e : Call × ℤ)
    (a' : Power2Allocator) : Prop :=
  ok a e.1 ∧ ∃ fuel, e.1.exec fuel a = some (e.2, a')

/-! ## Requests of size zero -/

/-- No chunk, respectively no aligned row of chunks, for a request of `count` blocks of size 0. -/
def NothingFor (a : Power2Allocator) (count : ℕ) : Prop :=
  if count = 1 then ∀ c i, (a.freeList c).lookup i = none
  else count = 0 ∨ a.maxSize ≠ 1 ∨
    ¬ ∃ b, 2 ^ Nat.clog 2 count ∣ b ∧ ∀ i < count, (a.freeList 0).lookup (b + i) ≠ none

/-- The contract with size 0 admitted where nothing is there to hand out. -/
def Call.Harmless (a : Power2Allocator) : Call → Prop
  | .alloc size => size < 2 ^ 32 ∧ (size = 0 → a.NothingFor 1)
  | .allocMultiple size count =>
    size < 2 ^ 32 ∧ count < 2 ^ 32 ∧ (size = 0 → a.NothingFor count)
  | c => c.Legal a

variable {a a' : Power2Allocator} {L : ℕ} {p : Pool}

theorem Represents.alloc_zero (h : a.Represents L p) (hnone : a.NothingFor 1) :
    a.alloc 0 = (-1, a) := by
  have hempty : ∀ x, x ∉ canonicalChunks L p.free := fun x hx => by
    have hlook := (h.holds.chunks x).2 hx
    rw [IsFree, hnone] at hlook
    cases hlook
  have hscan := h.holds.allocScan (fun x hx => absurd hx (hempty x))
    (fun x hx => absurd hx (hempty x)) (Nat.zero_le _ : 0 ≤ 2 ^ 0) 0
  rcases hscan with ⟨hr, -⟩ | ⟨x, hx, -⟩
  · rw [Power2Allocator.alloc, if_neg (Nat.not_lt_zero _), h.holds.noFreeLists,
      show log2Uint32Ceil 0 = 0 from rfl]
    rw [Nat.sub_zero] at hr
    simp [hr]
  · exact absurd hx (hempty x)

theorem Represents.allocMultiple_zero (h : a.Represents L p) {n : ℕ} (hn : n ≠ 1)
    (hn32 : n < 2 ^ 32) (hnone : a.NothingFor n) {fuel : ℕ} {r : ℤ × Power2Allocator}
    (hr : a.allocMultiple fuel 0 n = some r) : r = (-1, a) := by
  rw [NothingFor, if_neg hn, h.maxSize] at hnone
  by_cases hrefused : Nat.clog 2 0 ≠ L ∨ n = 0
  · rw [h.allocMultiple_refused (by omega) hn hrefused fuel, Option.some.injEq] at hr
    exact hr.symm
  -- the only class is 0, so the pool consists of single indices
  obtain ⟨hL, hn0⟩ := not_or.1 hrefused
  obtain rfl : L = 0 := by
    rw [Nat.clog_zero_right, not_not] at hL
    exact hL.symm
  have hgroup : ¬ ∃ b, 2 ^ Nat.clog 2 n ∣ b ∧ ∀ i < n, (a.freeList 0).lookup (b + i) ≠ none := by
    rcases hnone with h0 | h1 | h2
    · exact absurd h0 hn0
    · exact absurd rfl h1
    · exact h2
  have hsmall := h.small
  rw [h.allocMultiple_eq (Nat.clog_zero_right 2) (by omega), Nat.pow_zero, Nat.one_mul,
    u32_of_lt hn32] at hr
  split_ifs at hr with hbig
  · exact (Option.some.inj hr).symm
  · obtain ⟨found, hfound, rfl⟩ := Option.map_eq_some_iff.1 hr
    cases found with
    | none => rfl
    | some blocks =>
        obtain ⟨b, hb, hcont⟩ := groupSearch_eq_some hfound
        obtain ⟨hall, -⟩ := (contiguousBlocks_eq_some_iff fun k v hk => h.key_bounds hk).1 hcont
        refine absurd ⟨b, hb, fun i hi => ?_⟩ hgroup
        obtain ⟨v, hv, -⟩ := hall (b + i) (List.mem_range'.2 ⟨i, hi, by simp⟩)
        simp [hv]

/-! ## Step lemma -/

/-- The allocator still stands for a pool of the same size. -/
def Represents.Keeps (_ : a.Represents L p) (a' : Power2Allocator) : Prop :=
  ∃ p' : Pool, p'.total = p.total ∧ a'.Represents L p'

theorem Represents.keeps_self (h : a.Represents L p) : h.Keeps a := ⟨p, rfl, h⟩

theorem Represents.keeps_alloc (h : a.Represents L p) {s : ℕ} (hok : (Call.alloc s).Harmless a) :
    h.Keeps (a.alloc s).2 := by
  rcases Nat.eq_zero_or_pos s with rfl | hs
  · rw [h.alloc_zero (hok.2 rfl)]
    exact h.keeps_self
  by_cases hsL : s ≤ 2 ^ L
  · rcases h.alloc hs hsL with ⟨hr, -⟩ | ⟨i, hfit, -, -, hr⟩
    · rw [hr]
      exact h.keeps_self
    · exact ⟨p.take i s hs hfit, rfl, hr⟩
  · rw [h.alloc_too_large (by omega)]
    exact h.keeps_self

theorem Represents.keeps_allocMultiple (h : a.Represents L p) {s n fuel : ℕ}
    (hok : (Call.allocMultiple s n).Harmless a) {r : ℤ × Power2Allocator}
    (hr : a.allocMultiple fuel s n = some r) : h.Keeps r.2 := by
  obtain ⟨hs32, hn32, hzero⟩ := hok
  by_cases hn : n = 1
  · subst hn
    rw [Power2Allocator.allocMultiple, if_pos rfl, Option.some.injEq] at hr
    exact hr ▸ h.keeps_alloc ⟨hs32, hzero⟩
  rcases Nat.eq_zero_or_pos s with rfl | hs
  · rw [h.allocMultiple_zero hn hn32 (hzero rfl) hr]
    exact h.keeps_self
  by_cases hrefused : Nat.clog 2 s ≠ L ∨ n = 0
  · rw [h.allocMultiple_refused hs32 hn hrefused fuel, Option.some.injEq] at hr
    exact hr ▸ h.keeps_self
  · obtain ⟨hclog, hn0⟩ := not_or.1 hrefused
    rcases (h.allocMultiple hs (not_not.1 hclog) (by omega)).2 fuel r hr with
      ⟨rfl, -⟩ | ⟨b, -, -, -, p', hp', htotal, -⟩
    · exact h.keeps_self
    · exact ⟨p', htotal, hp'⟩

theorem Represents.keeps_reserve (h : a.Represents L p) {i s : ℕ} (hs : 0 < s)
    (hw : i + s < 2 ^ 32) : h.Keeps (a.reserve i s).2 := by
  by_cases hfit : p.Fits i s
  · exact ⟨p.take i s hs hfit, rfl, (h.reserve hs hfit).2⟩
  · rw [h.reserve_of_not_fits hs hw hfit]
    exact h.keeps_self

theorem Represents.keeps_release (h : a.Represents L p) (i : ℕ) : h.Keeps (a.release i).2 := by
  cases hi : p.blocks.lookup i with
  | none =>
      rw [h.release_absent hi]
      exact h.keeps_self
  | some s => exact ⟨p.give i, rfl, (h.release hi).2⟩

theorem Represents.keeps_releaseMultiple (h : a.Represents L p) {i n : ℕ}
    (hok : a.GroupOrRefused i n) : h.Keeps (a.releaseMultiple i n).2 := by
  by_cases hn : n = 1
  · rw [Power2Allocator.releaseMultiple, if_pos hn]
    exact h.keeps_release i
  by_cases hrefused : ∀ s, p.blocks.lookup i = some s → Nat.clog 2 s ≠ L
  · rw [h.releaseMultiple_refused hn hrefused]
    exact h.keeps_self
  push Not at hrefused
  obtain ⟨s, hi, hclog⟩ := hrefused
  obtain ⟨hpos, hin, hsmall⟩ := h.block_bounds hi
  have hlog : log2Uint32Ceil s = a.noFreeLists - 1 := by
    rw [log2Uint32Ceil_eq_clog (by omega), hclog, h.holds.noFreeLists, Nat.add_sub_cancel]
  obtain ⟨hdvd, hblocks⟩ := hok.resolve_left hn s (by rw [h.inuse, hi]) hlog
  rw [h.maxSize] at hdvd hblocks
  rw [h.inuse] at hblocks
  rw [h.releaseMultiple_eq_loop hn hi hclog]
  exact ⟨_, Pool.giveAll_total _ _, (h.releaseMultipleLoop hdvd hblocks).2⟩

/-- Every call within its contract keeps the allocator canonical. -/
theorem Represents.keeps_step (h : a.Represents L p) {e : Call × ℤ}
    (hstep : Step Call.Harmless a e a') : h.Keeps a' := by
  obtain ⟨call, rc⟩ := e
  obtain ⟨hok, fuel, hexec⟩ := hstep
  cases call with
  | alloc s =>
      obtain rfl : (a.alloc s).2 = a' := congrArg Prod.snd (Option.some.inj hexec)
      exact h.keeps_alloc hok
  | allocMultiple s n => exact h.keeps_allocMultiple hok hexec
  | reserve i s =>
      obtain rfl : (a.reserve i s).2 = a' := congrArg Prod.snd (Option.some.inj hexec)
      exact h.keeps_reserve hok.1 hok.2
  | release i =>
      obtain rfl : (a.release i).2 = a' := congrArg Prod.snd (Option.some.inj hexec)
      exact h.keeps_release i
  | releaseMultiple i n =>
      obtain rfl : (a.releaseMultiple i n).2 = a' := congrArg Prod.snd (Option.some.inj hexec)
      exact h.keeps_releaseMultiple hok

theorem Call.Legal.harmless {c : Call} (h : c.Legal a) : c.Harmless a := by
  cases c with
  | alloc s => exact ⟨h.2, fun h0 => absurd h.1 (by omega)⟩
  | allocMultiple s n => exact ⟨h.2.1, h.2.2, fun h0 => absurd h.1 (by omega)⟩
  | reserve i s => exact h
  | release i => exact h
  | releaseMultiple i n => exact h

/-- Every legal call returns. -/
theorem Represents.exec_isSome (h : a.Represents L p) {c : Call} (hok : c.Legal a) :
    ∃ fuel, (c.exec fuel a).isSome := by
  cases c with
  | allocMultiple s n =>
      by_cases hn : n = 1
      · exact ⟨0, by rw [Call.exec, Power2Allocator.allocMultiple, if_pos hn]; rfl⟩
      by_cases hrefused : Nat.clog 2 s ≠ L ∨ n = 0
      · exact ⟨0, by rw [Call.exec, h.allocMultiple_refused hok.2.1 hn hrefused]; rfl⟩
      · obtain ⟨hclog, hn0⟩ := not_or.1 hrefused
        exact (h.allocMultiple hok.1 (not_not.1 hclog) (by omega)).1
  | alloc s => exact ⟨0, rfl⟩
  | reserve i s => exact ⟨0, rfl⟩
  | release i => exact ⟨0, rfl⟩
  | releaseMultiple i n => exact ⟨0, rfl⟩

/-- The run lemma: after any run of steps that keep the allocator canonical it stands for a pool. -/
theorem exists_pool_of_keeps {ok : Power2Allocator → Call → Prop}
    (hkeeps : ∀ {a a' : Power2Allocator} {L : ℕ} {p : Pool} {e : Call × ℤ}
      (h : a.Represents L p), Step ok a e a' → h.Keeps a')
    {size count : ℕ} {a₀ : Power2Allocator} {es : List (Call × ℤ)}
    (hsize : size < 2 ^ 32) (hsmall : size * count < 2 ^ 31) (hcreate : create size count = some a₀)
    (hrun : Run (Step ok) a₀ es a) :
    ∃ L, ∃ p : Pool, size = 2 ^ L ∧ p.total = size * count ∧ a.Represents L p := by
  obtain ⟨L, hL⟩ : ∃ L, size = 2 ^ L := by
    rw [← isUint32Power2_iff]
    by_contra hne
    rw [create, if_neg hne] at hcreate
    cases hcreate
  have hL32 : L < 32 := (Nat.pow_lt_pow_iff_right (by omega : 1 < 2)).1 (hL ▸ hsize)
  obtain ⟨a₀', hcreate', hinit⟩ := create_represents hL32 hL hsmall
  obtain rfl : a₀' = a₀ := Option.some.inj (hcreate'.symm.trans hcreate)
  obtain ⟨p, htotal, hp⟩ := hrun.invariant (P := hinit.Keeps) hinit.keeps_self
    fun b e b' hb hstep => by
      obtain ⟨p, htotal, hp⟩ := hb
      obtain ⟨p', htotal', hp'⟩ := hkeeps hp hstep
      exact ⟨p', htotal'.trans htotal, hp'⟩
  exact ⟨L, p, hL, htotal, hp⟩

theorem exists_pool_of_run {size count : ℕ} {a₀ : Power2Allocator} {es : List (Call × ℤ)}
    (hsize : size < 2 ^ 32) (hsmall : size * count < 2 ^ 31) (hcreate : create size count = some a₀)
    (hrun : Run (Step Call.Harmless) a₀ es a) :
    ∃ L, ∃ p : Pool, size = 2 ^ L ∧ p.total = size * count ∧ a.Represents L p :=
  exists_pool_of_keeps (fun h => h.keeps_step) hsize hsmall hcreate hrun

theorem run_call {ok : Power2Allocator → Call → Prop} {a₀ : Power2Allocator}
    {es : List (Call × ℤ)} (hrun : Run (Step ok) a₀ es a) {c : Call} (hok : ok a c) (fuel : ℕ)
    {r : ℤ × Power2Allocator} (hexec : c.exec fuel a = some r) :
    Run (Step ok) a₀ (es ++ [(c, r.1)]) r.2 :=
  hrun.snoc ⟨hok, fuel, hexec⟩

theorem run_harmless {a₀ : Power2Allocator} {es : List (Call × ℤ)}
    (hrun : Run (Step Call.Legal) a₀ es a) : Run (Step Call.Harmless) a₀ es a :=
  hrun.mono fun _ _ _ h => ⟨h.1.harmless, h.2⟩

/-! ## Canonical states -/

/-- The indices of the pool that no block in use covers. -/
def freeIndices (a : Power2Allocator) : Set ℕ :=
  {j | j < a.totalSize ∧ ∀ i s, a.inuseList.lookup i = some s → ¬ (i ≤ j ∧ j < i + s)}

/-- Blocks in use lie inside the pool and do not overlap. -/
def BlocksDisjoint (a : Power2Allocator) : Prop :=
  (∀ i s, a.inuseList.lookup i = some s → i + s ≤ a.totalSize) ∧
    ∀ i s j t, a.inuseList.lookup i = some s → a.inuseList.lookup j = some t → i ≠ j →
      Disjoint (Set.Ico i (i + s)) (Set.Ico j (j + t))

/-- The allocator with nothing in its free lists. -/
def withEmptyLists (a : Power2Allocator) : Power2Allocator :=
  { a with freeLists := List.replicate a.noFreeLists OrderedMap.empty }

/-- The free lists hold what `insert_one_free` inserts for the maximal gaps between blocks. -/
def Canonical (a : Power2Allocator) : Prop :=
  ∀ x : Chunk, a.IsFree x ↔
    ∃ g e, IsGap a.freeIndices g e ∧ (a.withEmptyLists.insertOneFree g (e - g)).IsFree x

theorem freeIndices_eq_of (htotal : a.totalSize = p.total) (hinuse : a.inuseList = p.blocks) :
    a.freeIndices = p.free := by
  rw [freeIndices, Pool.free, htotal, hinuse]

theorem Represents.blocksDisjoint (h : a.Represents L p) : a.BlocksDisjoint := by
  rw [BlocksDisjoint, h.totalSize, h.inuse]
  refine ⟨p.inside, fun i s j t hi hj hne => ?_⟩
  rw [Set.disjoint_left]
  intro k hki hkj
  exact hne (Pool.start_unique hi hj (Set.mem_Ico.1 hki) (Set.mem_Ico.1 hkj))

/-- Into empty lists the chunks of the greedy decomposition are inserted. -/
theorem withEmptyLists_insertOneFree (hcap : L < 32) (hlists : a.noFreeLists = L + 1) {i n : ℕ}
    (hin : i + n < 2 ^ 32) (x : Chunk) :
    (a.withEmptyLists.insertOneFree i n).IsFree x ↔ x ∈ greedyChunks L i n := by
  -- the assertions recorded so far do not matter
  have hempty : ({ a.withEmptyLists with asserts := true } : Power2Allocator).Holds L ∅ := by
    refine ⟨hcap, hlists, ?_, rfl, fun x => ?_⟩
    · simp [withEmptyLists, hlists]
    · simp only [IsFree, freeList, withEmptyLists, List.getD_eq_getElem?_getD,
        List.getElem?_replicate, Set.mem_empty_iff_false, iff_false]
      split_ifs <;> simp
  have hins := hempty.insertOneFree (i := i) (n := n) hin (fun y hy => absurd hy (Set.notMem_empty y))
  have hchunks := hins.chunks x
  have hsame := insertOneFree_freeLists (a := a.withEmptyLists)
    (b := { a.withEmptyLists with asserts := true }) rfl rfl i n
  rw [IsFree, freeList, ← hsame, Set.empty_union] at hchunks
  exact hchunks

/-- The free lists are canonical when they hold the canonical chunks of the pool. -/
theorem canonical_iff (hcap : L < 32) (hlists : a.noFreeLists = L + 1) (hlt : p.total < 2 ^ 32)
    (htotal : a.totalSize = p.total) (hinuse : a.inuseList = p.blocks) :
    a.Canonical ↔ ∀ x, a.IsFree x ↔ x ∈ canonicalChunks L p.free := by
  rw [Canonical, freeIndices_eq_of htotal hinuse]
  refine forall_congr' fun x => iff_congr Iff.rfl (exists_congr fun g => exists_congr fun e =>
    and_congr_right fun hgap => ?_)
  have hge := hgap.lt
  have hlast := Pool.free_lt (hgap.subset (e - 1) (by omega) (by omega))
  exact withEmptyLists_insertOneFree hcap hlists (by omega) x

theorem Represents.canonical (h : a.Represents L p) : a.Canonical :=
  (canonical_iff h.holds.cap h.holds.noFreeLists h.tracks.total_lt h.totalSize h.inuse).2
    h.holds.chunks

/-- After every run blocks in use are disjoint and inside the pool, the free lists hold exactly the
    chunks of the gaps, and two runs that agree on the blocks in use agree on the free lists. -/
theorem canonical_of_run {size count : ℕ} {a₀ : Power2Allocator} {es : List (Call × ℤ)}
    (hsize : size < 2 ^ 32) (hsmall : size * count < 2 ^ 31) (hcreate : create size count = some a₀)
    (hrun : Run (Step Call.Legal) a₀ es a) :
    a.BlocksDisjoint ∧ a.Canonical ∧ ∀ es' a', Run (Step Call.Legal) a₀ es' a' →
      a'.inuseList = a.inuseList → a'.freeLists = a.freeLists := by
  obtain ⟨L, p, hL, htotal, hp⟩ := exists_pool_of_run hsize hsmall hcreate (run_harmless hrun)
  refine ⟨hp.blocksDisjoint, hp.canonical, fun es' a' hrun' hinuse => ?_⟩
  obtain ⟨L', p', hL', htotal', hp'⟩ := exists_pool_of_run hsize hsmall hcreate (run_harmless hrun')
  obtain rfl : L' = L := Nat.pow_right_injective (le_refl 2) (hL'.symm.trans hL)
  obtain rfl : p' = p := Pool.ext (htotal'.trans htotal.symm)
    (hp'.inuse.symm.trans (hinuse.trans hp.inuse))
  rw [hp'.unique hp]

/-- Reserving in the middle of the pool, allocating and releasing again. -/
theorem canonical_of_run_reserve_alloc_release :
    ∃ a, create 4 2 = some a ∧
      (((a.reserve 1 2).2.alloc 3).2.release 1).2.BlocksDisjoint ∧
      (((a.reserve 1 2).2.alloc 3).2.release 1).2.Canonical := by
  obtain ⟨a, hcreate, -⟩ := create_represents (by decide : 2 < 32) (by decide : 4 = 2 ^ 2)
    (by decide : 4 * 2 < 2 ^ 31)
  have hnil : Run (Step Call.Legal) a [] a := Run.nil
  have hreserve := run_call hnil (c := .reserve 1 2) ⟨by decide, by decide⟩ 0 rfl
  have halloc := run_call hreserve (c := .alloc 3) ⟨by decide, by decide⟩ 0 rfl
  have hrelease := run_call halloc (c := .release 1) trivial 0 rfl
  obtain ⟨hdisjoint, hcanonical, -⟩ := canonical_of_run (by decide : 4 < 2 ^ 32)
    (by decide : 4 * 2 < 2 ^ 31) hcreate hrelease
  exact ⟨a, hcreate, hdisjoint, hcanonical⟩

/-- The state after a block of 3 is reserved at 1 and another one is allocated. -/
def afterTwo (a : Power2Allocator) : Power2Allocator := ((a.reserve 1 3).2.alloc 3).2

theorem run_afterTwo {ok : Power2Allocator → Call → Prop} (a : Power2Allocator)
    (hreserve : ok a (.reserve 1 3)) (halloc : ok (a.reserve 1 3).2 (.alloc 3)) :
    Run (Step ok) a ([] ++ [(.reserve 1 3, (a.reserve 1 3).1)] ++
      [(.alloc 3, ((a.reserve 1 3).2.alloc 3).1)]) a.afterTwo :=
  run_call (run_call Run.nil hreserve 0 rfl) halloc 0 rfl

/-- In a pool of four blocks of 4 the two blocks lie at 1 and 4. -/
theorem exists_afterTwo : ∃ a, create 4 4 = some a ∧ a.afterTwo.maxSize = 4 ∧
    a.afterTwo.noFreeLists = 3 ∧ a.afterTwo.totalSize = 16 ∧
    a.afterTwo.inuseList.entries = [(1, 3), (4, 3)] ∧ (a.afterTwo.alloc 3).1 = 8 ∧
    (a.afterTwo.allocMultiple 3 3 2).map Prod.fst = some 8 := by
  have hstate : (create 4 4).any (fun a => decide (a.afterTwo.maxSize = 4 ∧
      a.afterTwo.noFreeLists = 3 ∧ a.afterTwo.totalSize = 16 ∧
      a.afterTwo.inuseList.entries = [(1, 3), (4, 3)] ∧ (a.afterTwo.alloc 3).1 = 8 ∧
      (a.afterTwo.allocMultiple 3 3 2).map Prod.fst = some 8)) = true := by
    decide +kernel
  obtain ⟨a, hcreate, hfacts⟩ := (Option.any_eq_true _ _).1 hstate
  exact ⟨a, hcreate, of_decide_eq_true hfacts⟩

end Power2Allocator
