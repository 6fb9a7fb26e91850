import TargetUtils.Judy1

set_option autoImplicit false

/-! # The power-of-two allocator

Translation of `power2_allocator.c`. A Judy array of words is an `OrderedMap ℕ ℕ`: `JLG` is
`lookup`, `JLI` followed by a store is `insert`, `JLD` is `erase`, and `JLF`, `JLN`, `JLP` are
`first`, `next`, `prev`. Memory allocation is assumed to succeed, so `JLI` never yields `PJERR` and
the functions whose only failure is `PJERR` return no code.

`bf_sys_assert` does not alter the state; `asserts` records whether every assertion evaluated so
far held. Keys and stored values are `uint32_t`, so conversions from words to `uint32_t` appear only
where a word was computed. -/

/-- A Judy array of words. -/
abbrev JudyL := OrderedMap ℕ ℕ

/-- `power2_allocator_t`, with the outcome of the assertions executed so far. -/
structure Power2Allocator where
  maxSize : ℕ
  totalSize : ℕ
  noFreeLists : ℕ
  freeLists : List JudyL
  inuseList : JudyL
  asserts : Bool
deriving DecidableEq

namespace Power2Allocator

/-- `allocator->free_lists[c]`. -/
def freeList (a : Power2Allocator) (c : ℕ) : JudyL := a.freeLists.getD c OrderedMap.empty

def setFreeList (a : Power2Allocator) (c : ℕ) (m : JudyL) : Power2Allocator :=
  { a with freeLists := a.freeLists.set c m }

def bfSysAssert (a : Power2Allocator) (cond : Bool) : Power2Allocator :=
  { a with asserts := a.asserts && cond }

/-! ## Free lists -/

/-- `free_log2` as computed at the top of every chunk loop. -/
def freeLog2 (a : Power2Allocator) (curIndex remSize : ℕ) : ℕ :=
  let tz := ctz curIndex
  let log2Size := log2Uint32Ceil remSize
  let freeLog2 := if tz < log2Size then tz else log2Size
  if freeLog2 ≥ a.noFreeLists then u32Sub a.noFreeLists 1 else freeLog2

/-- The three assertions every chunk loop makes about `free_log2`. -/
def assertFreeLog2 (a : Power2Allocator) (freeLog2 curIndex : ℕ) : Power2Allocator :=
  ((a.bfSysAssert (freeLog2 < 32)).bfSysAssert (curIndex % shl1 freeLog2 = 0)).bfSysAssert
    (ctz curIndex ≥ ctz (shl1 freeLog2))

/-- The loop of `power2_allocator_remove_free_index`; each iteration takes at least one index, so
    `rem_size` iterations suffice. -/
def removeFreeIndexLoop : ℕ → Power2Allocator → ℕ → ℕ → ℤ × Power2Allocator
  | 0, a, _, _ => (0, a)
  | fuel + 1, a, curIndex, remSize =>
    if remSize = 0 then (0, a)
    else
      let freeLog2 := a.freeLog2 curIndex remSize
      let a := a.assertFreeLog2 freeLog2 curIndex
      match (a.freeList freeLog2).lookup curIndex with
      | none => (1, a.bfSysAssert false)
      | some tmpSize =>
        let a := a.setFreeList freeLog2 ((a.freeList freeLog2).erase curIndex)
        if remSize < shl1 freeLog2 then (0, a.bfSysAssert (tmpSize = remSize))
        else
          removeFreeIndexLoop fuel (a.bfSysAssert (tmpSize = shl1 freeLog2))
            (u32Add curIndex (shl1 freeLog2)) (u32Sub remSize (shl1 freeLog2))

/-- `power2_allocator_remove_free_index`. -/
def removeFreeIndex (a : Power2Allocator) (freeIndex size : ℕ) : ℤ × Power2Allocator :=
  removeFreeIndexLoop size a freeIndex size

/-- `power2_allocator_remove_one_free`: the index found (`(uint32_t)-1` if none), `*free_size` and
    the allocator. -/
def removeOneFree (a : Power2Allocator) (log2 size freeSize : ℕ) : ℕ × ℕ × Power2Allocator :=
  if log2 ≥ a.noFreeLists then (u32Max, freeSize, a)
  else
    let a := a.bfSysAssert (size ≤ shl1 log2)
    let m := a.freeList log2
    match m.walk (fun _ v => decide (v ≥ size)) m.card (m.first 0) with
    | none => (u32Max, freeSize, a)
    | some (index, v) => (index, v, a.setFreeList log2 (m.erase index))

/-- The loop of `power2_allocator_insert_one_free`; each iteration fills at least one index. -/
def insertOneFreeLoop : ℕ → Power2Allocator → ℕ → ℕ → Power2Allocator
  | 0, a, _, _ => a
  | fuel + 1, a, curIndex, remSize =>
    if remSize = 0 then a
    else
      let freeLog2 := a.freeLog2 curIndex remSize
      let a := a.assertFreeLog2 freeLog2 curIndex
      let m := a.freeList freeLog2
      let a := a.bfSysAssert ((m.lookup curIndex).getD 0 = 0)
      if remSize < shl1 freeLog2 then
        (a.bfSysAssert (remSize > shl1 freeLog2 / 2)).setFreeList freeLog2
          (m.insert curIndex remSize)
      else
        insertOneFreeLoop fuel (a.setFreeList freeLog2 (m.insert curIndex (shl1 freeLog2)))
          (u32Add curIndex (shl1 freeLog2)) (u32Sub remSize (shl1 freeLog2))

/-- `power2_allocator_insert_one_free`. -/
def insertOneFree (a : Power2Allocator) (freeIndex size : ℕ) : Power2Allocator :=
  insertOneFreeLoop size a freeIndex size

/-! ## In-use list -/

/-- `power2_allocator_mark_inuse`. -/
def markInuse (a : Power2Allocator) (allocIndex size : ℕ) : Power2Allocator :=
  let a := a.bfSysAssert ((a.inuseList.lookup allocIndex).getD 0 = 0)
  { a with inuseList := a.inuseList.insert allocIndex size }

/-- `power2_allocator_get_index_size`: `(uint32_t)-1` if the index is not in use. -/
def getIndexSize (a : Power2Allocator) (allocIndex : ℕ) : ℕ × Power2Allocator :=
  match a.inuseList.lookup allocIndex with
  | none => (u32Max, a)
  | some size => (size, a.bfSysAssert (size ≠ 0))

/-- `power2_allocator_mark_free`. -/
def markFree (a : Power2Allocator) (allocIndex : ℕ) : Power2Allocator :=
  let a := a.bfSysAssert (a.inuseList.lookup allocIndex).isSome
  { a with inuseList := a.inuseList.erase allocIndex }

/-- `power2_allocator_get_next_inuse_block`: index and size, `(uint32_t)-1` and 0 if none. -/
def getNextInuseBlock (a : Power2Allocator) (allocIndex : ℕ) : ℕ × ℕ :=
  (a.inuseList.next allocIndex).getD (u32Max, 0)

/-- `power2_allocator_get_prev_inuse_block`. -/
def getPrevInuseBlock (a : Power2Allocator) (allocIndex : ℕ) : ℕ × ℕ :=
  (a.inuseList.prev allocIndex).getD (u32Max, 0)

/-! ## Create -/

/-- The loop of `power2_allocator_create`: `count` more blocks from `free_index` on. -/
def createLoop (size : ℕ) : ℕ → Power2Allocator → ℕ → Power2Allocator
  | 0, a, _ => a
  | count + 1, a, freeIndex =>
    createLoop size count (a.insertOneFree freeIndex size) (u32Add freeIndex size)

/-- `power2_allocator_create`; `none` is the NULL returned for a size that is no power of two. -/
def create (size count : ℕ) : Option Power2Allocator :=
  if isUint32Power2 size then
    let log2 := log2Uint32Ceil size
    some <| createLoop size count
      { maxSize := size
        totalSize := u32 (size * count)
        noFreeLists := log2 + 1
        freeLists := List.replicate (log2 + 1) OrderedMap.empty
        inuseList := OrderedMap.empty
        asserts := true } 0
  else none

/-! ## Alloc -/

/-- The search loop of `power2_allocator_alloc` from free list `i` on; the fuel counts the lists
    left. -/
def allocScan (size : ℕ) : ℕ → Power2Allocator → ℕ → ℕ → ℕ × ℕ × Power2Allocator
  | 0, a, _, freeSize => (u32Max, freeSize, a)
  | fuel + 1, a, i, freeSize =>
    let r := a.removeOneFree i size freeSize
    if r.1 ≠ u32Max then r else allocScan size fuel r.2.2 (i + 1) r.2.1

/-- The last index aligned at `2 ^ log2` from which `size` fits into the free chunk: the last aligned
    index of the chunk, one step further left if the request does not fit there. -/
def lastFit (log2 size freeIndex freeSize : ℕ) : ℕ :=
  let allocIndex :=
    u32 (u32Sub (u32Add freeIndex freeSize) 1 &&& (2 ^ 64 - 1 - (2 ^ log2 - 1)))
  if u32Add allocIndex size > u32Add freeIndex freeSize then u32Sub allocIndex (shl1 log2)
  else allocIndex

/-- `power2_allocator_alloc`. -/
def alloc (a : Power2Allocator) (size : ℕ) : ℤ × Power2Allocator :=
  if a.maxSize < size then (-1, a)
  else
    let log2 := log2Uint32Ceil size
    let r := allocScan size (a.noFreeLists - log2) a log2 0
    let freeIndex := r.1
    let freeSize := r.2.1
    let a := r.2.2
    if freeIndex = u32Max then (-1, a)
    else
      let allocIndex := lastFit log2 size freeIndex freeSize
      let a := a.bfSysAssert (allocIndex ≥ freeIndex)
      let a := a.bfSysAssert (u32Add allocIndex size ≤ u32Add freeIndex freeSize)
      let a := a.insertOneFree freeIndex (u32Sub allocIndex freeIndex)
      let a := a.insertOneFree (u32Add allocIndex size)
        (u32Sub (u32Add freeIndex freeSize) (u32Add allocIndex size))
      (toInt allocIndex, a.markInuse allocIndex size)

/-! ## Release and reserve -/

/-- `power2_allocator_release`. -/
def release (a : Power2Allocator) (index : ℕ) : ℤ × Power2Allocator :=
  let size := (a.getIndexSize index).1
  let a := (a.getIndexSize index).2
  if size = u32Max then (-1, a)
  else
    let prev := a.getPrevInuseBlock index
    let next := a.getNextInuseBlock index
    let freeIndex := if prev.1 ≠ u32Max then u32Add prev.1 prev.2 else 0
    let freeSize := u32Add size (u32Sub index freeIndex)
    let r := a.removeFreeIndex freeIndex (u32Sub index freeIndex)
    if r.1 ≠ 0 then (-1, r.2.bfSysAssert false)
    else
      let nextIndex := if next.1 = u32Max then a.totalSize else next.1
      let freeSize := u32Add freeSize (u32Sub nextIndex (u32Add index size))
      let r := r.2.removeFreeIndex (u32Add index size) (u32Sub nextIndex (u32Add index size))
      if r.1 ≠ 0 then (-1, r.2.bfSysAssert false)
      else (0, (r.2.insertOneFree freeIndex freeSize).markFree index)

/-- `power2_allocator_reserve`. -/
def reserve (a : Power2Allocator) (reserveIndex reserveSize : ℕ) : ℤ × Power2Allocator :=
  let size := (a.getIndexSize reserveIndex).1
  let a := (a.getIndexSize reserveIndex).2
  if size ≠ u32Max then (1, a)
  else
    let prev := a.getPrevInuseBlock reserveIndex
    let next := a.getNextInuseBlock reserveIndex
    let prevFreeIndex := if prev.1 ≠ u32Max then u32Add prev.1 prev.2 else 0
    let nextInuseIndex := if next.1 = u32Max then a.totalSize else next.1
    if reserveIndex < prevFreeIndex then (1, a)
    -- the sum is a `uint32_t`; nothing else compares the range with `total_size`
    else if u32Add reserveIndex reserveSize > nextInuseIndex then (1, a)
    else
      let r := a.removeFreeIndex prevFreeIndex (u32Sub nextInuseIndex prevFreeIndex)
      if r.1 ≠ 0 then (-1, r.2.bfSysAssert false)
      else
        let a := r.2.insertOneFree prevFreeIndex (u32Sub reserveIndex prevFreeIndex)
        let a := a.insertOneFree (u32Add reserveIndex reserveSize)
          (u32Sub nextInuseIndex (u32Add reserveIndex reserveSize))
        (0, a.markInuse reserveIndex reserveSize)

/-! ## Groups of blocks -/

/-- The inner `for` of `power2_allocator_alloc_int_v2`: with the chunk found at `index` (if any), the
    `(free_index[i], free_size[i])` of `n` blocks at stride `1 << log2`, unless a chunk is missing or
    too short. -/
def contiguousBlocks (m : JudyL) (log2 size : ℕ) : ℕ → ℕ → Option ℕ → Option (List (ℕ × ℕ))
  | 0, _, _ => some []
  | _ + 1, _, none => none
  | n + 1, index, some v =>
    if v < size then none
    else
      let index' := u64Add index (sext32 (shl1 log2))
      (contiguousBlocks m log2 size n index' (m.lookup index')).map ((u32 index, v) :: ·)

/-- The `while (true)` of `power2_allocator_alloc_int_v2` from scan position `index`: `some none` when
    no chunk is left, `some (some blocks)` when a group is found, `none` when the fuel runs out. -/
def groupSearch (m : JudyL) (log2 size count align : ℕ) : ℕ → ℕ → Option (Option (List (ℕ × ℕ)))
  | 0, _ => none
  | fuel + 1, index =>
    let nextIndex := u32 (index + align)
    match m.first index with
    | none => some none
    | some (index, v) =>
      if index % align ≠ 0 then groupSearch m log2 size count align fuel nextIndex
      else
        match contiguousBlocks m log2 size count index (some v) with
        | some blocks => some (some blocks)
        | none => groupSearch m log2 size count align fuel nextIndex

/-- "Remove all of the free_indexes": the tail of every chunk goes back to the free lists. -/
def takeBlocks (log2 size : ℕ) (blocks : List (ℕ × ℕ)) (a : Power2Allocator) : Power2Allocator :=
  blocks.foldl (fun a b =>
    let m := a.freeList log2
    let a := a.setFreeList log2 (m.erase b.1)
    let a := a.bfSysAssert (m.lookup b.1).isSome
    a.insertOneFree (u32Add b.1 size) (u32Sub b.2 size)) a

/-- "Mark everything as in use". -/
def markBlocks (log2 size base : ℕ) (blocks : List (ℕ × ℕ)) (a : Power2Allocator) :
    Power2Allocator :=
  blocks.zipIdx.foldl (fun a b =>
    (a.bfSysAssert (b.1.1 = u32Add base (b.2 * shl1 log2 % 2 ^ 32))).markInuse b.1.1 size) a

/-- `power2_allocator_alloc_int_v2`, with fuel for its search loop. Its two arrays of `count` words are
    assumed to fit on the stack. -/
def allocIntV2 (fuel : ℕ) (a : Power2Allocator) (log2 size count align : ℕ) :
    Option (ℤ × Power2Allocator) :=
  if log2 ≠ u32Sub a.noFreeLists 1 ∨ count = 0 then some (-1, a)
  else
    let a := a.bfSysAssert (size ≤ shl1 log2)
    match groupSearch (a.freeList log2) log2 size count align fuel 0 with
    | none => none
    | some none => some (-1, a)
    | some (some blocks) =>
      let base := (blocks.headD (0, 0)).1
      some (toInt base, markBlocks log2 size base blocks (takeBlocks log2 size blocks a))

/-- `power2_allocator_alloc_multiple`; `none` when the fuel of the search loop runs out. -/
def allocMultiple (fuel : ℕ) (a : Power2Allocator) (size count : ℕ) :
    Option (ℤ × Power2Allocator) :=
  if count = 1 then some (a.alloc size)
  else
    let totalSize := u32 (shl1 (log2Uint32Ceil size) * count)
    if a.totalSize < totalSize then some (-1, a)
    else
      let align := shl1 (log2Uint32Ceil totalSize)
      let log2 := log2Uint32Ceil size
      if log2 ≠ u32Sub a.noFreeLists 1 then some (-1, a)
      else a.allocIntV2 fuel log2 size count align

/-- The loop of `power2_allocator_release_multiple` with `n` blocks left. -/
def releaseMultipleLoop (log2 size : ℕ) : ℕ → Power2Allocator → ℕ → ℤ × Power2Allocator
  | 0, a, _ => (0, a)
  | n + 1, a, index =>
    -- `size` is the one of the first block in every round
    let next := a.getNextInuseBlock index
    let nextIndex := if next.1 = u32Max then a.totalSize else next.1
    let freeSize := u32Add size (u32Sub nextIndex (u32Add index size))
    let r := a.removeFreeIndex (u32Add index size) (u32Sub nextIndex (u32Add index size))
    if r.1 ≠ 0 then (-1, r.2.bfSysAssert false)
    else
      releaseMultipleLoop log2 size n ((r.2.insertOneFree index freeSize).markFree index)
        (u32Add index (shl1 log2))

/-- `power2_allocator_release_multiple`. -/
def releaseMultiple (a : Power2Allocator) (index count : ℕ) : ℤ × Power2Allocator :=
  if count = 1 then a.release index
  else
    let size := (a.getIndexSize index).1
    let a := (a.getIndexSize index).2
    if size = u32Max then (-1, a)
    else
      let log2 := log2Uint32Ceil size
      if log2 ≠ u32Sub a.noFreeLists 1 then (-1, a)
      else releaseMultipleLoop log2 size count a index

/-! ## Counters -/

/-- `power2_allocator_alloc_count_by_size`. -/
def allocCountBySize (a : Power2Allocator) (size : ℕ) : ℤ :=
  if size > a.maxSize then 0
  else a.inuseList.foldWalk (fun count x => if x.2 = size then count + 1 else count)
    a.inuseList.card (a.inuseList.first 0) 0

/-- `power2_allocator_usage`: of the sum only the low 32 bits reach the `int`. -/
def usage (a : Power2Allocator) : ℤ :=
  toInt (a.inuseList.foldWalk (fun count x => u32Add count x.2) a.inuseList.card
    (a.inuseList.first 0) 0)

/-- `power2_allocator_alloc_count`. -/
def allocCount (a : Power2Allocator) : ℕ := u32 a.inuseList.card

/-! ## Enumeration and copies -/

/-- `power2_allocator_first_alloc`; the word found is returned as an `int`. -/
def firstAlloc (a : Power2Allocator) : ℤ :=
  match a.inuseList.first 0 with
  | none => -1
  | some x => toInt x.1

/-- `power2_allocator_next_alloc`; `idx` is sign-extended to a word. -/
def nextAlloc (a : Power2Allocator) (idx : ℤ) : ℤ :=
  match a.inuseList.next (idx % 2 ^ 64).toNat with
  | none => -1
  | some x => toInt x.1

/-- The loops of `power2_allocator_make_copy`: every entry found by `JLF` and `JLN` is inserted. -/
def copyEntries (src : JudyL) : JudyL :=
  src.foldWalk (fun dest x => dest.insert x.1 x.2) src.card (src.first 0) OrderedMap.empty

/-- `power2_allocator_make_copy`. -/
def makeCopy (src : Power2Allocator) : Power2Allocator :=
  let dest := { src with
    freeLists := List.replicate src.noFreeLists OrderedMap.empty
    inuseList := OrderedMap.empty }
  let dest := (List.range dest.noFreeLists).foldl (fun dest i =>
    dest.setFreeList i (copyEntries (src.freeList i))) dest
  { dest with inuseList := copyEntries src.inuseList }

/-! ## Consistency check

The checker changes nothing, and `bf_sys_assert` is taken to stop it: `none` is a check that did not
run through. -/

/-- The loop of `power2_allocator_free_list_assert`; each iteration checks at least one index. -/
def freeListAssertLoop (a : Power2Allocator) : ℕ → ℕ → ℕ → Option Unit
  | 0, _, _ => some ()
  | fuel + 1, curIndex, remSize =>
    if remSize = 0 then some ()
    else do
      let freeLog2 := a.freeLog2 curIndex remSize
      guard (freeLog2 < 32)
      guard (curIndex % shl1 freeLog2 = 0)
      guard (ctz curIndex ≥ ctz (shl1 freeLog2))
      let tmpSize ← (a.freeList freeLog2).lookup curIndex
      if remSize < shl1 freeLog2 then guard (tmpSize = remSize)
      else do
        guard (tmpSize = shl1 freeLog2)
        freeListAssertLoop a fuel (u32Add curIndex (shl1 freeLog2))
          (u32Sub remSize (shl1 freeLog2))

/-- `power2_allocator_free_list_assert`. -/
def freeListAssert (a : Power2Allocator) (freeIndex size : ℕ) : Option Unit :=
  a.freeListAssertLoop size freeIndex size

/-- `for (i = index; i < stop; i++)` with `J1S` of `i`, which must not be set before. The bound is a
    64-bit sum and `i` a `uint32_t`, so a bound above `u32Max` is never reached. -/
def markLoop (stop : ℕ) : ℕ → Judy1 → ℕ → Option Judy1
  | 0, _, _ => none
  | fuel + 1, m, i =>
    if i < stop then do
      guard (i ∉ m)
      markLoop stop fuel (m.set i) (u32Add i 1)
    else some m

/-- The indices of an entry (index, size) are marked in `m`. -/
def markEntry (m : Judy1) (x : ℕ × ℕ) : Option Judy1 := markLoop (x.1 + x.2) (x.2 + 1) m x.1

/-- An entry of the free list `log2Index` is marked after a check of its size. -/
def markFreeEntry (log2Index : ℕ) (m : Judy1) (x : ℕ × ℕ) : Option Judy1 := do
  guard (x.2 ≤ shl1 log2Index)
  guard (x.2 > shl1 log2Index / 2)
  markEntry m x

/-- `free_array` of `power2_allocator_assert`. -/
def freeArray (a : Power2Allocator) : Option Judy1 :=
  (List.range a.noFreeLists).foldl (fun free log2Index =>
    let m := a.freeList log2Index
    m.foldWalk (fun free x => free.bind (markFreeEntry log2Index · x)) m.card (m.first 0) free)
    (some OrderedMap.empty)

/-- `inuse_array` of `power2_allocator_assert`. -/
def inuseArray (a : Power2Allocator) : Option Judy1 :=
  a.inuseList.foldWalk (fun inuse x => inuse.bind (markEntry · x)) a.inuseList.card
    (a.inuseList.first 0) (some OrderedMap.empty)

/-- The free space from `free_index` to the block (index, size) is checked; the new `free_index` is
    the end of the block. -/
def gapAssert (a : Power2Allocator) (freeIndex : ℕ) (x : ℕ × ℕ) : Option ℕ := do
  a.freeListAssert freeIndex (u32Sub (u32 x.1) freeIndex)
  return u32 (x.1 + x.2)

/-- `free_index` after the walk over the blocks in use. -/
def gapsAssert (a : Power2Allocator) : Option ℕ :=
  a.inuseList.foldWalk (fun freeIndex x => freeIndex.bind (a.gapAssert · x)) a.inuseList.card
    (a.inuseList.first 0) (some 0)

/-- `power2_allocator_assert`. -/
def assert (a : Power2Allocator) : Option Unit := do
  let free ← a.freeArray
  let inuse ← a.inuseArray
  guard (∀ i < a.totalSize, if i ∈ free then i ∉ inuse else i ∈ inuse)
  let freeIndex ← a.gapsAssert
  (if freeIndex ≠ a.totalSize then
    a.freeListAssert freeIndex (u32Sub a.totalSize freeIndex) else some ())
  guard (free.first a.totalSize = none)
  guard (inuse.first a.totalSize = none)

end Power2Allocator
