import TargetUtils.Judy1

set_option autoImplicit false

/-! # The id allocator

Translation of `id.c`. A failed search leaves "no useful information" in `Index`: the value that the
`k`-th failed `J1N` of the search loop leaves is `miss k index`, a parameter of the model, and
`judy1NextMiss` is what the Judy1 of the repository leaves.

`bf_sys_assert(id > 0)` does not alter the state; without it an id of 0 wraps in a one-based
allocator, as in the source. -/

/-! ## Allocator -/

/-- `bf_id_allocator_int`. -/
structure IdAllocator where
  pj1Array : Judy1
  size : ℕ
  zeroBased : Bool
deriving DecidableEq

namespace IdAllocator

/-- `bf_id_allocator_new`. -/
def new (initialSize : ℕ) (zeroBased : Bool) : IdAllocator :=
  { pj1Array := OrderedMap.empty, size := initialSize, zeroBased := zeroBased }

/-- The `while` loop of `bf_id_allocator_allocate_contiguous` after `k` failed searches: `some none`
    for `return -1`, `some (some first_empty)` when the loop ends, `none` when the fuel runs out. -/
def contiguousLoop (m : Judy1) (size count : ℕ) (miss : ℕ → ℕ → ℕ) :
    (fuel k firstEmpty nextSet : ℕ) → Option (Option ℕ)
  | 0, _, _, _ => none
  | fuel + 1, k, firstEmpty, nextSet =>
    if u64Sub nextSet firstEmpty < count then
      match m.firstEmpty nextSet with
      | none => some none
      | some index =>
        match m.next index with
        | none =>
          -- the failed search has changed `Index`, and `next_set` stays what it was
          if u64Sub size (miss k index) < count then some none
          else contiguousLoop m size count miss fuel (k + 1) index nextSet
        | some index' => contiguousLoop m size count miss fuel k index index'
    else some (some firstEmpty)

/-- The id returned for a block at `firstEmpty`. -/
def returned (a : IdAllocator) (firstEmpty : ℕ) : ℤ :=
  if a.zeroBased then toInt firstEmpty else toInt (u64Add firstEmpty 1)

/-- "Set the bit(s) now in the Judy array". -/
def setBlock (a : IdAllocator) (firstEmpty count : ℕ) : IdAllocator :=
  { a with
    pj1Array := (List.range count).foldl (fun m i => m.set (u64Add firstEmpty i)) a.pj1Array }

/-- `bf_id_allocator_allocate_contiguous`, with fuel for its search loop. -/
def allocateContiguous (fuel : ℕ) (miss : ℕ → ℕ → ℕ) (a : IdAllocator) (count : ℕ) :
    Option (ℤ × IdAllocator) :=
  match a.pj1Array.firstEmpty 0 with
  | none => some (-1, a)
  | some index =>
    let firstEmpty := if index ≥ a.size then (a.pj1Array.firstEmpty 0).getD index else index
    if firstEmpty ≥ a.size then some (-1, a)
    else if count = 1 then
      some (a.returned firstEmpty, { a with pj1Array := a.pj1Array.set firstEmpty })
    else
      let nextSet := (a.pj1Array.next firstEmpty).getD a.size
      match contiguousLoop a.pj1Array a.size count miss fuel 0 firstEmpty nextSet with
      | none => none
      | some none => some (-1, a)
      | some (some firstEmpty) =>
        -- the end of the block is not compared with the size
        if firstEmpty > a.size then some (-1, a)
        else some (a.returned firstEmpty, a.setBlock firstEmpty count)

/-- `bf_id_allocator_allocate`: the result as an `unsigned int`. -/
def allocate (fuel : ℕ) (miss : ℕ → ℕ → ℕ) (a : IdAllocator) : Option (ℤ × IdAllocator) :=
  (a.allocateContiguous fuel miss 1).map fun r => (r.1 % 2 ^ 32, r.2)

/-- The index of an id, as `release` and `set` compute it. -/
def indexOf (a : IdAllocator) (id : ℕ) : ℕ := if a.zeroBased then id else u32Sub id 1

/-- `bf_id_allocator_release`. -/
def release (a : IdAllocator) (id : ℕ) : IdAllocator :=
  { a with pj1Array := a.pj1Array.unset (a.indexOf id) }

/-- `bf_id_allocator_set`. -/
def set (a : IdAllocator) (id : ℕ) : IdAllocator :=
  { a with pj1Array := a.pj1Array.set (a.indexOf id) }

/-- `bf_id_allocator_is_set`. -/
def isSet (a : IdAllocator) (id : ℕ) : ℤ :=
  if a.zeroBased = false ∧ id < 1 then 0
  else if a.indexOf id ∈ a.pj1Array then 1
  else 0

/-- `bf_id_allocator_get_first`: in a zero-based allocator `id` keeps its initial 0. -/
def getFirst (a : IdAllocator) : ℤ :=
  match a.pj1Array.first 0 with
  | some wdId => if a.zeroBased = false then toInt (u64Add wdId 1) else toInt 0
  | none => toInt u32Max

/-- `bf_id_allocator_get_next`. -/
def getNext (a : IdAllocator) (id : ℕ) : ℤ :=
  if a.zeroBased = false ∧ id = 0 then -1
  else
    match a.pj1Array.next (if a.zeroBased = false then id - 1 else id) with
    | some currId => if a.zeroBased = false then toInt (u64Add currId 1) else toInt currId
    | none => toInt u32Max

end IdAllocator
