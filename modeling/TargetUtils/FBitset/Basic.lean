import TargetUtils.Judy1

set_option autoImplicit false

/-! # The sparse bitset

Translation of `fbitset.c`: a width and a Judy1 array of the set positions. Positions and results of
the searches are `int`s, the indices inside them are 64-bit words. Wherever a search of the array
fails, the source drops or overwrites the index, so that no value it leaves there is ever used. -/

/-- `bf_fbitset_t`. -/
structure FBitset where
  width : ℕ
  fbs : Judy1
deriving DecidableEq

namespace FBitset

/-- `bf_fbs_init`. -/
def init (width : ℕ) : FBitset := { width := width, fbs := OrderedMap.empty }

/-- `bf_fbs_set`: the previous value, and the bitset afterwards. -/
def set (bs : FBitset) (position : ℕ) (val : Bool) : Bool × FBitset :=
  if val then (decide (position ∈ bs.fbs), { bs with fbs := bs.fbs.set position })
  else (decide (position ∈ bs.fbs), { bs with fbs := bs.fbs.unset position })

/-- `bf_fbs_get`. -/
def get (bs : FBitset) (position : ℕ) : Bool := decide (position ∈ bs.fbs)

/-- The `while (true)` loop of `bf_fbs_prev_clr_contiguous`; `none` when the fuel runs out. -/
def prevClrLoop (fbs : Judy1) (count : ℕ) : (fuel freeIndex lastFree : ℕ) → Option ℤ
  | 0, _, _ => none
  | fuel + 1, freeIndex, lastFree =>
    let lastFree := match fbs.prev lastFree with
      | none => 0
      | some index => u64Add index 1
    if u64Sub (u64Add freeIndex 1) lastFree ≥ count then
      some (toInt (u64Sub (u64Add freeIndex 1) count))
    else
      match fbs.prevEmpty lastFree with
      | none => some (-1)
      | some index => prevClrLoop fbs count fuel index index

/-- `bf_fbs_prev_clr_contiguous`, with fuel for its loop. -/
def prevClrContiguous (fuel : ℕ) (bs : FBitset) (position : ℤ) (count : ℕ) :
    Option (ℤ × FBitset) :=
  if position ≤ 0 then some (-1, bs)
  else
    let position := (position - 1).toNat
    if u32 (position + 1) < count ∨ position ≥ bs.width then some (-1, bs)
    else
      match bs.fbs.lastEmpty position with
      | none => some (-1, bs)
      | some freeIndex =>
        if count = 1 then some (toInt freeIndex, bs)
        else (prevClrLoop bs.fbs count fuel freeIndex freeIndex).map fun r => (r, bs)

/-- The `while` loop of `bf_fbs_first_clr_contiguous`; `none` when the fuel runs out. -/
def firstClrLoop (fbs : Judy1) (width count : ℕ) : (fuel freeIndex lastFree : ℕ) → Option ℤ
  | 0, _, _ => none
  | fuel + 1, freeIndex, lastFree =>
    if lastFree < width then
      let lastFree := match fbs.next lastFree with
        | none => u32Sub width 1
        | some index => u64Sub index 1
      if u64Sub (u64Add lastFree 1) freeIndex ≥ count then some (toInt freeIndex)
      else
        match fbs.nextEmpty lastFree with
        | none => some (-1)
        | some index => firstClrLoop fbs width count fuel index index
    else some (-1)

/-- `bf_fbs_first_clr_contiguous`, with fuel for its loop. -/
def firstClrContiguous (fuel : ℕ) (bs : FBitset) (position : ℤ) (count : ℕ) :
    Option (ℤ × FBitset) :=
  let position := position + 1
  -- the sum is an `unsigned int` and wraps for a `count` near `2 ^ 32`
  if position < 0 ∨ u32Add position.toNat count > bs.width then some (-1, bs)
  else
    match bs.fbs.firstEmpty position.toNat with
    | none => some (-1, bs)
    | some freeIndex =>
      if freeIndex ≥ bs.width then some (-1, bs)
      else if count = 1 then some (toInt freeIndex, bs)
      else (firstClrLoop bs.fbs bs.width count fuel freeIndex freeIndex).map fun r => (r, bs)

/-- `bf_fbs_first_set`. -/
def firstSet (bs : FBitset) (position : ℤ) : ℤ :=
  let position := position + 1
  if position < 0 ∨ bs.width < position then -1
  else
    match bs.fbs.first position.toNat with
    | none => -1
    | some setIndex => toInt setIndex

end FBitset
