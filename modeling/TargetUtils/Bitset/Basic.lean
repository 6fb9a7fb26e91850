import TargetUtils.BitUtils
import TargetUtils.Library.WordArray

set_option autoImplicit false

/-! # Bitsets

Translation of `bitset.c`. A bitset is what `bf_bs_init` sets up: a positive `int` width and
`BF_BITSET_ARRAY_SIZE(width)` words, whatever they hold. Two bitsets do not share their memory.

A function has no result (`none`) when it uses a word outside the array, shifts a word by 64 or
more, or fails one of the assertions of `bf_bs_get_word`, `bf_bs_set_word`, `bf_bs_copy` and
`bf_bs_copy_range`, which no check follows. The functions that check a position after asserting it
go by the check. -/

/-- `BF_BITSET_ARRAY_SIZE`. -/
def bitsetArraySize (width : ℕ) : ℕ := (width + (64 - 1)) / 64

/-- `bf_bitset_t`. -/
structure Bitset where
  width : ℕ
  bs : List (BitVec 64)
  width_pos : 0 < width
  width_lt : width < 2 ^ 31
  length_eq : bs.length = bitsetArraySize width

namespace Bitset

open WordArray

/-- A `uint64_t`. -/
abbrev Word := BitVec 64

/-! ## Words -/

/-- `x << n`, undefined from 64 on. -/
def shl (x : Word) (n : ℕ) : Option Word := if n < 64 then some (x <<< n) else none

/-- `x >> n`, undefined from 64 on. -/
def shr (x : Word) (n : ℕ) : Option Word := if n < 64 then some (x >>> n) else none

/-- `(UINT64_C(1) << n) - 1`. -/
def lowBits (n : ℕ) : Option Word := (shl 1 n).map (· - 1)

/-- `bs->bs[i]`. -/
def word (b : Bitset) (i : ℕ) : Option Word := b.bs[i]?

/-- `bs->bs[i] = f(bs->bs[i])`. -/
def modifyWord (b : Bitset) (i : ℕ) (f : Word → Word) : Option Bitset :=
  if i < b.bs.length then
    some { b with
      bs := b.bs.set i (f (b.bs.getD i 0))
      length_eq := by rw [List.length_set, b.length_eq] }
  else none

/-- `length`. -/
def length (b : Bitset) : ℕ := bitsetArraySize b.width

/-- `top_word_mask`. -/
def topWordMask (b : Bitset) : Option Word :=
  if b.width % 64 ≠ 0 then lowBits (b.width % 64) else some (BitVec.allOnes 64)

/-- `bs->bs[len - 1] &= top_word_mask(bs)`. -/
def maskTop (b : Bitset) : Option Bitset := do
  let mask ← b.topWordMask
  b.modifyWord (b.length - 1) (· &&& mask)

/-! ## Set up -/

/-- `memset` over all words of the set with the bytes of `x`. -/
def fill (b : Bitset) (x : Word) : Bitset :=
  { b with
    bs := List.replicate b.length x
    length_eq := List.length_replicate }

/-- `BF_BITSET`: `bf_bs_init` over an array of zeros. -/
def zeroed (width : ℕ) (h : 0 < width ∧ width < 2 ^ 31) : Bitset where
  width := width
  bs := List.replicate (bitsetArraySize width) 0
  width_pos := h.1
  width_lt := h.2
  length_eq := List.length_replicate

/-- `bf_bs_set_all`. -/
def setAll (b : Bitset) (val : ℤ) : Option Bitset :=
  if val = 1 then (b.fill (BitVec.allOnes 64)).maskTop
  else do
    guard (val = 0)
    pure (b.fill 0)

/-! ## Single bits -/

/-- `bf_bs_set`. -/
def set (b : Bitset) (position val : ℤ) : Option (Bool × Bitset) :=
  if position < 0 ∨ b.width ≤ position then some (false, b)
  else do
    let idx := position.toNat / 64
    let tmp ← shl 1 (position.toNat % 64)
    let word ← b.word idx
    let prev := decide (word &&& tmp ≠ 0)
    if val ≠ 0 ∧ prev = false then do
      let b ← b.modifyWord idx (· ||| tmp)
      pure (prev, b)
    else if val = 0 ∧ prev = true then do
      let b ← b.modifyWord idx (· &&& ~~~tmp)
      pure (prev, b)
    else pure (prev, b)

/-- `bf_bs_get`. -/
def get (b : Bitset) (position : ℤ) : Option Bool :=
  if position < 0 ∨ b.width ≤ position then some false
  else do
    let word ← b.word (position.toNat / 64)
    let word ← shr word (position.toNat % 64)
    pure (word.getLsbD 0)

/-- The loop of `bf_bs_first_set` and `bf_bs_first_clr` over `k` words from word `i` on; `f` is what
    they look at, and `some (some p)` is `return p`. -/
def firstLoop (f : Word → Word) (b : Bitset) : (k i : ℕ) → Option (Option ℤ)
  | 0, _ => some none
  | k + 1, i => do
    let word ← b.word i
    if ffs (f word) ≠ 0 then pure (some (toInt (64 * i + ffs (f word) - 1)))
    else firstLoop f b k (i + 1)

/-- The part of `bf_bs_first_set` and `bf_bs_first_clr` behind word `i`: the loop, then the top word. -/
def firstBehind (f : Word → Word) (b : Bitset) (i : ℕ) : Option ℤ := do
  match ← firstLoop f b (b.length - 1 - (i + 1)) (i + 1) with
  | some p => pure p
  | none =>
    let i := b.length - 1
    let word ← b.word i
    if ffs (f word) ≠ 0 ∧ 64 * i + ffs (f word) - 1 < b.width then
      pure (toInt (64 * i + ffs (f word) - 1))
    else pure (-1)

/-- `bf_bs_first_set` and `bf_bs_first_clr`, which differ in whether a word is complemented. -/
def first (f : Word → Word) (b : Bitset) (position : ℤ) : Option (ℤ × Bitset) :=
  if position + 1 < 0 ∨ b.width ≤ position + 1 then some (-1, b)
  else do
    let i := (position + 1).toNat / 64
    let shift := (position + 1).toNat % 64
    let b ← b.maskTop
    let word ← b.word i
    let word ← shr (f word) shift
    -- not compared with the width, also when this is the top word
    if ffs word ≠ 0 then pure (toInt (64 * i + ffs word - 1 + shift), b)
    else if i = b.length - 1 then pure (-1, b)
    else (firstBehind f b i).map fun p => (p, b)

/-- `bf_bs_first_set`. -/
def firstSet : Bitset → ℤ → Option (ℤ × Bitset) := first id

/-- `bf_bs_first_clr`. -/
def firstClr : Bitset → ℤ → Option (ℤ × Bitset) := first (~~~ ·)

/-! ## Up to 64 bits -/

/-- `bf_bs_set_word`. -/
def setWord (b : Bitset) (position size : ℤ) (val : Word) : Option Bitset := do
  guard (0 ≤ position ∧ position < b.width)
  guard (0 < size ∧ size ≤ 64)
  let position := position.toNat
  let size := min (b.width - position) size.toNat
  let modBitOffset := position % 64
  let (val, clear) ← (if size < 64 then (lowBits size).map fun mask => (val &&& mask, mask)
    else some (val, BitVec.allOnes 64))
  let clear ← shl clear modBitOffset
  let b ← b.modifyWord (position / 64) (· &&& ~~~clear)
  let low ← shl val modBitOffset
  let b ← b.modifyWord (position / 64) (· ||| low)
  if modBitOffset + size > 64 then do
    let spill := modBitOffset + size - 64
    let clear ← lowBits spill
    let b ← b.modifyWord (position / 64 + 1) (· &&& ~~~clear)
    let high ← shr val (size - spill)
    b.modifyWord (position / 64 + 1) (· ||| high)
  else pure b

/-- `bf_bs_get_word`. -/
def getWord (b : Bitset) (bitOffset nBits : ℤ) : Option Word := do
  guard (0 ≤ bitOffset ∧ bitOffset < b.width)
  guard (0 < nBits ∧ nBits ≤ 64)
  let bitOffset := bitOffset.toNat
  let nBits := min (b.width - bitOffset) nBits.toNat
  let word ← b.word (bitOffset / 64)
  let modBitOffset := bitOffset % 64
  let word ← (if modBitOffset ≠ 0 then do
      let word ← shr word modBitOffset
      if modBitOffset + nBits > 64 then do
        let spill := modBitOffset + nBits - 64
        let word2 ← b.word (bitOffset / 64 + 1)
        let high ← shl word2 (nBits - spill)
        pure (word ||| high)
      else pure word
    else pure word)
  if nBits < 64 then do
    let mask ← lowBits nBits
    pure (word &&& mask)
  else pure word

/-! ## Whole sets and ranges -/

/-- The loops of `bf_bs_all_1s` and `bf_bs_all_0s`: whether the `k` words from word `i` on are all
    equal to `x`. -/
def allLoop (x : Word) (b : Bitset) : (k i : ℕ) → Option Bool
  | 0, _ => some true
  | k + 1, i => do
    let word ← b.word i
    if word ≠ x then pure false else allLoop x b k (i + 1)

/-- `bf_bs_all_1s`. -/
def all1s (b : Bitset) : Option Bool := do
  let full ← allLoop (BitVec.allOnes 64) b (b.length - 1) 0
  if full then do
    -- the top word is not masked here
    let word ← b.word (b.length - 1)
    if b.width % 64 ≠ 0 then do
      let mask ← lowBits (b.width % 64)
      pure (word = mask)
    else pure (word = BitVec.allOnes 64)
  else pure false

/-- `bf_bs_all_0s`. -/
def all0s (b : Bitset) : Option (Bool × Bitset) := do
  let b ← b.maskTop
  let zero ← allLoop 0 b b.length 0
  pure (zero, b)

/-- `bf_bs_pop_count`. -/
def popCount (b : Bitset) : Option (ℤ × Bitset) := do
  let b ← b.maskTop
  let cnt ← (List.range b.length).foldlM (fun cnt i => (b.word i).map (cnt + popcount ·)) 0
  pure (toInt cnt, b)

/-- The loop of `bf_bs_equal` over `k` words from word `i` on. -/
def equalLoop (x y : Bitset) : (k i : ℕ) → Option Bool
  | 0, _ => some true
  | k + 1, i => do
    let xx ← x.getWord (toInt (i * 64)) 64
    let yy ← y.getWord (toInt (i * 64)) 64
    if xx ≠ yy then pure false else equalLoop x y k (i + 1)

/-- `bf_bs_equal`. -/
def equal (x y : Bitset) : Option (Bool × Bitset × Bitset) :=
  if x.width ≠ y.width then some (false, x, y)
  else do
    let x ← x.maskTop
    let y ← y.maskTop
    let eq ← equalLoop x y x.length 0
    pure (eq, x, y)

/-- `bf_bs_copy`. -/
def copy (dst src : Bitset) : Option Bitset := do
  guard (src.width = dst.width)
  let copyWord (dst : Bitset) (i : ℕ) : Option Bitset := do
    let word ← src.word i
    dst.modifyWord i fun _ => word
  let dst ← (List.range (src.width / 64)).foldlM copyWord dst
  -- the partial word, also when the width is a multiple of 64
  let word ← src.word (src.width / 64)
  let mask ← lowBits (src.width % 64)
  dst.modifyWord (src.width / 64) fun _ => word &&& mask

/-- One of the inner copies of `bf_bs_copy_range`. -/
def copyWord (dst : Bitset) (dstOffset : ℕ) (src : Bitset) (srcOffset : ℕ) (nBits : ℕ) :
    Option Bitset := do
  let x ← src.getWord (toInt srcOffset) nBits
  dst.setWord (toInt dstOffset) nBits x

/-- `bf_bs_copy_range`. -/
def copyRange (dst : Bitset) (dstOffset : ℕ) (src : Bitset) (srcOffset nBits : ℕ) :
    Option Bitset := do
  guard (u32Sub (u32Add srcOffset nBits) 1 < src.width)
  guard (u32Sub (u32Add dstOffset nBits) 1 < dst.width)
  -- as many words as the source set has, whatever the length of the range
  let dst ← (List.range (src.width / 64)).foldlM (fun dst i =>
    copyWord dst (dstOffset + i * 64) src (srcOffset + i * 64) 64) dst
  copyWord dst (dstOffset + src.width / 64 * 64) src (srcOffset + src.width / 64 * 64) (nBits % 64)

end Bitset
