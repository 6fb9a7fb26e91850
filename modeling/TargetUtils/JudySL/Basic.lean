import TargetUtils.Library.NearestEntry
import TargetUtils.Library.PaddedWords

set_option autoImplicit false

/-! # JudySL arrays

Translation of `JudySL.c`, an array of words indexed by strings. It is a tree of JudyL arrays, each
level of which is indexed by one word of the string, null-padded at its end; an index that is the
only one below a pointer is kept whole, in a shortcut leaf.

JudyL is an exact ordered map and memory does not run out, so there are no errors and no dead ends.
An index is not `NULL`. A buffer that a search writes is passed in with the caller's index and
returned when the search finds one. -/

namespace JudySL

/-- A byte of a string. -/
abbrev Chr := PaddedWords.Digit 256

/-- A `Word_t` in a value area; `wordSize` is `WORDSIZE`, 8 or, for 32 bits, 4. -/
abbrev Word (wordSize : ℕ) := BitVec (8 * wordSize)

/-- `scl_t`. -/
structure Scl (wordSize : ℕ) where
  value : Word wordSize
  index : List Chr
deriving DecidableEq

end JudySL

/-- What a `Pvoid_t` of the tree points to. The value area of a word that ends its index holds the
    caller's value, that of any other word points to the `next` array. -/
inductive JudySL (wordSize : ℕ)
  | null
  | scl (leaf : JudySL.Scl wordSize)
  | array (judyL : OrderedMap ℕ (JudySL.Word wordSize)) (next : ℕ → JudySL wordSize)

namespace JudySL

variable {wordSize : ℕ}

/-! ## Words -/

/-- `COPYSTRINGtoWORD`. -/
def copyStringToWord (wordSize : ℕ) (str : List Chr) : ℕ := PaddedWords.encode 256 wordSize str

/-- `COPYWORDtoSTRING`. -/
def copyWordToString (wordSize word : ℕ) : List Chr := PaddedWords.decode 256 wordSize word

/-- `LASTWORD_BY_VALUE`. -/
def lastWordByValue (word : ℕ) : Bool := decide (word % 256 = 0)

/-- `STRLEN`, which counts the null byte. -/
def strlen (index : List Chr) : ℕ := index.length + 1

/-! ## `JudySLGet` -/

def get : JudySL wordSize → List Chr → Option (Word wordSize)
  | null, _ => none
  | scl leaf, pos => if pos = leaf.index then some leaf.value else none
  | array judyL next, pos =>
    let indexword := copyStringToWord wordSize pos
    match judyL.lookup indexword with
    | none => none
    | some value =>
      if lastWordByValue indexword then some value else get (next indexword) (pos.drop wordSize)

/-- The caller's store through the pointer that `JudySLGet` or `JudySLIns` returned for an index. -/
def write : JudySL wordSize → List Chr → Word wordSize → JudySL wordSize
  | null, _, _ => null
  | scl leaf, pos, value => scl (if pos = leaf.index then { leaf with value := value } else leaf)
  | array judyL next, pos, value =>
    let indexword := copyStringToWord wordSize pos
    match judyL.lookup indexword with
    | none => array judyL next
    | some _ =>
      if lastWordByValue indexword then array (judyL.insert indexword value) next
      else array judyL
        (Function.update next indexword (write (next indexword) (pos.drop wordSize) value))

/-! ## `JudySLIns` -/

/-- `JudyLIns`, not called for a shortcut leaf; a new value area holds 0. -/
def judyLIns : JudySL wordSize → ℕ → JudySL wordSize
  | array judyL next, indexword =>
    match judyL.lookup indexword with
    | some _ => array judyL next
    | none => array (judyL.insert indexword 0) (Function.update next indexword null)
  | _, indexword => array (OrderedMap.empty.insert indexword 0) fun _ => null

/-- `*PPValue`, as a value and as a pointer. -/
def valueAt : JudySL wordSize → ℕ → Word wordSize
  | array judyL _, indexword => (judyL.lookup indexword).getD 0
  | _, _ => 0

def nextAt : JudySL wordSize → ℕ → JudySL wordSize
  | array _ next, indexword => next indexword
  | _, _ => null

/-- Stores to `*PPValue`. -/
def setValue : JudySL wordSize → ℕ → Word wordSize → JudySL wordSize
  | array judyL next, indexword, value => array (judyL.insert indexword value) next
  | t, _, _ => t

def setNext : JudySL wordSize → ℕ → JudySL wordSize → JudySL wordSize
  | array judyL next, indexword, sub => array judyL (Function.update next indexword sub)
  | t, _, _ => t

/-- The leaf one word further down. -/
def Scl.drop (leaf : Scl wordSize) : Scl wordSize :=
  { leaf with index := leaf.index.drop wordSize }

/-- How a round of the loop starts: it returns, with a new leaf or with the leaf of the index, or
    moves a leaf for another index aside. -/
def appendOrMoveAside (t : JudySL wordSize) (pscl : Option (Scl wordSize)) (pos : List Chr) :
    JudySL wordSize × Word wordSize ⊕ JudySL wordSize × Option (Scl wordSize) :=
  match t, pscl with
  | null, none => .inl (scl ⟨0, pos⟩, 0)
  | scl leaf, _ =>
    if pos = leaf.index then .inl (scl leaf, leaf.value) else .inr (null, some leaf)
  | t, pscl => .inr (t, pscl)

/-- Plug in the leaf that is carried down if the indexes diverge in this word. -/
def plugIn (t : JudySL wordSize) (pscl : Option (Scl wordSize)) (indexword : ℕ) :
    JudySL wordSize × Option (Scl wordSize) :=
  match pscl with
  | none => (t, none)
  | some leaf =>
    let indexword2 := copyStringToWord wordSize leaf.index
    if indexword ≠ indexword2 then
      let t := t.judyLIns indexword2
      if strlen leaf.index ≤ wordSize then (t.setValue indexword2 leaf.value, none)
      else (t.setNext indexword2 (scl leaf.drop), none)
    else (t, some leaf)

/-- A word that is not the last leaves less of the index. -/
theorem length_drop_lt [NeZero wordSize] {pos : List Chr} (h : ¬ strlen pos ≤ wordSize) :
    (pos.drop wordSize).length < pos.length := by
  have hpos : 0 < wordSize := NeZero.pos wordSize
  unfold strlen at h
  rw [List.length_drop]
  omega

/-- The loop, with the value in the value area it returns. `pscl` is the leaf carried down. -/
def insLoop [NeZero wordSize] (t : JudySL wordSize) (pscl : Option (Scl wordSize))
    (pos : List Chr) : JudySL wordSize × Word wordSize :=
  match t.appendOrMoveAside pscl pos with
  | .inl r => r
  | .inr (t, pscl) =>
    let indexword := copyStringToWord wordSize pos
    let (t, pscl) := t.plugIn pscl indexword
    let t := t.judyLIns indexword
    if strlen pos ≤ wordSize then (t, t.valueAt indexword)
    else
      let (sub, value) :=
        insLoop (t.nextAt indexword) (pscl.map Scl.drop) (pos.drop wordSize)
      (t.setNext indexword sub, value)
termination_by pos.length
decreasing_by exact length_drop_lt ‹_›

def ins [NeZero wordSize] (t : JudySL wordSize) (index : List Chr) :
    JudySL wordSize × Word wordSize :=
  insLoop t none index

/-! ## `JudySLDel` -/

/-- `JudyLDel`; an array without indexes is `NULL`. -/
def judyLDel : JudySL wordSize → ℕ → JudySL wordSize × ℤ
  | array judyL next, indexword =>
    match judyL.lookup indexword with
    | none => (array judyL next, 0)
    | some _ =>
      let judyL := judyL.erase indexword
      (if judyL = OrderedMap.empty then null else array judyL next, 1)
  | t, _ => (t, 0)

def isNull : JudySL wordSize → Bool
  | null => true
  | _ => false

/-- `JudySLDelSub`: the tree and the return code. -/
def delSub : JudySL wordSize → List Chr → JudySL wordSize × ℤ
  | null, _ => (null, 0)
  | scl leaf, index => if index ≠ leaf.index then (scl leaf, 0) else (null, 1)
  | array judyL next, index =>
    let indexword := copyStringToWord wordSize index
    if strlen index ≤ wordSize then (array judyL next).judyLDel indexword
    else
      match judyL.lookup indexword with
      | none => (array judyL next, 0)
      | some _ =>
        let (sub, retcode) := delSub (next indexword) (index.drop wordSize)
        let t := array judyL (Function.update next indexword sub)
        if retcode ≠ 1 then (t, retcode)
        else if sub.isNull then t.judyLDel indexword
        else (t, 1)

def del : JudySL wordSize → List Chr → JudySL wordSize × ℤ := delSub

/-! ## `JudySLPrev`, `JudySLNext`, `JudySLFirst` and `JudySLLast` -/

/-- Where `JudyLFirst` and `JudyLLast` start. -/
def startWord (wordSize : ℕ) : Direction → ℕ
  | .up => 0
  | .down => 256 ^ wordSize - 1

/-- `JudySLNextSub` and `JudySLPrevSub`: the index in the buffer and the value. With `orig` the
    search is for an index beyond the one in the buffer, without it for the first one on the way. -/
def neighborSub (d : Direction) :
    JudySL wordSize → (orig : Bool) → (index : List Chr) → Option (List Chr × Word wordSize)
  | null, _, _ => none
  | scl leaf, orig, index =>
    if orig = false ∨ d.Before index leaf.index then some (leaf.index, leaf.value) else none
  | array judyL next, orig, index =>
    let indexword := copyStringToWord wordSize index
    let below :=
      if orig ∧ wordSize < strlen index ∧ judyL.lookup indexword ≠ none then
        neighborSub d (next indexword) true (index.drop wordSize)
      else none
    match below with
    | some (rest, value) => some (index.take wordSize ++ rest, value)
    | none =>
      let found := if orig then judyL.neighbor d indexword
        else judyL.atOrBeyond d (startWord wordSize d)
      match found with
      | none => none
      | some (indexword, value) =>
        if lastWordByValue indexword then some (copyWordToString wordSize indexword, value)
        else (neighborSub d (next indexword) false (index.drop wordSize)).map fun x =>
          (copyWordToString wordSize indexword ++ x.1, x.2)

/-- `JudySLNext` and `JudySLPrev`. -/
def neighbor (d : Direction) (t : JudySL wordSize) (index : List Chr) :
    Option (List Chr × Word wordSize) :=
  t.neighborSub d true index

def next : JudySL wordSize → List Chr → Option (List Chr × Word wordSize) := neighbor .up

def prev : JudySL wordSize → List Chr → Option (List Chr × Word wordSize) := neighbor .down

/-- `JudySLFirst` and `JudySLLast`. -/
def atOrBeyond (d : Direction) (t : JudySL wordSize) (index : List Chr) :
    Option (List Chr × Word wordSize) :=
  match t.get index with
  | some value => some (index, value)
  | none => t.neighbor d index

def first : JudySL wordSize → List Chr → Option (List Chr × Word wordSize) := atOrBeyond .up

def last : JudySL wordSize → List Chr → Option (List Chr × Word wordSize) := atOrBeyond .down

end JudySL
