import TargetUtils.Library.OrderedMap
import Mathlib

set_option autoImplicit false

/-! # The map from unsigned long to pointer

Translation of `map.c`. JudyL is an exact ordered map: `JLI` creates a missing entry with value 0
and returns the existing one otherwise, and no operation runs out of memory. What the other
functions store and return are `unsigned long`s and pointers, both words, with `NULL` the word 0.

An argument `*key` or `*data` that a function writes is passed in with the caller's value and
returned, so that "left alone" can be said. -/

namespace BfMap

/-- `Word_t`, `unsigned long` and `void *`. -/
abbrev Word := Fin (2 ^ 64)

/-- `NULL`. -/
def null : Word := 0

/-! ## JudyL -/

/-- A JudyL array. -/
abbrev JudyL := OrderedMap Word Word

/-- A `PWord_t` that is not `NULL`: `PJERR`, or a pointer to a stored value. -/
inductive PWord
  | pjerr
  | ref (value : Word)
deriving DecidableEq

/-- `JERR`. -/
def jerr : ℤ := -1

namespace JudyL

/-- `JLI`. -/
def jli (m : JudyL) (key : Word) : JudyL × PWord :=
  match m.lookup key with
  | some value => (m, .ref value)
  | none => (m.insert key 0, .ref 0)

/-- `JLG`. -/
def jlg (m : JudyL) (key : Word) : Option PWord := (m.lookup key).map .ref

/-- `JLD`: 1 when the entry was there. -/
def jld (m : JudyL) (key : Word) : JudyL × ℤ :=
  match m.lookup key with
  | some _ => (m.erase key, 1)
  | none => (m, 0)

/-- The pointer and the index that a search leaves; a failed one keeps the index. -/
def found (index : Word) : Option (Word × Word) → Option PWord × Word
  | some (key, value) => (some (.ref value), key)
  | none => (none, index)

/-- `JLF`. -/
def jlf (m : JudyL) (index : Word) : Option PWord × Word := found index (m.first index)

/-- `JLN`. -/
def jln (m : JudyL) (index : Word) : Option PWord × Word := found index (m.next index)

/-- `JLC`: the number of entries from `index1` to `index2`. -/
def jlc (m : JudyL) (index1 index2 : Word) : ℕ :=
  m.entries.countP (fun e => index1 ≤ e.1 ∧ e.1 ≤ index2) % 2 ^ 64

end JudyL

/-! ## The functions -/

/-- `bf_map_sts_t`. -/
inductive BfMapSts
  | ok
  | err
  | noKey
  | keyExists
deriving DecidableEq, Repr

open JudyL

/-- `bf_map_init`. -/
def init : JudyL × BfMapSts := (OrderedMap.empty, .ok)

/-- `bf_map_add`. -/
def add (map : JudyL) (key data : Word) : JudyL × BfMapSts :=
  match jli map key with
  | (map, .pjerr) => (map, .err)
  | (map, .ref value) => if value ≠ null then (map, .keyExists) else (map.insert key data, .ok)

/-- `bf_map_rmv`. -/
def rmv (map : JudyL) (key : Word) : JudyL × BfMapSts :=
  let (map, rcInt) := jld map key
  if rcInt = jerr then (map, .err) else if rcInt = 0 then (map, .noKey) else (map, .ok)

/-- `bf_map_get`. -/
def get (map : JudyL) (key data : Word) : BfMapSts × Word :=
  match jlg map key with
  | some .pjerr => (.err, data)
  | none => (.noKey, data)
  | some (.ref value) => (.ok, value)

/-- `bf_map_get_rmv`. -/
def getRmv (map : JudyL) (key data : Word) : JudyL × BfMapSts × Word :=
  let (sts, data) := get map key data
  if sts = .ok then
    let (map, sts) := rmv map key
    (map, sts, data)
  else (map, sts, data)

/-- What `bf_map_get_first` and `bf_map_get_next` make of a search. -/
def entryOf (key data : Word) : Option PWord × Word → BfMapSts × Word × Word
  | (some .pjerr, _) => (.err, key, data)
  | (none, _) => (.noKey, key, data)
  | (some (.ref value), locKey) => (.ok, locKey, value)

/-- `bf_map_get_first`: the status, `*key` and `*data`. -/
def getFirst (map : JudyL) (key data : Word) : BfMapSts × Word × Word :=
  entryOf key data (jlf map 0)

/-- `bf_map_get_first_rmv`. -/
def getFirstRmv (map : JudyL) (key data : Word) : JudyL × BfMapSts × Word × Word :=
  let (sts, key, data) := getFirst map key data
  if sts = .ok then
    let (map, sts) := rmv map key
    (map, sts, key, data)
  else (map, sts, key, data)

/-- `bf_map_get_next`. -/
def getNext (map : JudyL) (key data : Word) : BfMapSts × Word × Word :=
  entryOf key data (jln map key)

/-- `bf_map_destroy`. -/
def destroy (_map : JudyL) : JudyL := OrderedMap.empty

/-- `bf_map_count`. -/
def count (map : JudyL) : ℕ := jlc map 0 (-1) % 2 ^ 32

end BfMap
