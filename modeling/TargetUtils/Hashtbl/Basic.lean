import Mathlib.Data.Multiset.Basic
import Mathlib.Data.Multiset.MapFold
import Mathlib.Logic.Function.Basic

set_option autoImplicit false

/-! # The hash table of `hashtbl.c`

Translation of `hashtbl.c`, a wrapper that allocates a node for every data pointer and keeps the
nodes in a `tommy_hashlin`. The hash table library and the hash function `XXH32` are not part of the
repository: they are parameters, and `Lawful` is what the library documents. NULL arguments are
`none`; a function that reads a node that is not allocated has no result. -/

/-- The functions of `tommy_hashlin` over states `τ` and objects `ι`. A comparison function is given
    by the objects it returns 0 for. -/
structure TommyHashlin (τ ι : Type) where
  init : τ
  insert : τ → (obj : ι) → (hash : UInt32) → τ
  search : τ → (cmp : ι → Bool) → (hash : UInt32) → Option ι
  remove : τ → (cmp : ι → Bool) → (hash : UInt32) → τ × Option ι
  foreachArg : τ → List ι

/-- What the library documents, by the objects in a state and the hashes they were inserted with: an
    element with the hash that compares equal is found if there is one, the same one is removed, and
    `foreach` visits every element once. -/
structure TommyHashlin.Lawful {τ ι : Type} (H : TommyHashlin τ ι)
    (elems : τ → Multiset (ι × UInt32)) : Prop where
  elems_init : elems H.init = 0
  elems_insert : ∀ t obj hash, elems (H.insert t obj hash) = (obj, hash) ::ₘ elems t
  found : ∀ t cmp hash obj, H.search t cmp hash = some obj → cmp obj = true
  absent : ∀ t cmp hash, H.search t cmp hash = none →
    ∀ obj, (obj, hash) ∈ elems t → cmp obj = false
  remove_snd : ∀ t cmp hash, (H.remove t cmp hash).2 = H.search t cmp hash
  removed : ∀ t cmp hash obj, H.search t cmp hash = some obj →
    elems t = (obj, hash) ::ₘ elems (H.remove t cmp hash).1
  kept : ∀ t cmp hash, H.search t cmp hash = none → elems (H.remove t cmp hash).1 = elems t
  foreach : ∀ t, (H.foreachArg t : Multiset ι) = (elems t).map Prod.fst

/-- `bf_hashtbl_sts_t`. -/
inductive HashtblSts
  | ok
  | invalidArg
  | err
deriving DecidableEq

/-- `bf_hashtable_t`, with the allocated nodes and the data they point to. `cmpFn` tells whether the
    comparison function returns 0 for a key and a node with that data. -/
structure Hashtbl (τ ι κ δ : Type) where
  cmpFn : κ → δ → Bool
  freeFn : Bool
  keySz : UInt8
  dataSz : UInt8
  seed : UInt32
  phtbl : τ
  nodes : ι → Option δ

namespace Hashtbl

variable {τ ι κ δ : Type} [DecidableEq ι]

section Functions

variable (H : TommyHashlin τ ι) (xxh32 : κ → UInt8 → UInt32 → UInt32)

/-- `construct_hash`. -/
def constructHash (htbl : Hashtbl τ ι κ δ) (key : κ) : UInt32 := xxh32 key htbl.keySz htbl.seed

/-- `cmp_fn` on a node, which reads its data by `bf_hashtbl_get_cmp_data`. -/
def cmpNode (htbl : Hashtbl τ ι κ δ) (key : κ) (obj : ι) : Bool :=
  (htbl.nodes obj).elim false (htbl.cmpFn key)

omit [DecidableEq ι] in
/-- `bf_hashtbl_init`, over nodes of which none is allocated. -/
def init (fn : Option (κ → δ → Bool)) (freeFn : Bool) (keySz dataSz : UInt8) (seed : UInt32) :
    HashtblSts × Option (Hashtbl τ ι κ δ) :=
  if keySz = 0 then (.invalidArg, none)
  else if dataSz = 0 then (.invalidArg, none)
  else
    match fn with
    | none => (.invalidArg, none)
    | some fn => (.ok, some
        { cmpFn := fn, freeFn := freeFn, keySz := keySz, dataSz := dataSz, seed := seed,
          phtbl := H.init, nodes := fun _ => none })

/-- `bf_hashtbl_search`. -/
def search (htbl : Hashtbl τ ι κ δ) (key : Option κ) : Option (Option δ) :=
  match key with
  | none => some none
  | some key =>
    match H.search htbl.phtbl (htbl.cmpNode key) (htbl.constructHash xxh32 key) with
    | none => some none
    | some htblNode => (htbl.nodes htblNode).map some

/-- `bf_hashtbl_insert`; `mem` is what `bf_sys_calloc` returns. -/
def insert (htbl : Hashtbl τ ι κ δ) (mem : Option ι) (node : Option δ) (key : Option κ) :
    HashtblSts × Hashtbl τ ι κ δ :=
  match node, key, mem with
  | none, _, _ => (.invalidArg, htbl)
  | some _, none, _ => (.invalidArg, htbl)
  | some _, some _, none => (.err, htbl)
  | some node, some key, some mem =>
    (.ok, { htbl with
      nodes := Function.update htbl.nodes mem (some node)
      phtbl := H.insert htbl.phtbl mem (htbl.constructHash xxh32 key) })

/-- `bf_hashtbl_get_remove`. -/
def getRemove (htbl : Hashtbl τ ι κ δ) (key : Option κ) : Option (Option δ × Hashtbl τ ι κ δ) :=
  match key with
  | none => some (none, htbl)
  | some key =>
    match H.remove htbl.phtbl (htbl.cmpNode key) (htbl.constructHash xxh32 key) with
    | (phtbl, none) => some (none, { htbl with phtbl := phtbl })
    | (phtbl, some htblNode) => do
      let retNode ← htbl.nodes htblNode
      some (some retNode, { htbl with
        phtbl := phtbl
        nodes := Function.update htbl.nodes htblNode none })

/-- `bf_hashtbl_foreach_fn`: the data of the nodes `foreach_fn` is called for. -/
def foreachFn (htbl : Hashtbl τ ι κ δ) : Option (List δ) :=
  (H.foreachArg htbl.phtbl).mapM htbl.nodes

/-- The calls of `bf_htbl_foreach_free_fn`: what is passed to `free_fn`, and the nodes left. -/
def freeNodes (htbl : Hashtbl τ ι κ δ) : List ι → Option (List δ × Hashtbl τ ι κ δ)
  | [] => some ([], htbl)
  | obj :: rest => do
    let data ← htbl.nodes obj
    let (freed, htbl') ← freeNodes { htbl with nodes := Function.update htbl.nodes obj none } rest
    some (if htbl.freeFn then data :: freed else freed, htbl')

/-- `bf_hashtbl_delete`. -/
def delete (htbl : Hashtbl τ ι κ δ) : Option (List δ × Hashtbl τ ι κ δ) :=
  htbl.freeNodes (H.foreachArg htbl.phtbl)

end Functions

end Hashtbl
