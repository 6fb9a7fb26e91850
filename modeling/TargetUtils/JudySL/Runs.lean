import TargetUtils.JudySL.Insertion
import TargetUtils.JudySL.Neighbors

set_option autoImplicit false

/-! # A JudySL array is an ordered map of strings

What JudyL is for words JudySL is for strings, in the order of `strcmp`: after any calls from a
`NULL` pointer every answer is that of an ordered map (`refines_of_run`). -/

namespace JudySL

variable {wordSize : ℕ}

/-! ## Calls -/

/-- The calls on an array, and the caller's stores to a value area. -/
inductive Call (wordSize : ℕ)
  | ins (index : List Chr)
  | get (index : List Chr)
  | write (index : List Chr) (value : Word wordSize)
  | del (index : List Chr)
  | neighbor (d : Direction) (index : List Chr)
  | atOrBeyond (d : Direction) (index : List Chr)
deriving DecidableEq

/-- What a call returns: the content of a value area, a return code, or an index with its value. -/
inductive Reply (wordSize : ℕ)
  | value (v : Option (Word wordSize))
  | code (rc : ℤ)
  | entry (e : Option (List Chr × Word wordSize))
  | none
deriving DecidableEq

def Call.exec [NeZero wordSize] (t : JudySL wordSize) :
    Call wordSize → JudySL wordSize × Reply wordSize
  | ins index => ((t.ins index).1, .value (t.ins index).2)
  | get index => (t, .value (t.get index))
  | write index value => (t.write index value, .none)
  | del index => ((t.del index).1, .code (t.del index).2)
  | neighbor d index => (t, .entry (t.neighbor d index))
  | atOrBeyond d index => (t, .entry (t.atOrBeyond d index))

/-- The call of a user and its answer. -/
def Step [NeZero wordSize] (t : JudySL wordSize) (e : Call wordSize × Reply wordSize)
    (t' : JudySL wordSize) : Prop :=
  e.1.exec t = (t', e.2)

/-! ## The ordered map -/

/-- What the calls mean for a map. -/
def Call.spec (m : OrderedMap (List Chr) (Word wordSize)) :
    Call wordSize → OrderedMap (List Chr) (Word wordSize) × Reply wordSize
  | ins index => (m.insert index ((m.lookup index).getD 0), .value ((m.lookup index).getD 0))
  | get index => (m, .value (m.lookup index))
  | write index value => (if m.lookup index = none then m else m.insert index value, .none)
  | del index => (m.erase index, .code (if m.lookup index = none then 0 else 1))
  | neighbor d index => (m, .entry (m.neighbor d index))
  | atOrBeyond d index => (m, .entry (m.atOrBeyond d index))

def SpecStep (m : OrderedMap (List Chr) (Word wordSize)) (e : Call wordSize × Reply wordSize)
    (m' : OrderedMap (List Chr) (Word wordSize)) : Prop :=
  e.1.spec m = (m', e.2)

/-- The array holds the entries of the map, and nothing in it is empty. -/
structure Holds (t : JudySL wordSize) (m : OrderedMap (List Chr) (Word wordSize)) : Prop where
  wf : t.Wf
  get : t.get = m.lookup

variable {t : JudySL wordSize} {m : OrderedMap (List Chr) (Word wordSize)}

theorem holds_null : Holds (null : JudySL wordSize) OrderedMap.empty where
  wf := wf_null
  get := rfl

theorem lookup_insert_eq_update (m : OrderedMap (List Chr) (Word wordSize)) (k : List Chr)
    (v : Word wordSize) : (m.insert k v).lookup = Function.update m.lookup k (some v) := by
  funext j
  rw [OrderedMap.lookup_insert, Function.update_apply]
  split_ifs <;> rfl

theorem lookup_erase_eq_update (m : OrderedMap (List Chr) (Word wordSize)) (k : List Chr) :
    (m.erase k).lookup = Function.update m.lookup k none := by
  funext j
  rw [OrderedMap.lookup_erase, Function.update_apply]
  split_ifs <;> rfl

variable [NeZero wordSize]

theorem Holds.eq_null_iff (h : Holds t m) : t = null ↔ m = OrderedMap.empty := by
  rw [h.wf.eq_null_iff, h.get]
  constructor
  · intro hnone
    exact OrderedMap.ext_lookup fun k => (hnone k).trans (OrderedMap.lookup_empty k).symm
  · rintro rfl k
    exact OrderedMap.lookup_empty k

theorem Holds.neighbor (h : Holds t m) (d : Direction) (index : List Chr) :
    t.neighbor d index = m.neighbor d index := by
  have hnearest := neighborSub_spec (d := d) h.wf index
  rw [h.get] at hnearest
  exact hnearest.unique (m.nearest_neighbor d index)

theorem Holds.atOrBeyond (h : Holds t m) (d : Direction) (index : List Chr) :
    t.atOrBeyond d index = m.atOrBeyond d index := by
  have hnearest := atOrBeyond_spec (d := d) h.wf index
  rw [h.get] at hnearest
  exact hnearest.unique (m.nearest_atOrBeyond d index)

/-- Every call answers for the map, and leaves the map it means. -/
theorem Holds.exec (h : Holds t m) (c : Call wordSize) :
    (c.exec t).2 = (c.spec m).2 ∧ Holds (c.exec t).1 (c.spec m).1 := by
  cases c with
  | ins index =>
      have hinserts : Inserts t index (t.ins index) := insLoop_spec .tree h.wf apart_none
      obtain ⟨hfull, hvalue, hget⟩ := hinserts
      rw [h.get] at hvalue hget
      refine ⟨congrArg (fun v => Reply.value (some v)) hvalue, hfull.wf, ?_⟩
      rw [hvalue] at hget
      exact hget.trans (lookup_insert_eq_update ..).symm
  | get index =>
      refine ⟨?_, h⟩
      simp only [Call.exec, Call.spec, h.get]
  | write index value =>
      have hget := get_write t index value
      rw [h.get] at hget
      refine ⟨rfl, ?_, ?_⟩
      · rcases h.wf with rfl | hfull
        · exact wf_null
        · exact (hfull.write index value).wf
      · simp only [Call.exec, Call.spec, hget]
        split_ifs
        · rfl
        · exact (lookup_insert_eq_update ..).symm
  | del index =>
      obtain ⟨hcode, hget, hwf⟩ := delSub_spec h.wf index
      rw [h.get] at hcode hget
      exact ⟨congrArg Reply.code hcode, hwf, hget.trans (lookup_erase_eq_update ..).symm⟩
  | neighbor d index => exact ⟨congrArg Reply.entry (h.neighbor d index), h⟩
  | atOrBeyond d index => exact ⟨congrArg Reply.entry (h.atOrBeyond d index), h⟩

/-! ## Whole runs -/

theorem holds_of_run {events : List (Call wordSize × Reply wordSize)}
    (h : Run Step null events t) :
    ∃ m, Run SpecStep OrderedMap.empty events m ∧ Holds t m := by
  induction h with
  | nil => exact ⟨_, Run.nil, holds_null⟩
  | @snoc es u t' e hrun hstep ih =>
      obtain ⟨m, hm, hholds⟩ := ih
      obtain ⟨hreply, hholds'⟩ := hholds.exec e.1
      rw [hstep] at hreply hholds'
      exact ⟨_, hm.snoc (Prod.ext rfl hreply.symm), hholds'⟩

/-- What a caller sees who goes on from one entry to the next. -/
def visit (t : JudySL wordSize) :
    (e : Option (List Chr × Word wordSize)) → (fuel : ℕ) → Option (List (List Chr × Word wordSize))
  | _, 0 => none
  | none, _ + 1 => some []
  | some x, fuel + 1 => (t.visit (t.next x.1) fuel).map (x :: ·)

/-- The entries are visited once each, in the order of their indexes. -/
theorem Holds.visit (h : Holds t m) : Returns (t.visit (t.first [])) m.entries := by
  have helim (o : Option (List Chr × Word wordSize)) : o.elim none some = o := by
    cases o <;> rfl
  have hstop : Returns (t.visit none) [] := Returns.of_succ (fun _ => rfl) (Returns.const rfl)
  have hstep : ∀ x ∈ m.entries, ∀ l, Returns (t.visit ((m.next x.1).elim none some)) l →
      Returns (t.visit (some x)) (id x :: l) := by
    intro x _ l hl
    have hnext : t.next x.1 = m.next x.1 := h.neighbor .up x.1
    rw [helim, ← hnext] at hl
    exact Returns.of_succ (fun _ => rfl) (hl.map (x :: ·))
  have hleast : ∀ k : List Chr, [] ≤ k := fun k => le_of_not_gt (List.not_lt_nil k)
  have hwalk := OrderedMap.returns_entries hstop hstep hleast
  have hfirst : t.first [] = m.first [] := h.atOrBeyond .up []
  rw [helim, List.map_id, ← hfirst] at hwalk
  exact hwalk

/-- A run of calls from a `NULL` pointer is a run of an ordered map, with the same answers. The
    pointer is `NULL` again exactly when the map is empty, and going through the array from the
    first index on gives the entries of the map in the order of `strcmp`. -/
theorem refines_of_run {events : List (Call wordSize × Reply wordSize)}
    (h : Run Step null events t) :
    ∃ m, Run SpecStep OrderedMap.empty events m ∧ 
      (∀ c : Call wordSize, (c.exec t).2 = (c.spec m).2) ∧
      (t = null ↔ m = OrderedMap.empty) ∧ t.Wf ∧
      Returns (t.visit (t.first [])) m.entries := by
  obtain ⟨m, hm, hholds⟩ := holds_of_run h
  exact ⟨m, hm, fun c => (hholds.exec c).1, hholds.eq_null_iff, hholds.wf, hholds.visit⟩

/-- An index of two words of four bytes. -/
def twoWords (last : Chr) : List Chr := List.replicate 4 ⟨97, by decide⟩ ++ [last]

/-- Of two indexes with the same first word the one that was alone moves a word down, and stays
    there when the other one is deleted. A third index ends in its first word. -/
def severalEvents : List (Call 4 × Reply 4) :=
  let one : Chr := ⟨1, by decide⟩
  let two : Chr := ⟨2, by decide⟩
  [(.ins (twoWords one), .value (some 0)), (.write (twoWords one) 7, .none),
    (.ins (twoWords two), .value (some 0)), (.ins [two], .value (some 0)),
    (.get (twoWords one), .value (some 7)),
    (.neighbor .up (twoWords one), .entry (some (twoWords two, 0))),
    (.neighbor .down (twoWords one), .entry (some ([two], 0))), (.del (twoWords two), .code 1),
    (.neighbor .up (twoWords one), .entry none),
    (.atOrBeyond .down (twoWords two), .entry (some (twoWords one, 7)))]

def several : JudySL 4 :=
  stateAfter (fun t c => some (Call.exec t c)) null (severalEvents.map Prod.fst)

theorem run_several : Run Step null severalEvents several :=
  Run.of_replies (fun _ _ _ _ hexec => Option.some.inj hexec) (by decide +kernel)

theorem refines_of_run_several : ∃ m, Run SpecStep OrderedMap.empty severalEvents m ∧
    (∀ c : Call 4, (c.exec several).2 = (c.spec m).2) ∧
      (several = null ↔ m = OrderedMap.empty) ∧ several.Wf ∧
      Returns (several.visit (several.first [])) m.entries :=
  refines_of_run run_several

end JudySL
