import TargetUtils.BitUtils
import TargetUtils.Library.OrderedMap

set_option autoImplicit false

/-! # Judy1

A Judy1 array is an exact ordered set of words, here the keys of a map to `Unit`. A search that
fails (`Rc_int` is 0) gives no index: what it leaves in `*PIndex` carries "no useful information". -/

/-- A Judy1 array. -/
abbrev Judy1 := OrderedMap ℕ Unit

namespace Judy1

instance : Membership ℕ Judy1 := ⟨fun m i => m.lookup i = some ()⟩

instance (m : Judy1) (i : ℕ) : Decidable (i ∈ m) :=
  inferInstanceAs (Decidable (m.lookup i = some ()))

/-- `J1S`. -/
def set (m : Judy1) (i : ℕ) : Judy1 := m.insert i ()

/-- `J1U`. -/
def unset (m : Judy1) (i : ℕ) : Judy1 := m.erase i

/-- `J1FE`: the first index from `i` on that is not set. -/
def firstEmpty (m : Judy1) (i : ℕ) : Option ℕ :=
  if m.firstAbsent i < 2 ^ 64 then some (m.firstAbsent i) else none

/-- `J1N`: the first index after `i` that is set. -/
def next (m : Judy1) (i : ℕ) : Option ℕ := (OrderedMap.next m i).map Prod.fst

/-- `J1F`: the first index from `i` on that is set. -/
def first (m : Judy1) (i : ℕ) : Option ℕ := (OrderedMap.first m i).map Prod.fst

/-- `J1P`: the last index before `i` that is set. -/
def prev (m : Judy1) (i : ℕ) : Option ℕ := (OrderedMap.prev m i).map Prod.fst

/-- `J1NE`: the first index after `i` that is not set. -/
def nextEmpty (m : Judy1) (i : ℕ) : Option ℕ :=
  if i + 1 < 2 ^ 64 then m.firstEmpty (i + 1) else none

/-- `J1LE`: the last index up to `i` that is not set. -/
def lastEmpty (m : Judy1) (i : ℕ) : Option ℕ := m.lastAbsent i

/-- `J1PE`: the last index before `i` that is not set. -/
def prevEmpty (m : Judy1) : ℕ → Option ℕ
  | 0 => none
  | i + 1 => m.lastEmpty i

/-- What a failed `Judy1Next` leaves in `*PIndex`: it increments it unless the array is empty. -/
def judy1NextMiss (m : Judy1) : ℕ → ℕ → ℕ := fun _ index =>
  if m.card = 0 then index else u64Add index 1

/-! ## What the searches find -/

/-- Every index is a 32-bit value. -/
def Small (m : Judy1) : Prop := ∀ j ∈ m, j < 2 ^ 32

variable {m : Judy1}

theorem lookup_eq_none {j : ℕ} : m.lookup j = none ↔ j ∉ m := by
  change _ ↔ ¬ m.lookup j = some ()
  cases m.lookup j with
  | none => simp
  | some u => simp

theorem mem_set {i j : ℕ} : j ∈ m.set i ↔ j = i ∨ j ∈ m := by
  change (m.insert i ()).lookup j = some () ↔ j = i ∨ m.lookup j = some ()
  rw [OrderedMap.lookup_insert]
  by_cases h : j = i <;> simp [h]

theorem mem_unset {i j : ℕ} : j ∈ m.unset i ↔ j ≠ i ∧ j ∈ m := by
  change (m.erase i).lookup j = some () ↔ j ≠ i ∧ m.lookup j = some ()
  rw [OrderedMap.lookup_erase]
  by_cases h : j = i <;> simp [h]

theorem next_eq_some {i j : ℕ} :
    m.next i = some j ↔ j ∈ m ∧ i < j ∧ ∀ k, i < k → k < j → k ∉ m := by
  change (OrderedMap.next m i).map Prod.fst = some j ↔ m.lookup j = some () ∧ _
  rw [Option.map_eq_some_iff]
  constructor
  · rintro ⟨⟨k, u⟩, hnext, rfl⟩
    obtain ⟨hlook, hlt, hmin⟩ := OrderedMap.next_eq_some.1 hnext
    exact ⟨hlook, hlt, fun k h1 h2 => lookup_eq_none.1 (hmin k h1 h2)⟩
  · rintro ⟨hlook, hlt, hmin⟩
    refine ⟨(j, ()), OrderedMap.next_eq_some.2 ⟨hlook, hlt, fun k h1 h2 => ?_⟩, rfl⟩
    exact lookup_eq_none.2 (hmin k h1 h2)

theorem next_eq_none {i : ℕ} : m.next i = none ↔ ∀ k, i < k → k ∉ m := by
  change (OrderedMap.next m i).map Prod.fst = none ↔ _
  simp only [Option.map_eq_none_iff, OrderedMap.next_eq_none, ← lookup_eq_none]

theorem first_eq_some {i j : ℕ} :
    m.first i = some j ↔ j ∈ m ∧ i ≤ j ∧ ∀ k, i ≤ k → k < j → k ∉ m := by
  change (OrderedMap.first m i).map Prod.fst = some j ↔ m.lookup j = some () ∧ _
  rw [Option.map_eq_some_iff]
  constructor
  · rintro ⟨⟨k, u⟩, hfirst, rfl⟩
    obtain ⟨hlook, hle, hmin⟩ := OrderedMap.first_eq_some.1 hfirst
    exact ⟨hlook, hle, fun k h1 h2 => lookup_eq_none.1 (hmin k h1 h2)⟩
  · rintro ⟨hlook, hle, hmin⟩
    refine ⟨(j, ()), OrderedMap.first_eq_some.2 ⟨hlook, hle, fun k h1 h2 => ?_⟩, rfl⟩
    exact lookup_eq_none.2 (hmin k h1 h2)

theorem first_eq_none {i : ℕ} : m.first i = none ↔ ∀ k, i ≤ k → k ∉ m := by
  change (OrderedMap.first m i).map Prod.fst = none ↔ _
  simp only [Option.map_eq_none_iff, OrderedMap.first_eq_none, ← lookup_eq_none]

theorem prev_eq_some {i j : ℕ} :
    m.prev i = some j ↔ j ∈ m ∧ j < i ∧ ∀ k, j < k → k < i → k ∉ m := by
  change (OrderedMap.prev m i).map Prod.fst = some j ↔ m.lookup j = some () ∧ _
  rw [Option.map_eq_some_iff]
  constructor
  · rintro ⟨⟨k, u⟩, hprev, rfl⟩
    obtain ⟨hlook, hlt, hmax⟩ := OrderedMap.prev_eq_some.1 hprev
    exact ⟨hlook, hlt, fun k h1 h2 => lookup_eq_none.1 (hmax k h1 h2)⟩
  · rintro ⟨hlook, hlt, hmax⟩
    refine ⟨(j, ()), OrderedMap.prev_eq_some.2 ⟨hlook, hlt, fun k h1 h2 => ?_⟩, rfl⟩
    exact lookup_eq_none.2 (hmax k h1 h2)

theorem prev_eq_none {i : ℕ} : m.prev i = none ↔ ∀ k < i, k ∉ m := by
  change (OrderedMap.prev m i).map Prod.fst = none ↔ _
  simp only [Option.map_eq_none_iff, OrderedMap.prev_eq_none, ← lookup_eq_none]

theorem lastEmpty_eq_some {i j : ℕ} :
    m.lastEmpty i = some j ↔ j ∉ m ∧ j ≤ i ∧ ∀ k, j < k → k ≤ i → k ∈ m := by
  rw [lastEmpty, OrderedMap.lastAbsent_eq_some, lookup_eq_none]
  simp only [ne_eq, lookup_eq_none, not_not]

theorem lastEmpty_eq_none {i : ℕ} : m.lastEmpty i = none ↔ ∀ k ≤ i, k ∈ m := by
  rw [lastEmpty, OrderedMap.lastAbsent_eq_none]
  simp only [ne_eq, lookup_eq_none, not_not]

theorem prevEmpty_eq_some {i j : ℕ} :
    m.prevEmpty i = some j ↔ j ∉ m ∧ j < i ∧ ∀ k, j < k → k < i → k ∈ m := by
  cases i with
  | zero => simp [prevEmpty]
  | succ i => simp only [prevEmpty, lastEmpty_eq_some, Nat.lt_succ_iff]

theorem prevEmpty_eq_none {i : ℕ} : m.prevEmpty i = none ↔ ∀ k < i, k ∈ m := by
  cases i with
  | zero => simp [prevEmpty]
  | succ i => simp only [prevEmpty, lastEmpty_eq_none, Nat.lt_succ_iff]

/-- `J1FE` never fails on a set of 32-bit indices. -/
theorem firstEmpty_spec (hm : m.Small) {i : ℕ} (hi : i ≤ 2 ^ 32) :
    ∃ j, m.firstEmpty i = some j ∧ i ≤ j ∧ j ≤ 2 ^ 32 ∧ j ∉ m ∧ ∀ k, i ≤ k → k < j → k ∈ m := by
  obtain ⟨h1, h2, h3⟩ := OrderedMap.firstAbsent_spec m i
  have hbetween : ∀ k, i ≤ k → k < m.firstAbsent i → k ∈ m := fun k hk1 hk2 => by
    by_contra hk
    exact h3 k hk1 hk2 (lookup_eq_none.2 hk)
  have hle : m.firstAbsent i ≤ 2 ^ 32 := by
    by_contra hgt
    have := hm _ (hbetween (2 ^ 32) hi (by omega))
    omega
  refine ⟨m.firstAbsent i, ?_, h1, hle, lookup_eq_none.1 h2, hbetween⟩
  rw [firstEmpty, if_pos (by omega)]

theorem nextEmpty_eq {i : ℕ} (hi : i < 2 ^ 32) : m.nextEmpty i = m.firstEmpty (i + 1) := by
  rw [nextEmpty, if_pos (by omega)]

/-- A failed search in an array that is not empty leaves the index behind the one it started from. -/
theorem judy1NextMiss_of_mem {n t : ℕ} (hn : n ∈ m) (ht : t + 1 < 2 ^ 64) (k : ℕ) :
    m.judy1NextMiss k t = t + 1 := by
  have hcard : ¬ OrderedMap.card m = 0 := fun h => by
    have hmem := OrderedMap.mem_entries.2 hn
    rw [List.eq_nil_of_length_eq_zero h] at hmem
    cases hmem
  rw [judy1NextMiss, if_neg hcard, u64Add, Nat.mod_eq_of_lt ht]

end Judy1
