import TargetUtils.Library.OrderedMap

set_option autoImplicit false

/-! # The nearest entry in either direction

The searches of ordered maps come in pairs that differ in the direction they look. A `Direction`
turns the order round, so that one statement, and one proof, is about both: `Nearest d f P r` says
that `r` is the first entry of `f` in direction `d` with a key in `P`. -/

universe u v

/-- Towards greater keys or towards smaller ones. -/
inductive Direction
  | up
  | down
deriving DecidableEq

namespace Direction

variable {κ : Type u} {ν : Type v} [LinearOrder κ] {d : Direction} {a b c : κ}

/-- `a` is passed before `b` on the way in direction `d`. -/
def Before (d : Direction) (a b : κ) : Prop :=
  match d with
  | up => a < b
  | down => b < a

instance (d : Direction) (a b : κ) : Decidable (d.Before a b) :=
  match d with
  | up => inferInstanceAs (Decidable (a < b))
  | down => inferInstanceAs (Decidable (b < a))

theorem Before.irrefl (d : Direction) (a : κ) : ¬ d.Before a a := by
  cases d <;> exact lt_irrefl a

theorem Before.asymm (h : d.Before a b) : ¬ d.Before b a := by
  cases d <;> exact lt_asymm h

theorem Before.trans (h : d.Before a b) (h' : d.Before b c) : d.Before a c := by
  cases d with
  | up => exact lt_trans h h'
  | down => exact lt_trans h' h

theorem before_trichotomy (d : Direction) (a b : κ) : d.Before a b ∨ a = b ∨ d.Before b a := by
  cases d with
  | up => exact lt_trichotomy a b
  | down =>
      rcases lt_trichotomy a b with h | h | h
      · exact Or.inr (Or.inr h)
      · exact Or.inr (Or.inl h)
      · exact Or.inl h

/-- `r` is the first entry of `f` in direction `d` that has a key in `P`, if there is one. -/
def Nearest (d : Direction) (f : κ → Option ν) (P : κ → Prop) : Option (κ × ν) → Prop
  | some (k, v) => f k = some v ∧ P k ∧ ∀ i, P i → d.Before i k → f i = none
  | none => ∀ i, P i → f i = none

theorem Nearest.unique {f : κ → Option ν} {P : κ → Prop} {r r' : Option (κ × ν)}
    (h : d.Nearest f P r) (h' : d.Nearest f P r') : r = r' := by
  cases r with
  | none =>
      cases r' with
      | none => rfl
      | some x =>
          obtain ⟨hx, hP, -⟩ := h'
          rw [h _ hP] at hx
          exact absurd hx (Option.some_ne_none _).symm
  | some x =>
      obtain ⟨hx, hP, hfirst⟩ := h
      cases r' with
      | none =>
          rw [h' _ hP] at hx
          exact absurd hx (Option.some_ne_none _).symm
      | some y =>
          obtain ⟨hy, hP', hfirst'⟩ := h'
          have hkey : x.1 = y.1 := by
            rcases before_trichotomy d x.1 y.1 with hlt | heq | hgt
            · rw [hfirst' _ hP hlt] at hx
              exact absurd hx (Option.some_ne_none _).symm
            · exact heq
            · rw [hfirst _ hP' hgt] at hy
              exact absurd hy (Option.some_ne_none _).symm
          rw [hkey, hy] at hx
          exact congrArg some (Prod.ext hkey (Option.some.inj hx).symm)

theorem Nearest.congr {f : κ → Option ν} {P Q : κ → Prop} {r : Option (κ × ν)}
    (h : d.Nearest f P r) (hiff : ∀ i, P i ↔ Q i) : d.Nearest f Q r := by
  obtain rfl : P = Q := funext fun i => propext (hiff i)
  exact h

/-- A key with a value is the first from itself on. -/
theorem nearest_self {f : κ → Option ν} {v : ν} (h : f a = some v) :
    d.Nearest f (fun i => a = i ∨ d.Before a i) (some (a, v)) := by
  refine ⟨h, Or.inl rfl, fun i hi hbefore => ?_⟩
  rcases hi with rfl | hi
  · exact absurd hbefore (Before.irrefl d a)
  · exact absurd hbefore hi.asymm

/-- From a key without a value the search goes on beyond it. -/
theorem Nearest.of_beyond {f : κ → Option ν} {r : Option (κ × ν)} (h : f a = none)
    (hr : d.Nearest f (d.Before a) r) : d.Nearest f (fun i => a = i ∨ d.Before a i) r := by
  cases r with
  | none =>
      intro i hi
      rcases hi with rfl | hi
      · exact h
      · exact hr i hi
  | some x =>
      obtain ⟨hx, hP, hfirst⟩ := hr
      refine ⟨hx, Or.inr hP, fun i hi hbefore => ?_⟩
      rcases hi with rfl | hi
      · exact h
      · exact hfirst i hi hbefore

end Direction

namespace OrderedMap

variable {κ : Type u} {ν : Type v} [LinearOrder κ] {m : OrderedMap κ ν}

/-- The last entry whose key is `k` or smaller. -/
def last (m : OrderedMap κ ν) (k : κ) : Option (κ × ν) := m.entries.reverse.find? (fun x => x.1 ≤ k)

/-- The entries in the order in which they are passed. -/
def entriesAlong (m : OrderedMap κ ν) : Direction → List (κ × ν)
  | .up => m.entries
  | .down => m.entries.reverse

theorem mem_entriesAlong {d : Direction} {x : κ × ν} : x ∈ m.entriesAlong d ↔ x ∈ m.entries := by
  cases d with
  | up => exact Iff.rfl
  | down => exact List.mem_reverse

theorem nearest_find? (m : OrderedMap κ ν) (d : Direction) (P : κ → Prop) [DecidablePred P] :
    d.Nearest m.lookup P ((m.entriesAlong d).find? fun x => P x.1) := by
  have hsorted : (m.entriesAlong d).Pairwise fun x y => d.Before x.1 y.1 := by
    cases d with
    | up => exact m.sorted
    | down => exact List.pairwise_reverse.2 m.sorted
  cases hfind : (m.entriesAlong d).find? fun x => P x.1 with
  | none =>
      intro i hi
      rw [List.find?_eq_none] at hfind
      refine lookup_eq_none.2 fun w hw => ?_
      exact hfind (i, w) (mem_entriesAlong.2 hw) (by simpa using hi)
  | some x =>
      have hasymm : ∀ i j : κ, d.Before i j → ¬ d.Before j i := fun _ _ h => h.asymm
      obtain ⟨hmem, hx, hfirst⟩ := (find?_sorted hasymm hsorted).1 hfind
      refine ⟨mem_entries.1 (mem_entriesAlong.1 hmem), hx, fun i hi hbefore => ?_⟩
      exact lookup_eq_none.2 fun w hw => hfirst i w (mem_entriesAlong.2 hw) hi hbefore

/-- `next` or `prev`. -/
def neighbor (d : Direction) (m : OrderedMap κ ν) (k : κ) : Option (κ × ν) :=
  match d with
  | .up => m.next k
  | .down => m.prev k

/-- `first` or `last`. -/
def atOrBeyond (d : Direction) (m : OrderedMap κ ν) (k : κ) : Option (κ × ν) :=
  match d with
  | .up => m.first k
  | .down => m.last k

theorem nearest_neighbor (d : Direction) (m : OrderedMap κ ν) (k : κ) :
    d.Nearest m.lookup (d.Before k) (m.neighbor d k) := by
  cases d with
  | up => exact m.nearest_find? .up (k < ·)
  | down => exact m.nearest_find? .down (· < k)

theorem nearest_atOrBeyond (d : Direction) (m : OrderedMap κ ν) (k : κ) :
    d.Nearest m.lookup (fun i => k = i ∨ d.Before k i) (m.atOrBeyond d k) := by
  cases d with
  | up => exact (m.nearest_find? .up (k ≤ ·)).congr fun i => le_iff_eq_or_lt
  | down =>
      refine (m.nearest_find? .down (· ≤ k)).congr fun i => ?_
      rw [le_iff_eq_or_lt, eq_comm]
      exact Iff.rfl

end OrderedMap
