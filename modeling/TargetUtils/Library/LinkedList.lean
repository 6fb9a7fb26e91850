import Mathlib.Data.List.Chain
import Mathlib.Data.List.Nodup

set_option autoImplicit false

/-! # Doubly linked lists

A memory of links holds a list of nodes when consecutive nodes are linked both ways (`Chained`), the
last node has no successor, and the predecessor of the first node is the last one (`Holds`). What
holds a list is local: links of other nodes do not matter, and of the nodes in the list only those
that a link of the chain uses. -/

/-- The successor and the predecessor that the memory has for each node. -/
structure Links (ε : Type*) where
  next : ε → Option ε
  prev : ε → Option ε

namespace Links

variable {ε : Type*} {m m' : Links ε} {xs ys : List ε}

/-- `y` follows `x`, and the memory says so at both. -/
def Linked (m : Links ε) (x y : ε) : Prop := m.next x = some y ∧ m.prev y = some x

/-- Consecutive nodes are linked. -/
def Chained (m : Links ε) (xs : List ε) : Prop := xs.IsChain m.Linked

/-- The memory holds the list `xs`, whose first node refers to the last. -/
structure Holds (m : Links ε) (xs : List ε) : Prop where
  nodup : xs.Nodup
  chained : m.Chained xs
  last : ∀ x ∈ xs.getLast?, m.next x = none
  first : ∀ x ∈ xs.head?, m.prev x = xs.getLast?

theorem chained_nil (m : Links ε) : m.Chained [] := List.isChain_nil

theorem chained_singleton (m : Links ε) (x : ε) : m.Chained [x] := List.isChain_singleton x

theorem chained_cons {x : ε} :
    m.Chained (x :: xs) ↔ (∀ y ∈ xs.head?, m.Linked x y) ∧ m.Chained xs :=
  List.isChain_cons

theorem chained_append : m.Chained (xs ++ ys) ↔
    m.Chained xs ∧ m.Chained ys ∧ ∀ x ∈ xs.getLast?, ∀ y ∈ ys.head?, m.Linked x y :=
  List.isChain_append

/-- The links of a chain are the successors of all nodes but the last and the predecessors of all but
    the first. -/
theorem Chained.congr (h : m.Chained xs) (hnext : ∀ x ∈ xs.dropLast, m'.next x = m.next x)
    (hprev : ∀ x ∈ xs.tail, m'.prev x = m.prev x) : m'.Chained xs := by
  induction xs with
  | nil => exact chained_nil m'
  | cons x xs ih =>
      cases xs with
      | nil => exact chained_singleton m' x
      | cons y xs =>
          obtain ⟨hlink, hrest⟩ := chained_cons.1 h
          obtain ⟨hxy, hyx⟩ := hlink y rfl
          refine chained_cons.2 ⟨fun z hz => ?_, ih hrest (fun z hz => ?_) (fun z hz => ?_)⟩
          · obtain rfl : y = z := Option.some.inj hz
            exact ⟨(hnext x (List.mem_cons_self ..)).trans hxy,
              (hprev y (List.mem_cons_self ..)).trans hyx⟩
          · exact hnext z (List.mem_cons_of_mem _ hz)
          · exact hprev z (List.mem_cons_of_mem _ hz)

/-- Only the links of its nodes matter for a list. -/
theorem Holds.congr (h : m.Holds xs) (hnext : ∀ x ∈ xs, m'.next x = m.next x)
    (hprev : ∀ x ∈ xs, m'.prev x = m.prev x) : m'.Holds xs where
  nodup := h.nodup
  chained := h.chained.congr (fun x hx => hnext x (List.dropLast_subset _ hx))
    fun x hx => hprev x (List.mem_of_mem_tail hx)
  last := fun x hx => (hnext x (List.mem_of_getLast? hx)).trans (h.last x hx)
  first := fun x hx => (hprev x (List.mem_of_head? hx)).trans (h.first x hx)

theorem holds_nil (m : Links ε) : m.Holds [] where
  nodup := List.nodup_nil
  chained := chained_nil m
  last := fun x hx => by cases hx
  first := fun x hx => by cases hx

/-- A new first node. -/
theorem Holds.cons (h : m.Holds xs) {e : ε} (he : e ∉ xs)
    (hnext : ∀ x ∈ xs, m'.next x = m.next x) (hprev : ∀ x ∈ xs.tail, m'.prev x = m.prev x)
    (hlink : ∀ x ∈ xs.head?, m'.prev x = some e) (henext : m'.next e = xs.head?)
    (heprev : m'.prev e = (e :: xs).getLast?) : m'.Holds (e :: xs) where
  nodup := List.nodup_cons.2 ⟨he, h.nodup⟩
  chained := chained_cons.2 ⟨fun x hx => ⟨henext.trans hx, hlink x hx⟩,
    h.chained.congr (fun x hx => hnext x (List.dropLast_subset _ hx)) hprev⟩
  last := fun x hx => by
    cases xs with
    | nil =>
        obtain rfl : e = x := Option.some.inj hx
        exact henext
    | cons y xs =>
        rw [List.getLast?_cons_cons] at hx
        exact (hnext x (List.mem_of_getLast? hx)).trans (h.last x hx)
  first := fun x hx => by
    obtain rfl : e = x := Option.some.inj hx
    exact heprev

/-- Two chains of which the first node refers to the end of the second. -/
theorem holds_append (hnodup : (xs ++ ys).Nodup) (hx : m.Chained xs) (hy : m.Chained ys)
    (hne : ys ≠ []) (hlast : ∀ y ∈ ys.getLast?, m.next y = none)
    (hlink : ∀ x ∈ xs.getLast?, ∀ y ∈ ys.head?, m.Linked x y)
    (hfirst : ∀ x ∈ (xs ++ ys).head?, m.prev x = ys.getLast?) : m.Holds (xs ++ ys) where
  nodup := hnodup
  chained := chained_append.2 ⟨hx, hy, hlink⟩
  last := fun x hmem => hlast x (by rwa [List.getLast?_append_of_ne_nil xs hne] at hmem)
  first := fun x hmem => by rw [List.getLast?_append_of_ne_nil xs hne, hfirst x hmem]

/-- What the memory has for a node in front of `ys`. -/
theorem Holds.next_of_split {e : ε} (h : m.Holds (xs ++ e :: ys)) : m.next e = ys.head? := by
  cases ys with
  | nil => exact h.last e (by simp)
  | cons y ys =>
      have hchain := (chained_append.1 h.chained).2.1
      exact ((chained_cons.1 hchain).1 y rfl).1

/-- What the memory has for a node behind `xs`. -/
theorem Holds.prev_of_split {e x : ε} (h : m.Holds (xs ++ e :: ys)) (hx : xs.getLast? = some x) :
    m.prev e = some x :=
  ((chained_append.1 h.chained).2.2 x hx e rfl).2

/-! ## Following the links -/

/-- The `k`-th node from `start` on. -/
def follow (m : Links ε) (start : Option ε) : ℕ → Option ε
  | 0 => start
  | k + 1 => (m.follow start k).bind m.next

theorem Holds.next_getElem? (h : m.Holds xs) {k : ℕ} {x : ε} (hx : xs[k]? = some x) :
    m.next x = xs[k + 1]? := by
  obtain ⟨hk, rfl⟩ := List.getElem?_eq_some_iff.1 hx
  by_cases hnext : k + 1 < xs.length
  · rw [List.getElem?_eq_getElem hnext]
    exact (List.IsChain.getElem h.chained k hnext).1
  · rw [List.getElem?_eq_none (Nat.le_of_not_lt hnext)]
    refine h.last _ ?_
    rw [Option.mem_def, List.getLast?_eq_getElem?, (by omega : xs.length - 1 = k),
      List.getElem?_eq_getElem hk]

/-- Following the successors visits the nodes of the list and ends. -/
theorem Holds.follow_eq (h : m.Holds xs) (k : ℕ) : m.follow xs.head? k = xs[k]? := by
  induction k with
  | zero => rw [follow, List.head?_eq_getElem?]
  | succ k ih =>
      rw [follow, ih]
      cases hx : xs[k]? with
      | none =>
          rw [Option.bind_none]
          rw [List.getElem?_eq_none_iff] at hx
          exact (List.getElem?_eq_none (by omega)).symm
      | some x => exact h.next_getElem? hx

theorem Holds.mem_iff (h : m.Holds xs) {e : ε} :
    e ∈ xs ↔ ∃ k, m.follow xs.head? k = some e := by
  rw [List.mem_iff_getElem?]
  exact exists_congr fun k => by rw [h.follow_eq]

end Links
