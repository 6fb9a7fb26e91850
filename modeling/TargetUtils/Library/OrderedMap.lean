import TargetUtils.Library.Runs
import Mathlib.Data.List.Sort
import Mathlib.Order.Defs.LinearOrder
import Mathlib.Tactic.SplitIfs

set_option autoImplicit false

/-! # Finite maps with ordered neighbour search

A finite map from a linearly ordered key type, kept as a list of entries in strictly increasing key
order. Besides insertion, removal and lookup it answers the neighbour queries of ordered
associative arrays: the first entry at or after a key (`first`), the next one strictly after it
(`next`), the previous one strictly before it (`prev`), and, over `ℕ`, the absent key that is nearest
to a given one from above (`firstAbsent`) or from below (`lastAbsent`).

Everything is characterized through `lookup`: two maps with the same lookups are equal
(`ext_lookup`), and each search has one `iff` lemma that says which entry it returns. -/

universe u v

/-- Entries in strictly increasing key order; the proof field makes lookups determine the map. -/
structure OrderedMap (κ : Type u) (ν : Type v) [LinearOrder κ] where
  entries : List (κ × ν)
  sorted : entries.Pairwise (fun x y => x.1 < y.1)

namespace OrderedMap

variable {κ : Type u} {ν : Type v} [LinearOrder κ]

instance [DecidableEq ν] : DecidableEq (OrderedMap κ ν) := fun m m' =>
  decidable_of_iff (m.entries = m'.entries) (by cases m; cases m'; simp)

/-- The map without entries. -/
def empty : OrderedMap κ ν := ⟨[], List.Pairwise.nil⟩

/-- The value stored under `k`, if any. -/
def lookup (m : OrderedMap κ ν) (k : κ) : Option ν :=
  (m.entries.find? (fun x => x.1 = k)).map Prod.snd

/-- Sorted insertion into an entry list, replacing an entry with the same key. -/
def insertList (k : κ) (w : ν) : List (κ × ν) → List (κ × ν)
  | [] => [(k, w)]
  | x :: rest =>
    if k < x.1 then (k, w) :: x :: rest
    else if k = x.1 then (k, w) :: rest
    else x :: insertList k w rest

theorem mem_insertList {k : κ} {w : ν} {l : List (κ × ν)}
    (hl : l.Pairwise (fun x y => x.1 < y.1)) (y : κ × ν) :
    y ∈ insertList k w l ↔ y = (k, w) ∨ (y ∈ l ∧ y.1 ≠ k) := by
  induction l with
  | nil => simp [insertList]
  | cons x rest ih =>
      rw [List.pairwise_cons] at hl
      have hlt : ∀ z ∈ rest, x.1 < z.1 := hl.1
      rw [insertList]
      split_ifs with h1 h2
      · have hne : ∀ z ∈ x :: rest, z.1 ≠ k := by
          intro z hz
          rcases List.mem_cons.1 hz with rfl | hz
          · exact h1.ne'
          · exact (h1.trans (hlt z hz)).ne'
        simp only [List.mem_cons]
        constructor
        · rintro (rfl | h)
          · exact Or.inl rfl
          · exact Or.inr ⟨h, hne y (List.mem_cons.2 h)⟩
        · rintro (rfl | h)
          · exact Or.inl rfl
          · exact Or.inr h.1
      · subst h2
        simp only [List.mem_cons]
        constructor
        · rintro (rfl | h)
          · exact Or.inl rfl
          · exact Or.inr ⟨Or.inr h, (hlt y h).ne'⟩
        · rintro (rfl | ⟨rfl | h, hk⟩)
          · exact Or.inl rfl
          · exact absurd rfl hk
          · exact Or.inr h
      · simp only [List.mem_cons, ih hl.2]
        constructor
        · rintro (rfl | rfl | h)
          · exact Or.inr ⟨Or.inl rfl, fun he => h2 he.symm⟩
          · exact Or.inl rfl
          · exact Or.inr ⟨Or.inr h.1, h.2⟩
        · rintro (rfl | ⟨rfl | h, hk⟩)
          · exact Or.inr (Or.inl rfl)
          · exact Or.inl rfl
          · exact Or.inr (Or.inr ⟨h, hk⟩)

theorem insertList_sorted {k : κ} {w : ν} {l : List (κ × ν)}
    (hl : l.Pairwise (fun x y => x.1 < y.1)) :
    (insertList k w l).Pairwise (fun x y => x.1 < y.1) := by
  induction l with
  | nil => simp [insertList]
  | cons x rest ih =>
      have hcons := List.pairwise_cons.1 hl
      rw [insertList]
      split_ifs with h1 h2
      · refine List.pairwise_cons.2 ⟨fun z hz => ?_, hl⟩
        rcases List.mem_cons.1 hz with rfl | hz
        · exact h1
        · exact h1.trans (hcons.1 z hz)
      · exact List.pairwise_cons.2 ⟨fun z hz => h2 ▸ hcons.1 z hz, hcons.2⟩
      · refine List.pairwise_cons.2 ⟨fun z hz => ?_, ih hcons.2⟩
        rcases (mem_insertList hcons.2 z).1 hz with rfl | hz
        · exact lt_of_le_of_ne (not_lt.1 h1) (fun he => h2 he.symm)
        · exact hcons.1 z hz.1

/-- Store `w` under `k`, replacing what was there. -/
def insert (m : OrderedMap κ ν) (k : κ) (w : ν) : OrderedMap κ ν :=
  ⟨insertList k w m.entries, insertList_sorted m.sorted⟩

/-- Remove the entry of `k`, if any. -/
def erase (m : OrderedMap κ ν) (k : κ) : OrderedMap κ ν :=
  ⟨m.entries.filter (fun x => x.1 ≠ k), m.sorted.filter _⟩

/-- The entry with the least key `≥ k`. -/
def first (m : OrderedMap κ ν) (k : κ) : Option (κ × ν) := m.entries.find? (fun x => k ≤ x.1)

/-- The entry with the least key `> k`. -/
def next (m : OrderedMap κ ν) (k : κ) : Option (κ × ν) := m.entries.find? (fun x => k < x.1)

/-- The entry with the greatest key `< k`. -/
def prev (m : OrderedMap κ ν) (k : κ) : Option (κ × ν) :=
  m.entries.reverse.find? (fun x => x.1 < k)

/-- Number of entries. -/
def card (m : OrderedMap κ ν) : ℕ := m.entries.length

/-! ## Lookup determines the map -/

theorem mem_entries {m : OrderedMap κ ν} {k : κ} {w : ν} :
    (k, w) ∈ m.entries ↔ m.lookup k = some w := by
  obtain ⟨l, hl⟩ := m
  simp only [lookup]
  induction l with
  | nil => simp
  | cons x rest ih =>
      rw [List.pairwise_cons] at hl
      by_cases hx : x.1 = k
      · have hnot : (k, w) ∉ rest := fun h => (hl.1 (k, w) h).ne hx
        simp [hx, hnot, Prod.ext_iff, eq_comm]
      · have hne : (k, w) ≠ x := fun h => hx (h ▸ rfl)
        simp [hx, hne, ih hl.2]

theorem nodup_entries (m : OrderedMap κ ν) : m.entries.Nodup :=
  m.sorted.imp fun hlt he => hlt.ne (congrArg Prod.fst he)

theorem ext_lookup {m m' : OrderedMap κ ν} (h : ∀ k, m.lookup k = m'.lookup k) : m = m' := by
  have hmem : ∀ x, x ∈ m.entries ↔ x ∈ m'.entries := by
    rintro ⟨k, w⟩
    rw [mem_entries, mem_entries, h]
  have hperm : m.entries.Perm m'.entries :=
    (List.perm_ext_iff_of_nodup m.nodup_entries m'.nodup_entries).2 hmem
  have hentries : m.entries = m'.entries :=
    hperm.eq_of_pairwise (fun a b _ _ hab hba => absurd hab hba.asymm) m.sorted m'.sorted
  cases m
  cases m'
  simpa using hentries

@[simp] theorem lookup_empty (k : κ) : (empty : OrderedMap κ ν).lookup k = none := rfl

theorem lookup_insert (m : OrderedMap κ ν) (k : κ) (w : ν) (j : κ) :
    (m.insert k w).lookup j = if j = k then some w else m.lookup j := by
  apply Option.ext
  intro u
  have hmem : (j, u) ∈ (m.insert k w).entries ↔ (j, u) = (k, w) ∨ ((j, u) ∈ m.entries ∧ j ≠ k) :=
    mem_insertList m.sorted (j, u)
  rw [← mem_entries, hmem, mem_entries]
  split_ifs with hj
  · simp [hj, eq_comm]
  · simp [hj]

theorem lookup_erase (m : OrderedMap κ ν) (k j : κ) :
    (m.erase k).lookup j = if j = k then none else m.lookup j := by
  apply Option.ext
  intro u
  rw [← mem_entries, erase, List.mem_filter, mem_entries]
  split_ifs with hj <;> simp [hj]

@[simp] theorem lookup_insert_self (m : OrderedMap κ ν) (k : κ) (w : ν) :
    (m.insert k w).lookup k = some w := by
  rw [lookup_insert, if_pos rfl]

/-! ## Neighbour search -/

omit [LinearOrder κ] in
/-- In a list sorted by an asymmetric relation on the keys, `find?` returns the entry satisfying
    the predicate that no other such entry precedes. -/
theorem find?_sorted {r : κ → κ → Prop} {p : κ → Prop} [DecidablePred p] {l : List (κ × ν)}
    (hr : ∀ i j, r i j → ¬ r j i) (hl : l.Pairwise (fun x y => r x.1 y.1)) {k : κ} {w : ν} :
    l.find? (fun x => p x.1) = some (k, w) ↔
      (k, w) ∈ l ∧ p k ∧ ∀ i u, (i, u) ∈ l → p i → ¬ r i k := by
  induction l with
  | nil => simp
  | cons x rest ih =>
      have hcons := List.pairwise_cons.1 hl
      by_cases hx : p x.1
      · rw [List.find?_cons_of_pos (by simpa using hx)]
        constructor
        · intro h
          obtain rfl := Option.some.inj h
          refine ⟨List.mem_cons_self .., hx, fun i u hu _ hik => ?_⟩
          rcases List.mem_cons.1 hu with he | hu
          · obtain rfl : i = k := congrArg Prod.fst he
            exact hr _ _ hik hik
          · exact hr _ _ hik (hcons.1 _ hu)
        · rintro ⟨hmem, _, hmin⟩
          rcases List.mem_cons.1 hmem with he | hmem
          · rw [he]
          · exact absurd (hcons.1 _ hmem) (hmin x.1 x.2 (List.mem_cons_self ..) hx)
      · rw [List.find?_cons_of_neg (by simpa using hx), ih hcons.2]
        constructor
        · rintro ⟨hmem, hk, hmin⟩
          refine ⟨List.mem_cons_of_mem _ hmem, hk, fun i u hu hi => ?_⟩
          rcases List.mem_cons.1 hu with he | hu
          · obtain rfl : i = x.1 := congrArg Prod.fst he
            exact absurd hi hx
          · exact hmin i u hu hi
        · rintro ⟨hmem, hk, hmin⟩
          rcases List.mem_cons.1 hmem with he | hmem
          · obtain rfl : k = x.1 := congrArg Prod.fst he
            exact absurd hk hx
          · exact ⟨hmem, hk, fun i u hu => hmin i u (List.mem_cons_of_mem _ hu)⟩

theorem lookup_eq_none {m : OrderedMap κ ν} {k : κ} :
    m.lookup k = none ↔ ∀ w, (k, w) ∉ m.entries := by
  rw [Option.eq_none_iff_forall_ne_some]
  exact forall_congr' fun w => not_congr mem_entries.symm

theorem find?_eq_some_iff {m : OrderedMap κ ν} {p : κ → Prop} [DecidablePred p] {k : κ} {w : ν} :
    m.entries.find? (fun x => p x.1) = some (k, w) ↔
      m.lookup k = some w ∧ p k ∧ ∀ i, p i → i < k → m.lookup i = none := by
  rw [find?_sorted (fun _ _ h => h.asymm) m.sorted, mem_entries]
  refine and_congr_right fun _ => and_congr_right fun _ => forall_congr' fun i => ?_
  rw [lookup_eq_none]
  exact ⟨fun h hi hik u hu => h u hu hi hik, fun h u hu hi hik => h hi hik u hu⟩

theorem find?_eq_none_iff {m : OrderedMap κ ν} {p : κ → Prop} [DecidablePred p] :
    m.entries.find? (fun x => p x.1) = none ↔ ∀ i, p i → m.lookup i = none := by
  rw [List.find?_eq_none]
  constructor
  · intro h i hi
    exact lookup_eq_none.2 fun u hu => h (i, u) hu (by simpa using hi)
  · rintro h ⟨i, u⟩ hmem hi
    exact lookup_eq_none.1 (h i (by simpa using hi)) u hmem

theorem first_eq_some {m : OrderedMap κ ν} {k j : κ} {w : ν} :
    m.first k = some (j, w) ↔
      m.lookup j = some w ∧ k ≤ j ∧ ∀ i, k ≤ i → i < j → m.lookup i = none :=
  find?_eq_some_iff

theorem first_eq_none {m : OrderedMap κ ν} {k : κ} :
    m.first k = none ↔ ∀ i, k ≤ i → m.lookup i = none :=
  find?_eq_none_iff

theorem next_eq_some {m : OrderedMap κ ν} {k j : κ} {w : ν} :
    m.next k = some (j, w) ↔
      m.lookup j = some w ∧ k < j ∧ ∀ i, k < i → i < j → m.lookup i = none :=
  find?_eq_some_iff

theorem next_eq_none {m : OrderedMap κ ν} {k : κ} :
    m.next k = none ↔ ∀ i, k < i → m.lookup i = none :=
  find?_eq_none_iff

theorem prev_eq_some {m : OrderedMap κ ν} {k j : κ} {w : ν} :
    m.prev k = some (j, w) ↔
      m.lookup j = some w ∧ j < k ∧ ∀ i, j < i → i < k → m.lookup i = none := by
  have hrev : m.entries.reverse.Pairwise (fun x y => x.1 > y.1) := by
    rw [List.pairwise_reverse]
    exact m.sorted
  rw [prev, find?_sorted (r := (· > ·)) (p := (· < k)) (fun _ _ h => h.asymm) hrev,
    List.mem_reverse, mem_entries]
  refine and_congr_right fun _ => and_congr_right fun _ => forall_congr' fun i => ?_
  rw [lookup_eq_none]
  simp only [List.mem_reverse]
  exact ⟨fun h hji hik u hu => h u hu hik hji, fun h u hu hik hji => h hji hik u hu⟩

theorem prev_eq_none {m : OrderedMap κ ν} {k : κ} :
    m.prev k = none ↔ ∀ i, i < k → m.lookup i = none := by
  rw [prev, List.find?_eq_none]
  constructor
  · intro h i hi
    exact lookup_eq_none.2 fun u hu => h (i, u) (List.mem_reverse.2 hu) (by simpa using hi)
  · rintro h ⟨i, u⟩ hmem hi
    exact lookup_eq_none.1 (h i (by simpa using hi)) u (List.mem_reverse.1 hmem)

/-! ## Walking the entries in key order -/

/-- Walk from the entry `cur` along `next` to the first entry that satisfies `p`; the fuel bounds
    the number of entries visited. -/
def walk (m : OrderedMap κ ν) (p : κ → ν → Bool) : ℕ → Option (κ × ν) → Option (κ × ν)
  | _, none => none
  | 0, some _ => none
  | fuel + 1, some (k, w) => if p k w then some (k, w) else m.walk p fuel (m.next k)

theorem next_of_append {m : OrderedMap κ ν} {pre suf : List (κ × ν)} {k : κ} {w : ν}
    (h : m.entries = pre ++ (k, w) :: suf) : m.next k = suf.head? := by
  have hs := m.sorted
  rw [h, List.pairwise_append, List.pairwise_cons] at hs
  obtain ⟨-, ⟨hsuf, -⟩, hpre⟩ := hs
  have hbefore : ∀ x ∈ pre, ¬ k < x.1 := fun x hx =>
    (hpre x hx (k, w) (List.mem_cons_self ..)).asymm
  rw [next, h, List.find?_append, List.find?_eq_none.2 (by simpa using hbefore), Option.none_or,
    List.find?_cons_of_neg (by simp)]
  cases suf with
  | nil => rfl
  | cons x rest =>
      rw [List.find?_cons_of_pos (by simpa using hsuf x (List.mem_cons_self ..))]
      rfl

/-- The entry before a key that separates two parts of the entry list ends the first part. -/
theorem prev_of_append {m : OrderedMap κ ν} {pre suf : List (κ × ν)} {k : κ}
    (h : m.entries = pre ++ suf) (hpre : ∀ x ∈ pre, x.1 < k) (hsuf : ∀ x ∈ suf, ¬ x.1 < k) :
    m.prev k = pre.getLast? := by
  have hskip : suf.reverse.find? (fun x => decide (x.1 < k)) = none :=
    List.find?_eq_none.2 fun x hx => by simpa using hsuf x (List.mem_reverse.1 hx)
  rw [prev, h, List.reverse_append, List.find?_append, hskip, Option.none_or, ← List.head?_reverse]
  cases hrev : pre.reverse with
  | nil => rfl
  | cons x rest =>
      have hx : x ∈ pre := List.mem_reverse.1 (hrev ▸ List.mem_cons_self ..)
      exact List.find?_cons_of_pos (by simpa using hpre x hx)

theorem walk_of_append {m : OrderedMap κ ν} (p : κ → ν → Bool) {pre suf : List (κ × ν)}
    (h : m.entries = pre ++ suf) (fuel : ℕ) (hfuel : suf.length ≤ fuel) :
    m.walk p fuel suf.head? = suf.find? (fun x => p x.1 x.2) := by
  induction suf generalizing pre fuel with
  | nil => simp [walk]
  | cons x rest ih =>
      obtain ⟨k, w⟩ := x
      cases fuel with
      | zero => simp at hfuel
      | succ fuel =>
          rw [List.head?_cons, walk, List.find?_cons]
          cases hp : p k w with
          | true => simp
          | false =>
              simp only [Bool.false_eq_true, if_false]
              rw [next_of_append h]
              exact ih (show m.entries = (pre ++ [(k, w)]) ++ rest by simpa using h) fuel (by simpa using hfuel)

theorem first_of_le {m : OrderedMap κ ν} {lo : κ} (hlo : ∀ k, lo ≤ k) :
    m.first lo = m.entries.head? := by
  rw [first]
  cases hm : m.entries with
  | nil => rfl
  | cons x rest => exact List.find?_cons_of_pos (by simpa using hlo x.1)

/-- Walking from the smallest key visits the entries in order, so it finds the first match. -/
theorem walk_first {m : OrderedMap κ ν} (p : κ → ν → Bool) {lo : κ} (hlo : ∀ k, lo ≤ k) :
    m.walk p m.card (m.first lo) = m.entries.find? (fun x => p x.1 x.2) := by
  rw [first_of_le hlo]
  exact walk_of_append p (show m.entries = [] ++ m.entries from rfl) _ le_rfl

theorem walk_first_eq_none {m : OrderedMap κ ν} {p : κ → ν → Bool} {lo : κ} (hlo : ∀ k, lo ≤ k) :
    m.walk p m.card (m.first lo) = none ↔ ∀ k w, m.lookup k = some w → p k w = false := by
  rw [walk_first p hlo, List.find?_eq_none]
  constructor
  · intro h k w hk
    simpa using h (k, w) (mem_entries.2 hk)
  · rintro h ⟨k, w⟩ hmem
    simp [h k w (mem_entries.1 hmem)]

theorem walk_first_eq_some {m : OrderedMap κ ν} {p : κ → ν → Bool} {lo : κ} (hlo : ∀ k, lo ≤ k)
    {k : κ} {w : ν} (h : m.walk p m.card (m.first lo) = some (k, w)) :
    m.lookup k = some w ∧ p k w = true := by
  rw [walk_first p hlo] at h
  exact ⟨mem_entries.1 (List.mem_of_find?_eq_some h), by simpa using List.find?_some h⟩

/-- The match found by a walk from the smallest key is the one with the least key. -/
theorem walk_first_le {m : OrderedMap κ ν} {p : κ → ν → Bool} {lo : κ} (hlo : ∀ k, lo ≤ k)
    {k j : κ} {w v : ν} (h : m.walk p m.card (m.first lo) = some (k, w))
    (hj : m.lookup j = some v) (hp : p j v = true) : k ≤ j := by
  rw [walk_first p hlo] at h
  obtain ⟨-, pre, post, hsplit, hpre⟩ := List.find?_eq_some_iff_append.1 h
  have hsorted := m.sorted
  have hmem := mem_entries.2 hj
  rw [hsplit] at hsorted hmem
  have hpost := List.pairwise_cons.1 (List.pairwise_append.1 hsorted).2.1
  rcases List.mem_append.1 hmem with hbefore | hafter
  · have hnot := hpre _ hbefore
    simp [hp] at hnot
  · rcases List.mem_cons.1 hafter with heq | hafter
    · rw [(Prod.mk.inj heq).1]
    · exact (hpost.1 _ hafter).le

/-- Fold over the entries from `cur` on along `next`; the fuel bounds the number of entries
    visited. -/
def foldWalk {β : Type*} (m : OrderedMap κ ν) (f : β → κ × ν → β) : ℕ → Option (κ × ν) → β → β
  | _, none, b => b
  | 0, some _, b => b
  | fuel + 1, some x, b => m.foldWalk f fuel (m.next x.1) (f b x)

theorem foldWalk_of_append {β : Type*} {m : OrderedMap κ ν} (f : β → κ × ν → β)
    {pre suf : List (κ × ν)} (h : m.entries = pre ++ suf) {fuel : ℕ} (hfuel : suf.length ≤ fuel)
    (b : β) : m.foldWalk f fuel suf.head? b = suf.foldl f b := by
  induction suf generalizing pre fuel b with
  | nil => simp [foldWalk]
  | cons x rest ih =>
      cases fuel with
      | zero => simp at hfuel
      | succ fuel =>
          have happend : m.entries = (pre ++ [x]) ++ rest := by simpa using h
          rw [List.head?_cons, foldWalk, List.foldl_cons, next_of_append h]
          exact ih happend (by simpa using hfuel) _

/-- From the smallest key on the fold is one over all entries. -/
theorem foldWalk_first {β : Type*} {m : OrderedMap κ ν} (f : β → κ × ν → β) {lo : κ}
    (hlo : ∀ k, lo ≤ k) (b : β) : m.foldWalk f m.card (m.first lo) b = m.entries.foldl f b := by
  rw [first_of_le hlo]
  exact foldWalk_of_append f (show m.entries = [] ++ m.entries from rfl) le_rfl b

theorem ext_entries {m m' : OrderedMap κ ν} (h : m.entries = m'.entries) : m = m' := by
  cases m
  cases m'
  simpa using h

theorem insertList_last {k : κ} {w : ν} {l : List (κ × ν)} (h : ∀ x ∈ l, x.1 < k) :
    insertList k w l = l ++ [(k, w)] := by
  induction l with
  | nil => rfl
  | cons x l ih =>
      have hlt := h x (List.mem_cons_self ..)
      rw [insertList, if_neg hlt.asymm, if_neg hlt.ne', List.cons_append,
        ih fun y hy => h y (List.mem_cons_of_mem _ hy)]

/-- Inserting the entries one after the other copies the map. -/
theorem foldl_insert_entries (m : OrderedMap κ ν) :
    m.entries.foldl (fun dest x => dest.insert x.1 x.2) empty = m := by
  have hcopy : ∀ (l : List (κ × ν)) (dest : OrderedMap κ ν),
      (dest.entries ++ l).Pairwise (fun x y => x.1 < y.1) →
        (l.foldl (fun dest x => dest.insert x.1 x.2) dest).entries = dest.entries ++ l := by
    intro l
    induction l with
    | nil =>
        intro dest _
        exact (List.append_nil _).symm
    | cons x l ih =>
        intro dest hsorted
        have hbefore := (List.pairwise_append.1 hsorted).2.2
        have hlast : (dest.insert x.1 x.2).entries = dest.entries ++ [x] :=
          insertList_last fun y hy => hbefore y hy x (List.mem_cons_self ..)
        have happend : dest.entries ++ x :: l = (dest.insert x.1 x.2).entries ++ l := by
          rw [hlast, List.append_assoc]
          rfl
        rw [List.foldl_cons, happend]
        exact ih _ (happend ▸ hsorted)
  exact ext_entries (hcopy m.entries empty m.sorted)

theorem entries_erase_head {m : OrderedMap κ ν} {x : κ × ν} {l : List (κ × ν)}
    (h : m.entries = x :: l) : (m.erase x.1).entries = l := by
  have hs := m.sorted
  rw [h, List.pairwise_cons] at hs
  change m.entries.filter (fun y => y.1 ≠ x.1) = l
  rw [h, List.filter_cons_of_neg (by simp)]
  refine List.filter_eq_self.2 ?_
  intro y hy
  simpa using (hs.1 y hy).ne'

/-- A loop that goes from entry to entry along `next` and stops behind the last one; `enc` is the
    loop variable at an entry, and `out` what the loop yields for it. -/
theorem returns_entries {β ι : Type*} {m : OrderedMap κ ν} {f : ι → ℕ → Option (List β)}
    {stop : ι} {enc : κ × ν → ι} {out : κ × ν → β} (hstop : Returns (f stop) [])
    (hstep : ∀ x ∈ m.entries, ∀ l, Returns (f ((m.next x.1).elim stop enc)) l →
      Returns (f (enc x)) (out x :: l)) {lo : κ} (hlo : ∀ k, lo ≤ k) :
    Returns (f ((m.first lo).elim stop enc)) (m.entries.map out) := by
  have hsuf : ∀ suf pre, m.entries = pre ++ suf →
      Returns (f (suf.head?.elim stop enc)) (suf.map out) := by
    intro suf
    induction suf with
    | nil =>
        intro pre _
        exact hstop
    | cons x suf ih =>
        intro pre h
        have hx : x ∈ m.entries := h ▸ List.mem_append_right _ (List.mem_cons_self ..)
        refine hstep x hx _ ?_
        rw [next_of_append (k := x.1) (w := x.2) h]
        exact ih (pre ++ [x]) (by simpa using h)
  rw [first_of_le hlo]
  exact hsuf m.entries [] rfl

/-! ## Absent keys -/

/-- The first absent key from `i` on, looking at `fuel` keys at most. -/
def firstAbsentFrom (m : OrderedMap ℕ ν) : ℕ → ℕ → ℕ
  | 0, i => i
  | fuel + 1, i => if (m.lookup i).isNone then i else m.firstAbsentFrom fuel (i + 1)

/-- The first absent key from `i` on; there are no more than `card` present ones to skip. -/
def firstAbsent (m : OrderedMap ℕ ν) (i : ℕ) : ℕ := m.firstAbsentFrom m.card i

theorem firstAbsentFrom_spec {m : OrderedMap ℕ ν} {fuel i : ℕ}
    (hfuel : (m.entries.filter (fun x => i ≤ x.1)).length ≤ fuel) :
    i ≤ m.firstAbsentFrom fuel i ∧ m.lookup (m.firstAbsentFrom fuel i) = none ∧
      ∀ j, i ≤ j → j < m.firstAbsentFrom fuel i → m.lookup j ≠ none := by
  induction fuel generalizing i with
  | zero =>
      refine ⟨le_rfl, ?_, fun j h1 h2 => absurd h2 (by rw [firstAbsentFrom]; omega)⟩
      by_contra hne
      obtain ⟨w, hw⟩ := Option.ne_none_iff_exists'.1 hne
      have hnil := List.eq_nil_of_length_eq_zero (Nat.le_zero.1 hfuel)
      have hmem : (i, w) ∈ m.entries.filter (fun x => i ≤ x.1) :=
        List.mem_filter.2 ⟨mem_entries.2 hw, by simp⟩
      rw [hnil] at hmem
      cases hmem
  | succ fuel ih =>
      rw [firstAbsentFrom]
      cases hlook : m.lookup i with
      | none => exact ⟨le_rfl, by simpa using hlook, fun j h1 h2 => absurd h2 (by simp; omega)⟩
      | some w =>
          -- the entry at `i` is no longer counted from `i + 1` on
          have hfilter : m.entries.filter (fun x => i + 1 ≤ x.1) =
              (m.entries.filter (fun x => i ≤ x.1)).filter (fun x => i + 1 ≤ x.1) := by
            rw [List.filter_filter]
            refine List.filter_congr fun x _ => ?_
            by_cases h : i + 1 ≤ x.1
            · simp [h, Nat.le_of_succ_le h]
            · simp [h]
          have hlt : (m.entries.filter (fun x => i + 1 ≤ x.1)).length <
              (m.entries.filter (fun x => i ≤ x.1)).length := by
            rw [hfilter, List.length_filter_lt_length_iff_exists]
            exact ⟨(i, w), List.mem_filter.2 ⟨mem_entries.2 hlook, by simp⟩, by simp⟩
          obtain ⟨h1, h2, h3⟩ := ih (i := i + 1) (by omega)
          simp only [Option.isNone_some, Bool.false_eq_true, if_false]
          refine ⟨by omega, h2, fun j hj1 hj2 => ?_⟩
          rcases Nat.eq_or_lt_of_le hj1 with rfl | hlt'
          · rw [hlook]
            exact Option.some_ne_none w
          · exact h3 j hlt' hj2

theorem firstAbsent_spec (m : OrderedMap ℕ ν) (i : ℕ) :
    i ≤ m.firstAbsent i ∧ m.lookup (m.firstAbsent i) = none ∧
      ∀ j, i ≤ j → j < m.firstAbsent i → m.lookup j ≠ none :=
  firstAbsentFrom_spec (List.length_filter_le _ _)

/-- The last absent key up to `i`. -/
def lastAbsent (m : OrderedMap ℕ ν) : ℕ → Option ℕ
  | 0 => if (m.lookup 0).isNone then some 0 else none
  | i + 1 => if (m.lookup (i + 1)).isNone then some (i + 1) else m.lastAbsent i

theorem lastAbsent_eq_some {m : OrderedMap ℕ ν} {i j : ℕ} :
    m.lastAbsent i = some j ↔
      m.lookup j = none ∧ j ≤ i ∧ ∀ k, j < k → k ≤ i → m.lookup k ≠ none := by
  induction i with
  | zero =>
      cases h0 : m.lookup 0 with
      | none =>
          simp only [lastAbsent, h0, Option.isNone_none, if_true, Option.some.injEq]
          refine ⟨fun h => h ▸ ⟨h0, le_rfl, fun k h1 h2 => by omega⟩, fun h => by omega⟩
      | some w =>
          simp only [lastAbsent, h0, Option.isNone_some, Bool.false_eq_true, if_false, reduceCtorEq,
            false_iff]
          rintro ⟨hj, hle, -⟩
          obtain rfl := Nat.le_zero.1 hle
          rw [h0] at hj
          cases hj
  | succ i ih =>
      rw [lastAbsent]
      cases hi : m.lookup (i + 1) with
      | none =>
          simp only [Option.isNone_none, if_true, Option.some.injEq]
          constructor
          · rintro rfl
            exact ⟨hi, le_rfl, fun k h1 h2 => by omega⟩
          · rintro ⟨-, hle, hbetween⟩
            by_contra hne
            exact hbetween (i + 1) (by omega) le_rfl hi
      | some w =>
          simp only [Option.isNone_some, Bool.false_eq_true, if_false, ih]
          refine and_congr_right fun hj => ⟨fun h => ⟨by omega, fun k h1 h2 => ?_⟩, fun h => ?_⟩
          · rcases Nat.eq_or_lt_of_le h2 with rfl | hlt
            · rw [hi]
              exact Option.some_ne_none w
            · exact h.2 k h1 (by omega)
          · have hne : j ≠ i + 1 := fun he => by
              rw [he, hi] at hj
              cases hj
            exact ⟨by omega, fun k h1 h2 => h.2 k h1 (by omega)⟩

theorem lastAbsent_eq_none {m : OrderedMap ℕ ν} {i : ℕ} :
    m.lastAbsent i = none ↔ ∀ k ≤ i, m.lookup k ≠ none := by
  induction i with
  | zero => cases h0 : m.lookup 0 <;> simp [lastAbsent, h0]
  | succ i ih =>
      rw [lastAbsent]
      constructor
      · intro h k hk
        split_ifs at h with hi
        rcases Nat.eq_or_lt_of_le hk with rfl | hlt
        · simpa using hi
        · exact ih.1 h k (by omega)
      · intro h
        rw [if_neg (by simpa using h (i + 1) le_rfl), ih]
        exact fun k hk => h k (by omega)

end OrderedMap
