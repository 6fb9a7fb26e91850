import TargetUtils.Library.OrderedMap
import Mathlib

set_option autoImplicit false

/-! # Partial maps

A partial map is a function to `Option`. Over ordered keys it answers the same queries as an
`OrderedMap`, by what they mean and not by a search: the entry with the least key in a set
(`leastEntry`) and the number of keys (`card`). The lookup function of an ordered map is a partial
map on which every operation agrees. -/

universe u v

/-- A partial map from `κ` to `ν`. -/
abbrev PartialMap (κ : Type u) (ν : Type v) := κ → Option ν

namespace PartialMap

variable {κ : Type u} {ν : Type v}

/-- The map without entries. -/
def empty : PartialMap κ ν := fun _ => none

/-- The keys that have a value. -/
def keys (m : PartialMap κ ν) : Set κ := {k | m k ≠ none}

/-- The number of keys. -/
noncomputable def card (m : PartialMap κ ν) : ℕ := m.keys.ncard

variable [LinearOrder κ]

/-- `e` is an entry of `m`, and its key is the least in `S` that has a value. -/
structure IsLeastEntry (m : PartialMap κ ν) (S : Set κ) (e : κ × ν) : Prop where
  value : m e.1 = some e.2
  mem : e.1 ∈ S
  least : ∀ i ∈ S, i < e.1 → m i = none

theorem IsLeastEntry.unique {m : PartialMap κ ν} {S : Set κ} {e e' : κ × ν}
    (h : m.IsLeastEntry S e) (h' : m.IsLeastEntry S e') : e = e' := by
  have hle : ∀ {d d' : κ × ν}, m.IsLeastEntry S d → m.IsLeastEntry S d' → d.1 ≤ d'.1 := by
    intro d d' hd hd'
    by_contra hlt
    have hnone := hd.least d'.1 hd'.mem (not_le.1 hlt)
    rw [hd'.value] at hnone
    cases hnone
  have hkey : e.1 = e'.1 := le_antisymm (hle h h') (hle h' h)
  have hval : some e.2 = some e'.2 := by rw [← h.value, ← h'.value, hkey]
  exact Prod.ext hkey (Option.some.inj hval)

open Classical in
/-- The entry of `m` with the least key in `S`. -/
noncomputable def leastEntry (m : PartialMap κ ν) (S : Set κ) : Option (κ × ν) :=
  if h : ∃ e, m.IsLeastEntry S e then some h.choose else none

theorem leastEntry_eq_some {m : PartialMap κ ν} {S : Set κ} {e : κ × ν}
    (h : m.IsLeastEntry S e) : m.leastEntry S = some e := by
  have hex : ∃ e, m.IsLeastEntry S e := ⟨e, h⟩
  rw [leastEntry, dif_pos hex, hex.choose_spec.unique h]

theorem leastEntry_eq_none {m : PartialMap κ ν} {S : Set κ} (h : ∀ i ∈ S, m i = none) :
    m.leastEntry S = none := by
  refine dif_neg ?_
  rintro ⟨e, he⟩
  have hnone := h e.1 he.mem
  rw [he.value] at hnone
  cases hnone

end PartialMap

/-! ## Finitely many entries -/

namespace PartialMap

variable {κ : Type u} {ν : Type v} {f : PartialMap κ ν} {m : Multiset (κ × ν)} {k : κ} {w : ν}

/-- The entries of `f` are `m`. -/
structure HasEntries (f : PartialMap κ ν) (m : Multiset (κ × ν)) : Prop where
  nodup : (m.map Prod.fst).Nodup
  eq_some : ∀ k w, f k = some w ↔ (k, w) ∈ m

theorem hasEntries_empty : (empty : PartialMap κ ν).HasEntries 0 := by
  refine ⟨Multiset.nodup_zero, fun k w => ?_⟩
  constructor
  · intro h
    exact nomatch h
  · intro h
    exact absurd h (Multiset.notMem_zero _)

theorem HasEntries.notMem (h : f.HasEntries m) (hk : f k = none) : k ∉ m.map Prod.fst := by
  intro hmem
  obtain ⟨⟨j, w⟩, he, rfl⟩ := Multiset.mem_map.1 hmem
  have hval := (h.eq_some j w).2 he
  rw [show f j = none from hk] at hval
  exact nomatch hval

theorem HasEntries.update_some [DecidableEq κ] (h : f.HasEntries m) (hk : f k = none) (w : ν) :
    HasEntries (Function.update f k (some w)) ((k, w) ::ₘ m) := by
  have hfresh := h.notMem hk
  refine ⟨?_, fun j v => ?_⟩
  · rw [Multiset.map_cons]
    exact Multiset.nodup_cons.2 ⟨hfresh, h.nodup⟩
  · rw [Multiset.mem_cons, Function.update_apply]
    by_cases hj : j = k
    · subst hj
      have hnot : (j, v) ∉ m := fun he => hfresh (Multiset.mem_map.2 ⟨_, he, rfl⟩)
      simp [hnot, eq_comm]
    · rw [if_neg hj, h.eq_some]
      simp [hj]

theorem HasEntries.update_none [DecidableEq κ] (h : f.HasEntries ((k, w) ::ₘ m)) :
    HasEntries (Function.update f k none) m := by
  have hnodup := h.nodup
  rw [Multiset.map_cons, Multiset.nodup_cons] at hnodup
  refine ⟨hnodup.2, fun j v => ?_⟩
  rw [Function.update_apply]
  by_cases hj : j = k
  · subst hj
    have hnot : (j, v) ∉ m := fun he => hnodup.1 (Multiset.mem_map.2 ⟨_, he, rfl⟩)
    simp [hnot]
  · rw [if_neg hj, h.eq_some, Multiset.mem_cons]
    simp [hj]

/-- The entry of the first of the keys, and the others. -/
theorem exists_entry_of_cons {l : List κ} (hl : ((k :: l : List κ) : Multiset κ) = m.map Prod.fst) :
    ∃ w m', m = (k, w) ::ₘ m' ∧ (l : Multiset κ) = m'.map Prod.fst := by
  have hmem : k ∈ m.map Prod.fst := hl ▸ Multiset.mem_coe.2 (List.mem_cons_self ..)
  obtain ⟨⟨j, w⟩, he, rfl⟩ := Multiset.mem_map.1 hmem
  obtain ⟨m', rfl⟩ := Multiset.exists_cons_of_mem he
  rw [Multiset.map_cons, ← Multiset.cons_coe, Multiset.cons_inj_right] at hl
  exact ⟨w, m', rfl, hl⟩

/-- Looking up every key once, in any order, gives every value once. -/
theorem exists_mapM {l : List κ} (hl : (l : Multiset κ) = m.map Prod.fst)
    (h : ∀ e ∈ m, f e.1 = some e.2) :
    ∃ vs, l.mapM f = some vs ∧ (vs : Multiset ν) = m.map Prod.snd := by
  induction l generalizing m with
  | nil =>
      obtain rfl := Multiset.map_eq_zero.1 hl.symm
      exact ⟨[], rfl, rfl⟩
  | cons k l ih =>
      obtain ⟨w, m', rfl, hl'⟩ := exists_entry_of_cons hl
      obtain ⟨vs, hvs, hperm⟩ := ih hl' fun e he => h e (Multiset.mem_cons_of_mem he)
      refine ⟨w :: vs, ?_, ?_⟩
      · rw [List.mapM_cons, h (k, w) (Multiset.mem_cons_self ..), hvs]
        rfl
      · rw [Multiset.map_cons, ← hperm, Multiset.cons_coe]

end PartialMap

/-! ## The lookup function of an ordered map -/

namespace OrderedMap

variable {κ : Type u} {ν : Type v} [LinearOrder κ]

theorem lookup_insert_eq (m : OrderedMap κ ν) (k : κ) (w : ν) :
    (m.insert k w).lookup = Function.update m.lookup k (some w) := by
  funext j
  rw [lookup_insert, Function.update_apply]

theorem lookup_erase_eq (m : OrderedMap κ ν) (k : κ) :
    (m.erase k).lookup = Function.update m.lookup k none := by
  funext j
  rw [lookup_erase, Function.update_apply]

theorem first_eq_leastEntry (m : OrderedMap κ ν) (k : κ) :
    m.first k = PartialMap.leastEntry m.lookup (Set.Ici k) := by
  cases h : m.first k with
  | none => exact (PartialMap.leastEntry_eq_none (first_eq_none.1 h)).symm
  | some e =>
      obtain ⟨hval, hmem, hleast⟩ := first_eq_some.1 h
      exact (PartialMap.leastEntry_eq_some ⟨hval, hmem, hleast⟩).symm

theorem next_eq_leastEntry (m : OrderedMap κ ν) (k : κ) :
    m.next k = PartialMap.leastEntry m.lookup (Set.Ioi k) := by
  cases h : m.next k with
  | none => exact (PartialMap.leastEntry_eq_none (next_eq_none.1 h)).symm
  | some e =>
      obtain ⟨hval, hmem, hleast⟩ := next_eq_some.1 h
      exact (PartialMap.leastEntry_eq_some ⟨hval, hmem, hleast⟩).symm

theorem card_eq_card_lookup (m : OrderedMap κ ν) : m.card = PartialMap.card m.lookup := by
  have hnodup : (m.entries.map Prod.fst).Nodup := by
    rw [List.nodup_iff_pairwise_ne, List.pairwise_map]
    exact m.sorted.imp fun h => h.ne
  have hkeys : PartialMap.keys m.lookup = ↑(m.entries.map Prod.fst).toFinset := by
    ext k
    rw [PartialMap.keys, Set.mem_ofPred_eq, Option.ne_none_iff_exists', Finset.mem_coe,
      List.mem_toFinset, List.mem_map]
    constructor
    · rintro ⟨w, hw⟩
      exact ⟨(k, w), mem_entries.2 hw, rfl⟩
    · rintro ⟨⟨j, w⟩, hmem, rfl⟩
      exact ⟨w, mem_entries.1 hmem⟩
  rw [PartialMap.card, hkeys, Set.ncard_coe_finset, List.toFinset_card_of_nodup hnodup,
    List.length_map, card]

end OrderedMap
