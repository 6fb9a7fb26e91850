import TargetUtils.IdAllocator.Runs

set_option autoImplicit false

/-! # Enumerating the ids

`get_first` and then `get_next` until -1. The ids come out in the order of their Judy indices, except
that `get_first` does not translate the index it found in a zero-based allocator: it returns 0
whenever some id is set. -/

namespace IdAllocator

variable {a : IdAllocator} {size : ℕ} {zeroBased : Bool}

/-- The results from `id` on, up to -1. -/
def idsFrom (a : IdAllocator) : (fuel : ℕ) → (id : ℤ) → Option (List ℤ)
  | 0, _ => none
  | fuel + 1, id =>
    if id = -1 then some []
    else (a.idsFrom fuel (a.getNext (id % 2 ^ 32).toNat)).map (id :: ·)

/-- The enumeration ends, and yields the ids that are set in strictly increasing order. -/
def Enumerates (a : IdAllocator) : Prop :=
  ∃ l : List ℤ, Returns (fun fuel => a.idsFrom fuel a.getFirst) l ∧ l.Pairwise (· < ·) ∧
    ∀ x, x ∈ l ↔ ∃ id < 2 ^ 32, x = (id : ℕ) ∧ a.isSet id = 1

/-- Every id that is set is below `2^31 - 1`. -/
def SmallIds (a : IdAllocator) : Prop := ∀ j ∈ a.pj1Array, a.firstId j < 2 ^ 31 - 1

/-! ## Ids and indices -/

theorem firstId_eq (a : IdAllocator) (j : ℕ) :
    a.firstId j = if a.zeroBased = false then j + 1 else j := by
  rw [firstId]
  cases a.zeroBased <;> rfl

theorem toInt_firstId {j : ℕ} (hj : a.firstId j < 2 ^ 31 - 1) :
    (if a.zeroBased = false then toInt (u64Add j 1) else toInt j) = (a.firstId j : ℤ) := by
  rw [firstId_eq] at hj ⊢
  split_ifs at hj ⊢
  · rw [u64Add, Nat.mod_eq_of_lt (by omega), toInt_of_lt (by omega)]
  · exact toInt_of_lt (by omega)

theorem isSet_eq_one {id : ℕ} (hid : id < 2 ^ 32) :
    a.isSet id = 1 ↔ ∃ j ∈ a.pj1Array, a.firstId j = id := by
  rw [isSet]
  cases hzero : a.zeroBased with
  | true =>
      have hindex : a.indexOf id = id := by rw [indexOf, hzero, if_pos rfl]
      have hfirst : ∀ j, a.firstId j = j := fun j => by rw [firstId, hzero, if_pos rfl]
      simp [hindex, hfirst]
  | false =>
      have hfirst : ∀ j, a.firstId j = j + 1 := fun j => by rw [firstId, hzero]; rfl
      by_cases hpos : id < 1
      · simp only [hpos, and_true, if_true, hfirst]
        constructor
        · intro h
          cases h
        · rintro ⟨j, -, hj⟩
          omega
      · have hindex : a.indexOf id = id - 1 := by
          rw [indexOf, hzero, u32Sub_of_le (by omega) hid]
          rfl
        simp only [hpos, and_false, if_false, hindex, hfirst]
        constructor
        · intro h
          split_ifs at h with hmem
          · exact ⟨id - 1, hmem, by omega⟩
          · cases h
        · rintro ⟨j, hj, heq⟩
          obtain rfl : j = id - 1 := by omega
          rw [if_pos hj]

/-! ## The results of the enumeration -/

theorem getNext_firstId {j : ℕ} (hj : a.firstId j < 2 ^ 31 - 1) (o : Option ℕ)
    (hnext : a.pj1Array.next j = o) (ho : ∀ k, o = some k → a.firstId k < 2 ^ 31 - 1) :
    a.getNext (((a.firstId j : ℤ) % 2 ^ 32).toNat) = o.elim (-1) fun k => (a.firstId k : ℤ) := by
  have hid : ((a.firstId j : ℤ) % 2 ^ 32).toNat = a.firstId j := by omega
  have hpos : ¬ (a.zeroBased = false ∧ a.firstId j = 0) := by
    rintro ⟨hzero, hid⟩
    rw [firstId_eq, if_pos hzero] at hid
    omega
  have hindex : (if a.zeroBased = false then a.firstId j - 1 else a.firstId j) = j := by
    rw [firstId_eq]
    split_ifs
    · rfl
    · rfl
  rw [hid, getNext, if_neg hpos, hindex, hnext]
  cases o with
  | none => exact (by decide : toInt u32Max = -1)
  | some k => exact toInt_firstId (ho k rfl)

/-- The enumeration stops at -1. -/
theorem idsFrom_end (a : IdAllocator) : Returns (fun fuel => a.idsFrom fuel (-1)) [] :=
  Returns.of_succ (fun fuel => by rw [idsFrom, if_pos rfl]) (Returns.const rfl)

theorem idsFrom_cons {id : ℤ} {l : List ℤ} (hid : ¬ id = -1)
    (h : Returns (fun fuel => a.idsFrom fuel (a.getNext (id % 2 ^ 32).toNat)) l) :
    Returns (fun fuel => a.idsFrom fuel id) (id :: l) :=
  Returns.of_succ (fun fuel => by rw [idsFrom, if_neg hid]) (h.map (id :: ·))

/-- From an index of the array on, the enumeration yields its id and those of the later indices. -/
theorem idsFrom_entries (hsmall : a.SmallIds) (pre suf : List (ℕ × Unit)) (e : ℕ × Unit)
    (h : a.pj1Array.entries = pre ++ e :: suf) :
    Returns (fun fuel => a.idsFrom fuel (a.firstId e.1))
      ((e :: suf).map fun x => (a.firstId x.1 : ℤ)) := by
  have hmem : ∀ x ∈ e :: suf, a.firstId x.1 < 2 ^ 31 - 1 := fun x hx =>
    hsmall x.1 (OrderedMap.mem_entries.1 (h ▸ List.mem_append_right _ hx))
  have hne : ∀ x ∈ e :: suf, ¬ (a.firstId x.1 : ℤ) = -1 := fun x _ => by omega
  induction suf generalizing pre e with
  | nil =>
      have hnext : a.pj1Array.next e.1 = none :=
        congrArg (Option.map Prod.fst) (OrderedMap.next_of_append h)
      have hget := getNext_firstId (hmem e (List.mem_cons_self ..)) none hnext (by simp)
      refine idsFrom_cons (hne e (List.mem_cons_self ..)) ?_
      rw [hget]
      exact idsFrom_end a
  | cons e' suf ih =>
      have hnext : a.pj1Array.next e.1 = some e'.1 :=
        congrArg (Option.map Prod.fst) (OrderedMap.next_of_append h)
      have hget := getNext_firstId (hmem e (List.mem_cons_self ..)) (some e'.1) hnext
        fun k hk => Option.some.inj hk ▸ hmem e' (by simp)
      have hrest : Returns (fun fuel => a.idsFrom fuel (a.firstId e'.1))
          ((e' :: suf).map fun x => (a.firstId x.1 : ℤ)) :=
        ih (pre ++ [e]) e' (by simpa using h)
          (fun x hx => hmem x (List.mem_cons_of_mem _ hx))
          (fun x hx => hne x (List.mem_cons_of_mem _ hx))
      refine idsFrom_cons (hne e (List.mem_cons_self ..)) ?_
      rw [hget]
      exact hrest

/-! ## When the enumeration is right -/

/-- A zero-based allocator has no id, or it has 0. -/
def ZeroIsFirst (a : IdAllocator) : Prop :=
  a.zeroBased = true → (∀ j, j ∉ a.pj1Array) ∨ 0 ∈ a.pj1Array

theorem first_zero {e : ℕ × Unit} {rest : List (ℕ × Unit)}
    (h : a.pj1Array.entries = e :: rest) : a.pj1Array.first 0 = some e.1 := by
  rw [Judy1.first, OrderedMap.first, h, List.find?_cons_of_pos (by simp)]
  rfl

/-- 0 is the first entry when it is one. -/
theorem eq_zero_of_zero_mem {e : ℕ × Unit} {rest : List (ℕ × Unit)}
    (h : a.pj1Array.entries = e :: rest) (hset : 0 ∈ a.pj1Array) : e.1 = 0 := by
  have hsorted := a.pj1Array.sorted
  have hmem := OrderedMap.mem_entries.2 hset
  rw [h] at hsorted hmem
  rcases List.mem_cons.1 hmem with heq | hrest
  · exact (congrArg Prod.fst heq).symm
  · exact absurd ((List.pairwise_cons.1 hsorted).1 _ hrest) (Nat.not_lt_zero _)

theorem getFirst_of_empty (h : a.pj1Array.entries = []) : a.getFirst = -1 := by
  have hfirst : a.pj1Array.first 0 = none := by
    rw [Judy1.first, OrderedMap.first, h]
    rfl
  rw [getFirst, hfirst]
  exact (by decide : toInt u32Max = -1)

theorem getFirst_of_cons {e : ℕ × Unit} {rest : List (ℕ × Unit)}
    (h : a.pj1Array.entries = e :: rest) :
    a.getFirst = if a.zeroBased = false then toInt (u64Add e.1 1) else toInt 0 := by
  rw [getFirst, first_zero h]

theorem mem_ids (hsmall : a.SmallIds) (x : ℤ) :
    x ∈ a.pj1Array.entries.map (fun e => (a.firstId e.1 : ℤ)) ↔
      ∃ id < 2 ^ 32, x = (id : ℕ) ∧ a.isSet id = 1 := by
  rw [List.mem_map]
  constructor
  · rintro ⟨⟨j, u⟩, he, rfl⟩
    have hj : j ∈ a.pj1Array := OrderedMap.mem_entries.1 he
    have hlt := hsmall j hj
    have hid : a.firstId j < 2 ^ 32 := by omega
    exact ⟨a.firstId j, hid, rfl, (isSet_eq_one hid).2 ⟨j, hj, rfl⟩⟩
  · rintro ⟨id, hid, rfl, hset⟩
    obtain ⟨j, hj, rfl⟩ := (isSet_eq_one hid).1 hset
    exact ⟨(j, ()), OrderedMap.mem_entries.2 hj, rfl⟩

theorem ids_pairwise (a : IdAllocator) :
    (a.pj1Array.entries.map fun e => (a.firstId e.1 : ℤ)).Pairwise (· < ·) := by
  rw [List.pairwise_map]
  refine a.pj1Array.sorted.imp fun {e e'} hlt => ?_
  rw [firstId_eq, firstId_eq]
  split_ifs <;> omega

theorem enumerates_of_zeroIsFirst (hsmall : a.SmallIds) (h : a.ZeroIsFirst) : a.Enumerates := by
  refine ⟨a.pj1Array.entries.map fun e => (a.firstId e.1 : ℤ), ?_, ids_pairwise a, mem_ids hsmall⟩
  cases hentries : a.pj1Array.entries with
  | nil =>
      rw [getFirst_of_empty hentries]
      exact idsFrom_end a
  | cons e rest =>
      have hmem : e.1 ∈ a.pj1Array :=
        OrderedMap.mem_entries.1 (hentries ▸ List.mem_cons_self ..)
      have hfirst : a.getFirst = a.firstId e.1 := by
        rw [getFirst_of_cons hentries, ← toInt_firstId (hsmall _ hmem)]
        split_ifs with hzero
        · rfl
        · -- the least index is 0
          rcases h (by simpa using hzero) with hnone | hset
          · exact absurd hmem (hnone _)
          · have hzeroFirst : e.1 = 0 := eq_zero_of_zero_mem hentries hset
            rw [hzeroFirst]
      rw [hfirst]
      exact idsFrom_entries hsmall [] rest e hentries

/-- With a later id set but not 0, the enumeration starts with 0. -/
theorem zeroIsFirst_of_enumerates (h : a.Enumerates) : a.ZeroIsFirst := by
  obtain ⟨l, ⟨fuel, hl⟩, -, hmem⟩ := h
  intro hzero
  cases hentries : a.pj1Array.entries with
  | nil =>
      refine Or.inl fun j hj => ?_
      have hin := OrderedMap.mem_entries.2 hj
      rw [hentries] at hin
      cases hin
  | cons e rest =>
      have hfirst : a.getFirst = 0 := by
        rw [getFirst_of_cons hentries, hzero]
        rfl
      have hhead : a.idsFrom (fuel + 1) a.getFirst = some l := hl _ (Nat.le_succ fuel)
      rw [hfirst, idsFrom, if_neg (by decide), Option.map_eq_some_iff] at hhead
      obtain ⟨tail, -, rfl⟩ := hhead
      obtain ⟨id, hid, hid0, hset⟩ := (hmem 0).1 (List.mem_cons_self ..)
      obtain rfl : id = 0 := by omega
      obtain ⟨j, hj, hj0⟩ := (isSet_eq_one hid).1 hset
      rw [firstId, if_pos hzero] at hj0
      subst hj0
      exact Or.inr hj

/-- One call after which every id that is set is below `2^31 - 1`. This leaves out `set(0)` of a
    one-based allocator, which sets index `2^32 - 1`. -/
def SmallStep (a : IdAllocator) (e : Call × ℤ) (a' : IdAllocator) : Prop :=
  Step Call.AnyId a e a' ∧ a'.SmallIds

/-- In every state of every run the enumeration is right exactly when a zero-based allocator with
    some id set has id 0 set. -/
theorem enumerates_iff {es : List (Call × ℤ)} (hrun : Run SmallStep (new size zeroBased) es a) :
    a.Enumerates ↔ a.ZeroIsFirst := by
  have hsmall : a.SmallIds := hrun.invariant (P := SmallIds)
    (fun j hj => by cases hj) fun _ _ _ _ hstep => hstep.2
  exact ⟨zeroIsFirst_of_enumerates, enumerates_of_zeroIsFirst hsmall⟩

theorem SmallIds.set (h : a.SmallIds) {id : ℕ} (hid : a.firstId (a.indexOf id) < 2 ^ 31 - 1) :
    (a.set id).SmallIds := by
  intro j hj
  rcases Judy1.mem_set.1 hj with rfl | hj
  · exact hid
  · exact h j hj

/-- Ids 3 and 5 of a one-based allocator. -/
theorem enumerates_iff_oneBased :
    (((new 8 false).set 3).set 5).Enumerates ↔ (((new 8 false).set 3).set 5).ZeroIsFirst := by
  have hnew : (new 8 false).SmallIds := fun j hj => by cases hj
  have hthree : ((new 8 false).set 3).SmallIds := hnew.set (by decide)
  have hfive : (((new 8 false).set 3).set 5).SmallIds := hthree.set (by decide)
  have hstep : ∀ (a : IdAllocator) (id : ℕ), id < 2 ^ 32 → (a.set id).SmallIds →
      SmallStep a (.set id, 0) (a.set id) := fun a id hid hsmall =>
    ⟨⟨fun _ i => i, hid, 0, rfl⟩, hsmall⟩
  exact enumerates_iff ((Run.nil.snoc (hstep _ 3 (by decide) hthree)).snoc
    (hstep _ 5 (by decide) hfive))

/-- Only id 5 of a zero-based allocator is set: the enumeration starts with 0. -/
theorem enumerates_false :
    ¬ ∀ (size : ℕ) (zeroBased : Bool) (es : List (Call × ℤ)) (a : IdAllocator),
      Run SmallStep (new size zeroBased) es a → a.Enumerates := by
  intro hclaim
  have hnew : (new 8 true).SmallIds := fun j hj => by cases hj
  have hstep : SmallStep (new 8 true) (.set 5, 0) ((new 8 true).set 5) :=
    ⟨⟨fun _ i => i, show 5 < 2 ^ 32 by decide, 0, rfl⟩, hnew.set (by decide)⟩
  rcases zeroIsFirst_of_enumerates (hclaim 8 true _ _ (Run.nil.snoc hstep)) rfl with hnone | hzero
  · exact hnone 5 (by decide)
  · exact absurd hzero (by decide)

end IdAllocator
