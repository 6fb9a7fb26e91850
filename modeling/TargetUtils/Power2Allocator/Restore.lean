import TargetUtils.Power2Allocator.Runs

set_option autoImplicit false

/-! # Saving and restoring the blocks in use

The blocks in use are all that has to be saved of an allocator: releasing them leads back to the
state after `power2_allocator_create`, and reserving them there, in any order, leads to the very
state that was saved (`restore_of_run`). So any two states of one pool are connected. -/

namespace Pool

variable {p q : Pool} {i s : ℕ}

/-- Every block of `q` is one of `p`. -/
structure Within (q p : Pool) : Prop where
  total : q.total = p.total
  blocks : ∀ i s, q.blocks.lookup i = some s → p.blocks.lookup i = some s

theorem within_empty (p : Pool) : (Pool.empty p.total).Within p :=
  ⟨rfl, fun i s h => by simp [Pool.empty] at h⟩

/-- A block that is not in use yet fits. -/
theorem Within.fits (h : q.Within p) (hi : p.blocks.lookup i = some s)
    (hq : q.blocks.lookup i = none) : q.Fits i s := by
  intro j h1 h2
  have hin := p.inside i s hi
  have htotal := h.total
  refine ⟨by omega, ?_⟩
  intro k t hk hkj
  have heq := start_unique hi (h.blocks k t hk) ⟨h1, h2⟩ hkj
  rw [heq, hk] at hq
  cases hq

theorem Within.take (h : q.Within p) (hi : p.blocks.lookup i = some s) (hs : 0 < s)
    (hfit : q.Fits i s) : (q.take i s hs hfit).Within p := by
  refine ⟨h.total, ?_⟩
  intro k t hk
  rw [Pool.take, OrderedMap.lookup_insert] at hk
  split_ifs at hk with hki
  · rw [hki, hi, hk]
  · exact h.blocks k t hk

/-- With all blocks of `p` in use the pool is `p`. -/
theorem Within.eq (h : q.Within p) (hall : ∀ i s, p.blocks.lookup i = some s →
    q.blocks.lookup i = some s) : q = p := by
  refine Pool.ext h.total (OrderedMap.ext_lookup fun i => ?_)
  cases hq : q.blocks.lookup i with
  | some s => exact (h.blocks i s hq).symm
  | none =>
      cases hp : p.blocks.lookup i with
      | none => rfl
      | some s =>
          rw [hall i s hp] at hq
          cases hq

end Pool

namespace Power2Allocator

variable {a a₀ : Power2Allocator} {L : ℕ} {p q : Pool} {size count : ℕ}

/-- One `power2_allocator_reserve` for each block of the list: the return values and the state
    reached. -/
def reserveEach (a : Power2Allocator) : List (ℕ × ℕ) → List ℤ × Power2Allocator
  | [] => ([], a)
  | (index, size) :: l =>
    let r := a.reserve index size
    let rest := reserveEach r.2 l
    (r.1 :: rest.1, rest.2)

/-- What a client saves: `power2_allocator_first_alloc` and then `power2_allocator_next_alloc` until
    -1, each index with what `power2_allocator_get_index_size` says. -/
def savedFrom (a : Power2Allocator) : (idx : ℤ) → (fuel : ℕ) → Option (List (ℕ × ℕ))
  | _, 0 => none
  | idx, fuel + 1 =>
    if idx = -1 then some []
    else
      let index := (idx % 2 ^ 32).toNat
      (a.savedFrom (a.nextAlloc idx) fuel).map ((index, (a.getIndexSize index).1) :: ·)

/-- The first block is released until there is none. -/
def drain : (fuel : ℕ) → Power2Allocator → Option Power2Allocator
  | 0, _ => none
  | fuel + 1, a =>
    if a.firstAlloc = -1 then some a else drain fuel (a.release (a.firstAlloc % 2 ^ 32).toNat).2

/-! ## Saving -/

theorem Represents.nextAlloc_eq (h : a.Represents L p) {i s : ℕ}
    (hi : p.blocks.lookup i = some s) :
    a.nextAlloc i = (p.blocks.next i).elim (-1) fun x => (x.1 : ℤ) := by
  have hbounds := h.block_bounds hi
  have hindex : ((i : ℤ) % 2 ^ 64).toNat = i := by omega
  unfold nextAlloc
  rw [hindex, h.inuse]
  cases hnext : p.blocks.next i with
  | none => rfl
  | some x =>
      obtain ⟨hx, -, -⟩ := OrderedMap.next_eq_some.1 (show p.blocks.next i = some (x.1, x.2) from hnext)
      have hbounds := h.block_bounds hx
      exact toInt_of_lt (by omega)

theorem Represents.firstAlloc_eq (h : a.Represents L p) :
    a.firstAlloc = (p.blocks.first 0).elim (-1) fun x => (x.1 : ℤ) := by
  unfold firstAlloc
  rw [h.inuse]
  cases hfirst : p.blocks.first 0 with
  | none => rfl
  | some x =>
      obtain ⟨hx, -, -⟩ := OrderedMap.first_eq_some.1 (show p.blocks.first 0 = some (x.1, x.2) from hfirst)
      have hbounds := h.block_bounds hx
      exact toInt_of_lt (by omega)

/-- The blocks in use are saved in the order of their indices. -/
theorem Represents.saved (h : a.Represents L p) :
    Returns (a.savedFrom a.firstAlloc) p.blocks.entries := by
  have hstop : Returns (a.savedFrom (-1)) [] :=
    Returns.of_succ (fun fuel => if_pos rfl) (Returns.const rfl)
  have hstep : ∀ x ∈ p.blocks.entries, ∀ l,
      Returns (a.savedFrom ((p.blocks.next x.1).elim (-1) fun x => (x.1 : ℤ))) l →
        Returns (a.savedFrom x.1) (id x :: l) := by
    intro x hx l hl
    have hlook := OrderedMap.mem_entries.1 (show (x.1, x.2) ∈ p.blocks.entries from hx)
    have hbounds := h.block_bounds hlook
    have hindex : ((x.1 : ℤ) % 2 ^ 32).toNat = x.1 := by omega
    rw [← h.nextAlloc_eq hlook] at hl
    refine Returns.of_succ (fun fuel => ?_) (hl.map (x :: ·))
    rw [savedFrom, if_neg (by omega)]
    simp only [hindex, (h.getIndexSize_some hlook).1, Prod.mk.eta]
  have hwalk := OrderedMap.returns_entries hstop hstep Nat.zero_le
  rw [List.map_id] at hwalk
  rw [h.firstAlloc_eq]
  exact hwalk

/-! ## Draining -/

theorem Represents.drain {a' : Power2Allocator} (h : a.Represents L p)
    (h' : a'.Represents L (Pool.empty p.total)) : Returns (fun fuel => drain fuel a) a' := by
  obtain ⟨l, hl⟩ : ∃ l, l = p.blocks.entries := ⟨_, rfl⟩
  induction l generalizing a p with
  | nil =>
      have hempty : p = Pool.empty p.total :=
        Pool.ext rfl (OrderedMap.ext_entries hl.symm)
      have heq : a = a' := h.unique (hempty ▸ h')
      have hfirst : a.firstAlloc = -1 := by
        rw [h.firstAlloc_eq, OrderedMap.first_of_le Nat.zero_le, ← hl]
        rfl
      subst heq
      exact Returns.of_succ (fun fuel => by rw [Power2Allocator.drain, if_pos hfirst])
        (Returns.const rfl)
  | cons x l ih =>
      have hx : p.blocks.lookup x.1 = some x.2 :=
        OrderedMap.mem_entries.1 (hl ▸ List.mem_cons_self ..)
      have hbounds := h.block_bounds hx
      have hfirst : a.firstAlloc = x.1 := by
        rw [h.firstAlloc_eq, OrderedMap.first_of_le Nat.zero_le, ← hl]
        rfl
      have hindex : ((x.1 : ℤ) % 2 ^ 32).toNat = x.1 := by omega
      refine Returns.of_succ (fun fuel => ?_) (ih (h.release hx).2 h'
        (OrderedMap.entries_erase_head hl.symm).symm)
      rw [Power2Allocator.drain, hfirst, if_neg (by omega), hindex]

/-! ## Restoring -/

theorem Represents.reserveEach {l : List (ℕ × ℕ)} (h : a.Represents L q) (hqp : q.Within p)
    (hl : ∀ x ∈ l, p.blocks.lookup x.1 = some x.2 ∧ q.blocks.lookup x.1 = none)
    (hnodup : (l.map Prod.fst).Nodup)
    (hall : ∀ i s, p.blocks.lookup i = some s → q.blocks.lookup i = some s ∨ (i, s) ∈ l) :
    (∀ rc ∈ (a.reserveEach l).1, rc = 0) ∧ (a.reserveEach l).2.Represents L p := by
  induction l generalizing a q with
  | nil =>
      have heq : q = p := hqp.eq fun i s hi => (hall i s hi).resolve_right (List.not_mem_nil)
      exact ⟨fun rc hrc => absurd hrc List.not_mem_nil, heq ▸ h⟩
  | cons x l ih =>
      obtain ⟨i, s⟩ := x
      obtain ⟨hi, hfree⟩ := hl (i, s) (List.mem_cons_self ..)
      have hs := p.pos i s hi
      have hfit := hqp.fits hi hfree
      obtain ⟨hrc, hr⟩ := h.reserve hs hfit
      rw [List.map_cons, List.nodup_cons] at hnodup
      have hrest := ih hr (hqp.take hi hs hfit) (fun x hx => ?_) hnodup.2 (fun k t hk => ?_)
      · refine ⟨?_, hrest.2⟩
        intro rc hmem
        rcases List.mem_cons.1 hmem with rfl | hmem
        · exact hrc
        · exact hrest.1 rc hmem
      · have hne : x.1 ≠ i := fun heq => hnodup.1 (heq ▸ List.mem_map.2 ⟨x, hx, rfl⟩)
        obtain ⟨hx1, hx2⟩ := hl x (List.mem_cons_of_mem _ hx)
        exact ⟨hx1, by rw [Pool.take, OrderedMap.lookup_insert, if_neg hne, hx2]⟩
      · rw [Pool.take, OrderedMap.lookup_insert]
        by_cases hki : k = i
        · rw [hki, hi] at hk
          exact Or.inl (by rw [if_pos hki, hk])
        · rw [if_neg hki]
          rcases hall k t hk with hq | hmem
          · exact Or.inl hq
          · rcases List.mem_cons.1 hmem with heq | hmem
            · exact absurd (congrArg Prod.fst heq) hki
            · exact Or.inr hmem

/-! ## Copying -/

theorem copyEntries_eq (m : JudyL) : copyEntries m = m := by
  unfold copyEntries
  rw [OrderedMap.foldWalk_first _ Nat.zero_le, OrderedMap.foldl_insert_entries]

/-- `power2_allocator_make_copy` copies the state. -/
theorem makeCopy_eq (hlen : a.freeLists.length = a.noFreeLists) : a.makeCopy = a := by
  have hloop : ∀ n ≤ a.noFreeLists, ((List.range n).foldl (fun dest i =>
      dest.setFreeList i (a.freeList i)) { a with
        freeLists := List.replicate a.noFreeLists OrderedMap.empty
        inuseList := OrderedMap.empty }) = { a with
          freeLists := a.freeLists.take n ++ List.replicate (a.noFreeLists - n) OrderedMap.empty
          inuseList := OrderedMap.empty } := by
    intro n hn
    induction n with
    | zero => rfl
    | succ n ih =>
        have hrest : a.noFreeLists - n = a.noFreeLists - (n + 1) + 1 := by omega
        rw [List.range_succ, List.foldl_append, ih (by omega), List.foldl_cons, List.foldl_nil,
          setFreeList, hrest, List.replicate_succ, List.set_append_right _ _ (by simp),
          List.length_take_of_le (by omega), Nat.sub_self, List.set_cons_zero,
          ← List.take_append_getElem (by omega), List.append_assoc]
        simp [freeList, List.getD_eq_getElem?_getD, hlen, show n < a.noFreeLists by omega]
  simp only [makeCopy, copyEntries_eq]
  rw [hloop _ le_rfl, ← hlen, List.take_length, Nat.sub_self, List.replicate_zero,
    List.append_nil, hlen]

/-! ## The round trip -/

/-- The blocks in use can be saved, releasing them leads back to the state after `create`, and
    reserving the saved blocks there, in any order, to the state they were saved in; a copy is the
    state itself. -/
theorem restore_of_run {es : List (Call × ℤ)} (hsize : size < 2 ^ 32)
    (hsmall : size * count < 2 ^ 31) (hcreate : create size count = some a₀)
    (hrun : Run (Step Call.Legal) a₀ es a) :
    ∃ blocks, Returns (a.savedFrom a.firstAlloc) blocks ∧
      (∀ i s, (i, s) ∈ blocks ↔ a.inuseList.lookup i = some s) ∧
      Returns (fun fuel => drain fuel a) a₀ ∧ a.makeCopy = a ∧
      ∀ order, order.Perm blocks →
        (∀ rc ∈ (a₀.reserveEach order).1, rc = 0) ∧ (a₀.reserveEach order).2 = a := by
  obtain ⟨L, p, hL, htotal, hp⟩ := exists_pool_of_run hsize hsmall hcreate (run_harmless hrun)
  have hL32 : L < 32 := hp.holds.cap
  obtain ⟨a₀', hcreate', hinit⟩ := create_represents hL32 hL hsmall
  obtain rfl : a₀' = a₀ := Option.some.inj (hcreate'.symm.trans hcreate)
  rw [← htotal] at hinit
  refine ⟨_, hp.saved, fun i s => by rw [OrderedMap.mem_entries, hp.inuse], hp.drain hinit,
    makeCopy_eq (hp.holds.length.trans hp.holds.noFreeLists.symm), ?_⟩
  intro order horder
  have hmem : ∀ i s, (i, s) ∈ order ↔ p.blocks.lookup i = some s := fun i s => by
    rw [horder.mem_iff, OrderedMap.mem_entries]
  have hnodup : (order.map Prod.fst).Nodup :=
    (horder.map Prod.fst).nodup_iff.2 (List.pairwise_map.2 (p.blocks.sorted.imp fun hlt => hlt.ne))
  obtain ⟨hrc, hr⟩ := hinit.reserveEach (p.within_empty) (l := order)
    (fun x hx => ⟨(hmem x.1 x.2).1 hx, by simp [Pool.empty]⟩) hnodup
    (fun i s hi => Or.inr ((hmem i s).2 hi))
  exact ⟨hrc, hr.unique hp⟩

/-- Blocks at 1 and 4 of a pool of 8 indices. -/
theorem restore_of_run_two : ∃ a₀ blocks, create 4 2 = some a₀ ∧
    (a₀.reserveEach blocks).2 = ((a₀.reserve 1 2).2.reserve 4 3).2 ∧ (1, 2) ∈ blocks := by
  have hstate : (create 4 2).any (fun a => decide
      (((a.reserve 1 2).2.reserve 4 3).2.inuseList.lookup 1 = some 2)) = true := by
    decide +kernel
  obtain ⟨a₀, hcreate, hlook⟩ := (Option.any_eq_true _ _).1 hstate
  have hfirst := run_call (Run.nil : Run (Step Call.Legal) a₀ [] a₀) (c := .reserve 1 2)
    ⟨by decide, by decide⟩ 0 rfl
  have hsecond := run_call hfirst (c := .reserve 4 3) ⟨by decide, by decide⟩ 0 rfl
  obtain ⟨blocks, -, hmem, -, -, hrestore⟩ := restore_of_run (by decide : 4 < 2 ^ 32)
    (by decide : 4 * 2 < 2 ^ 31) hcreate hsecond
  exact ⟨a₀, blocks, hcreate, (hrestore blocks (List.Perm.refl blocks)).2,
    (hmem 1 2).2 (of_decide_eq_true hlook)⟩

end Power2Allocator
