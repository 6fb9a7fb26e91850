import TargetUtils.IdAllocator.Runs

set_option autoImplicit false

/-! # Range and termination of contiguous allocation

Two defects of the search loop, with the exact states in which they show.

* When the search reaches the end of the set indices, the length of the last hole is measured from
  what the failed search left in `Index`, and the only other check, `first_empty > size`, lets
  `first_empty = size` pass. A block may then reach beyond the size (`Overrun`).
* When no index is set behind the first hole and the hole is too short, every round of the loop starts
  and ends at `size` (`TailTooShort`). -/

namespace IdAllocator

variable {a a' : IdAllocator} {size count : ℕ} {zeroBased : Bool} {miss : ℕ → ℕ → ℕ}

/-! ## Range -/

/-- `0 .. size - 1`, or `1 .. size` for a one-based allocator. -/
def InRange (a : IdAllocator) (id : ℕ) : Prop :=
  if a.zeroBased then id < a.size else 1 ≤ id ∧ id ≤ a.size

instance (a : IdAllocator) (id : ℕ) : Decidable (a.InRange id) :=
  inferInstanceAs (Decidable (if a.zeroBased then id < a.size else 1 ≤ id ∧ id ≤ a.size))

/-- Counts of the interface and ids in the range of the allocator. -/
def Call.InRange (a : IdAllocator) (_ : ℕ → ℕ → ℕ) : Call → Prop
  | .allocate => True
  | .allocateContiguous count => 1 ≤ count ∧ count ≤ 255
  | .release id => a.InRange id
  | .set id => a.InRange id

/-- The same calls with the Judy1 of the repository. -/
def Call.InRangeJudy1 (a : IdAllocator) (miss : ℕ → ℕ → ℕ) (c : Call) : Prop :=
  c.InRange a miss ∧ miss = a.pj1Array.judy1NextMiss

/-- No hole before a set index is long enough, the last hole is shorter than `count` as well, and
    what the failed search leaves in `Index` passes for enough room. -/
def Overrun (a : IdAllocator) (count : ℕ) (miss : ℕ → ℕ → ℕ) : Prop :=
  2 ≤ count ∧ (∀ b, ¬ FitsBefore a.pj1Array b count) ∧ ∃ t, IsEnd a.pj1Array t ∧
    (∃ h < t, h ∉ a.pj1Array) ∧ t ≤ a.size ∧ a.size < t + count ∧
      count ≤ u64Sub a.size (miss 0 t)

/-- Calls in the range that do not meet an overrun. -/
def Call.NoOverrun (a : IdAllocator) (miss : ℕ → ℕ → ℕ) (c : Call) : Prop :=
  c.InRange a miss ∧ ∀ count, c = .allocateContiguous count → ¬ a.Overrun count miss

/-- With the Judy1 of the repository an overrun needs the last index of the range to be set. -/
theorem overrun_judy1NextMiss (hsize : a.size < 2 ^ 31) (hcount : count ≤ 255) :
    a.Overrun count a.pj1Array.judy1NextMiss ↔
      2 ≤ count ∧ (∀ b, ¬ FitsBefore a.pj1Array b count) ∧ IsEnd a.pj1Array a.size ∧
        ∃ h < a.size, h ∉ a.pj1Array := by
  have hleft : ∀ t, IsEnd a.pj1Array t → t ≤ a.size →
      a.pj1Array.judy1NextMiss 0 t = t + 1 := by
    rintro t ⟨⟨n, hn, -⟩, -⟩ ht
    exact Judy1.judy1NextMiss_of_mem hn (by omega) 0
  constructor
  · rintro ⟨h2, hnofit, t, hend, hhole, hle, hlt, hroom⟩
    rw [hleft t hend hle] at hroom
    by_cases hts : t = a.size
    · subst hts
      exact ⟨h2, hnofit, hend, hhole⟩
    · rw [u64Sub_of_le (by omega) (by omega)] at hroom
      omega
  · rintro ⟨h2, hnofit, hend, hhole⟩
    refine ⟨h2, hnofit, a.size, hend, hhole, le_rfl, by omega, ?_⟩
    rw [hleft _ hend le_rfl, u64Sub_of_lt (by omega) (by omega)]
    omega

theorem InRange.indexOf_lt {id : ℕ} (h : a.InRange id) (hsize : a.size < 2 ^ 31) :
    a.indexOf id < a.size := by
  rw [InRange] at h
  rw [indexOf]
  split_ifs at h ⊢
  · exact h
  · rw [u32Sub_of_le h.1 (by omega)]
    omega

theorem inRange_firstId {b i : ℕ} (h : b + i < a.size) : a.InRange (a.firstId b + i) := by
  rw [InRange, firstId]
  split_ifs <;> omega

theorem InRange.of_indexOf_lt {id : ℕ} (hid : id < 2 ^ 32) (hsize : a.size < 2 ^ 31)
    (h : a.indexOf id < a.size) : a.InRange id := by
  rw [indexOf] at h
  rw [InRange]
  split_ifs at h ⊢
  · exact h
  · simp only [u32Sub] at h
    omega

theorem Call.InRange.anyId {c : Call} (h : c.InRange a miss) (hsize : a.size < 2 ^ 31) :
    c.AnyId a miss := by
  have hlt : ∀ id, a.InRange id → id < 2 ^ 32 := fun id hid => by
    rw [IdAllocator.InRange] at hid
    split_ifs at hid <;> omega
  cases c with
  | allocate => trivial
  | allocateContiguous count => exact h
  | release id => exact hlt id h
  | set id => exact hlt id h

/-- A block handed out without an overrun lies inside the allocator. -/
theorem Placed.le_size {b : ℕ} (h : a.Placed count miss b) (hb : b ≤ a.size)
    (hall : ∀ j ∈ a.pj1Array, j < a.size) (hno : 2 ≤ count → ¬ a.Overrun count miss) :
    b + count ≤ a.size := by
  rcases h with h | ⟨-, n, hn, hle⟩ | ⟨h2, hend, hroom, hhole, hnofit⟩
  · exact h
  · have := hall n hn
    omega
  · by_contra hlt
    exact hno h2 ⟨h2, hnofit, b, hend, hhole, hb, by omega, hroom⟩

theorem request_inRange (hm : a.pj1Array.Small) (hsize : a.size < 2 ^ 31)
    (hall : ∀ j ∈ a.pj1Array, j < a.size) {e : Call × ℤ} (hreq : e.1.IsRequest)
    (hok : e.1.NoOverrun a miss) {fuel : ℕ} (hexec : e.1.exec fuel miss a = some (e.2, a')) :
    (∀ id, HandsOut e id → a.InRange id) ∧ ∀ j ∈ a'.pj1Array, j < a.size := by
  have hany := hok.1.anyId hsize
  rcases request_cases hm hsize hreq hany hexec with ⟨rfl, hnone⟩ | ⟨b, hb, -, hp, rfl, hids⟩
  · exact ⟨fun id hid => absurd hid (hnone id), hall⟩
  have hcount := hany.count_le
  have hin : b + e.1.count ≤ a.size := hp.le_size hb hall fun h2 => by
    obtain ⟨call, rc⟩ := e
    cases call with
    | allocateContiguous count => exact hok.2 count rfl
    | _ => simp [Call.count] at h2
  refine ⟨fun id hid => ?_, fun j hj => ?_⟩
  · obtain ⟨i, hi, rfl⟩ := (hids id).1 hid
    exact inRange_firstId (by omega)
  · rcases (mem_setBlock (by omega)).1 hj with hj | hj
    · exact hall j hj
    · omega

/-- A state in which only indices inside the allocator are set. -/
structure WfInRange (a : IdAllocator) (size : ℕ) (zeroBased : Bool) : Prop extends
    Wf a size zeroBased where
  lt_size : ∀ j ∈ a.pj1Array, j < a.size

theorem WfInRange.step (h : a.WfInRange size zeroBased) (hsize : size < 2 ^ 31) {e : Call × ℤ}
    (hstep : Step Call.NoOverrun a e a') :
    a'.WfInRange size zeroBased ∧ ∀ id, HandsOut e id → a.InRange id := by
  obtain ⟨miss, hok, fuel, hexec⟩ := hstep
  have hsize' : a.size < 2 ^ 31 := h.size_eq ▸ hsize
  have hwf := h.toWf.step hsize ⟨miss, hok.1.anyId hsize', fuel, hexec⟩
  have heq : a'.size = a.size := hwf.size_eq.trans h.size_eq.symm
  by_cases hreq : e.1.IsRequest
  · obtain ⟨hids, hlt⟩ := request_inRange h.small hsize' h.lt_size hreq hok hexec
    exact ⟨⟨hwf, heq ▸ hlt⟩, hids⟩
  refine ⟨⟨hwf, ?_⟩, fun id hid => absurd (handsOut_isRequest hid) hreq⟩
  rw [heq]
  obtain ⟨id, ⟨rfl, rfl⟩ | ⟨rfl, rfl⟩⟩ := exec_of_not_request hreq hexec
  · exact fun j hj => h.lt_size j (Judy1.mem_unset.1 hj).2
  · intro j hj
    rcases Judy1.mem_set.1 hj with rfl | hj
    · exact InRange.indexOf_lt hok.1 hsize'
    · exact h.lt_size j hj

/-- In a run without overruns all ids handed out and all ids set are in the range. -/
theorem inRange_of_run (hsize : size < 2 ^ 31) {es : List (Call × ℤ)}
    (hrun : Run (Step Call.NoOverrun) (new size zeroBased) es a) :
    (∀ id < 2 ^ 32, a.IsSet id → a.InRange id) ∧
      ∀ e a', Step Call.NoOverrun a e a' → ∀ id, HandsOut e id → a.InRange id := by
  have hinit : (new size zeroBased).WfInRange size zeroBased :=
    ⟨new_wf size zeroBased, fun j hj => by cases hj⟩
  have hwf := hrun.invariant (P := fun a => a.WfInRange size zeroBased) hinit
    fun _ _ _ h hstep => (h.step hsize hstep).1
  have hsize' : a.size < 2 ^ 31 := hwf.size_eq ▸ hsize
  exact ⟨fun id hid hset => InRange.of_indexOf_lt hid hsize' (hwf.lt_size _ hset),
    fun e a' hstep => (hwf.step hsize hstep).2⟩

/-- An overrun does hand out an id beyond the range. -/
theorem Overrun.handsOut (h : a.Overrun count miss) (hm : a.pj1Array.Small)
    (hsize : a.size < 2 ^ 31) (hcount : count ≤ 255) :
    ∃ fuel r id, a.allocateContiguous fuel miss count = some r ∧
      HandsOut (.allocateContiguous count, r.1) id ∧ ¬ a.InRange id := by
  obtain ⟨h2, hnofit, t, hend, ⟨hole, hlt, hhole⟩, hle, hshort, hroom⟩ := h
  obtain ⟨first, hfree, hbefore, heq⟩ := allocateContiguous_eq hm miss count
  obtain ⟨n, hn, hfirst, hnt⟩ := first_lt_of_hole hfree hbefore hend ⟨hole, hlt, hhole⟩
  cases hnext : a.pj1Array.next first with
  | none => exact absurd hn (Judy1.next_eq_none.1 hnext n hfirst)
  | some next =>
      have hin := inHole_of_next hfree hnext
      obtain ⟨fuel, hfuel⟩ : ∃ fuel, 2 ^ 32 ≤ next + fuel := ⟨2 ^ 32, by omega⟩
      have hsome : (contiguousLoop a.pj1Array a.size count miss (fuel + 2) 0 first next).isSome :=
        contiguousLoop_isSome hm hcount hin hfuel 0
      obtain ⟨out, hloop⟩ := Option.isSome_iff_exists.1 hsome
      have hout : out = some t := by
        rcases contiguousLoop_outcome hm hcount hin hloop with ⟨b, -, -, hfits, -⟩ | ⟨t', ht', -, hout⟩
        · exact absurd hfits (hnofit b)
        · rw [ht'.unique hend, if_neg (by omega)] at hout
          exact hout
      subst hout
      have hids : HandsOut (.allocateContiguous count, a.returned t)
          (a.firstId t + (a.size - t)) :=
        (handsOut_returned (by omega) hcount).2 ⟨a.size - t, by omega, rfl⟩
      refine ⟨fuel + 2, (a.returned t, a.setBlock t count), _, ?_, hids, ?_⟩
      · rw [heq, if_neg (by omega), if_neg (by omega), hnext, Option.getD_some, hloop]
        simp only [if_neg (by omega : ¬ t > a.size)]
      · rw [IdAllocator.InRange, firstId]
        split_ifs <;> omega

/-- Id 1 of six is set: two contiguous ids are handed out behind it. -/
theorem inRange_of_run_handsOut :
    (∀ id < 2 ^ 32, ((new 6 true).set 1).IsSet id → ((new 6 true).set 1).InRange id) ∧
      ∀ id, HandsOut (.allocateContiguous 2, 2) id → ((new 6 true).set 1).InRange id := by
  obtain ⟨a, ha⟩ : ∃ a, a = (new 6 true).set 1 := ⟨_, rfl⟩
  have hset : Step Call.NoOverrun (new 6 true) (.set 1, 0) a :=
    ⟨fun _ i => i, ⟨show 1 < 6 by decide, fun count h => by cases h⟩, 0, by rw [ha]; rfl⟩
  -- the indices set end at 2, and behind them there is room
  have hno : ¬ a.Overrun 2 a.pj1Array.judy1NextMiss := by
    rw [overrun_judy1NextMiss (by rw [ha]; decide) (by decide)]
    rintro ⟨-, -, ⟨⟨n, hn, hlast⟩, -⟩, -⟩
    rw [ha] at hn hlast
    rcases Judy1.mem_set.1 hn with rfl | hn
    · exact absurd hlast (by decide)
    · cases hn
  have hcall : (a.allocateContiguous 3 a.pj1Array.judy1NextMiss 2).map Prod.fst = some 2 := by
    rw [ha]
    decide +kernel
  obtain ⟨r, hr, hrc⟩ := Option.map_eq_some_iff.1 hcall
  have hstep : Step Call.NoOverrun a (.allocateContiguous 2, 2) r.2 := by
    refine ⟨_, ⟨⟨by decide, by decide⟩, fun count h => ?_⟩, 3, by rw [← hrc]; exact hr⟩
    cases h
    exact hno
  obtain ⟨hsets, hsteps⟩ := inRange_of_run (by decide : 6 < 2 ^ 31) (Run.nil.snoc hset)
  rw [← ha]
  exact ⟨hsets, hsteps _ _ hstep⟩

/-- The range of 2 ids with id 1 set: two contiguous ids are found at 2. -/
theorem allocateContiguous_beyond_size :
    ¬ ∀ (size : ℕ) (zeroBased : Bool) (es : List (Call × ℤ)) (a : IdAllocator), size < 2 ^ 31 →
      Run (Step Call.InRangeJudy1) (new size zeroBased) es a →
      (∀ id < 2 ^ 32, a.IsSet id → a.InRange id) ∧
        ∀ e a', Step Call.InRangeJudy1 a e a' → ∀ id, HandsOut e id → a.InRange id := by
  intro hclaim
  obtain ⟨a, ha⟩ : ∃ a, a = (new 2 true).set 1 := ⟨_, rfl⟩
  have hset : Step Call.InRangeJudy1 (new 2 true) (.set 1, 0) a :=
    ⟨_, ⟨show 1 < 2 by decide, rfl⟩, 0, by rw [ha]; rfl⟩
  have hcall : (a.allocateContiguous 3 a.pj1Array.judy1NextMiss 2).map Prod.fst = some 2 := by
    rw [ha]
    decide +kernel
  obtain ⟨r, hr, hrc⟩ := Option.map_eq_some_iff.1 hcall
  have hstep : Step Call.InRangeJudy1 a (.allocateContiguous 2, 2) r.2 :=
    ⟨_, ⟨⟨by decide, by decide⟩, rfl⟩, 3, by rw [← hrc]; exact hr⟩
  have hrange := (hclaim 2 true _ a (by decide) (Run.nil.snoc hset)).2 _ _ hstep 2
    ⟨by decide, 0, by decide, by decide⟩
  rw [ha] at hrange
  exact absurd hrange (by decide)

/-! ## Termination -/

/-- The set indices are `0 .. k - 1`, and the hole behind them is not empty but shorter than `count`. -/
def TailTooShort (a : IdAllocator) (count : ℕ) : Prop :=
  2 ≤ count ∧ ∃ k, 0 < k ∧ k < a.size ∧ a.size < k + count ∧ ∀ j, j ∈ a.pj1Array ↔ j < k

theorem allocateContiguous_of_tailTooShort (hm : a.pj1Array.Small) (hsize : a.size < 2 ^ 31)
    (h255 : count ≤ 255) (h : a.TailTooShort count) (fuel : ℕ) :
    a.allocateContiguous fuel a.pj1Array.judy1NextMiss count = none := by
  obtain ⟨first, hfree, hbefore, heq⟩ := allocateContiguous_eq hm a.pj1Array.judy1NextMiss count
  obtain ⟨h2, k, hk, hks, hshort, hset⟩ := h
  obtain rfl : first = k := by
    have hnot := mt (hset first).2 hfree
    by_contra hne
    have := hbefore k (by omega)
    rw [hset] at this
    omega
  have hnext : a.pj1Array.next first = none := Judy1.next_eq_none.2 fun j hj hmem => by
    rw [hset] at hmem
    omega
  have hnone : contiguousLoop a.pj1Array a.size count a.pj1Array.judy1NextMiss fuel 0 first
      a.size = none := by
    refine contiguousLoop_stuck_eq_none hm hsize (by omega) (fun j hj => ?_) ?_ (fun k => ?_) _ _
    · rw [hset] at hj
      omega
    · rw [u64Sub_of_le (by omega) (by omega)]
      omega
    · rw [Judy1.judy1NextMiss_of_mem ((hset 0).2 hk) (by omega), u64Sub_of_lt (by omega) (by omega)]
      omega
  rw [heq, if_neg (by omega), if_neg (by omega), hnext, Option.getD_none, hnone]

theorem allocateContiguous_isSome (hm : a.pj1Array.Small) (hsize : a.size < 2 ^ 31)
    (h255 : count ≤ 255) (hnot : ¬ a.TailTooShort count) :
    ∃ fuel, (a.allocateContiguous fuel a.pj1Array.judy1NextMiss count).isSome := by
  obtain ⟨first, hfree, hbefore, heq⟩ := allocateContiguous_eq hm a.pj1Array.judy1NextMiss count
  by_cases hfull : first ≥ a.size
  · exact ⟨0, by rw [heq, if_pos hfull]; rfl⟩
  by_cases hone : count = 1
  · exact ⟨0, by rw [heq, if_neg hfull, if_pos hone]; rfl⟩
  -- otherwise the call ends with the loop
  have hcall : ∀ fuel, (contiguousLoop a.pj1Array a.size count a.pj1Array.judy1NextMiss fuel 0
      first ((a.pj1Array.next first).getD a.size)).isSome →
        ∃ fuel, (a.allocateContiguous fuel a.pj1Array.judy1NextMiss count).isSome := by
    intro fuel hsome
    obtain ⟨out, hloop⟩ := Option.isSome_iff_exists.1 hsome
    refine ⟨fuel, ?_⟩
    rw [heq, if_neg hfull, if_neg hone, hloop]
    cases out with
    | none => rfl
    | some b =>
        simp only
        split_ifs <;> rfl
  cases hnext : a.pj1Array.next first with
  | some next =>
      obtain ⟨fuel, hfuel⟩ : ∃ fuel, 2 ^ 32 ≤ next + fuel := ⟨2 ^ 32, by omega⟩
      refine hcall (fuel + 2) ?_
      rw [hnext, Option.getD_some]
      exact contiguousLoop_isSome hm h255 (inHole_of_next hfree hnext) hfuel 0
  | none =>
      have hlt := lt_of_next_eq_none hfree hnext
      refine hcall 1 ?_
      rw [hnext, Option.getD_none]
      by_cases hshort : u64Sub a.size first < count
      · -- the array is empty, so the failed search leaves `size` in `Index`
        have hroom := hshort
        rw [u64Sub_of_le (by omega) (by omega)] at hroom
        have hempty : OrderedMap.card a.pj1Array = 0 := by
          by_contra hne
          obtain ⟨⟨j, u⟩, hj⟩ := List.exists_mem_of_length_pos (Nat.pos_of_ne_zero hne)
          have hj' := hlt j (OrderedMap.mem_entries.1 hj)
          exact hnot ⟨by omega, first, by omega, by omega, by omega,
            fun j => ⟨hlt j, hbefore j⟩⟩
        rw [contiguousLoop_stuck hm hsize (fun j hj => (hlt j hj).trans (by omega)) hshort,
          Judy1.judy1NextMiss, if_pos hempty, u64Sub_of_le le_rfl (by omega), if_pos (by omega)]
        rfl
      · rw [contiguousLoop, if_neg hshort]
        rfl

theorem Wf.step_inRange (h : a.Wf size zeroBased) (hsize : size < 2 ^ 31) {e : Call × ℤ}
    (hstep : Step Call.InRangeJudy1 a e a') : a'.Wf size zeroBased := by
  obtain ⟨miss, hok, hexec⟩ := hstep
  exact h.step hsize ⟨miss, hok.1.anyId (h.size_eq ▸ hsize), hexec⟩

/-- In every state of every run the loop ends exactly when the tail is not too short. -/
theorem terminates_iff (hsize : size < 2 ^ 31) {es : List (Call × ℤ)}
    (hrun : Run (Step Call.InRangeJudy1) (new size zeroBased) es a) (h255 : count ≤ 255) :
    (∃ fuel, (a.allocateContiguous fuel a.pj1Array.judy1NextMiss count).isSome) ↔
      ¬ a.TailTooShort count := by
  have hwf : a.Wf size zeroBased := hrun.invariant (P := fun a => a.Wf size zeroBased)
    (new_wf size zeroBased) fun _ _ _ h hstep => h.step_inRange hsize hstep
  have hsize' : a.size < 2 ^ 31 := hwf.size_eq ▸ hsize
  constructor
  · rintro ⟨fuel, hsome⟩ htail
    rw [allocateContiguous_of_tailTooShort hwf.small hsize' h255 htail] at hsome
    cases hsome
  · exact allocateContiguous_isSome hwf.small hsize' h255

/-- Ids 0 and 3 of eight are set: three contiguous ids do not fit between them. -/
theorem terminates_iff_set :
    let a := ((new 8 true).set 0).set 3
    (∃ fuel, (a.allocateContiguous fuel a.pj1Array.judy1NextMiss 3).isSome) ↔
      ¬ a.TailTooShort 3 := by
  intro a
  have hset : ∀ (a : IdAllocator) (id : ℕ), a.InRange id →
      Step Call.InRangeJudy1 a (.set id, 0) (a.set id) := fun a id hid => ⟨_, ⟨hid, rfl⟩, 0, rfl⟩
  have hrun : Run (Step Call.InRangeJudy1) (new 8 true) _ a :=
    (Run.nil.snoc (hset _ 0 (by decide))).snoc (hset _ 3 (by decide))
  exact terminates_iff (by decide : 8 < 2 ^ 31) hrun (by decide)

/-- One of two ids allocated: a request for two never returns. -/
theorem allocateContiguous_diverges :
    ¬ ∀ (size : ℕ) (zeroBased : Bool) (es : List (Call × ℤ)) (a : IdAllocator) (count : ℕ),
      size < 2 ^ 31 → Run (Step Call.InRangeJudy1) (new size zeroBased) es a → 1 ≤ count →
      count ≤ 255 →
        ∃ fuel, (a.allocateContiguous fuel a.pj1Array.judy1NextMiss count).isSome := by
  intro hclaim
  have hstep : Step Call.InRangeJudy1 (new 2 true) (.allocate, 0) ((new 2 true).set 0) :=
    ⟨_, ⟨trivial, rfl⟩, 0, by decide +kernel⟩
  obtain ⟨fuel, hsome⟩ := hclaim 2 true _ _ 2 (by decide) (Run.nil.snoc hstep) (by decide)
    (by decide)
  have hmem : ∀ j, j ∈ ((new 2 true).set 0).pj1Array ↔ j < 1 := fun j => by
    change j ∈ Judy1.set OrderedMap.empty 0 ↔ j < 1
    rw [Judy1.mem_set, Nat.lt_one_iff]
    exact ⟨fun h => h.resolve_right (fun hj => by cases hj), Or.inl⟩
  rw [allocateContiguous_of_tailTooShort (fun j hj => by have := (hmem j).1 hj; omega) (by decide)
    (by decide) ⟨le_rfl, 1, by decide, by decide, by decide, hmem⟩] at hsome
  cases hsome

end IdAllocator
