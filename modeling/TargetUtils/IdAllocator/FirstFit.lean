import TargetUtils.IdAllocator.Contiguous

set_option autoImplicit false

/-! # First fit

What a request for contiguous ids should do: hand out the lowest run of unset ids of the range, or
fail when there is none. Holes before a set index are searched in this way. Behind the last set
index the loop measures the remaining room one index short, since the failed search has incremented
`Index`: a run that ends exactly at the end of the range is not found (`TailExact`). Together with
the two other defects of the loop, `TailTooShort` and `Overrun`, this is all that can go wrong. -/

namespace IdAllocator

variable {a a' : IdAllocator} {size count : ℕ} {zeroBased : Bool} {miss : ℕ → ℕ → ℕ}

/-! ## The specification -/

/-- `count` consecutive ids of the range from `id` on, none of them set. -/
def FreeRun (a : IdAllocator) (count id : ℕ) : Prop :=
  ∀ i < count, a.InRange (id + i) ∧ ¬ a.IsSet (id + i)

/-- The request returns the lowest base of a free run, or fails without a change if there is none. -/
def FirstFit (a : IdAllocator) (count : ℕ) : Prop :=
  ∃ fuel r, a.allocateContiguous fuel a.pj1Array.judy1NextMiss count = some r ∧
    ((∃ id, IsLeast {id | a.FreeRun count id} id ∧ r.1 = (id : ℕ)) ∨
      ((∀ id, ¬ a.FreeRun count id) ∧ r = (-1, a)))

/-- A free block inside the allocator. -/
def FitsInside (a : IdAllocator) (count b : ℕ) : Prop :=
  BlockFree a.pj1Array b count ∧ b + count ≤ a.size

theorem FreeRun.fitsInside (hsize : a.size < 2 ^ 31) (hcount : 1 ≤ count) {id : ℕ}
    (h : a.FreeRun count id) : a.FitsInside count (a.indexOf id) ∧ id = a.firstId (a.indexOf id) := by
  have hfirst := (h 0 hcount).1
  have hlast := (h (count - 1) (by omega)).1
  rw [InRange] at hfirst hlast
  have hid : id = a.firstId (a.indexOf id) := by
    rw [firstId, indexOf]
    split_ifs at hfirst ⊢
    · rfl
    · rw [u32Sub_of_le (by omega) (by omega)]
      omega
  have hinside : a.indexOf id + count ≤ a.size := by
    rw [firstId] at hid
    split_ifs at hid hlast <;> omega
  refine ⟨⟨fun j hj1 hj2 hj => ?_, hinside⟩, hid⟩
  apply (h (j - a.indexOf id) (by omega)).2
  have hshift : a.indexOf (id + (j - a.indexOf id)) = j := by
    nth_rewrite 1 [hid]
    rw [indexOf_firstId (by omega)]
    omega
  rw [IsSet, hshift]
  exact hj

theorem FitsInside.freeRun (hsize : a.size < 2 ^ 31) {b : ℕ} (h : a.FitsInside count b) :
    a.FreeRun count (a.firstId b) := by
  have hinside := h.2
  intro i hi
  refine ⟨inRange_firstId (by omega), ?_⟩
  rw [IsSet, indexOf_firstId (by omega)]
  exact h.1 _ (by omega) (by omega)

theorem returned_eq {b : ℕ} (hb : b + 1 < 2 ^ 31) : a.returned b = (a.firstId b : ℕ) := by
  rw [returned, firstId]
  split_ifs
  · exact toInt_of_lt (by omega)
  · rw [u64Add, Nat.mod_eq_of_lt (by omega)]
    exact toInt_of_lt (by omega)

theorem isLeast_freeRun (hsize : a.size < 2 ^ 31) (hcount : 1 ≤ count) {b : ℕ}
    (h : IsLeast {b | a.FitsInside count b} b) :
    IsLeast {id | a.FreeRun count id} (a.firstId b) := by
  refine ⟨h.1.freeRun hsize, fun id hid => ?_⟩
  obtain ⟨hfits, heq⟩ := FreeRun.fitsInside hsize hcount hid
  have hle : b ≤ a.indexOf id := h.2 hfits
  rw [heq, firstId, firstId]
  split_ifs <;> omega

/-! ## Where the search ends -/

/-- A search that finds no hole before a set index ends behind the last one. -/
theorem Ends.of_end {first t : ℕ} {r : ℤ × IdAllocator} (h : Ends a count miss first r)
    (hfree : first ∉ a.pj1Array) (hbefore : ∀ k < first, k ∈ a.pj1Array) (h2 : 2 ≤ count)
    (hnofit : ∀ b, ¬ FitsBefore a.pj1Array b count) (hend : IsEnd a.pj1Array t)
    (hhole : ∃ h < t, h ∉ a.pj1Array) (ht : t ≤ a.size) :
    r = if u64Sub a.size (miss 0 t) < count then (-1, a) else
      (a.returned t, a.setBlock t count) := by
  obtain ⟨n, hn, hfirst, hnt⟩ := first_lt_of_hole hfree hbefore hend hhole
  cases h with
  | full hfull => omega
  | one _ hcount => omega
  | last _ _ hlast =>
      have := hlast n hn
      omega
  | @hole _ _ _ _ _ out hout =>
      rcases hout with ⟨b, -, -, hfits, -⟩ | ⟨t', hend', -, hout⟩
      · exact absurd hfits (hnofit b)
      · rw [hout, hend'.unique hend]
        split_ifs with hmiss
        · rfl
        · rw [Option.elim_some, if_neg (by omega)]

/-! ## When the request is a first fit -/

/-- No hole before a set index is long enough, and the room behind the last one is exactly what is
    asked for. -/
def TailExact (a : IdAllocator) (count : ℕ) : Prop :=
  2 ≤ count ∧ (∀ b, ¬ FitsBefore a.pj1Array b count) ∧ ∃ t, IsEnd a.pj1Array t ∧
    (∃ h < t, h ∉ a.pj1Array) ∧ t + count = a.size

/-- Indices behind the size are only set together with the size itself. -/
def Anchored (a : IdAllocator) : Prop := (∀ j ∈ a.pj1Array, j < a.size) ∨ a.size ∈ a.pj1Array

/-- The result of a first fit, in terms of blocks. -/
def PlacedFirst (a : IdAllocator) (count : ℕ) (r : ℤ × IdAllocator) : Prop :=
  (∃ b, IsLeast {b | a.FitsInside count b} b ∧ r = (a.returned b, a.setBlock b count)) ∨
    ((∀ b, ¬ a.FitsInside count b) ∧ r = (-1, a))

/-- A free block starts at the first free index or behind it. -/
theorem first_le {m : Judy1} {first b : ℕ} (hbefore : ∀ k < first, k ∈ m) (hcount : 1 ≤ count)
    (h : BlockFree m b count) : first ≤ b := by
  by_contra hgt
  exact h b le_rfl (by omega) (hbefore b (by omega))

/-- A free block that no set index follows starts at the end of the set indices or behind it. -/
theorem end_le {m : Judy1} {b t : ℕ} (hend : IsEnd m t) (h : BlockFree m b count)
    (hnofit : ¬ FitsBefore m b count) : t ≤ b := by
  obtain ⟨⟨n, hn, rfl⟩, -⟩ := hend
  by_contra hgt
  by_cases hlt : n < b + count
  · exact h n (by omega) hlt hn
  · exact hnofit ⟨h, n, hn, by omega⟩

/-- A free block that starts inside an anchored allocator and ends before a set index lies inside. -/
theorem Anchored.fitsInside (h : a.Anchored) {b : ℕ} (hfits : FitsBefore a.pj1Array b count)
    (hb : b ≤ a.size) : a.FitsInside count b := by
  refine ⟨hfits.1, ?_⟩
  rcases h with hall | hset
  · obtain ⟨-, n, hn, hle⟩ := hfits
    have := hall n hn
    omega
  · by_contra hgt
    exact hfits.1 a.size hb (by omega) hset

section

variable {first b : ℕ}

/-- No room behind the first free index: nothing fits. -/
theorem placedFirst_none (hbefore : ∀ k < first, k ∈ a.pj1Array) (h1 : 1 ≤ count)
    (hroom : a.size < first + count) : a.PlacedFirst count (-1, a) := by
  refine Or.inr ⟨fun b hb => ?_, rfl⟩
  have hle := first_le hbefore h1 hb.1
  have hinside := hb.2
  omega

/-- A block in front of which nothing fits. -/
theorem placedFirst_at (hanchor : a.Anchored) (hfits : FitsBefore a.pj1Array b count)
    (hmin : ∀ b', a.FitsInside count b' → b ≤ b') :
    a.PlacedFirst count (if b > a.size then (-1, a) else (a.returned b, a.setBlock b count)) := by
  split_ifs with hbig
  · refine Or.inr ⟨fun b' hb' => ?_, rfl⟩
    have hle := hmin b' hb'
    have hinside := hb'.2
    omega
  · exact Or.inl ⟨b, ⟨hanchor.fitsInside hfits (by omega), hmin⟩, rfl⟩

/-- The end of the set indices, behind which the room is neither exact nor overrun. -/
theorem placedFirst_end {n t : ℕ} {out : Option ℕ} (hsize : a.size < 2 ^ 31) (hn : n ∈ a.pj1Array)
    (hend : IsEnd a.pj1Array t) (hmin : ∀ b, a.FitsInside count b → t ≤ b)
    (hne : t ≠ a.size) (hexact : t + count ≠ a.size)
    (hout : out = if u64Sub a.size (a.pj1Array.judy1NextMiss 0 t) < count then none else some t) :
    a.PlacedFirst count (out.elim (-1, a) fun b =>
      if b > a.size then (-1, a) else (a.returned b, a.setBlock b count)) := by
  by_cases hinside : t < a.size
  · -- the failed search has left `t + 1`: one index of the room is lost
    rw [Judy1.judy1NextMiss_of_mem hn (by omega), u64Sub_of_le (by omega) (by omega)] at hout
    rw [hout]
    split_ifs with hshort
    · refine Or.inr ⟨fun b hb => ?_, rfl⟩
      have hle := hmin b hb
      have hinside := hb.2
      omega
    · rw [Option.elim_some, if_neg (by omega)]
      refine Or.inl ⟨t, ⟨⟨fun j hj1 _ hj => ?_, by omega⟩, hmin⟩, rfl⟩
      have hlt := hend.2 j hj
      omega
  · refine Or.inr ⟨fun b hb => ?_, ?_⟩
    · have hle := hmin b hb
      have hinside := hb.2
      omega
    · rw [hout]
      split_ifs
      · rfl
      · rw [Option.elim_some, if_pos (by omega)]

end

theorem Ends.placedFirst {first : ℕ} {r : ℤ × IdAllocator}
    (h : Ends a count a.pj1Array.judy1NextMiss first r) (hsize : a.size < 2 ^ 31)
    (h1 : 1 ≤ count) (h255 : count ≤ 255) (hfree : first ∉ a.pj1Array)
    (hbefore : ∀ k < first, k ∈ a.pj1Array) (hanchor : a.Anchored)
    (hover : ¬ a.Overrun count a.pj1Array.judy1NextMiss) (hexact : ¬ a.TailExact count) :
    a.PlacedFirst count r := by
  have hleast : ∀ b, a.FitsInside count b → first ≤ b := fun b hb => first_le hbefore h1 hb.1
  cases h with
  | full hfull => exact placedFirst_none hbefore h1 (by omega)
  | one hlt hcount =>
      subst hcount
      refine Or.inl ⟨first, ⟨⟨fun j hj1 hj2 => ?_, hlt⟩, hleast⟩, rfl⟩
      obtain rfl : j = first := by omega
      exact hfree
  | last hlt hcount hlast =>
      split_ifs with hshort
      · exact placedFirst_none hbefore h1 hshort
      · refine Or.inl ⟨first, ⟨⟨fun j hj1 hj2 hj => ?_, by omega⟩, hleast⟩, rfl⟩
        have hlt := hlast j hj
        omega
  | @hole hlt hcount n hn hfirst out hout =>
      rcases hout with ⟨b, rfl, hge, hfits, hnone⟩ | ⟨t, hend, hnofit, hout⟩
      · refine placedFirst_at hanchor hfits fun b' hb' => ?_
        by_contra hgt
        exact hnone b' (hleast b' hb') (by omega) hb'.1
      · have hfirstEnd : first < t := hfirst.trans (hend.2 n hn)
        have hnofit' : ∀ b, ¬ FitsBefore a.pj1Array b count := fun b hfits =>
          hnofit b (first_le hbefore h1 hfits.1) hfits
        refine placedFirst_end hsize hn hend (fun b hb => end_le hend hb.1 (hnofit' b))
          (fun heq => ?_) (fun heq => ?_) hout
        · exact hover ((overrun_judy1NextMiss hsize h255).2
            ⟨hcount, hnofit', heq ▸ hend, first, heq ▸ hfirstEnd, hfree⟩)
        · exact hexact ⟨hcount, hnofit', t, hend, ⟨first, hfirstEnd, hfree⟩, heq⟩

theorem PlacedFirst.firstFit {fuel : ℕ} {r : ℤ × IdAllocator} (h : a.PlacedFirst count r)
    (hsize : a.size < 2 ^ 31) (h1 : 1 ≤ count)
    (hr : a.allocateContiguous fuel a.pj1Array.judy1NextMiss count = some r) :
    a.FirstFit count := by
  refine ⟨fuel, r, hr, ?_⟩
  rcases h with ⟨b, hb, rfl⟩ | ⟨hnone, rfl⟩
  · have hinside := hb.1.2
    exact Or.inl ⟨a.firstId b, isLeast_freeRun hsize h1 hb, returned_eq (by omega)⟩
  · exact Or.inr ⟨fun id hid => hnone _ (FreeRun.fitsInside hsize h1 hid).1, rfl⟩

theorem firstFit_of_not (hm : a.pj1Array.Small) (hsize : a.size < 2 ^ 31) (h1 : 1 ≤ count)
    (h255 : count ≤ 255) (hanchor : a.Anchored) (htail : ¬ a.TailTooShort count)
    (hover : ¬ a.Overrun count a.pj1Array.judy1NextMiss) (hexact : ¬ a.TailExact count) :
    a.FirstFit count := by
  obtain ⟨fuel, hsome⟩ := allocateContiguous_isSome hm hsize h255 htail
  obtain ⟨r, hr⟩ := Option.isSome_iff_exists.1 hsome
  obtain ⟨first, hfree, hbefore, hends⟩ := allocateContiguous_ends hm hsize h1 h255 hr
  exact (hends.placedFirst hsize h1 h255 hfree hbefore hanchor hover hexact).firstFit hsize h1 hr

/-- The three defects are no first fits: the call does not return, -/
theorem FirstFit.not_tailTooShort (h : a.FirstFit count) (hm : a.pj1Array.Small)
    (hsize : a.size < 2 ^ 31) (h255 : count ≤ 255) : ¬ a.TailTooShort count := by
  intro htail
  obtain ⟨fuel, r, hr, -⟩ := h
  rw [allocateContiguous_of_tailTooShort hm hsize h255 htail] at hr
  cases hr

/-- or it returns an id behind the range, -/
theorem FirstFit.not_overrun (h : a.FirstFit count) (hm : a.pj1Array.Small)
    (hsize : a.size < 2 ^ 31) (h1 : 1 ≤ count) (h255 : count ≤ 255) :
    ¬ a.Overrun count a.pj1Array.judy1NextMiss := by
  intro hover
  obtain ⟨fuel, r, hr, hres⟩ := h
  obtain ⟨first, hfree, hbefore, hends⟩ := allocateContiguous_ends hm hsize h1 h255 hr
  obtain ⟨h2, hnofit, t, hend, hhole, hle, hlt, hroom⟩ := hover
  have hend' := hends.of_end hfree hbefore h2 hnofit hend hhole hle
  rw [if_neg (by omega)] at hend'
  rcases hres with ⟨id, hid, hrc⟩ | ⟨-, hfail⟩
  · obtain ⟨hfits, heq⟩ := FreeRun.fitsInside hsize h1 hid.1
    have hinside := hfits.2
    have hmod := returned_add_emod (a := a) (b := t) (i := 0) (by omega)
    have hreturned : a.returned t = (id : ℕ) := by rw [← hrc, hend']
    have hid' : t ≤ a.indexOf id := end_le hend hfits.1 (hnofit _)
    have hsmall : t ≤ a.firstId t := by
      rw [firstId]
      split_ifs <;> omega
    rw [hreturned, heq, firstId, firstId] at hmod
    split_ifs at hmod <;> omega
  · rw [hend', Prod.mk.injEq] at hfail
    exact returned_ne (by omega) hfail.1

/-- or it fails although the block at the end of the range is free. -/
theorem FirstFit.not_tailExact (h : a.FirstFit count) (hm : a.pj1Array.Small)
    (hsize : a.size < 2 ^ 31) (h1 : 1 ≤ count) (h255 : count ≤ 255) : ¬ a.TailExact count := by
  rintro ⟨h2, hnofit, t, hend, hhole, hexact⟩
  obtain ⟨fuel, r, hr, hres⟩ := h
  obtain ⟨first, hfree, hbefore, hends⟩ := allocateContiguous_ends hm hsize h1 h255 hr
  obtain ⟨n, hn, -, -⟩ := first_lt_of_hole hfree hbefore hend hhole
  have hfail := hends.of_end hfree hbefore h2 hnofit hend hhole (by omega)
  rw [Judy1.judy1NextMiss_of_mem hn (by omega), u64Sub_of_le (by omega) (by omega),
    if_pos (by omega)] at hfail
  have hfits : a.FitsInside count t := ⟨fun j hj1 _ hj => by
    have := hend.2 j hj
    omega, by omega⟩
  rcases hres with ⟨id, -, hrc⟩ | ⟨hnone, -⟩
  · rw [hfail] at hrc
    omega
  · exact hnone _ (hfits.freeRun hsize)

/-! ## Runs -/

theorem Anchored.step (h : a.Anchored) (hm : a.pj1Array.Small) (hsize : a.size < 2 ^ 31)
    {e : Call × ℤ} (hstep : Step Call.InRangeJudy1 a e a') : a'.Anchored := by
  obtain ⟨miss, hok, fuel, hexec⟩ := hstep
  have hany := hok.1.anyId hsize
  by_cases hreq : e.1.IsRequest
  · have h255 := hany.count_le
    rcases request_cases hm hsize hreq hany hexec with ⟨rfl, -⟩ | ⟨b, hb, -, -, rfl, -⟩
    · exact h
    have hmem : ∀ j, j ∈ (a.setBlock b e.1.count).pj1Array ↔
        j ∈ a.pj1Array ∨ b ≤ j ∧ j < b + e.1.count := fun j => mem_setBlock (by omega)
    by_cases hover : a.size < b + e.1.count
    · exact Or.inr ((hmem _).2 (Or.inr ⟨hb, hover⟩))
    rcases h with hall | hset
    · refine Or.inl fun j hj => ?_
      rcases (hmem j).1 hj with hj | hj
      · exact hall j hj
      · exact hj.2.trans_le (not_lt.1 hover)
    · exact Or.inr ((hmem _).2 (Or.inl hset))
  obtain ⟨id, ⟨rfl, rfl⟩ | ⟨rfl, rfl⟩⟩ := exec_of_not_request hreq hexec
  · have hlt := InRange.indexOf_lt hok.1 hsize
    rcases h with hall | hset
    · exact Or.inl fun j hj => hall j (Judy1.mem_unset.1 hj).2
    · exact Or.inr (Judy1.mem_unset.2 ⟨hlt.ne', hset⟩)
  · have hlt := InRange.indexOf_lt hok.1 hsize
    rcases h with hall | hset
    · refine Or.inl fun j hj => ?_
      rcases Judy1.mem_set.1 hj with rfl | hj
      · exact hlt
      · exact hall j hj
    · exact Or.inr (Judy1.mem_set.2 (Or.inr hset))

theorem wf_anchored_of_run (hsize : size < 2 ^ 31) {es : List (Call × ℤ)}
    (hrun : Run (Step Call.InRangeJudy1) (new size zeroBased) es a) :
    a.Wf size zeroBased ∧ a.Anchored :=
  hrun.invariant (P := fun a => a.Wf size zeroBased ∧ a.Anchored)
    ⟨new_wf size zeroBased, Or.inl fun j hj => by cases hj⟩ fun b e b' h hstep => by
      have hsize' : b.size < 2 ^ 31 := h.1.size_eq ▸ hsize
      exact ⟨h.1.step_inRange hsize hstep, h.2.step h.1.small hsize' hstep⟩

/-- In every state of every run a request is a first fit unless it meets one of the three defects. -/
theorem firstFit_iff (hsize : size < 2 ^ 31) {es : List (Call × ℤ)}
    (hrun : Run (Step Call.InRangeJudy1) (new size zeroBased) es a) (h1 : 1 ≤ count)
    (h255 : count ≤ 255) :
    a.FirstFit count ↔ ¬ a.TailTooShort count ∧
      ¬ a.Overrun count a.pj1Array.judy1NextMiss ∧ ¬ a.TailExact count := by
  obtain ⟨hwf, hanchor⟩ := wf_anchored_of_run hsize hrun
  have hsize' : a.size < 2 ^ 31 := hwf.size_eq ▸ hsize
  constructor
  · intro h
    exact ⟨h.not_tailTooShort hwf.small hsize' h255, h.not_overrun hwf.small hsize' h1 h255,
      h.not_tailExact hwf.small hsize' h1 h255⟩
  · rintro ⟨htail, hover, hexact⟩
    exact firstFit_of_not hwf.small hsize' h1 h255 hanchor htail hover hexact

/-- Two ids from a range of 4 of which id 1 is set. -/
theorem firstFit_iff_set :
    ((new 4 true).set 1).FirstFit 2 ↔ ¬ ((new 4 true).set 1).TailTooShort 2 ∧
      ¬ ((new 4 true).set 1).Overrun 2 ((new 4 true).set 1).pj1Array.judy1NextMiss ∧
        ¬ ((new 4 true).set 1).TailExact 2 := by
  have hset : Step Call.InRangeJudy1 (new 4 true) (.set 1, 0) ((new 4 true).set 1) :=
    ⟨_, ⟨show 1 < 4 by decide, rfl⟩, 0, rfl⟩
  exact firstFit_iff (by decide : 4 < 2 ^ 31) (Run.nil.snoc hset) (by decide) (by decide)

/-- In that allocator ids 2 and 3 are free, and the request for two ids fails. -/
theorem firstFit_false :
    ¬ ∀ (size : ℕ) (zeroBased : Bool) (es : List (Call × ℤ)) (a : IdAllocator) (count : ℕ),
      size < 2 ^ 31 → Run (Step Call.InRangeJudy1) (new size zeroBased) es a → 1 ≤ count →
      count ≤ 255 → a.FirstFit count := by
  intro hclaim
  have hset : Step Call.InRangeJudy1 (new 4 true) (.set 1, 0) ((new 4 true).set 1) :=
    ⟨_, ⟨show 1 < 4 by decide, rfl⟩, 0, rfl⟩
  have hfit := hclaim 4 true _ _ 2 (by decide) (Run.nil.snoc hset) (by decide) (by decide)
  have hmem : ∀ j, j ∈ ((new 4 true).set 1).pj1Array → j = 1 := fun j hj =>
    (Judy1.mem_set.1 hj).resolve_right fun h => by cases h
  refine hfit.not_tailExact (fun j hj => ?_) (by decide) (by decide) (by decide)
    ⟨le_rfl, ?_, 2, ⟨⟨1, by decide, rfl⟩, fun j hj => ?_⟩, ⟨0, by decide, by decide⟩, rfl⟩
  · rw [hmem j hj]
    decide
  · rintro b ⟨-, n, hn, hle⟩
    have := hmem n hn
    omega
  · rw [hmem j hj]
    decide

end IdAllocator
