import TargetUtils.Power2Allocator.Runs
import Mathlib.Data.Finset.Card
import Mathlib.Data.Finset.Dedup

set_option autoImplicit false

/-! # What a pool has room for

A pool is cut into slots of a power of two. While every block lies inside one slot, a slot that no
block starts in is free, so an allocation of that size succeeds as long as there are fewer blocks
than slots, and with blocks of more than half a slot that is the only way it can
(`capacity_of_run`). -/

namespace Pool

variable {p : Pool} {w i s : ℕ}

/-- No block in use crosses a multiple of `2 ^ w`. -/
def InSlots (p : Pool) (w : ℕ) : Prop := ∀ i s, p.blocks.lookup i = some s → i % 2 ^ w + s ≤ 2 ^ w

/-- Where the blocks start. -/
def starts (p : Pool) : Finset ℕ := (p.blocks.entries.map Prod.fst).toFinset

theorem mem_starts : i ∈ p.starts ↔ ∃ s, p.blocks.lookup i = some s := by
  rw [starts, List.mem_toFinset, List.mem_map]
  constructor
  · rintro ⟨x, hx, rfl⟩
    exact ⟨x.2, OrderedMap.mem_entries.1 hx⟩
  · rintro ⟨s, hs⟩
    exact ⟨(i, s), OrderedMap.mem_entries.2 hs, rfl⟩

theorem card_starts : p.starts.card = p.blocks.card := by
  have hnodup : (p.blocks.entries.map Prod.fst).Nodup :=
    List.pairwise_map.2 (p.blocks.sorted.imp fun h => h.ne)
  rw [starts, List.toFinset_card_of_nodup hnodup, List.length_map, OrderedMap.card]

/-- A block in a slot stays in it. -/
theorem InSlots.slot_eq (h : p.InSlots w) (hi : p.blocks.lookup i = some s) {j : ℕ} (h1 : i ≤ j)
    (h2 : j < i + s) : j / 2 ^ w = i / 2 ^ w := by
  have hslot := h i s hi
  have hdiv := Nat.div_add_mod' i (2 ^ w)
  refine Nat.div_eq_of_lt_le (by omega) ?_
  rw [Nat.succ_mul]
  omega

theorem InSlots.fits (h : p.InSlots w) {slot : ℕ} (hslot : slot < p.total / 2 ^ w)
    (hfree : ∀ i ∈ p.starts, i / 2 ^ w ≠ slot) (hs : s ≤ 2 ^ w) : p.Fits (slot * 2 ^ w) s := by
  intro j h1 h2
  have hend : (slot + 1) * 2 ^ w ≤ p.total :=
    (Nat.le_div_iff_mul_le (Nat.two_pow_pos w)).1 (Nat.succ_le_of_lt hslot)
  have hj : j < (slot + 1) * 2 ^ w := by
    rw [Nat.succ_mul]
    omega
  refine ⟨by omega, fun k t hk hkj => ?_⟩
  have hslot : j / 2 ^ w = slot := Nat.div_eq_of_lt_le h1 hj
  rw [h.slot_eq hk hkj.1 hkj.2] at hslot
  exact hfree k (mem_starts.2 ⟨t, hk⟩) hslot

/-- With fewer blocks than slots there is a slot without a block. -/
theorem exists_free_slot (h : p.starts.card < p.total / 2 ^ w) :
    ∃ slot < p.total / 2 ^ w, ∀ i ∈ p.starts, i / 2 ^ w ≠ slot := by
  by_contra hall
  push Not at hall
  have hsub : Finset.range (p.total / 2 ^ w) ⊆ p.starts.image (· / 2 ^ w) := by
    intro slot hslot
    obtain ⟨i, hi, heq⟩ := hall slot (Finset.mem_range.1 hslot)
    exact Finset.mem_image.2 ⟨i, hi, heq⟩
  have hcard := (Finset.card_le_card hsub).trans Finset.card_image_le
  rw [Finset.card_range] at hcard
  omega

/-- Two blocks of more than half a slot do not lie in one. -/
theorem InSlots.slot_ne (h : p.InSlots w)
    (hhalf : ∀ i s, p.blocks.lookup i = some s → 2 ^ w < 2 * s) {k t : ℕ}
    (hi : p.blocks.lookup i = some s) (hk : p.blocks.lookup k = some t) (hlt : i < k) :
    i / 2 ^ w ≠ k / 2 ^ w := by
  intro heq
  have hdisjoint := p.disjoint i s k t hi hk hlt
  have hi' := Nat.div_add_mod' i (2 ^ w)
  have hk' := Nat.div_add_mod' k (2 ^ w)
  have hslot := h k t hk
  have his := hhalf i s hi
  have hkt := hhalf k t hk
  rw [heq] at hi'
  omega

/-- Blocks of more than half a slot have a slot each. -/
theorem InSlots.card_le (h : p.InSlots w) (hhalf : ∀ i s, p.blocks.lookup i = some s → 2 ^ w < 2 * s)
    (hdvd : 2 ^ w ∣ p.total) : p.starts.card ≤ p.total / 2 ^ w := by
  have hmaps : ∀ i ∈ p.starts, i / 2 ^ w ∈ Finset.range (p.total / 2 ^ w) := by
    intro i hi
    obtain ⟨s, hs⟩ := mem_starts.1 hi
    have hin := p.inside i s hs
    have hpos := p.pos i s hs
    rw [Finset.mem_range]
    exact Nat.div_lt_div_of_lt_of_dvd hdvd (by omega)
  have hinj : Set.InjOn (· / 2 ^ w) (p.starts : Set ℕ) := by
    intro i hi k hk heq
    obtain ⟨s, hs⟩ := mem_starts.1 (Finset.mem_coe.1 hi)
    obtain ⟨t, ht⟩ := mem_starts.1 (Finset.mem_coe.1 hk)
    rcases Nat.lt_trichotomy i k with hlt | rfl | hgt
    · exact absurd heq (h.slot_ne hhalf hs ht hlt)
    · rfl
    · exact absurd heq.symm (h.slot_ne hhalf ht hs hgt)
  have hcard := Finset.card_le_card_of_injOn (· / 2 ^ w) hmaps hinj
  rwa [Finset.card_range] at hcard

theorem lookup_take {hs : 0 < s} {hfit : p.Fits i s} (k : ℕ) :
    (p.take i s hs hfit).blocks.lookup k = if k = i then some s else p.blocks.lookup k := by
  rw [take, OrderedMap.lookup_insert]

theorem InSlots.take (h : p.InSlots w) {hs : 0 < s} {hfit : p.Fits i s}
    (hslot : i % 2 ^ w + s ≤ 2 ^ w) : (p.take i s hs hfit).InSlots w := by
  intro k t hk
  rw [lookup_take] at hk
  split_ifs at hk with hki
  · obtain rfl := Option.some.inj hk
    exact hki ▸ hslot
  · exact h k t hk

theorem card_starts_take {hs : 0 < s} {hfit : p.Fits i s} :
    (p.take i s hs hfit).starts.card = p.starts.card + 1 := by
  have habsent : i ∉ p.starts := by
    intro hi
    obtain ⟨t, ht⟩ := mem_starts.1 hi
    rw [hfit.absent hs] at ht
    cases ht
  have hinsert : (p.take i s hs hfit).starts = insert i p.starts := by
    ext k
    rw [Finset.mem_insert, mem_starts, mem_starts]
    simp only [lookup_take]
    by_cases hk : k = i <;> simp [hk]
  rw [hinsert, Finset.card_insert_of_notMem habsent]

theorem card_starts_le (p : Pool) : p.starts.card ≤ p.total := by
  have hsub : p.starts ⊆ Finset.range p.total := by
    intro i hi
    obtain ⟨s, hs⟩ := mem_starts.1 hi
    have hin := p.inside i s hs
    have hpos := p.pos i s hs
    exact Finset.mem_range.2 (by omega)
  have hcard := Finset.card_le_card hsub
  rwa [Finset.card_range] at hcard

theorem inSlots_empty (total w : ℕ) : (Pool.empty total).InSlots w := by
  intro i s h
  simp [Pool.empty] at h

/-- An aligned block of a class up to `w` lies in one slot. -/
theorem mod_add_le {c : ℕ} (hdvd : 2 ^ c ∣ i) (hs : s ≤ 2 ^ c) (hc : c ≤ w) :
    i % 2 ^ w + s ≤ 2 ^ w := by
  have hlt := Nat.mod_lt i (Nat.two_pow_pos w)
  obtain ⟨m, hm⟩ : 2 ^ c ∣ i % 2 ^ w := (Nat.dvd_mod_iff (Nat.pow_dvd_pow 2 hc)).2 hdvd
  obtain ⟨n, hn⟩ := Nat.pow_dvd_pow 2 hc
  rw [hm, hn] at hlt ⊢
  have hmn : m + 1 ≤ n := Nat.lt_of_mul_lt_mul_left hlt
  calc 2 ^ c * m + s ≤ 2 ^ c * m + 2 ^ c := Nat.add_le_add_left hs _
    _ = 2 ^ c * (m + 1) := (Nat.mul_succ ..).symm
    _ ≤ 2 ^ c * n := Nat.mul_le_mul_left _ hmn

end Pool

namespace Power2Allocator

variable {a a₀ a' : Power2Allocator} {L : ℕ} {p : Pool} {w size count : ℕ}

/-- The call asks for blocks inside one slot. -/
def Call.InSlot (w : ℕ) : Call → Prop
  | .alloc size => size ≤ 2 ^ w
  | .allocMultiple size _ => size ≤ 2 ^ w
  | .reserve index size => index % 2 ^ w + size ≤ 2 ^ w
  | .release _ => True
  | .releaseMultiple _ _ => True

/-- A legal call (nonzero sizes, ranges that do not wrap, releases of aligned groups only) that asks
    for blocks inside one slot. -/
def Call.LegalInSlot (w : ℕ) (a : Power2Allocator) (c : Call) : Prop := c.Legal a ∧ c.InSlot w

/-- The allocator stands for a pool whose blocks lie in slots. -/
def KeepsSlots (L w total : ℕ) (a : Power2Allocator) : Prop :=
  ∃ p : Pool, p.total = total ∧ a.Represents L p ∧ p.InSlots w

theorem slot_of_aligned {i s : ℕ} (hdvd : 2 ^ Nat.clog 2 s ∣ i) (hsw : s ≤ 2 ^ w) :
    i % 2 ^ w + s ≤ 2 ^ w :=
  Pool.mod_add_le hdvd (Nat.le_pow_clog Nat.one_lt_two s)
    ((Nat.clog_le_iff_le_pow Nat.one_lt_two).2 hsw)

theorem Represents.slots_alloc (h : a.Represents L p) (hin : p.InSlots w) {s : ℕ} (hs : 0 < s)
    (hsw : s ≤ 2 ^ w) : KeepsSlots L w p.total (a.alloc s).2 := by
  by_cases hsL : s ≤ 2 ^ L
  · rcases h.alloc hs hsL with ⟨hr, -⟩ | ⟨i, hfit, hdvd, -, hr⟩
    · rw [hr]
      exact ⟨p, rfl, h, hin⟩
    · exact ⟨p.take i s hs hfit, rfl, hr, hin.take (slot_of_aligned hdvd hsw)⟩
  · rw [h.alloc_too_large (by omega)]
    exact ⟨p, rfl, h, hin⟩

theorem Represents.slots_allocMultiple (h : a.Represents L p) (hin : p.InSlots w) {s n fuel : ℕ}
    (hs : 0 < s) (hs32 : s < 2 ^ 32) (hsw : s ≤ 2 ^ w) {r : ℤ × Power2Allocator}
    (hr : a.allocMultiple fuel s n = some r) : KeepsSlots L w p.total r.2 := by
  by_cases hn : n = 1
  · subst hn
    rw [Power2Allocator.allocMultiple, if_pos rfl, Option.some.injEq] at hr
    exact hr ▸ h.slots_alloc hin hs hsw
  by_cases hrefused : Nat.clog 2 s ≠ L ∨ n = 0
  · rw [h.allocMultiple_refused hs32 hn hrefused fuel, Option.some.injEq] at hr
    exact hr ▸ ⟨p, rfl, h, hin⟩
  obtain ⟨hclog, hn0⟩ := not_or.1 hrefused
  rw [not_not] at hclog
  rcases (h.allocMultiple hs hclog (by omega)).2 fuel r hr with
    ⟨rfl, -⟩ | ⟨b, hdvd, -, -, p', hp', htotal, hlook⟩
  · exact ⟨p, rfl, h, hin⟩
  · refine ⟨p', htotal, hp', ?_⟩
    intro k t hk
    rw [hlook] at hk
    split_ifs at hk with hkb
    · obtain rfl := Option.some.inj hk
      obtain ⟨i, -, rfl⟩ := List.mem_range'.1 hkb
      have hgrid : 2 ^ L ∣ b := (pow_dvd_align L (by omega : 0 < n)).trans hdvd
      exact Pool.mod_add_le (hgrid.add (Nat.dvd_mul_right _ _))
        (hclog ▸ Nat.le_pow_clog Nat.one_lt_two s)
        (hclog ▸ (Nat.clog_le_iff_le_pow Nat.one_lt_two).2 hsw)
    · exact hin k t hk

/-- A release gives a group of blocks back, one or none among them. -/
theorem Represents.giveAll_release (h : a.Represents L p) (i : ℕ) :
    ∃ l, (a.release i).2.Represents L (p.giveAll l) := by
  cases hi : p.blocks.lookup i with
  | none => exact ⟨[], by rw [h.release_absent hi]; exact h⟩
  | some s => exact ⟨[i], (h.release hi).2⟩

theorem Represents.giveAll_releaseMultiple (h : a.Represents L p) {i n : ℕ}
    (hok : a.GroupOrRefused i n) : ∃ l, (a.releaseMultiple i n).2.Represents L (p.giveAll l) := by
  by_cases hn : n = 1
  · rw [Power2Allocator.releaseMultiple, if_pos hn]
    exact h.giveAll_release i
  by_cases hrefused : ∀ s, p.blocks.lookup i = some s → Nat.clog 2 s ≠ L
  · exact ⟨[], by rw [h.releaseMultiple_refused hn hrefused]; exact h⟩
  push Not at hrefused
  obtain ⟨s, hi, hclog⟩ := hrefused
  obtain ⟨hpos, hin, hsmall⟩ := h.block_bounds hi
  have hlog : log2Uint32Ceil s = a.noFreeLists - 1 := by
    rw [log2Uint32Ceil_eq_clog (by omega), hclog, h.holds.noFreeLists, Nat.add_sub_cancel]
  obtain ⟨hdvd, hblocks⟩ := hok.resolve_left hn s (by rw [h.inuse, hi]) hlog
  rw [h.maxSize] at hdvd hblocks
  rw [h.inuse] at hblocks
  rw [h.releaseMultiple_eq_loop hn hi hclog]
  exact ⟨_, (h.releaseMultipleLoop hdvd hblocks).2⟩

theorem slots_giveAll (hin : p.InSlots w) {l : List ℕ} (h : a.Represents L (p.giveAll l)) :
    KeepsSlots L w p.total a := by
  refine ⟨p.giveAll l, Pool.giveAll_total p l, h, ?_⟩
  intro k t hk
  rw [Pool.lookup_giveAll] at hk
  split_ifs at hk
  exact hin k t hk

theorem Represents.slots_step (h : a.Represents L p) (hin : p.InSlots w) {e : Call × ℤ}
    (hstep : Step (Call.LegalInSlot w) a e a') : KeepsSlots L w p.total a' := by
  obtain ⟨call, rc⟩ := e
  obtain ⟨⟨hok, hslot⟩, fuel, hexec⟩ := hstep
  cases call with
  | alloc s =>
      obtain rfl : (a.alloc s).2 = a' := congrArg Prod.snd (Option.some.inj hexec)
      exact h.slots_alloc hin hok.1 hslot
  | allocMultiple s n => exact h.slots_allocMultiple hin hok.1 hok.2.1 hslot hexec
  | reserve i s =>
      obtain rfl : (a.reserve i s).2 = a' := congrArg Prod.snd (Option.some.inj hexec)
      by_cases hfit : p.Fits i s
      · exact ⟨p.take i s hok.1 hfit, rfl, (h.reserve hok.1 hfit).2, hin.take hslot⟩
      · rw [h.reserve_of_not_fits hok.1 hok.2 hfit]
        exact ⟨p, rfl, h, hin⟩
  | release i =>
      obtain rfl : (a.release i).2 = a' := congrArg Prod.snd (Option.some.inj hexec)
      obtain ⟨l, hl⟩ := h.giveAll_release i
      exact slots_giveAll hin hl
  | releaseMultiple i n =>
      obtain rfl : (a.releaseMultiple i n).2 = a' := congrArg Prod.snd (Option.some.inj hexec)
      obtain ⟨l, hl⟩ := h.giveAll_releaseMultiple hok
      exact slots_giveAll hin hl

theorem slots_of_run {es : List (Call × ℤ)} (hsize : size < 2 ^ 32)
    (hsmall : size * count < 2 ^ 31) (hcreate : create size count = some a₀)
    (hrun : Run (Step (Call.LegalInSlot w)) a₀ es a) :
    ∃ L, size = 2 ^ L ∧ KeepsSlots L w (size * count) a := by
  obtain ⟨L, p, hL, -, hp⟩ := exists_pool_of_run hsize hsmall hcreate Run.nil
  obtain ⟨a₀', hcreate', hinit⟩ := create_represents hp.holds.cap hL hsmall
  obtain rfl : a₀' = a₀ := Option.some.inj (hcreate'.symm.trans hcreate)
  refine ⟨L, hL, hrun.invariant (P := KeepsSlots L w (size * count)) ?_ fun b e b' hb hstep => ?_⟩
  · exact ⟨_, rfl, hinit, Pool.inSlots_empty _ w⟩
  · obtain ⟨p, htotal, hp, hin⟩ := hb
    exact htotal ▸ hp.slots_step hin hstep

/-- In a run of legal calls whose requests fit into slots of `2 ^ w`, a request that fits into one
    succeeds while there are fewer blocks in use than slots. When every block in use, and the
    request, take more than half a slot, there are never more blocks than slots, and it fails with
    that many. -/
theorem capacity_of_run {es : List (Call × ℤ)} (hsize : size < 2 ^ 32)
    (hsmall : size * count < 2 ^ 31) (hcreate : create size count = some a₀)
    (hrun : Run (Step (Call.LegalInSlot w)) a₀ es a) (hw : 2 ^ w ≤ size) :
    (∀ s, 0 < s → s ≤ 2 ^ w → a.allocCount < size * count / 2 ^ w → (a.alloc s).1 ≠ -1) ∧
      ((∀ i t, a.inuseList.lookup i = some t → 2 ^ w < 2 * t) →
        a.allocCount ≤ size * count / 2 ^ w ∧ ∀ s, s ≤ 2 ^ w → 2 ^ w < 2 * s →
          ((a.alloc s).1 = -1 ↔ a.allocCount = size * count / 2 ^ w)) := by
  obtain ⟨L, hL, p, htotal, hp, hin⟩ := slots_of_run hsize hsmall hcreate hrun
  have hwL : w ≤ L := (Nat.pow_le_pow_iff_right Nat.one_lt_two).1 (hL ▸ hw)
  have hdvd : 2 ^ w ∣ p.total := (Nat.pow_dvd_pow 2 hwL).trans hp.dvd
  have hpow : 2 ^ w ≤ 2 ^ L := hL ▸ hw
  have hsmall' := hp.small
  have hcount : a.allocCount = p.starts.card := by
    have hle := p.card_starts_le
    rw [allocCount, hp.inuse, ← Pool.card_starts, u32_of_lt (by omega)]
  rw [← htotal, hcount]
  have hroom : ∀ s, 0 < s → s ≤ 2 ^ w → p.starts.card < p.total / 2 ^ w → (a.alloc s).1 ≠ -1 := by
    intro s hs hsw hfree
    obtain ⟨slot, hslot, hnone⟩ := Pool.exists_free_slot hfree
    rcases hp.alloc hs (hsw.trans hpow) with ⟨-, hfull⟩ | ⟨i, -, -, hrc, -⟩
    · have hclog := (Nat.clog_le_iff_le_pow Nat.one_lt_two).2 hsw
      exact absurd (hin.fits hslot hnone hsw)
        (hfull _ ((Nat.pow_dvd_pow 2 hclog).trans (Nat.dvd_mul_left _ _)))
    · rw [hrc]
      omega
  refine ⟨hroom, fun hhalf => ?_⟩
  rw [hp.inuse] at hhalf
  have hle := hin.card_le hhalf hdvd
  refine ⟨hle, fun s hsw hs => ?_⟩
  have hs0 : 0 < s := by
    have := Nat.two_pow_pos w
    omega
  constructor
  · intro hfail
    by_contra hne
    exact hroom s hs0 hsw (lt_of_le_of_ne hle hne) hfail
  · intro hfull
    rcases hp.alloc hs0 (hsw.trans hpow) with ⟨hr, -⟩ | ⟨i, hfit, hi, -, hr⟩
    · rw [hr]
    · -- one block more would not have a slot
      have hin' : (p.take i s hs0 hfit).InSlots w := hin.take (slot_of_aligned hi hsw)
      have hle' := hin'.card_le ?_ hdvd
      · rw [Pool.card_starts_take, hfull] at hle'
        exact absurd hle' (Nat.not_succ_le_self _)
      · intro k t hk
        rw [Pool.lookup_take] at hk
        split_ifs at hk
        · obtain rfl := Option.some.inj hk
          exact hs
        · exact hhalf k t hk

/-- With two blocks of 3 in use, a pool of four blocks of 4 has room for another one, and a pool of
    two has not. -/
theorem capacity_of_run_two : (∃ a, create 4 4 = some a ∧ (a.afterTwo.alloc 3).1 ≠ -1) ∧
    ∃ a, create 4 2 = some a ∧ (a.afterTwo.alloc 3).1 = -1 := by
  have hlegal : ∀ (a : Power2Allocator) (c : Call), c = .reserve 1 3 ∨ c = .alloc 3 →
      c.LegalInSlot 2 a := by
    rintro a c (rfl | rfl)
    · exact ⟨⟨by decide, by decide⟩, (by decide : 1 % 2 ^ 2 + 3 ≤ 2 ^ 2)⟩
    · exact ⟨⟨by decide, by decide⟩, (by decide : 3 ≤ 2 ^ 2)⟩
  have hrun := fun a => run_afterTwo a (hlegal a _ (Or.inl rfl)) (hlegal _ _ (Or.inr rfl))
  have hfour : (create 4 4).any (fun a => decide (a.afterTwo.allocCount < 4 * 4 / 2 ^ 2)) = true := by
    decide +kernel
  have htwo : (create 4 2).any (fun a => decide (a.afterTwo.allocCount = 4 * 2 / 2 ^ 2 ∧
      a.afterTwo.inuseList.entries = [(1, 3), (4, 3)])) = true := by
    decide +kernel
  obtain ⟨a, ha, hcount⟩ := (Option.any_eq_true _ _).1 hfour
  obtain ⟨b, hb, hfacts⟩ := (Option.any_eq_true _ _).1 htwo
  obtain ⟨hfull, hentries⟩ := of_decide_eq_true hfacts
  refine ⟨⟨a, ha, (capacity_of_run (by decide : 4 < 2 ^ 32) (by decide : 4 * 4 < 2 ^ 31) ha (hrun a)
    (by decide)).1 3 (by decide) (by decide) (of_decide_eq_true hcount)⟩, b, hb, ?_⟩
  refine (((capacity_of_run (by decide : 4 < 2 ^ 32) (by decide : 4 * 2 < 2 ^ 31) hb (hrun b)
    (by decide)).2 fun i t hi => ?_).2 3 (by decide) (by decide)).2 hfull
  rw [← OrderedMap.mem_entries, hentries] at hi
  simp only [List.mem_cons, Prod.mk.injEq, List.not_mem_nil, or_false] at hi
  omega

end Power2Allocator
