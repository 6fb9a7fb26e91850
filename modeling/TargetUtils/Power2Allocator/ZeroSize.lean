import TargetUtils.Power2Allocator.Runs

set_option autoImplicit false

/-! # Requests of size zero

Neither `alloc` nor `alloc_multiple` rejects size 0. Such a request passes for one of class 0, and a
chunk found for it goes back to the free lists whole while its start enters the in-use list with size
0; the next request of size 0 may then return the same index. As long as no request of size 0 finds
anything to hand out, no index is handed out twice. -/

namespace Power2Allocator

variable {a a₀ : Power2Allocator} {L : ℕ} {p : Pool} {size count : ℕ} {es : List (Call × ℤ)}

/-- The calls that ask for blocks at a place of the allocator's choice. -/
def Call.IsRequest : Call → Prop
  | .alloc _ => True
  | .allocMultiple _ _ => True
  | _ => False

/-- Any `uint32_t` sizes and counts; groups released at once as before. -/
def Call.AnySize (a : Power2Allocator) : Call → Prop
  | .alloc size => size < 2 ^ 32
  | .allocMultiple size count => size < 2 ^ 32 ∧ count < 2 ^ 32
  | .reserve _ _ => False
  | .release _ => True
  | .releaseMultiple index count => a.GroupOrRefused index count

/-- No block in use is empty, `get_index_size` asserts so for any index, and no request that `ok`
    admits returns the start of a block in use. -/
def NoDoubleAllocation (ok : Power2Allocator → Call → Prop) (a : Power2Allocator) : Prop :=
  (∀ i t, a.inuseList.lookup i = some t → t ≠ 0) ∧
    (∀ i, (a.getIndexSize i).2.asserts = true) ∧
      ∀ c rc a', Step ok a (c, rc) a' → c.IsRequest → 0 ≤ rc →
        a.inuseList.lookup rc.toNat = none

/-- A group that `alloc_multiple` returned may be released at once. -/
theorem Represents.groupOrRefused_of_returned (h : a.Represents L p) {s n fuel b : ℕ}
    {r : ℤ × Power2Allocator} (hok : (Call.allocMultiple s n).Harmless a)
    (hr : a.allocMultiple fuel s n = some r) (hb : r.1 = b) : r.2.GroupOrRefused b n := by
  obtain ⟨hs32, hn32, hzero⟩ := hok
  by_cases hn : n = 1
  · exact Or.inl hn
  have hne : r ≠ (-1, a) := fun he => by
    rw [he] at hb
    simp only at hb
    omega
  rcases Nat.eq_zero_or_pos s with rfl | hs
  · exact absurd (h.allocMultiple_zero hn hn32 (hzero rfl) hr) hne
  by_cases hrefused : Nat.clog 2 s ≠ L ∨ n = 0
  · rw [h.allocMultiple_refused hs32 hn hrefused fuel, Option.some.injEq] at hr
    exact absurd hr.symm hne
  · obtain ⟨hclog, hn0⟩ := not_or.1 hrefused
    rcases (h.allocMultiple hs (not_not.1 hclog) (by omega)).2 fuel r hr with
      ⟨he, -⟩ | ⟨b', hdvd, hrc, -, p', hp', -, hlook⟩
    · exact absurd he hne
    · obtain rfl : b' = b := by omega
      have hgrid : 2 ^ L ∣ b' := (Nat.pow_dvd_pow 2 ((Nat.clog_pow 2 L (by omega)).symm.le.trans
        (Nat.clog_mono_right 2 (Nat.le_mul_of_pos_right _ (by omega))))).trans hdvd
      refine Or.inr fun t ht _ => ⟨hp'.maxSize ▸ hgrid, fun j hj => ?_⟩
      rw [hp'.maxSize] at hj
      rw [hp'.inuse, hlook, if_pos (List.mem_range'.2 ⟨0, by omega, by simp⟩)] at ht
      rw [hp'.inuse, hlook, if_pos hj, ht]

theorem Represents.absent_of_request (h : a.Represents L p) {c : Call} {rc : ℤ}
    {a' : Power2Allocator} (hstep : Step Call.Harmless a (c, rc) a') (hc : c.IsRequest)
    (hrc : 0 ≤ rc) : a.inuseList.lookup rc.toNat = none := by
  rw [h.inuse]
  have halloc : ∀ s, (Call.alloc s).Harmless a → a.alloc s = (rc, a') →
      p.blocks.lookup rc.toNat = none := by
    intro s hok hr
    have hfst : (a.alloc s).1 = rc := congrArg Prod.fst hr
    rcases Nat.eq_zero_or_pos s with rfl | hs
    · rw [h.alloc_zero (hok.2 rfl)] at hfst
      simp only at hfst
      omega
    by_cases hsL : s ≤ 2 ^ L
    · rcases h.alloc hs hsL with ⟨hr', -⟩ | ⟨i, hfit, -, hi, -⟩
      · rw [hr'] at hfst
        simp only at hfst
        omega
      · rw [← hfst, hi, Int.toNat_natCast]
        exact hfit.absent hs
    · rw [h.alloc_too_large (by omega)] at hfst
      simp only at hfst
      omega
  obtain ⟨hok, fuel, hexec⟩ := hstep
  cases c with
  | alloc s => exact halloc s hok (Option.some.inj hexec)
  | allocMultiple s n =>
      obtain ⟨hs32, hn32, hzero⟩ := hok
      have hr : a.allocMultiple fuel s n = some (rc, a') := hexec
      by_cases hn : n = 1
      · subst hn
        rw [Power2Allocator.allocMultiple, if_pos rfl, Option.some.injEq] at hr
        exact halloc s ⟨hs32, hzero⟩ hr
      rcases Nat.eq_zero_or_pos s with rfl | hs
      · have := congrArg Prod.fst (h.allocMultiple_zero hn hn32 (hzero rfl) hr)
        simp only at this
        omega
      by_cases hrefused : Nat.clog 2 s ≠ L ∨ n = 0
      · rw [h.allocMultiple_refused hs32 hn hrefused fuel, Option.some.injEq] at hr
        have := congrArg Prod.fst hr
        simp only at this
        omega
      · obtain ⟨hclog, hn0⟩ := not_or.1 hrefused
        rcases (h.allocMultiple hs (not_not.1 hclog) (by omega)).2 fuel _ hr with
          ⟨he, -⟩ | ⟨b, -, hb, hfits, -⟩
        · have := congrArg Prod.fst he
          simp only at this
          omega
        · simp only at hb
          rw [hb, Int.toNat_natCast]
          exact (hfits b (List.mem_range'.2 ⟨0, by omega, by simp⟩)).absent hs
  | reserve i s => exact hc.elim
  | release i => exact hc.elim
  | releaseMultiple i n => exact hc.elim

/-- In a run in which no request of size 0 finds anything to hand out, no index is handed out twice
    and no block in use is empty. -/
theorem noDoubleAllocation_of_run (hsize : size < 2 ^ 32) (hsmall : size * count < 2 ^ 31)
    (hcreate : create size count = some a₀) (hrun : Run (Step Call.Harmless) a₀ es a) :
    a.NoDoubleAllocation Call.Harmless := by
  obtain ⟨L, p, -, -, hp⟩ := exists_pool_of_run hsize hsmall hcreate hrun
  refine ⟨fun i t hi => ?_, fun i => ?_, fun c rc a' hstep hc hrc =>
    hp.absent_of_request hstep hc hrc⟩
  · rw [hp.inuse] at hi
    exact (p.pos i t hi).ne'
  · cases hi : p.blocks.lookup i with
    | none =>
        rw [hp.getIndexSize_none hi]
        exact hp.holds.asserts
    | some t =>
        rw [(hp.getIndexSize_some hi).1]
        exact hp.holds.asserts

/-- A request of size 0 is harmless once the pool is full. -/
theorem noDoubleAllocation_of_run_full : ∃ a, create 1 1 = some a ∧
    ((a.alloc 1).2.alloc 0).2.NoDoubleAllocation Call.Harmless := by
  have hstate : (create 1 1).any (fun a =>
      decide ((a.alloc 1).2.freeLists = [OrderedMap.empty])) = true := by
    decide +kernel
  obtain ⟨a, hcreate, hb⟩ := (Option.any_eq_true _ _).1 hstate
  have hlists := of_decide_eq_true hb
  have hnothing : (a.alloc 1).2.NothingFor 1 := by
    rw [NothingFor, if_pos rfl]
    intro c i
    rw [freeList, hlists, List.getD_eq_getElem?_getD, List.getElem?_singleton]
    split_ifs <;> rfl
  have hnil : Run (Step Call.Harmless) a [] a := Run.nil
  have hfirst := run_call hnil (c := .alloc 1) ⟨by decide, fun h => by cases h⟩ 0 rfl
  have hsecond := run_call hfirst (c := .alloc 0) ⟨by decide, fun _ => hnothing⟩ 0 rfl
  exact ⟨a, hcreate, noDoubleAllocation_of_run (by decide : 1 < 2 ^ 32)
    (by decide : 1 * 1 < 2 ^ 31) hcreate hsecond⟩

/-- A request of size 0 on a fresh pool of one index succeeds and leaves an empty block; the next one
    returns the same index. -/
theorem alloc_zero_twice :
    ¬ ∀ (size count : ℕ) (a₀ a : Power2Allocator) (es : List (Call × ℤ)), size < 2 ^ 32 →
      size * count < 2 ^ 31 → create size count = some a₀ →
      Run (Step Call.AnySize) a₀ es a → a.NoDoubleAllocation Call.AnySize := by
  intro hclaim
  have hstate : (create 1 1).any (fun a =>
      decide ((a.alloc 0).1 = 0 ∧ (a.alloc 0).2.inuseList.lookup 0 = some 0)) = true := by
    decide +kernel
  obtain ⟨a, hcreate, hb⟩ := (Option.any_eq_true _ _).1 hstate
  obtain ⟨-, hentry⟩ := of_decide_eq_true hb
  have hnil : Run (Step Call.AnySize) a [] a := Run.nil
  have hfirst := run_call hnil (c := .alloc 0) (show 0 < 2 ^ 32 by decide) 0 rfl
  exact (hclaim 1 1 a _ _ (by decide) (by decide) hcreate hfirst).1 0 0 hentry rfl

end Power2Allocator
