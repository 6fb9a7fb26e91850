import TargetUtils.Power2Allocator.Restore

set_option autoImplicit false

/-! # Taking a call back

Every call of the interface that changes the pool can be taken back: `Call.undo` names the calls, and
in every state of every run they succeed and lead to the very state before the call (`undo_of_run`).
Nothing of the history survives in the free lists. -/

namespace Power2Allocator

variable {a a₀ a' : Power2Allocator} {L : ℕ} {p : Pool} {size count : ℕ}

/-- The calls that take a call back, made in state `a` and answered with `rc`. -/
def Call.undo (a : Power2Allocator) (rc : ℤ) : Call → List Call
  | .alloc _ => if rc = -1 then [] else [.release rc.toNat]
  | .allocMultiple _ count => if rc = -1 then [] else [.releaseMultiple rc.toNat count]
  | .reserve index _ => if rc = 0 then [.release index] else []
  | .release index => if rc = 0 then [.reserve index (a.getIndexSize index).1] else []
  | .releaseMultiple index count =>
    if rc = 0 then (List.range' index count a.maxSize).map fun j =>
      .reserve j (a.getIndexSize index).1
    else []

/-- The calls succeed and lead from `a'` to `a`. -/
def LeadBack (a' : Power2Allocator) (calls : List Call) (a : Power2Allocator) : Prop :=
  ∃ events : List (Call × ℤ), events.map Prod.fst = calls ∧ (∀ e ∈ events, e.2 = 0) ∧
    Run (Step Call.Legal) a' events a

theorem leadBack_nil (a : Power2Allocator) : LeadBack a [] a :=
  ⟨[], rfl, fun _ he => absurd he List.not_mem_nil, Run.nil⟩

theorem leadBack_one {c : Call} (hok : c.Legal a') (h : c.exec 0 a' = some (0, a)) :
    LeadBack a' [c] a := by
  have hrun : Run (Step Call.Legal) a' ([] ++ [(c, 0)]) a := Run.nil.snoc ⟨hok, 0, h⟩
  refine ⟨[(c, 0)], rfl, fun e he => ?_, hrun⟩
  rw [List.mem_singleton.1 he]

theorem leadBack_reserveEach {l : List (ℕ × ℕ)} (hl : ∀ x ∈ l, 0 < x.2 ∧ x.1 + x.2 < 2 ^ 32)
    (hrc : ∀ rc ∈ (a.reserveEach l).1, rc = 0) :
    LeadBack a (l.map fun x => .reserve x.1 x.2) (a.reserveEach l).2 := by
  induction l using List.reverseRecOn with
  | nil => exact leadBack_nil a
  | append_singleton l x ih =>
      have happend : ∀ (l : List (ℕ × ℕ)) (b : Power2Allocator), b.reserveEach (l ++ [x]) =
          ((b.reserveEach l).1 ++ [((b.reserveEach l).2.reserve x.1 x.2).1],
            ((b.reserveEach l).2.reserve x.1 x.2).2) := by
        intro l
        induction l with
        | nil => exact fun b => rfl
        | cons y l ih =>
            intro b
            simp only [List.cons_append, reserveEach, ih]
      rw [happend] at hrc ⊢
      obtain ⟨events, hcalls, hzero, hrun⟩ := ih
        (fun y hy => hl y (List.mem_append_left _ hy))
        (fun rc hmem => hrc rc (List.mem_append_left _ hmem))
      have hlast := hrc _ (List.mem_append_right _ (List.mem_singleton_self _))
      refine ⟨events ++ [(.reserve x.1 x.2, 0)], ?_, ?_, hrun.snoc ⟨?_, 0, ?_⟩⟩
      · rw [List.map_append, hcalls, List.map_append]
        rfl
      · intro e he
        rcases List.mem_append.1 he with he | he
        · exact hzero e he
        · rw [List.mem_singleton.1 he]
      · exact hl x (List.mem_append_right _ (List.mem_singleton_self _))
      · exact congrArg some (Prod.ext hlast rfl)

/-! ## One block -/

theorem Represents.release_take {i s : ℕ} {hs : 0 < s} {hfit : p.Fits i s}
    (h : a.Represents L p) (h' : a'.Represents L (p.take i s hs hfit)) :
    a'.release i = (0, a) := by
  have hlook : (p.take i s hs hfit).blocks.lookup i = some s := by
    rw [Pool.take, OrderedMap.lookup_insert, if_pos rfl]
  obtain ⟨hrc, hback⟩ := h'.release hlook
  rw [Pool.give_take] at hback
  exact Prod.ext hrc (hback.unique h)

/-- What `alloc` returns is refused or released again. -/
theorem Represents.alloc_cases (h : a.Represents L p) {s : ℕ} (hs : 0 < s) :
    a.alloc s = (-1, a) ∨ ∃ i : ℕ, (a.alloc s).1 = i ∧ (a.alloc s).2.release i = (0, a) := by
  by_cases hsL : s ≤ 2 ^ L
  · rcases h.alloc hs hsL with ⟨hr, -⟩ | ⟨i, hfit, -, hrc, h'⟩
    · exact Or.inl hr
    · exact Or.inr ⟨i, hrc, h.release_take h'⟩
  · exact Or.inl (h.alloc_too_large (by omega))

theorem Represents.undo_alloc (h : a.Represents L p) {s : ℕ} (hs : 0 < s) :
    LeadBack (a.alloc s).2 ((Call.alloc s).undo a (a.alloc s).1) a := by
  rw [Call.undo]
  rcases h.alloc_cases hs with hr | ⟨i, hrc, hback⟩
  · rw [hr, if_pos rfl]
    exact leadBack_nil a
  · rw [hrc, if_neg (by omega), Int.toNat_natCast]
    exact leadBack_one trivial (congrArg some hback)

theorem Represents.undo_reserve (h : a.Represents L p) {i s : ℕ} (hs : 0 < s)
    (hw : i + s < 2 ^ 32) :
    LeadBack (a.reserve i s).2 ((Call.reserve i s).undo a (a.reserve i s).1) a := by
  rw [Call.undo]
  by_cases hfit : p.Fits i s
  · obtain ⟨hrc, h'⟩ := h.reserve hs hfit
    rw [if_pos hrc]
    exact leadBack_one trivial (congrArg some (h.release_take h'))
  · rw [h.reserve_of_not_fits hs hw hfit, if_neg (by simp)]
    exact leadBack_nil a

/-! ## Groups of blocks -/

/-- Reserving the blocks given back one after the other. -/
theorem Represents.leadBack_giveAll (h : a.Represents L p) {l : List ℕ} {s : ℕ} (hnodup : l.Nodup)
    (hl : ∀ i ∈ l, p.blocks.lookup i = some s) (h' : a'.Represents L (p.giveAll l)) :
    LeadBack a' (l.map fun j => .reserve j s) a := by
  have hwithin : (p.giveAll l).Within p := by
    refine ⟨Pool.giveAll_total p l, ?_⟩
    intro i t hi
    rw [Pool.lookup_giveAll] at hi
    split_ifs at hi
    exact hi
  have hmem : ∀ x, x ∈ l.map (fun j => (j, s)) ↔ x.1 ∈ l ∧ x.2 = s := by
    intro x
    rw [List.mem_map]
    constructor
    · rintro ⟨j, hj, rfl⟩
      exact ⟨hj, rfl⟩
    · rintro ⟨hx, rfl⟩
      exact ⟨x.1, hx, rfl⟩
  obtain ⟨hrc, hr⟩ := h'.reserveEach hwithin (l := l.map fun j => (j, s))
    (fun x hx => by
      obtain ⟨hx1, hx2⟩ := (hmem x).1 hx
      exact ⟨by rw [hl x.1 hx1, hx2], by rw [Pool.lookup_giveAll, if_pos hx1]⟩)
    (by simpa [Function.comp_def] using hnodup)
    (fun i t hi => by
      rw [Pool.lookup_giveAll, hmem]
      by_cases hil : i ∈ l
      · rw [hl i hil, Option.some.injEq] at hi
        exact Or.inr ⟨hil, hi.symm⟩
      · exact Or.inl (by rw [if_neg hil, hi]))
  have hback := leadBack_reserveEach (l := l.map fun j => (j, s)) (fun x hx => by
    obtain ⟨hx1, hx2⟩ := (hmem x).1 hx
    have hbounds := h.block_bounds (hl x.1 hx1)
    omega) hrc
  rw [List.map_map, hr.unique h] at hback
  exact hback

theorem Represents.undo_release (h : a.Represents L p) (i : ℕ) :
    LeadBack (a.release i).2 ((Call.release i).undo a (a.release i).1) a := by
  rw [Call.undo]
  cases hi : p.blocks.lookup i with
  | none =>
      rw [h.release_absent hi, if_neg (by simp)]
      exact leadBack_nil a
  | some s =>
      obtain ⟨hrc, h'⟩ := h.release hi
      rw [if_pos hrc, (h.getIndexSize_some hi).1]
      exact h.leadBack_giveAll (l := [i]) (List.nodup_singleton i)
        (fun j hj => by rw [List.mem_singleton.1 hj, hi]) h'

theorem Represents.undo_releaseMultiple (h : a.Represents L p) {i n : ℕ}
    (hok : a.GroupOrRefused i n) :
    LeadBack (a.releaseMultiple i n).2
      ((Call.releaseMultiple i n).undo a (a.releaseMultiple i n).1) a := by
  by_cases hn : n = 1
  · subst hn
    have hone := h.undo_release i
    rw [Power2Allocator.releaseMultiple, if_pos rfl]
    exact hone
  rw [Call.undo]
  by_cases hrefused : ∀ s, p.blocks.lookup i = some s → Nat.clog 2 s ≠ L
  · rw [h.releaseMultiple_refused hn hrefused, if_neg (by simp)]
    exact leadBack_nil a
  push Not at hrefused
  obtain ⟨s, hi, hclog⟩ := hrefused
  obtain ⟨hpos, hin, hsmall⟩ := h.block_bounds hi
  have hlog : log2Uint32Ceil s = a.noFreeLists - 1 := by
    rw [log2Uint32Ceil_eq_clog (by omega), hclog, h.holds.noFreeLists, Nat.add_sub_cancel]
  obtain ⟨hdvd, hblocks⟩ := hok.resolve_left hn s (by rw [h.inuse, hi]) hlog
  rw [h.maxSize] at hdvd hblocks
  rw [h.inuse] at hblocks
  obtain ⟨hrc, h'⟩ := h.releaseMultipleLoop hdvd hblocks
  rw [h.releaseMultiple_eq_loop hn hi hclog, if_pos hrc, (h.getIndexSize_some hi).1, h.maxSize]
  exact h.leadBack_giveAll (List.nodup_range' (2 ^ L) (Nat.two_pow_pos L)) hblocks h'

theorem Represents.undo_allocMultiple (h : a.Represents L p) {s n fuel : ℕ} (hs : 0 < s)
    (hs32 : s < 2 ^ 32) {r : ℤ × Power2Allocator} (hr : a.allocMultiple fuel s n = some r) :
    LeadBack r.2 ((Call.allocMultiple s n).undo a r.1) a := by
  rw [Call.undo]
  by_cases hn : n = 1
  · subst hn
    rw [Power2Allocator.allocMultiple, if_pos rfl, Option.some.injEq] at hr
    subst hr
    rcases h.alloc_cases hs with hr | ⟨i, hrc, hback⟩
    · rw [hr, if_pos rfl]
      exact leadBack_nil a
    · rw [hrc, if_neg (by omega), Int.toNat_natCast]
      have hone : (a.alloc s).2.releaseMultiple i 1 = (0, a) := by
        rw [Power2Allocator.releaseMultiple, if_pos rfl, hback]
      exact leadBack_one (Or.inl rfl) (congrArg some hone)
  by_cases hrefused : Nat.clog 2 s ≠ L ∨ n = 0
  · rw [h.allocMultiple_refused hs32 hn hrefused fuel, Option.some.injEq] at hr
    rw [← hr, if_pos rfl]
    exact leadBack_nil a
  obtain ⟨hclog, hn0⟩ := not_or.1 hrefused
  rw [not_not] at hclog
  rcases (h.allocMultiple hs hclog (by omega)).2 fuel r hr with
    ⟨rfl, -⟩ | ⟨b, hdvd, hrc, hfits, p', hp', htotal, hlook⟩
  · rw [if_pos rfl]
    exact leadBack_nil a
  · rw [hrc, if_neg (by omega), Int.toNat_natCast]
    have hgrid : 2 ^ L ∣ b := (pow_dvd_align L (by omega : 0 < n)).trans hdvd
    have hblocks : ∀ j ∈ List.range' b n (2 ^ L), p'.blocks.lookup j = some s := by
      intro j hj
      rw [hlook, if_pos hj]
    obtain ⟨hzero, hback⟩ := hp'.releaseMultiple (by omega) hgrid hclog hblocks
    have hpool : p'.giveAll (List.range' b n (2 ^ L)) = p := by
      refine Pool.ext ((Pool.giveAll_total _ _).trans htotal) (OrderedMap.ext_lookup fun k => ?_)
      rw [Pool.lookup_giveAll, hlook]
      split_ifs with hk
      · exact ((hfits k hk).absent hs).symm
      · rfl
    rw [hpool] at hback
    have hboth : r.2.releaseMultiple b n = (0, a) := Prod.ext hzero (hback.unique h)
    refine leadBack_one (Or.inr ?_) (congrArg some hboth)
    intro t ht _
    rw [hp'.inuse] at ht
    rw [hblocks b (List.mem_range'.2 ⟨0, by omega, by simp⟩), Option.some.injEq] at ht
    rw [hp'.maxSize, hp'.inuse, ← ht]
    exact ⟨hgrid, hblocks⟩

/-- A call in any state of any run is taken back by `Call.undo`. -/
theorem undo_of_run {es : List (Call × ℤ)} (hsize : size < 2 ^ 32) (hsmall : size * count < 2 ^ 31)
    (hcreate : create size count = some a₀) (hrun : Run (Step Call.Legal) a₀ es a) {c : Call}
    {rc : ℤ} (hstep : Step Call.Legal a (c, rc) a') : LeadBack a' (c.undo a rc) a := by
  obtain ⟨L, p, -, -, h⟩ := exists_pool_of_run hsize hsmall hcreate (run_harmless hrun)
  obtain ⟨hok, fuel, hexec⟩ := hstep
  cases c with
  | alloc s =>
      obtain ⟨rfl, rfl⟩ := Prod.ext_iff.1 (Option.some.inj hexec)
      exact h.undo_alloc hok.1
  | allocMultiple s n => exact h.undo_allocMultiple hok.1 hok.2.1 hexec
  | reserve i s =>
      obtain ⟨rfl, rfl⟩ := Prod.ext_iff.1 (Option.some.inj hexec)
      exact h.undo_reserve hok.1 hok.2
  | release i =>
      obtain ⟨rfl, rfl⟩ := Prod.ext_iff.1 (Option.some.inj hexec)
      exact h.undo_release i
  | releaseMultiple i n =>
      obtain ⟨rfl, rfl⟩ := Prod.ext_iff.1 (Option.some.inj hexec)
      exact h.undo_releaseMultiple hok

/-- With two blocks in use, a third one is allocated, or the first one is released. -/
theorem undo_of_run_alloc : ∃ a, create 4 4 = some a ∧
    LeadBack (a.afterTwo.alloc 3).2 ((Call.alloc 3).undo a.afterTwo (a.afterTwo.alloc 3).1)
      a.afterTwo ∧
    LeadBack (a.afterTwo.release 1).2 ((Call.release 1).undo a.afterTwo (a.afterTwo.release 1).1)
      a.afterTwo := by
  obtain ⟨a, hcreate, -⟩ := exists_afterTwo
  have hrun : Run (Step Call.Legal) a _ a.afterTwo :=
    run_afterTwo a ⟨by decide, by decide⟩ ⟨by decide, by decide⟩
  refine ⟨a, hcreate, ?_, ?_⟩
  · exact undo_of_run (by decide : 4 < 2 ^ 32) (by decide : 4 * 4 < 2 ^ 31) hcreate hrun
      ⟨⟨by decide, by decide⟩, 0, rfl⟩
  · exact undo_of_run (by decide : 4 < 2 ^ 32) (by decide : 4 * 4 < 2 ^ 31) hcreate hrun
      ⟨trivial, 0, rfl⟩

end Power2Allocator
