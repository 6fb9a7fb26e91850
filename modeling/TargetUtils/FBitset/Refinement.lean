import TargetUtils.Bitset.Refinement

set_option autoImplicit false

/-! # The sparse bitset in place of the dense one

`bf_fbs_*` is a faster implementation of the same sets of positions. In every run of the calls the
two have in common the sparse bitset gives the answers of the dense one (`sameAnswers_of_run`), and
their iterations visit the same positions. -/

namespace FBitset

variable {bs bs' : FBitset} {b b' : Bitset} {p : ℕ}

/-- The calls both bitsets have. -/
inductive Call
  | set (position : ℕ) (val : Bool)
  | get (position : ℕ)
  | firstSet (position : ℤ)
  | firstClr (position : ℤ)
deriving DecidableEq

/-- The call on the dense bitset. -/
def Call.toOp : Call → Bitset.Op
  | .set position val => .set position val.toInt
  | .get position => .get position
  | .firstSet position => .firstSet position
  | .firstClr position => .firstClr position

/-- What the call returns, and the bitset afterwards. A block of one clear bit is found before the
    loop of `bf_fbs_first_clr_contiguous`. -/
def Call.exec (bs : FBitset) : Call → Option (ℤ × FBitset)
  | .set position val => some ((bs.set position val).1.toInt, (bs.set position val).2)
  | .get position => some ((bs.get position).toInt, bs)
  | .firstSet position => some (bs.firstSet position, bs)
  | .firstClr position => bs.firstClrContiguous 0 position 1

/-- The loop over the set positions behind `position`. -/
def visit : (fuel : ℕ) → FBitset → ℤ → Option (List ℤ)
  | 0, _, _ => none
  | fuel + 1, bs, position =>
    let p := bs.firstSet position
    if p = -1 then some [] else (visit fuel bs p).map (p :: ·)

/-- A call the dense bitset allows, with its answer. A search for a clear bit that runs into the
    padding is not one: the dense bitset then finds a position behind its width. -/
def DenseStep (b : Bitset) (e : Call × ℤ) (b' : Bitset) : Prop :=
  e.1.toOp.Legal b ∧ e.1.toOp.exec b = some (e.2, b')

/-- A call on the sparse bitset, with its answer. -/
def SparseStep (bs : FBitset) (e : Call × ℤ) (bs' : FBitset) : Prop :=
  e.1.exec bs = some (e.2, bs')

/-- The sparse bitset holds the positions of the dense one. -/
structure Mirrors (bs : FBitset) (b : Bitset) : Prop where
  width : bs.width = b.width
  clean : b.Clean
  mem : ∀ p, p ∈ bs.fbs ↔ p ∈ b.members

/-- There is at most one answer. -/
theorem FirstOf.unique {s : Set ℕ} {r r' : ℤ} (h : FirstOf s r) (h' : FirstOf s r') : r = r' := by
  rcases h with ⟨p, rfl, hp⟩ | ⟨rfl, hempty⟩
  · rcases h' with ⟨q, rfl, hq⟩ | ⟨rfl, hempty⟩
    · rw [hp.unique hq]
    · exact absurd hp.1 (hempty ▸ Set.notMem_empty p)
  · rcases h' with ⟨q, rfl, hq⟩ | ⟨rfl, -⟩
    · exact absurd hq.1 (hempty ▸ Set.notMem_empty q)
    · rfl

/-! ## The searches for one bit -/

theorem firstSet_firstOf (hin : bs.InWidth) (hwidth : bs.width < 2 ^ 31) {position : ℤ}
    (hlo : -1 ≤ position) (hhi : position < bs.width) :
    FirstOf {p | position < p ∧ p ∈ bs.fbs} (bs.firstSet position) := by
  obtain ⟨s, hs⟩ := Int.eq_ofNat_of_zero_le (by omega : 0 ≤ position + 1)
  unfold firstSet
  simp only [hs, Int.toNat_natCast]
  rw [if_neg (by omega)]
  cases hfirst : bs.fbs.first s with
  | none =>
      refine Or.inr ⟨rfl, Set.eq_empty_of_forall_notMem ?_⟩
      rintro p ⟨hp, hmem⟩
      exact Judy1.first_eq_none.1 hfirst p (by omega) hmem
  | some j =>
      obtain ⟨hmem, hsj, hleast⟩ := Judy1.first_eq_some.1 hfirst
      have hj := hin j hmem
      refine Or.inl ⟨j, toInt_of_lt (by omega), ⟨by omega, hmem⟩, ?_⟩
      rintro q ⟨hq, hqmem⟩
      by_contra hqj
      exact hleast q (by omega) (not_le.1 hqj) hqmem

theorem firstClr_firstOf (hin : bs.InWidth) (hwidth : bs.width < 2 ^ 31) {position : ℤ}
    (hlo : -1 ≤ position) (hhi : position < bs.width) :
    ∃ r, bs.firstClrContiguous 0 position 1 = some (r, bs) ∧
      FirstOf {p | position < p ∧ p < bs.width ∧ p ∉ bs.fbs} r := by
  obtain ⟨s, hs⟩ := Int.eq_ofNat_of_zero_le (by omega : 0 ≤ position + 1)
  obtain ⟨j, hj, hsj, -, hnot, hset⟩ :=
    Judy1.firstEmpty_spec (hin.small hwidth) (i := s) (by omega)
  have hfull : ∀ p : ℕ, position < p → p < j → p ∈ bs.fbs := fun p hp => hset p (by omega)
  have hnone : bs.width ≤ j → FirstOf {p | position < p ∧ p < bs.width ∧ p ∉ bs.fbs} (-1) := by
    intro hge
    refine Or.inr ⟨rfl, Set.eq_empty_of_forall_notMem ?_⟩
    rintro p ⟨hp, hlt, hmem⟩
    exact hmem (hfull p hp (by omega))
  unfold firstClrContiguous
  simp only [hs, Int.toNat_natCast, hj, if_true, u32Add_of_lt (show s + 1 < 2 ^ 32 by omega)]
  split_ifs with hguard hend
  · exact ⟨-1, rfl, hnone (by omega)⟩
  · exact ⟨-1, rfl, hnone hend⟩
  · refine ⟨_, rfl, Or.inl ⟨j, toInt_of_lt (by omega), ⟨by omega, by omega, hnot⟩, ?_⟩⟩
    rintro q ⟨hq, -, hqmem⟩
    by_contra hqj
    exact hqmem (hfull q hq (not_le.1 hqj))

/-! ## Side by side -/

theorem Mirrors.inWidth (h : bs.Mirrors b) : bs.InWidth := by
  intro p hp
  rw [h.width]
  exact (Bitset.mem_members.1 ((h.mem p).1 hp)).1

theorem Mirrors.small (h : bs.Mirrors b) : bs.width < 2 ^ 31 := h.width ▸ b.width_lt

theorem Mirrors.get (h : bs.Mirrors b) (p : ℕ) : bs.get p = decide (p ∈ b.members) := by
  unfold FBitset.get
  simp only [h.mem]

/-- The sparse bitset stays a mirror when the same positions are left in the dense one. -/
theorem Mirrors.leaves (h : bs.Mirrors b) {s : Finset ℕ} (hw : bs'.width = bs.width)
    (hmem : ∀ p, p ∈ bs'.fbs ↔ p ∈ s) (hleaves : b.Leaves s b') : bs'.Mirrors b' := by
  obtain ⟨hw', hclean, rfl⟩ := hleaves
  refine ⟨?_, hclean, hmem⟩
  rw [hw, h.width, hw']

theorem Mirrors.firstSet (h : bs.Mirrors b) {position : ℤ} (hlo : -1 ≤ position)
    (hhi : position < b.width) :
    ∃ b', b.firstSet position = some (bs.firstSet position, b') ∧ bs.Mirrors b' := by
  obtain ⟨r, b', hcall, hr, hleaves⟩ := Bitset.firstSet_spec h.clean hlo hhi
  have hfirst := firstSet_firstOf h.inWidth h.small hlo (h.width ▸ hhi)
  simp only [h.mem] at hfirst
  rw [hr.unique hfirst] at hcall
  exact ⟨b', hcall, h.leaves rfl h.mem hleaves⟩

/-- The two answer a call alike and hold the same positions afterwards. -/
theorem Mirrors.exec (h : bs.Mirrors b) {c : Call} {r : ℤ} (hc : c.toOp.Legal b)
    (hcall : c.toOp.exec b = some (r, b')) :
    ∃ bs', c.exec bs = some (r, bs') ∧ bs'.width = bs.width ∧ bs'.Mirrors b' := by
  have hresult : ∀ {b₁ : Bitset} {r₁ : ℤ}, c.toOp.exec b = some (r₁, b₁) → r = r₁ ∧ b' = b₁ := by
    intro b₁ r₁ h₁
    exact Prod.mk.inj (Option.some.inj (hcall.symm.trans h₁))
  cases c with
  | set p val =>
      have hp : p < b.width := Int.ofNat_lt.1 hc.2
      obtain ⟨b₁, h₁, hleaves⟩ := Bitset.set_spec h.clean hp val.toInt
      obtain ⟨rfl, rfl⟩ := hresult (congrArg (Option.map _) h₁)
      have hanswer : (bs.set p val).1 = decide (p ∈ b.members) := by
        rw [← h.get]
        cases val <;> rfl
      have hw := set_width bs p val
      refine ⟨(bs.set p val).2, ?_, hw, h.leaves hw (fun q => ?_) hleaves⟩
      · rw [← hanswer]
        rfl
      · rw [FBitset.mem_set, h.mem]
        cases val with
        | false => by_cases hq : q = p <;> simp [hq]
        | true => by_cases hq : q = p <;> simp [hq]
  | get p =>
      have hp : p < b.width := Int.ofNat_lt.1 hc.2
      have h₁ : b.get p = some (decide (p ∈ b.members)) := by
        rw [Bitset.get_eq hp, Option.some.injEq, Bool.eq_iff_iff, decide_eq_true_iff, h.clean.mem]
      obtain ⟨rfl, rfl⟩ := hresult (congrArg (Option.map _) h₁)
      refine ⟨bs, ?_, rfl, h⟩
      rw [← h.get]
      rfl
  | firstSet position =>
      obtain ⟨b₁, h₁, hmirrors⟩ := h.firstSet hc.1 hc.2
      obtain ⟨rfl, rfl⟩ := hresult h₁
      exact ⟨bs, rfl, rfl, hmirrors⟩
  | firstClr position =>
      obtain ⟨⟨hlo, hhi⟩, hpad⟩ := hc
      obtain ⟨r₁, b₁, h₁, hr₁, hleaves⟩ := Bitset.firstClr_spec h.clean hlo hhi hpad
      obtain ⟨rfl, rfl⟩ := hresult h₁
      obtain ⟨r₂, hcall₂, hr₂⟩ := firstClr_firstOf h.inWidth h.small hlo (h.width ▸ hhi)
      simp only [h.mem, h.width] at hr₂
      rw [← hr₁.unique hr₂] at hcall₂
      exact ⟨bs, hcall₂, rfl, h.leaves rfl h.mem hleaves⟩

theorem mirrors_zeroed {width : ℕ} (h : 0 < width ∧ width < 2 ^ 31) :
    (init width).Mirrors (Bitset.zeroed width h) := by
  have hholds : Bitset.Holds (fun _ : Unit => width) (fun _ => ∅)
      fun _ => Bitset.zeroed width h := Bitset.holds_zeroed fun _ => h
  refine ⟨rfl, hholds.clean (), fun p => ?_⟩
  rw [hholds.members ()]
  constructor
  · intro hp
    exact nomatch hp
  · intro hp
    exact absurd hp (Finset.notMem_empty p)

/-- The iterations visit the same positions, round for round. -/
theorem Mirrors.visit (h : bs.Mirrors b) (fuel : ℕ) {position : ℤ} (hlo : -1 ≤ position)
    (hhi : position < b.width) :
    bs.visit fuel position = (b.visit fuel position).map Prod.fst := by
  induction fuel generalizing b position with
  | zero => rfl
  | succ fuel ih =>
      obtain ⟨b', hcall, hmirrors⟩ := h.firstSet hlo hhi
      have hfirst := firstSet_firstOf h.inWidth h.small hlo (h.width ▸ hhi)
      unfold FBitset.visit Bitset.visit
      simp only [hcall, Option.bind_eq_bind, Option.bind_some]
      by_cases hend : bs.firstSet position = -1
      · rw [if_pos hend, if_pos hend]
        rfl
      · obtain ⟨p, hp, ⟨hmem, -⟩⟩ := hfirst.resolve_right fun hempty => hend hempty.1
        have hlt := h.inWidth p hmem.2
        rw [if_neg hend, if_neg hend, ih hmirrors (by omega) (by rw [← hmirrors.width]; omega)]
        cases b'.visit fuel (bs.firstSet position) <;> rfl

/-- Every run of the dense bitset is one of the sparse bitset, with the same answers and the same
    positions set, and iterating over the two visits the same positions. -/
theorem sameAnswers_of_run {width : ℕ} (hwidth : 0 < width ∧ width < 2 ^ 31)
    {es : List (Call × ℤ)} (hrun : Run DenseStep (Bitset.zeroed width hwidth) es b) :
    ∃ bs, Run SparseStep (init width) es bs ∧
      (∀ p : ℕ, p < width → b.get p = some (bs.get p)) ∧
      ∀ fuel, bs.visit fuel (-1) = (b.visit fuel (-1)).map Prod.fst := by
  have hsim : ∃ bs, Run SparseStep (init width) es bs ∧ bs.width = width ∧ bs.Mirrors b := by
    induction hrun with
    | nil => exact ⟨init width, Run.nil, rfl, mirrors_zeroed hwidth⟩
    | snoc _ hlast ih =>
        obtain ⟨bs, hbs, hw, hmirrors⟩ := ih
        obtain ⟨bs', hexec, hw', hmirrors'⟩ := hmirrors.exec hlast.1 hlast.2
        exact ⟨bs', hbs.snoc hexec, hw'.trans hw, hmirrors'⟩
  obtain ⟨bs, hbs, rfl, hmirrors⟩ := hsim
  have hw := hmirrors.width
  refine ⟨bs, hbs, fun p hp => ?_, fun fuel => hmirrors.visit fuel le_rfl (by omega)⟩
  rw [hmirrors.get, Bitset.get_eq (hw ▸ hp), Option.some.injEq, Bool.eq_iff_iff, decide_eq_true_iff,
    hmirrors.clean.mem]

/-- Bits in two words, set, searched and cleared. -/
theorem sameAnswers_of_run_several :
    let events : List (Call × ℤ) := [(.set 2 true, 0), (.set 69 true, 0), (.set 3 true, 0),
      (.firstSet (-1), 2), (.firstClr 1, 4), (.set 2 false, 1), (.get 69, 1), (.firstSet 3, 69)]
    ∃ b bs, Run DenseStep (Bitset.zeroed 71 (by decide)) events b ∧
      Run SparseStep (init 71) events bs ∧ (∀ p : ℕ, p < 71 → b.get p = some (bs.get p)) ∧
      ∀ fuel, bs.visit fuel (-1) = (b.visit fuel (-1)).map Prod.fst := by
  intro events
  have hrun : Run DenseStep (Bitset.zeroed 71 (by decide)) events
      (stateAfter (executeLegal (fun b c => c.toOp.Legal b) fun b c => c.toOp.exec b) _
        (events.map Prod.fst)) :=
    Run.of_replies (fun _ _ _ _ hexec => executeLegal_some hexec) (by decide +kernel)
  obtain ⟨bs, h⟩ := sameAnswers_of_run (by decide) hrun
  exact ⟨_, bs, hrun, h⟩

end FBitset
