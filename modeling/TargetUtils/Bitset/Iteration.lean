import TargetUtils.Bitset.Observers

set_option autoImplicit false

/-! # Visiting the set positions

A client goes through a set by calling `bf_bs_first_set` from -1 on, each time with the position
found before. The first call masks the top word, so no position above the width turns up, and the
calls visit what `bf_bs_pop_count` counts. -/

namespace Bitset

open WordArray

variable {b : Bitset}

/-- The calls of `bf_bs_first_set` from `position` on, until -1 is returned. -/
def visit : (fuel : ℕ) → Bitset → ℤ → Option (List ℤ × Bitset)
  | 0, _, _ => none
  | fuel + 1, b, position => do
    let (p, b) ← b.firstSet position
    if p = -1 then pure ([], b)
    else do
      let (ps, b) ← visit fuel b p
      pure (p :: ps, b)

theorem bitwise_id : Bitwise id id := fun _ _ _ => rfl

/-- One call finds the first set position from `s` on. -/
theorem firstSet_eq {position : ℤ} {s : ℕ} (hs : position + 1 = s) (hle : s ≤ b.width) :
    ∃ b' o, b.firstSet position = some (o.elim (-1) fun p : ℕ => (p : ℤ), b') ∧ b.Agrees b' ∧
      FirstIn b.bit s b.width o := by
  rcases Nat.eq_or_lt_of_le hle with rfl | hlt
  · refine ⟨b, none, if_pos (by omega), Agrees.refl b, fun p hlo hhi => ?_⟩
    omega
  · have hwidth : b.length = (b.width + 63) / 64 := rfl
    obtain ⟨b', o, hmask, hfirst, hcall⟩ := first_eq (b := b) bitwise_id hs hlt
    obtain ⟨b'', hmask', -, hbits⟩ := maskTop_eq b
    obtain rfl : b'' = b' := Option.some.inj (hmask'.symm.trans hmask)
    simp only [id_eq, hbits] at hfirst
    -- a bit found in the masked words lies below the width
    have hbelow := hfirst.restrict (by omega)
    refine ⟨b'', o, hcall.trans ?_, (agrees_of_maskTop hmask).1, hbelow⟩
    cases o with
    | none => rfl
    | some p => rw [Option.elim_some, Option.elim_some, if_pos (Or.inr hbelow.2.1)]

/-- The calls from `s` on visit the set positions from there on. -/
theorem visit_eq {position : ℤ} {s : ℕ} (hs : position + 1 = s) (hle : s ≤ b.width) :
    ∃ b', b.Agrees b' ∧ Returns (fun fuel => visit fuel b position)
      ((positions b.bit s b.width).map fun p : ℕ => (p : ℤ), b') := by
  obtain ⟨n, hn⟩ : ∃ n, n = b.width - s := ⟨_, rfl⟩
  induction n using Nat.strong_induction_on generalizing b position s with
  | h n ih =>
      obtain ⟨b', o, hcall, hagrees, hfirst⟩ := firstSet_eq hs hle
      obtain ⟨hw, hbits⟩ := agrees_iff.1 hagrees
      cases o with
      | none =>
          refine ⟨b', hagrees, Returns.of_succ (fun fuel => ?_) (Returns.const rfl)⟩
          rw [visit, hcall, hfirst.positions_nil]
          rfl
      | some p =>
          have hhi := hfirst.2.1
          have hlo := hfirst.1
          obtain ⟨b'', hagrees', hrest⟩ := ih (b'.width - (p + 1)) (by omega) (b := b')
            (by omega : (p : ℤ) + 1 = (p + 1 : ℕ)) (by omega) rfl
          -- the later calls see a masked set with the same positions
          have hsame : positions b'.bit (p + 1) b'.width = positions b.bit (p + 1) b.width := by
            rw [positions, positions, ← hw]
            refine List.filter_congr fun q hq => ?_
            rw [List.mem_range'_1] at hq
            exact (hbits q (by omega)).symm
          rw [hsame] at hrest
          have hne : (p : ℤ) ≠ -1 := by omega
          refine ⟨b'', hagrees.trans hagrees', ?_⟩
          rw [hfirst.positions_cons, List.map_cons]
          refine Returns.of_succ (fun fuel => ?_) (hrest.map fun r => ((p : ℤ) :: r.1, r.2))
          simp only [visit, hcall, Option.elim_some, Option.bind_eq_bind, Option.bind_some,
            if_neg hne]
          rw [Option.map_eq_bind]
          rfl

/-- From -1 on the calls visit exactly the set positions below the width, in increasing order and
    as many as `bf_bs_pop_count` counts. -/
theorem visits_set_positions (b : Bitset) : ∃ (ps : List ℕ) (b' : Bitset),
    Returns (fun fuel => visit fuel b (-1)) (ps.map fun p : ℕ => (p : ℤ), b') ∧ b.Agrees b' ∧
      (∀ p : ℕ, p ∈ ps ↔ p < b.width ∧ b.get p = some true) ∧ ps.Pairwise (· < ·) ∧
        b.popCount.map Prod.fst = some (ps.length : ℤ) := by
  obtain ⟨b', hagrees, hvisit⟩ := visit_eq (b := b) (rfl : (-1 : ℤ) + 1 = (0 : ℕ))
    (Nat.zero_le _)
  obtain ⟨b'', hcount, -⟩ := b.popCount_eq
  refine ⟨_, b', hvisit, hagrees, fun p => ?_, positions_pairwise, ?_⟩
  · rw [mem_positions, and_iff_right (Nat.zero_le p)]
    refine and_congr_right fun hp => ?_
    rw [get_eq hp, Option.some.injEq]
  · rw [hcount, Option.map_some, positions, Nat.sub_zero, ← List.range_eq_range',
      List.countP_eq_length_filter]

/-- The set positions of a set with bits 0 and 2 set, and one above the width. -/
example : (visit 3 ⟨3, [13], by decide, by decide, rfl⟩ (-1)).map Prod.fst = some [0, 2] := by
  decide +kernel

end Bitset
