import TargetUtils.Library.Runs
import TargetUtils.IdAllocator.Search

set_option autoImplicit false

/-! # Runs of the id allocator

Whatever a failed search leaves in `Index`, a block is only handed out where no index is set, and
exactly its indices become set (`allocateContiguous_cases`). So over any run an id is not handed out
again before it is released. -/

namespace IdAllocator

/-! ## Calls -/

/-- The calls of the interface. -/
inductive Call
  | allocate
  | allocateContiguous (count : ℕ)
  | release (id : ℕ)
  | set (id : ℕ)
deriving DecidableEq

/-- The calls that ask for ids. -/
def Call.IsRequest : Call → Prop
  | .allocate => True
  | .allocateContiguous _ => True
  | _ => False

/-- The count of a request. -/
def Call.count : Call → ℕ
  | .allocateContiguous count => count
  | _ => 1

/-- The return value (0 for `void`) and the next state. -/
def Call.exec (fuel : ℕ) (miss : ℕ → ℕ → ℕ) (a : IdAllocator) : Call → Option (ℤ × IdAllocator)
  | .allocate => a.allocate fuel miss
  | .allocateContiguous count => a.allocateContiguous fuel miss count
  | .release id => some (0, a.release id)
  | .set id => some (0, a.set id)

/-- One call and its return value, for calls and leftovers of failed searches that satisfy `ok`. -/
def Step (ok : IdAllocator → (ℕ → ℕ → ℕ) → Call → Prop) (a : IdAllocator) (e : Call × ℤ)
    (a' : IdAllocator) : Prop :=
  ∃ miss, ok a miss e.1 ∧ ∃ fuel, e.1.exec fuel miss a = some (e.2, a')

/-- Any count of the interface and any `unsigned int` ids. -/
def Call.AnyId (_ : IdAllocator) (_ : ℕ → ℕ → ℕ) : Call → Prop
  | .allocate => True
  | .allocateContiguous count => 1 ≤ count ∧ count ≤ 255
  | .release id => id < 2 ^ 32
  | .set id => id < 2 ^ 32

def IsSet (a : IdAllocator) (id : ℕ) : Prop := a.indexOf id ∈ a.pj1Array

instance (a : IdAllocator) (id : ℕ) : Decidable (a.IsSet id) :=
  inferInstanceAs (Decidable (a.indexOf id ∈ a.pj1Array))

/-- The ids of the block a call returned, as `unsigned int`. -/
def HandsOut : Call × ℤ → ℕ → Prop
  | (.allocate, r), id => r ≠ 2 ^ 32 - 1 ∧ (id : ℤ) = r
  | (.allocateContiguous count, r), id => r ≠ -1 ∧ ∃ i < count, (id : ℤ) = (r + i) % 2 ^ 32
  | _, _ => False

def Releases : Call × ℤ → ℕ → Prop
  | (.release id', _), id => id' = id
  | _, _ => False

/-- A state of a run: the parameters of the allocator stay, and indices are 32-bit values. -/
structure Wf (a : IdAllocator) (size : ℕ) (zeroBased : Bool) : Prop where
  size_eq : a.size = size
  zeroBased_eq : a.zeroBased = zeroBased
  small : a.pj1Array.Small

variable {a a' : IdAllocator} {size count : ℕ} {zeroBased : Bool} {miss : ℕ → ℕ → ℕ}

/-! ## Blocks -/

theorem mem_setBlock {b j : ℕ} (hb : b + count < 2 ^ 64) :
    j ∈ (a.setBlock b count).pj1Array ↔ j ∈ a.pj1Array ∨ b ≤ j ∧ j < b + count := by
  induction count with
  | zero =>
      simp only [setBlock, List.range_zero, List.foldl_nil]
      exact ⟨Or.inl, fun h => h.resolve_right (by omega)⟩
  | succ count ih =>
      have hrec := ih (by omega)
      simp only [setBlock] at hrec ⊢
      rw [List.range_succ, List.foldl_append, List.foldl_cons, List.foldl_nil, Judy1.mem_set, hrec,
        u64Add, Nat.mod_eq_of_lt (by omega)]
      constructor
      · rintro (rfl | h | h)
        · exact Or.inr (by omega)
        · exact Or.inl h
        · exact Or.inr (by omega)
      · rintro (h | h)
        · exact Or.inr (Or.inl h)
        · by_cases hj : j = b + count
          · exact Or.inl hj
          · exact Or.inr (Or.inr (by omega))

theorem setBlock_one {b : ℕ} (hb : b < 2 ^ 64) :
    a.setBlock b 1 = { a with pj1Array := a.pj1Array.set b } := by
  have hadd : u64Add b 0 = b := by
    rw [u64Add, Nat.add_zero, Nat.mod_eq_of_lt hb]
  rw [setBlock, List.range_one, List.foldl_cons, List.foldl_nil, hadd]

/-- The first id of the block at `b`. -/
def firstId (a : IdAllocator) (b : ℕ) : ℕ := if a.zeroBased then b else b + 1

theorem toInt_add_emod {n i : ℕ} (h : n + i < 2 ^ 32) : (toInt n + i) % 2 ^ 32 = (n + i : ℕ) := by
  rw [toInt, Nat.mod_eq_of_lt (by omega)]
  split_ifs <;> omega

theorem returned_add_emod {b i : ℕ} (h : b + i < 2 ^ 31 + 2 ^ 30) :
    (a.returned b + i) % 2 ^ 32 = (a.firstId b + i : ℕ) := by
  rw [returned, firstId]
  split_ifs
  · exact toInt_add_emod (by omega)
  · rw [u64Add, Nat.mod_eq_of_lt (by omega)]
    exact toInt_add_emod (by omega)

theorem returned_ne {b : ℕ} (h : b < 2 ^ 31) : a.returned b ≠ -1 := by
  intro he
  have hmod := returned_add_emod (a := a) (b := b) (i := 0) (by omega)
  rw [he, firstId] at hmod
  split_ifs at hmod <;> omega

theorem indexOf_firstId {b i : ℕ} (h : b + i < 2 ^ 31 + 2 ^ 30) :
    a.indexOf (a.firstId b + i) = b + i := by
  rw [indexOf, firstId]
  split_ifs
  · rfl
  · rw [u32Sub_of_le (by omega) (by omega)]
    omega

theorem indexOf_lt {id : ℕ} (h : id < 2 ^ 32) : a.indexOf id < 2 ^ 32 := by
  rw [indexOf]
  split_ifs
  · exact h
  · exact Nat.mod_lt _ (by omega)

/-- Different ids have different indices. -/
theorem indexOf_injective {id id' : ℕ} (h : id < 2 ^ 32) (h' : id' < 2 ^ 32)
    (heq : a.indexOf id = a.indexOf id') : id = id' := by
  rw [indexOf, indexOf] at heq
  split_ifs at heq
  · exact heq
  · simp only [u32Sub] at heq
    omega

/-! ## Allocation -/

/-- Where `allocate_contiguous` hands out a block: inside the allocator, before a set index, or at
    the end of the set indices, when the check of the last hole passed. -/
def Placed (a : IdAllocator) (count : ℕ) (miss : ℕ → ℕ → ℕ) (b : ℕ) : Prop :=
  b + count ≤ a.size ∨ FitsBefore a.pj1Array b count ∨
    2 ≤ count ∧ IsEnd a.pj1Array b ∧ count ≤ u64Sub a.size (miss 0 b) ∧
      (∃ h < b, h ∉ a.pj1Array) ∧ ∀ b', ¬ FitsBefore a.pj1Array b' count

/-- The search for the first free index, as the call starts. -/
theorem allocateContiguous_eq (hm : a.pj1Array.Small) (miss : ℕ → ℕ → ℕ) (count : ℕ) :
    ∃ first, first ∉ a.pj1Array ∧ (∀ k < first, k ∈ a.pj1Array) ∧
      ∀ fuel, a.allocateContiguous fuel miss count =
        if first ≥ a.size then some (-1, a)
        else if count = 1 then some (a.returned first, a.setBlock first 1)
        else
          match contiguousLoop a.pj1Array a.size count miss fuel 0 first
            ((a.pj1Array.next first).getD a.size) with
          | none => none
          | some none => some (-1, a)
          | some (some b) =>
            if b > a.size then some (-1, a) else some (a.returned b, a.setBlock b count) := by
  obtain ⟨first, hfirst, -, hle, hfree, hbefore⟩ := Judy1.firstEmpty_spec hm (i := 0) (by omega)
  refine ⟨first, hfree, fun k hk => hbefore k (Nat.zero_le _) hk, fun fuel => ?_⟩
  rw [setBlock_one (by omega)]
  have hget : (if first ≥ a.size then (some first).getD first else first) = first := ite_self _
  unfold allocateContiguous
  rw [hfirst]
  exact congrArg (fun b => if b ≥ a.size then some (-1, a) else if count = 1 then
    some (a.returned b, { a with pj1Array := a.pj1Array.set b }) else
    match contiguousLoop a.pj1Array a.size count miss fuel 0 b ((a.pj1Array.next b).getD a.size) with
    | none => none
    | some none => some (-1, a)
    | some (some b) =>
      if b > a.size then some (-1, a) else some (a.returned b, a.setBlock b count)) hget

/-- The result of a call that asks for `count` ids, by where its search ends; `first` is the first
    free index. -/
inductive Ends (a : IdAllocator) (count : ℕ) (miss : ℕ → ℕ → ℕ) (first : ℕ) :
    ℤ × IdAllocator → Prop
  | full (hfull : a.size ≤ first) : Ends a count miss first (-1, a)
  | one (hlt : first < a.size) (hcount : count = 1) :
      Ends a count miss first (a.returned first, a.setBlock first 1)
  | last (hlt : first < a.size) (hcount : 2 ≤ count) (hlast : ∀ j ∈ a.pj1Array, j < first) :
      Ends a count miss first (if a.size < first + count then (-1, a) else
        (a.returned first, a.setBlock first count))
  | hole (hlt : first < a.size) (hcount : 2 ≤ count) {n : ℕ} (hn : n ∈ a.pj1Array)
      (hfirst : first < n) {out : Option ℕ} (hout : Outcome a.pj1Array a.size count miss first out) :
      Ends a count miss first (out.elim (-1, a) fun b =>
        if b > a.size then (-1, a) else (a.returned b, a.setBlock b count))

/-- Behind the last set index the loop can only stop at once. -/
theorem contiguousLoop_last {m : Judy1} (hm : m.Small) (hsize : size < 2 ^ 31) (hcount : 0 < count)
    {first : ℕ} (hlast : ∀ j ∈ m, j < first) (hlt : first < size) {fuel : ℕ} {out : Option ℕ}
    (hloop : contiguousLoop m size count miss fuel 0 first size = some out) :
    out = if size < first + count then none else some first := by
  have hroom : u64Sub size first = size - first := u64Sub_of_le hlt.le (by omega)
  by_cases hshort : size < first + count
  · rw [if_pos hshort]
    cases out with
    | none => rfl
    | some b =>
        exact absurd hloop (contiguousLoop_stuck_ne_some hm hsize hcount
          (fun j hj => (hlast j hj).trans hlt) (by omega) fuel 0 b)
  · rw [if_neg hshort]
    exact contiguousLoop_exit (by omega) hloop

theorem allocateContiguous_ends (hm : a.pj1Array.Small) (hsize : a.size < 2 ^ 31) (h1 : 1 ≤ count)
    (h255 : count ≤ 255) {fuel : ℕ} {r : ℤ × IdAllocator}
    (hr : a.allocateContiguous fuel miss count = some r) :
    ∃ first, first ∉ a.pj1Array ∧ (∀ k < first, k ∈ a.pj1Array) ∧ Ends a count miss first r := by
  obtain ⟨first, hfree, hbefore, heq⟩ := allocateContiguous_eq hm miss count
  refine ⟨first, hfree, hbefore, ?_⟩
  rw [heq] at hr
  by_cases hfull : first ≥ a.size
  · rw [if_pos hfull, Option.some.injEq] at hr
    exact hr ▸ Ends.full hfull
  rw [if_neg hfull] at hr
  by_cases hone : count = 1
  · rw [if_pos hone, Option.some.injEq] at hr
    exact hr ▸ Ends.one (by omega) hone
  rw [if_neg hone] at hr
  cases hloop : contiguousLoop a.pj1Array a.size count miss fuel 0 first
      ((a.pj1Array.next first).getD a.size) with
  | none => simp [hloop] at hr
  | some out =>
      have hresult : r = out.elim (-1, a) fun b =>
          if b > a.size then (-1, a) else (a.returned b, a.setBlock b count) := by
        cases out with
        | none =>
            simp only [hloop, Option.some.injEq] at hr
            exact hr.symm
        | some b =>
            simp only [hloop] at hr
            rw [Option.elim_some]
            split_ifs at hr ⊢ <;> exact (Option.some.inj hr).symm
      cases hnext : a.pj1Array.next first with
      | none =>
          have hlast := lt_of_next_eq_none hfree hnext
          rw [hnext, Option.getD_none] at hloop
          have hout := contiguousLoop_last hm hsize (by omega) hlast (by omega) hloop
          have hsame : r = if a.size < first + count then (-1, a) else
              (a.returned first, a.setBlock first count) := by
            rw [hresult, hout]
            split_ifs
            · rfl
            · rw [Option.elim_some, if_neg (by omega)]
          exact hsame ▸ Ends.last (by omega) (by omega) hlast
      | some next =>
          have hhole := inHole_of_next hfree hnext
          rw [hnext, Option.getD_some] at hloop
          exact hresult ▸ Ends.hole (by omega) (by omega) hhole.set hhole.lt
            (contiguousLoop_outcome hm h255 hhole hloop)

theorem allocateContiguous_cases (hm : a.pj1Array.Small) (hsize : a.size < 2 ^ 31) (h1 : 1 ≤ count)
    (h255 : count ≤ 255) {fuel : ℕ} {r : ℤ × IdAllocator}
    (hr : a.allocateContiguous fuel miss count = some r) :
    r = (-1, a) ∨ ∃ b, b ≤ a.size ∧ BlockFree a.pj1Array b count ∧ a.Placed count miss b ∧
      r = (a.returned b, a.setBlock b count) := by
  obtain ⟨first, hfree, hbefore, hends⟩ := allocateContiguous_ends hm hsize h1 h255 hr
  cases hends with
  | full => exact Or.inl rfl
  | one hlt hcount =>
      subst hcount
      refine Or.inr ⟨first, hlt.le, fun j hj1 hj2 => ?_, Or.inl hlt, rfl⟩
      obtain rfl : j = first := by omega
      exact hfree
  | last hlt hcount hlast =>
      split_ifs with hshort
      · exact Or.inl rfl
      · refine Or.inr ⟨first, hlt.le, fun j hj1 hj2 hj => ?_, Or.inl (by omega), rfl⟩
        have := hlast j hj
        omega
  | @hole hlt hcount n hn hfirst out hout =>
      cases out with
      | none => exact Or.inl rfl
      | some b =>
          rw [Option.elim_some]
          split_ifs with hbig
          · exact Or.inl rfl
          refine Or.inr ⟨b, by omega, ?_⟩
          rcases hout with ⟨b', hb', hge, hfits, -⟩ | ⟨t, hend, hnofit, hb'⟩
          · obtain rfl := Option.some.inj hb'
            exact ⟨hfits.1, Or.inr (Or.inl hfits), rfl⟩
          · split_ifs at hb' with hmiss
            obtain rfl := Option.some.inj hb'
            have hbfirst : first < b := hfirst.trans (hend.2 n hn)
            refine ⟨fun j hj1 hj2 hj => ?_, Or.inr (Or.inr ⟨hcount, hend, by omega,
              ⟨first, hbfirst, hfree⟩, fun b' hfits => ?_⟩), rfl⟩
            · have := hend.2 j hj
              omega
            · by_cases hbf : first ≤ b'
              · exact hnofit b' hbf hfits
              · exact hfits.1 b' le_rfl (by omega) (hbefore b' (by omega))

/-! ## Step lemmas -/

theorem handsOut_returned {b id : ℕ} (hb : b < 2 ^ 31) (hcount : count ≤ 255) :
    HandsOut (.allocateContiguous count, a.returned b) id ↔
      ∃ i < count, id = a.firstId b + i := by
  simp only [HandsOut, returned_ne hb, ne_eq, not_false_eq_true, true_and]
  refine exists_congr fun i => and_congr_right fun hi => ?_
  rw [returned_add_emod (by omega)]
  exact Nat.cast_inj

theorem handsOut_returned_allocate {b id : ℕ} (hb : b < 2 ^ 31) :
    HandsOut (.allocate, a.returned b % 2 ^ 32) id ↔ ∃ i < 1, id = a.firstId b + i := by
  have hmod := returned_add_emod (a := a) (b := b) (i := 0) (by omega)
  rw [Nat.cast_zero, Int.add_zero, Nat.add_zero] at hmod
  have hfirst : a.firstId b ≤ b + 1 := by
    rw [firstId]
    split_ifs <;> omega
  rw [hmod, HandsOut]
  constructor
  · rintro ⟨-, hid⟩
    exact ⟨0, by omega, by omega⟩
  · rintro ⟨i, hi, rfl⟩
    omega

/-- A request either fails and changes nothing or hands out one free block. -/
theorem request_cases (hm : a.pj1Array.Small) (hsize : a.size < 2 ^ 31) {e : Call × ℤ}
    (hreq : e.1.IsRequest) (hok : e.1.AnyId a miss) {fuel : ℕ}
    (hexec : e.1.exec fuel miss a = some (e.2, a')) :
    (a' = a ∧ ∀ id, ¬ HandsOut e id) ∨ ∃ b, b ≤ a.size ∧
      BlockFree a.pj1Array b e.1.count ∧ a.Placed e.1.count miss b ∧
      a' = a.setBlock b e.1.count ∧ ∀ id, HandsOut e id ↔ ∃ i < e.1.count, id = a.firstId b + i := by
  obtain ⟨call, rc⟩ := e
  cases call with
  | allocate =>
      obtain ⟨r, hr, heq⟩ := Option.map_eq_some_iff.1 hexec
      obtain ⟨rfl, rfl⟩ : r.1 % 2 ^ 32 = rc ∧ r.2 = a' := by simpa using heq
      rcases allocateContiguous_cases hm hsize le_rfl (by omega) hr with rfl | ⟨b, hb, hfree, hp, rfl⟩
      · refine Or.inl ⟨rfl, fun id hid => hid.1 (show (-1 : ℤ) % 2 ^ 32 = 2 ^ 32 - 1 by decide)⟩
      · exact Or.inr ⟨b, hb, hfree, hp, rfl, fun id => handsOut_returned_allocate (by omega)⟩
  | allocateContiguous count =>
      rcases allocateContiguous_cases hm hsize hok.1 hok.2 hexec with heq | ⟨b, hb, hfree, hp, heq⟩
      · obtain ⟨rfl, rfl⟩ := Prod.mk.inj heq
        exact Or.inl ⟨rfl, fun id hid => hid.1 rfl⟩
      · obtain ⟨rfl, rfl⟩ := Prod.mk.inj heq
        exact Or.inr ⟨b, hb, hfree, hp, rfl, fun id => handsOut_returned (by omega) hok.2⟩
  | release id => exact hreq.elim
  | set id => exact hreq.elim

/-- The other calls release or set one id. -/
theorem exec_of_not_request {e : Call × ℤ} (hreq : ¬ e.1.IsRequest) {fuel : ℕ}
    (hexec : e.1.exec fuel miss a = some (e.2, a')) :
    ∃ id, (e = (.release id, 0) ∧ a' = a.release id) ∨ (e = (.set id, 0) ∧ a' = a.set id) := by
  obtain ⟨call, rc⟩ := e
  cases call with
  | allocate => exact (hreq trivial).elim
  | allocateContiguous count => exact (hreq trivial).elim
  | release id =>
      obtain ⟨rfl, rfl⟩ := Prod.mk.inj (Option.some.inj hexec)
      exact ⟨id, Or.inl ⟨rfl, rfl⟩⟩
  | set id =>
      obtain ⟨rfl, rfl⟩ := Prod.mk.inj (Option.some.inj hexec)
      exact ⟨id, Or.inr ⟨rfl, rfl⟩⟩

theorem Call.AnyId.count_le {c : Call} (h : c.AnyId a miss) : c.count ≤ 255 := by
  cases c with
  | allocateContiguous count => exact h.2
  | _ => simp [Call.count]

/-- Every call keeps the parameters and the width of the indices. -/
theorem Wf.step (h : a.Wf size zeroBased) (hsize : size < 2 ^ 31) {e : Call × ℤ}
    (hstep : Step Call.AnyId a e a') : a'.Wf size zeroBased := by
  obtain ⟨miss, hok, fuel, hexec⟩ := hstep
  have hsize' : a.size < 2 ^ 31 := h.size_eq ▸ hsize
  by_cases hreq : e.1.IsRequest
  · have h255 := hok.count_le
    rcases request_cases h.small hsize' hreq hok hexec with ⟨rfl, -⟩ | ⟨b, hb, -, -, rfl, -⟩
    · exact h
    · refine ⟨h.size_eq, h.zeroBased_eq, fun j hj => ?_⟩
      rcases (mem_setBlock (by omega)).1 hj with hj | hj
      · exact h.small j hj
      · omega
  obtain ⟨id, ⟨rfl, rfl⟩ | ⟨rfl, rfl⟩⟩ := exec_of_not_request hreq hexec
  · exact ⟨h.size_eq, h.zeroBased_eq, fun j hj => h.small j (Judy1.mem_unset.1 hj).2⟩
  · refine ⟨h.size_eq, h.zeroBased_eq, fun j hj => ?_⟩
    rcases Judy1.mem_set.1 hj with rfl | hj
    · exact indexOf_lt hok
    · exact h.small j hj

theorem new_wf (size : ℕ) (zeroBased : Bool) : (new size zeroBased).Wf size zeroBased :=
  ⟨rfl, rfl, fun j hj => by cases hj⟩

theorem wf_of_run (hsize : size < 2 ^ 31) {es : List (Call × ℤ)} {a₀ : IdAllocator}
    (hinit : a₀.Wf size zeroBased) (hrun : Run (Step Call.AnyId) a₀ es a) : a.Wf size zeroBased :=
  hrun.invariant (P := fun a => a.Wf size zeroBased) hinit fun _ _ _ h hstep => h.step hsize hstep

/-! ## Exclusivity -/

/-- None of the ids that the call `e` hands out was set in `a`; exactly their indices become set. -/
def HandsOutFresh (a : IdAllocator) (e : Call × ℤ) (a' : IdAllocator) : Prop :=
  (∀ id, HandsOut e id → ¬ a.IsSet id) ∧
    ∀ j, j ∈ a'.pj1Array ↔ j ∈ a.pj1Array ∨ ∃ id, HandsOut e id ∧ a.indexOf id = j

theorem Wf.handsOutFresh (h : a.Wf size zeroBased) (hsize : size < 2 ^ 31) {e : Call × ℤ}
    (hreq : e.1.IsRequest) (hstep : Step Call.AnyId a e a') : HandsOutFresh a e a' := by
  obtain ⟨miss, hok, fuel, hexec⟩ := hstep
  have h255 := hok.count_le
  rcases request_cases h.small (h.size_eq ▸ hsize) hreq hok hexec with
    ⟨rfl, hnone⟩ | ⟨b, hb, hfree, -, rfl, hids⟩
  · exact ⟨fun id hid => absurd hid (hnone id), fun j => ⟨Or.inl, fun hj =>
      hj.resolve_right fun ⟨id, hid, _⟩ => hnone id hid⟩⟩
  have hsize' := h.size_eq
  refine ⟨fun id hid => ?_, fun j => ?_⟩
  · obtain ⟨i, hi, rfl⟩ := (hids id).1 hid
    rw [IsSet, indexOf_firstId (by omega)]
    exact hfree _ (by omega) (by omega)
  · rw [mem_setBlock (by omega)]
    refine or_congr_right ⟨fun hj => ?_, ?_⟩
    · refine ⟨a.firstId b + (j - b), (hids _).2 ⟨j - b, by omega, rfl⟩, ?_⟩
      rw [indexOf_firstId (by omega)]
      omega
    · rintro ⟨id, hid, rfl⟩
      obtain ⟨i, hi, rfl⟩ := (hids id).1 hid
      rw [indexOf_firstId (by omega)]
      omega

theorem Wf.indexOf_eq {a₁ a₂ : IdAllocator} (h₁ : a₁.Wf size zeroBased)
    (h₂ : a₂.Wf size zeroBased) (id : ℕ) : a₁.indexOf id = a₂.indexOf id := by
  rw [indexOf, indexOf, h₁.zeroBased_eq, h₂.zeroBased_eq]

theorem handsOut_isRequest {e : Call × ℤ} {id : ℕ} (h : HandsOut e id) : e.1.IsRequest := by
  obtain ⟨call, rc⟩ := e
  cases call with
  | allocate => trivial
  | allocateContiguous count => trivial
  | release id' => exact h.elim
  | set id' => exact h.elim

theorem Wf.handsOut_lt (h : a.Wf size zeroBased) (hsize : size < 2 ^ 31) {e : Call × ℤ}
    (hstep : Step Call.AnyId a e a') {id : ℕ} (hid : HandsOut e id) : id < 2 ^ 32 := by
  obtain ⟨miss, hok, fuel, hexec⟩ := hstep
  have h255 := hok.count_le
  have hsize' := h.size_eq
  rcases request_cases h.small (h.size_eq ▸ hsize) (handsOut_isRequest hid) hok hexec with
    ⟨rfl, hnone⟩ | ⟨b, hb, hfree, -, rfl, hids⟩
  · exact absurd hid (hnone id)
  · obtain ⟨i, hi, rfl⟩ := (hids id).1 hid
    rw [firstId]
    split_ifs <;> omega

/-- An id stays set until it is released. -/
theorem Wf.isSet_step (h : a.Wf size zeroBased) (hsize : size < 2 ^ 31) {e : Call × ℤ}
    (hstep : Step Call.AnyId a e a') {id : ℕ} (hid : id < 2 ^ 32) (hset : a.IsSet id)
    (hkeep : ¬ Releases e id) : a'.IsSet id := by
  have h' := h.step hsize hstep
  rw [IsSet, h'.indexOf_eq h]
  by_cases hreq : e.1.IsRequest
  · exact ((h.handsOutFresh hsize hreq hstep).2 _).2 (Or.inl hset)
  obtain ⟨miss, hok, fuel, hexec⟩ := hstep
  obtain ⟨id', ⟨rfl, rfl⟩ | ⟨rfl, rfl⟩⟩ := exec_of_not_request hreq hexec
  · exact Judy1.mem_unset.2 ⟨fun heq => hkeep (indexOf_injective hid hok heq).symm, hset⟩
  · exact Judy1.mem_set.2 (Or.inr hset)

theorem Wf.isSet_run (h : a.Wf size zeroBased) (hsize : size < 2 ^ 31) {es : List (Call × ℤ)}
    (hrun : Run (Step Call.AnyId) a es a') {id : ℕ} (hid : id < 2 ^ 32) (hset : a.IsSet id)
    (hkeep : ∀ e ∈ es, ¬ Releases e id) : a'.IsSet id := by
  induction hrun with
  | nil => exact hset
  | snoc hinit hlast ih =>
      refine (wf_of_run hsize h hinit).isSet_step hsize hlast hid (ih fun e he => ?_) (hkeep _ ?_)
      · exact hkeep e (List.mem_append_left _ he)
      · exact List.mem_append_right _ (List.mem_singleton_self _)

/-- In every run, whatever failed searches leave behind and with any ids set and released: a request
    hands out ids that are not set and sets exactly these, and an id handed out is not handed out
    again before it is released. -/
theorem exclusive_of_run (hsize : size < 2 ^ 31) {es : List (Call × ℤ)}
    (hrun : Run (Step Call.AnyId) (new size zeroBased) es a) :
    (∀ e a', Step Call.AnyId a e a' → e.1.IsRequest → HandsOutFresh a e a') ∧
      ∀ pre e mid e' post id, es = pre ++ e :: (mid ++ e' :: post) → HandsOut e id →
        (∀ x ∈ mid, ¬ Releases x id) → ¬ HandsOut e' id := by
  have hinit := new_wf size zeroBased
  refine ⟨fun e a' hstep hreq => (wf_of_run hsize hinit hrun).handsOutFresh hsize hreq hstep, ?_⟩
  rintro pre e mid e' post id rfl hid hkeep hid'
  obtain ⟨b, hpre, hrest⟩ := hrun.split
  obtain ⟨c, hstep, hrest⟩ := hrest.head
  obtain ⟨d, hmid, hrest⟩ := hrest.split
  obtain ⟨d', hstep', -⟩ := hrest.head
  have hb := wf_of_run hsize hinit hpre
  have hc := hb.step hsize hstep
  have hlt := hb.handsOut_lt hsize hstep hid
  have hfresh := hb.handsOutFresh hsize (handsOut_isRequest hid) hstep
  have hset : c.IsSet id := (hfresh.2 _).2 (Or.inr ⟨id, hid, hb.indexOf_eq hc id⟩)
  have hstill := hc.isSet_run hsize hmid hlt hset hkeep
  exact ((wf_of_run hsize hc hmid).handsOutFresh hsize (handsOut_isRequest hid') hstep').1 id hid'
    hstill

/-- Id 0 allocated while id 1 is set. -/
theorem exclusive_of_run_set : HandsOutFresh ((new 4 true).set 1) (.allocate, 0)
    (((new 4 true).set 1).set 0) := by
  have hset : Step Call.AnyId (new 4 true) (.set 1, 0) ((new 4 true).set 1) :=
    ⟨fun _ i => i, show 1 < 2 ^ 32 by decide, 0, rfl⟩
  have hallocate : Step Call.AnyId ((new 4 true).set 1) (.allocate, 0)
      (((new 4 true).set 1).set 0) :=
    ⟨fun _ i => i, trivial, 0, by decide +kernel⟩
  exact (exclusive_of_run (by decide : 4 < 2 ^ 31) (Run.nil.snoc hset)).1 _ _ hallocate trivial

end IdAllocator
