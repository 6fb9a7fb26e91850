import Mathlib.Data.Nat.Log
import Mathlib.Data.Nat.Find
import Mathlib.Data.List.Infix
import Mathlib.Data.List.Pairwise
import Mathlib.Algebra.Order.Ring.Nat

set_option autoImplicit false

/-! # Greedy decomposition of an interval into aligned chunks

`greedyChunks L i n` cuts `[i, i + n)` from the left into chunks. The chunk at an index has the
greatest class `c ≤ L` such that `2 ^ c` divides the index and `c` does not exceed the ceiling
logarithm of what is left; it takes `2 ^ c` indices, or everything that is left if that is less.

Although the class at an index depends on the length remaining to the right, the decomposition is
local: cutting `[i, i + n)` at a point that inherits the small divisibilities of every index before
it splits the decomposition (`greedyChunks_append`), and shortening the interval to a point inside a
chunk leaves every earlier chunk in place (`greedyChunks_split`). -/

/-- A chunk `[start, start + len)` filed under size class `cls`. -/
structure Chunk where
  cls : ℕ
  start : ℕ
  len : ℕ
deriving DecidableEq

/-- One past the last index of the chunk. -/
def Chunk.stop (x : Chunk) : ℕ := x.start + x.len

/-- The class of the chunk at index `i` when `n` indices are left. -/
def greedyClass (L i n : ℕ) : ℕ := Nat.findGreatest (fun c => 2 ^ c ∣ i) (min (Nat.clog 2 n) L)

theorem le_greedyClass_iff {L i n c : ℕ} :
    c ≤ greedyClass L i n ↔ c ≤ Nat.clog 2 n ∧ c ≤ L ∧ 2 ^ c ∣ i := by
  rw [greedyClass]
  constructor
  · intro h
    have hbound := h.trans (Nat.findGreatest_le (P := fun c => 2 ^ c ∣ i) (min (Nat.clog 2 n) L))
    have hdvd : 2 ^ Nat.findGreatest (fun c => 2 ^ c ∣ i) (min (Nat.clog 2 n) L) ∣ i :=
      Nat.findGreatest_spec (P := fun c => 2 ^ c ∣ i) (Nat.zero_le _) (by simp)
    exact ⟨hbound.trans (min_le_left _ _), hbound.trans (min_le_right _ _),
      (Nat.pow_dvd_pow 2 h).trans hdvd⟩
  · rintro ⟨h1, h2, h3⟩
    exact Nat.le_findGreatest (le_min h1 h2) h3

theorem greedyClass_le_cap (L i n : ℕ) : greedyClass L i n ≤ L :=
  (le_greedyClass_iff.1 le_rfl).2.1

theorem pow_greedyClass_dvd (L i n : ℕ) : 2 ^ greedyClass L i n ∣ i :=
  (le_greedyClass_iff.1 le_rfl).2.2

theorem pow_greedyClass_lt_two_mul {L i n : ℕ} (hn : 0 < n) : 2 ^ greedyClass L i n < 2 * n := by
  have hle : greedyClass L i n ≤ Nat.clog 2 n := (le_greedyClass_iff.1 le_rfl).1
  by_cases h0 : greedyClass L i n = 0
  · rw [h0]
    omega
  · obtain ⟨c, hc⟩ := Nat.exists_eq_succ_of_ne_zero h0
    have hlt : 2 ^ c < n := (Nat.lt_clog_iff_pow_lt (by omega)).1 (by omega)
    rw [hc, Nat.pow_succ]
    omega

/-- The chunks of `[i, i + n)` from left to right. -/
def greedyChunks (L i n : ℕ) : List Chunk :=
  if n = 0 then []
  else
    let m := min n (2 ^ greedyClass L i n)
    ⟨greedyClass L i n, i, m⟩ :: greedyChunks L (i + m) (n - m)
termination_by n
decreasing_by
  have hpow : 0 < 2 ^ greedyClass L i n := Nat.pow_pos (by omega)
  omega

@[simp] theorem greedyChunks_zero (L i : ℕ) : greedyChunks L i 0 = [] := by
  rw [greedyChunks, if_pos rfl]

theorem greedyChunks_of_pos {L i n : ℕ} (hn : 0 < n) :
    greedyChunks L i n =
      ⟨greedyClass L i n, i, min n (2 ^ greedyClass L i n)⟩ ::
        greedyChunks L (i + min n (2 ^ greedyClass L i n))
          (n - min n (2 ^ greedyClass L i n)) := by
  rw [greedyChunks, if_neg (by omega)]

/-! ## Shape of the chunks -/

/-- A chunk starts at a multiple of `2 ^ cls` and has a length in `(2 ^ (cls - 1), 2 ^ cls]`. -/
structure Chunk.Aligned (L : ℕ) (x : Chunk) : Prop where
  cls_le : x.cls ≤ L
  dvd : 2 ^ x.cls ∣ x.start
  lt_len : 2 ^ x.cls < 2 * x.len
  len_le : x.len ≤ 2 ^ x.cls

theorem Chunk.Aligned.len_pos {L : ℕ} {x : Chunk} (h : x.Aligned L) : 0 < x.len := by
  have hpow : 0 < 2 ^ x.cls := Nat.pow_pos (by omega)
  have hlt := h.lt_len
  omega

/-- What every chunk of `[i, i + n)` satisfies. -/
theorem mem_greedyChunks {L i n : ℕ} {x : Chunk} (hx : x ∈ greedyChunks L i n) :
    x.Aligned L ∧ i ≤ x.start ∧ x.stop ≤ i + n ∧ (x.len = 2 ^ x.cls ∨ x.stop = i + n) := by
  induction n using Nat.strongRecOn generalizing i with
  | ind n ih =>
      rcases Nat.eq_zero_or_pos n with rfl | hn
      · simp at hx
      · rw [greedyChunks_of_pos hn] at hx
        have hpow : 0 < 2 ^ greedyClass L i n := Nat.pow_pos (by omega)
        have hlt := pow_greedyClass_lt_two_mul (L := L) (i := i) hn
        rcases List.mem_cons.1 hx with rfl | hx
        · refine ⟨⟨greedyClass_le_cap .., pow_greedyClass_dvd .., ?_, ?_⟩, le_rfl, ?_, ?_⟩ <;>
            simp only [Chunk.stop] <;> omega
        · obtain ⟨haligned, hstart, hstop, hfull⟩ := ih _ (by omega) hx
          refine ⟨haligned, by omega, by omega, ?_⟩
          rcases hfull with hfull | hfull
          · exact Or.inl hfull
          · exact Or.inr (by omega)

/-- Every chunk has the class chosen greedily at its start. -/
theorem cls_of_mem_greedyChunks {L i n : ℕ} {x : Chunk} (hx : x ∈ greedyChunks L i n) :
    x.cls = greedyClass L x.start (i + n - x.start) := by
  induction n using Nat.strongRecOn generalizing i with
  | ind n ih =>
      rcases Nat.eq_zero_or_pos n with rfl | hn
      · simp at hx
      · rw [greedyChunks_of_pos hn] at hx
        have hpow : 0 < 2 ^ greedyClass L i n := Nat.pow_pos (by omega)
        rcases List.mem_cons.1 hx with rfl | hx
        · rw [Nat.add_sub_cancel_left]
        · rw [ih _ (by omega) hx]
          congr 1
          omega

theorem greedyChunks_pairwise (L i n : ℕ) :
    (greedyChunks L i n).Pairwise (fun x y => x.stop ≤ y.start) := by
  induction n using Nat.strongRecOn generalizing i with
  | ind n ih =>
      rcases Nat.eq_zero_or_pos n with rfl | hn
      · simp
      · rw [greedyChunks_of_pos hn]
        have hpow : 0 < 2 ^ greedyClass L i n := Nat.pow_pos (by omega)
        refine List.pairwise_cons.2 ⟨fun y hy => (mem_greedyChunks hy).2.1, ih _ (by omega) _⟩

theorem greedyChunks_cover {L i n j : ℕ} (h1 : i ≤ j) (h2 : j < i + n) :
    ∃ x ∈ greedyChunks L i n, x.start ≤ j ∧ j < x.stop := by
  induction n using Nat.strongRecOn generalizing i with
  | ind n ih =>
      have hn : 0 < n := by omega
      have hpow : 0 < 2 ^ greedyClass L i n := Nat.pow_pos (by omega)
      rw [greedyChunks_of_pos hn]
      by_cases hj : j < i + min n (2 ^ greedyClass L i n)
      · exact ⟨_, List.mem_cons_self .., h1, hj⟩
      · obtain ⟨x, hx, hxj⟩ := ih (n - min n (2 ^ greedyClass L i n)) (by omega)
          (i := i + min n (2 ^ greedyClass L i n)) (by omega) (by omega)
        exact ⟨x, List.mem_cons_of_mem _ hx, hxj⟩

/-- Two chunks that share an index are the same. -/
theorem greedyChunks_unique {L i n j : ℕ} {x y : Chunk} (hx : x ∈ greedyChunks L i n)
    (hy : y ∈ greedyChunks L i n) (hxj : x.start ≤ j ∧ j < x.stop)
    (hyj : y.start ≤ j ∧ j < y.stop) : x = y := by
  by_contra hne
  have hpair := (greedyChunks_pairwise L i n).imp
    (S := fun a b : Chunk => a.stop ≤ b.start ∨ b.stop ≤ a.start) (fun h => Or.inl h)
  have : Std.Symm (fun a b : Chunk => a.stop ≤ b.start ∨ b.stop ≤ a.start) :=
    ⟨fun _ _ h => h.symm⟩
  rcases hpair.forall hx hy hne with h | h <;> omega

/-- A chunk occurs once. -/
theorem notMem_of_greedyChunks_eq {L i n : ℕ} {x : Chunk} {pre post : List Chunk}
    (h : greedyChunks L i n = pre ++ x :: post) : x ∉ pre ∧ x ∉ post := by
  have hx : x ∈ greedyChunks L i n := by simp [h]
  have hpos := (mem_greedyChunks hx).1.len_pos
  have hpair := greedyChunks_pairwise L i n
  rw [h, List.pairwise_append, List.pairwise_cons] at hpair
  obtain ⟨-, ⟨hafter, -⟩, hbefore⟩ := hpair
  constructor
  · intro hmem
    have := hbefore x hmem x (List.mem_cons_self ..)
    rw [Chunk.stop] at this
    omega
  · intro hmem
    have := hafter x hmem
    rw [Chunk.stop] at this
    omega

/-- The chunks lie one after the other from `i` to `e`. -/
def Tiles : ℕ → ℕ → List Chunk → Prop
  | i, e, [] => i = e
  | i, e, x :: rest => x.start = i ∧ Tiles x.stop e rest

theorem greedyChunks_tiles (L i n : ℕ) : Tiles i (i + n) (greedyChunks L i n) := by
  induction n using Nat.strongRecOn generalizing i with
  | ind n ih =>
      rcases Nat.eq_zero_or_pos n with rfl | hn
      · simp [Tiles]
      · have hpow : 0 < 2 ^ greedyClass L i n := Nat.pow_pos (by omega)
        have htail := ih (n - min n (2 ^ greedyClass L i n)) (by omega)
          (i + min n (2 ^ greedyClass L i n))
        rw [show i + min n (2 ^ greedyClass L i n) + (n - min n (2 ^ greedyClass L i n)) = i + n by
          omega] at htail
        rw [greedyChunks_of_pos hn]
        exact ⟨rfl, htail⟩

/-- Every chunk but the last is full. -/
theorem full_of_mem_dropLast {L i n : ℕ} {x : Chunk} (hx : x ∈ (greedyChunks L i n).dropLast) :
    x.len = 2 ^ x.cls := by
  have hmem := List.mem_of_mem_dropLast hx
  have hne := List.ne_nil_of_mem hmem
  rcases (mem_greedyChunks hmem).2.2.2 with hfull | hstop
  · exact hfull
  · -- the last chunk ends after `x`
    obtain ⟨hlast, -, hle, -⟩ := mem_greedyChunks (List.getLast_mem hne)
    have hpos := hlast.len_pos
    have hpair := greedyChunks_pairwise L i n
    rw [← List.dropLast_concat_getLast hne, List.pairwise_append] at hpair
    have hlt := hpair.2.2 x hx _ (List.mem_singleton_self _)
    rw [Chunk.stop] at hle
    omega

/-! ## Cutting a decomposition in two -/

/-- If every small power of two dividing an index before `d` divides `d`, the chunks before `d` do
    not depend on what follows, and a chunk boundary falls on `d`. -/
theorem greedyChunks_append {L i e d : ℕ} (hd : i ≤ d) (he : d ≤ e)
    (hdvd : ∀ j, i ≤ j → j < d → ∀ c ≤ L, 2 ^ c ∣ j → 2 ^ c ∣ d) :
    greedyChunks L i (e - i) = greedyChunks L i (d - i) ++ greedyChunks L d (e - d) := by
  obtain ⟨m, hm⟩ : ∃ m, m = d - i := ⟨_, rfl⟩
  induction m using Nat.strongRecOn generalizing i with
  | ind m ih =>
      rcases Nat.eq_zero_or_pos m with h0 | hpos
      · have hid : i = d := by omega
        subst hid
        simp
      · have hleft : 0 < d - i := by omega
        have hright : 0 < e - i := by omega
        obtain ⟨c, hc⟩ : ∃ c, c = greedyClass L i (e - i) := ⟨_, rfl⟩
        have hcL : c ≤ L := hc ▸ greedyClass_le_cap ..
        have hci : 2 ^ c ∣ i := hc ▸ pow_greedyClass_dvd ..
        have hcd : 2 ^ c ≤ d - i :=
          Nat.le_of_dvd hleft (Nat.dvd_sub (hdvd i le_rfl (by omega) c hcL hci) hci)
        -- the class at `i` is the same with the shorter remainder
        have hclass : greedyClass L i (d - i) = c := by
          apply le_antisymm
          · have hmono : Nat.clog 2 (d - i) ≤ Nat.clog 2 (e - i) :=
              Nat.clog_mono_right 2 (by omega)
            obtain ⟨h1, h2, h3⟩ := le_greedyClass_iff.1 (le_refl (greedyClass L i (d - i)))
            exact hc ▸ le_greedyClass_iff.2 ⟨h1.trans hmono, h2, h3⟩
          · refine le_greedyClass_iff.2 ⟨?_, hcL, hci⟩
            rw [← Nat.pow_le_pow_iff_right (a := 2) (by omega)]
            exact hcd.trans (Nat.le_pow_clog (by omega) _)
        have hpow : 0 < 2 ^ c := Nat.pow_pos (by omega)
        have hih := ih (d - (i + 2 ^ c)) (by omega) (i := i + 2 ^ c) (by omega)
          (fun j h1 h2 => hdvd j (by omega) h2) rfl
        rw [greedyChunks_of_pos hright, greedyChunks_of_pos hleft, hclass, ← hc,
          min_eq_right hcd, min_eq_right (by omega : 2 ^ c ≤ e - i), List.cons_append,
          show e - i - 2 ^ c = e - (i + 2 ^ c) by omega,
          show d - i - 2 ^ c = d - (i + 2 ^ c) by omega, hih]

/-- Multiples of the largest chunk length are chunk boundaries. -/
theorem greedyChunks_append_of_dvd {L i e d : ℕ} (hd : i ≤ d) (he : d ≤ e) (hdvd : 2 ^ L ∣ d) :
    greedyChunks L i (e - i) = greedyChunks L i (d - i) ++ greedyChunks L d (e - d) :=
  greedyChunks_append hd he fun _ _ _ _ hc _ => (Nat.pow_dvd_pow 2 hc).trans hdvd

/-- An aligned interval of the largest chunk length is one chunk. -/
theorem greedyChunks_pow {L i : ℕ} (hi : 2 ^ L ∣ i) : greedyChunks L i (2 ^ L) = [⟨L, i, 2 ^ L⟩] := by
  have hclass : greedyClass L i (2 ^ L) = L :=
    le_antisymm (greedyClass_le_cap ..)
      (le_greedyClass_iff.2 ⟨(Nat.clog_pow 2 L (by omega)).ge, le_rfl, hi⟩)
  rw [greedyChunks_of_pos (Nat.pow_pos (by omega)), hclass, min_self, Nat.sub_self, greedyChunks_zero]

/-- An interval of `n` times the largest chunk length from 0 on is cut into `n` equal chunks. -/
theorem greedyChunks_mul (L n : ℕ) :
    greedyChunks L 0 (2 ^ L * n) = (List.range n).map fun i => ⟨L, 2 ^ L * i, 2 ^ L⟩ := by
  induction n with
  | zero => simp
  | succ n ih =>
      have happend := greedyChunks_append_of_dvd (L := L) (i := 0) (e := 2 ^ L * n + 2 ^ L)
        (d := 2 ^ L * n) (Nat.zero_le _) (Nat.le_add_right ..) (Nat.dvd_mul_right ..)
      rw [Nat.sub_zero, Nat.sub_zero, Nat.add_sub_cancel_left] at happend
      rw [Nat.mul_succ, happend, ih, greedyChunks_pow (Nat.dvd_mul_right ..), List.range_succ,
        List.map_append]
      rfl

/-- Inside a full aligned chunk the decomposition runs up to the end of the chunk. -/
theorem greedyChunks_append_stop {L e b : ℕ} {x : Chunk} (hx : x.Aligned L) (hb : x.start < b)
    (hb' : b ≤ x.stop) (he : x.stop ≤ e) (hfull : x.len = 2 ^ x.cls ∨ x.stop = e) :
    greedyChunks L b (e - b) = greedyChunks L b (x.stop - b) ++ greedyChunks L x.stop (e - x.stop) := by
  rcases hfull with hfull | rfl
  · refine greedyChunks_append hb' he fun j hj hjs c _ hcj => ?_
    have hstop : 2 ^ x.cls ∣ x.stop := by
      rw [Chunk.stop, hfull]
      exact Nat.dvd_add hx.dvd (dvd_refl _)
    -- an index strictly inside the chunk is not divisible by `2 ^ cls`
    by_cases hc : c ≤ x.cls
    · exact (Nat.pow_dvd_pow 2 hc).trans hstop
    · have hdvd : 2 ^ x.cls ∣ j := (Nat.pow_dvd_pow 2 (by omega)).trans hcj
      have hle : 2 ^ x.cls ≤ j - x.start := Nat.le_of_dvd (by omega) (Nat.dvd_sub hdvd hx.dvd)
      rw [Chunk.stop] at hjs
      omega
  · simp

/-- Shortening the interval to a point of a chunk keeps every chunk before it. -/
theorem greedyChunks_split {L i n : ℕ} {x : Chunk} (hx : x ∈ greedyChunks L i n) :
    ∃ pre, greedyChunks L i n = pre ++ x :: greedyChunks L x.stop (i + n - x.stop) ∧
      ∀ a, x.start ≤ a → a ≤ x.stop →
        greedyChunks L i (a - i) = pre ++ greedyChunks L x.start (a - x.start) := by
  induction n using Nat.strongRecOn generalizing i with
  | ind n ih =>
      rcases Nat.eq_zero_or_pos n with rfl | hn
      · simp at hx
      · have hpow : 0 < 2 ^ greedyClass L i n := Nat.pow_pos (by omega)
        obtain ⟨c, hc⟩ : ∃ c, c = greedyClass L i n := ⟨_, rfl⟩
        rw [greedyChunks_of_pos hn, ← hc] at hx ⊢
        rw [← hc] at hpow
        rcases List.mem_cons.1 hx with rfl | hx
        · refine ⟨[], ?_, fun a _ _ => rfl⟩
          simp only [Chunk.stop, List.nil_append]
          rw [show i + n - (i + min n (2 ^ c)) = n - min n (2 ^ c) by omega]
        · -- a chunk that is not the last one is full
          have hm : min n (2 ^ c) = 2 ^ c := by
            rcases Nat.le_total (2 ^ c) n with h | h
            · exact min_eq_right h
            · rw [min_eq_left h, Nat.sub_self, greedyChunks_zero] at hx
              cases hx
          rw [hm] at hx ⊢
          obtain ⟨_, hstart, hstop, -⟩ := mem_greedyChunks hx
          obtain ⟨pre, hpre, hcut⟩ := ih (n - 2 ^ c) (by omega) hx
          have hle : 2 ^ c ≤ n := min_eq_right_iff.1 hm
          refine ⟨⟨c, i, 2 ^ c⟩ :: pre, ?_, fun a h1 h2 => ?_⟩
          · rw [hpre, show i + 2 ^ c + (n - 2 ^ c) = i + n by omega, List.cons_append]
          · have hleft : 0 < a - i := by omega
            have hclass : greedyClass L i (a - i) = c := by
              obtain ⟨-, hcL, hci⟩ := le_greedyClass_iff.1 hc.le
              have hmono : Nat.clog 2 (a - i) ≤ Nat.clog 2 n := by
                rw [Chunk.stop] at *
                exact Nat.clog_mono_right 2 (by omega)
              apply le_antisymm
              · obtain ⟨h3, h4, h5⟩ := le_greedyClass_iff.1 (le_refl (greedyClass L i (a - i)))
                exact hc ▸ le_greedyClass_iff.2 ⟨h3.trans hmono, h4, h5⟩
              · refine le_greedyClass_iff.2 ⟨?_, hcL, hci⟩
                rw [← Nat.pow_le_pow_iff_right (a := 2) (by omega)]
                exact (by omega : 2 ^ c ≤ a - i).trans (Nat.le_pow_clog (by omega) _)
            rw [greedyChunks_of_pos hleft, hclass, min_eq_right (by omega),
              show a - i - 2 ^ c = a - (i + 2 ^ c) by omega, hcut a h1 h2, List.cons_append]

/-- Cutting the interval at `a` or at `b`, both within a chunk, only changes that chunk. -/
theorem greedyChunks_cut {L i n a b : ℕ} {x : Chunk} {pre post : List Chunk}
    (h : greedyChunks L i n = pre ++ x :: post) (ha : x.start ≤ a) (hab : a < b) (hb : b ≤ x.stop) :
    greedyChunks L i (a - i) = pre ++ greedyChunks L x.start (a - x.start) ∧
      greedyChunks L b (i + n - b) = greedyChunks L b (x.stop - b) ++ post := by
  have hx : x ∈ greedyChunks L i n := by simp [h]
  obtain ⟨haligned, -, hstop, hfull⟩ := mem_greedyChunks hx
  obtain ⟨pre', hpre, hcut⟩ := greedyChunks_split hx
  obtain ⟨hbefore, hafter⟩ := notMem_of_greedyChunks_eq h
  -- `x` occurs once, so what is before it is `pre`, and what is after it `post`
  obtain ⟨rfl, -, rfl⟩ := (List.append_cons_inj_of_notMem hbefore hafter).1 (h.symm.trans hpre)
  exact ⟨hcut a ha (by omega),
    greedyChunks_append_stop haligned (by omega) hb hstop hfull⟩

/-- Taking `[a, b)` out of a chunk only replaces that chunk by the decompositions of what is left
    of it. -/
theorem mem_greedyChunks_hole {L i n a b : ℕ} {x : Chunk} (hx : x ∈ greedyChunks L i n)
    (ha : x.start ≤ a) (hab : a < b) (hb : b ≤ x.stop) (y : Chunk) :
    (y ∈ greedyChunks L i (a - i) ∨ y ∈ greedyChunks L b (i + n - b)) ↔
      (y ∈ greedyChunks L i n ∧ y ≠ x) ∨ y ∈ greedyChunks L x.start (a - x.start) ∨
        y ∈ greedyChunks L b (x.stop - b) := by
  obtain ⟨pre, hpre, -⟩ := greedyChunks_split hx
  obtain ⟨hleft, hright⟩ := greedyChunks_cut hpre ha hab hb
  have hnodup := notMem_of_greedyChunks_eq hpre
  rw [hleft, hright, hpre]
  simp only [List.mem_append, List.mem_cons]
  constructor
  · rintro ((h | h) | (h | h))
    · exact Or.inl ⟨Or.inl h, fun he => hnodup.1 (he ▸ h)⟩
    · exact Or.inr (Or.inl h)
    · exact Or.inr (Or.inr h)
    · exact Or.inl ⟨Or.inr (Or.inr h), fun he => hnodup.2 (he ▸ h)⟩
  · rintro (⟨h | h | h, hne⟩ | h | h)
    · exact Or.inl (Or.inl h)
    · exact absurd h hne
    · exact Or.inr (Or.inr h)
    · exact Or.inl (Or.inr h)
    · exact Or.inr (Or.inl h)
