import TargetUtils.Library.GreedyChunks
import Mathlib.Order.Interval.Set.Defs
import Mathlib.Data.Set.Basic

set_option autoImplicit false

/-! # Maximal gaps of a set of indices and their canonical chunks

A free set `F` of indices splits into maximal gaps (`IsGap`), and decomposing every gap greedily
gives the set of chunks `canonicalChunks L F`, a function of `F` alone. The two ways in which an
allocator edits its chunks compute it:

* taking `[a, b)` out of a gap exchanges the chunks of the whole gap for those of the two remainders
  (`mem_canonicalChunks_diff`), and giving it back is the inverse exchange
  (`mem_canonicalChunks_union`);
* taking `[a, b)` out of a single chunk exchanges that chunk only (`mem_canonicalChunks_hole`). -/

/-- `[g, e)` is a maximal run of elements of `F`. -/
structure IsGap (F : Set ℕ) (g e : ℕ) : Prop where
  lt : g < e
  subset : ∀ j, g ≤ j → j < e → j ∈ F
  left : ∀ j, j + 1 = g → j ∉ F
  right : e ∉ F

/-- The chunks of the greedy decompositions of all maximal gaps of `F`. -/
def canonicalChunks (L : ℕ) (F : Set ℕ) : Set Chunk :=
  {x | ∃ g e, IsGap F g e ∧ x ∈ greedyChunks L g (e - g)}

variable {F : Set ℕ} {g e : ℕ}

/-! ## Gaps -/

/-- A run of `F` that meets a gap lies inside it. -/
theorem IsGap.run_subset (h : IsGap F g e) {p q : ℕ} (hrun : ∀ j, p ≤ j → j < q → j ∈ F)
    (hpe : p < e) (hgq : g < q) : g ≤ p ∧ q ≤ e := by
  constructor
  · by_contra hlt
    exact h.left (g - 1) (by omega) (hrun (g - 1) (by omega) (by omega))
  · by_contra hlt
    exact h.right (hrun e hpe.le (by omega))

theorem IsGap.unique (h : IsGap F g e) {g' e' : ℕ} (h' : IsGap F g' e') (h1 : g' < e)
    (h2 : g < e') : g' = g ∧ e' = e := by
  have hin := h.run_subset h'.subset h1 h2
  have hout := h'.run_subset h.subset h2 h1
  omega

/-- The left end of the run of `F` that ends before `j`. -/
theorem exists_gap_left (F : Set ℕ) (j : ℕ) :
    ∃ g ≤ j, (∀ i, g ≤ i → i < j → i ∈ F) ∧ ∀ i, i + 1 = g → i ∉ F := by
  induction j with
  | zero => exact ⟨0, le_rfl, fun i _ h => absurd h (by omega), fun i h => absurd h (by omega)⟩
  | succ j ih =>
      by_cases hj : j ∈ F
      · obtain ⟨g, hg, hrun, hleft⟩ := ih
        refine ⟨g, by omega, fun i h1 h2 => ?_, hleft⟩
        rcases Nat.lt_succ_iff_lt_or_eq.1 h2 with h | rfl
        · exact hrun i h1 h
        · exact hj
      · refine ⟨j + 1, le_rfl, fun i h1 h2 => absurd h2 (by omega), fun i h => ?_⟩
        obtain rfl : i = j := by omega
        exact hj

/-- The right end of the run of `F` that starts at `j`, for a bounded `F`. -/
theorem exists_gap_right {total : ℕ} (hF : ∀ j ∈ F, j < total) (j : ℕ) :
    ∃ e ≥ j, (∀ i, j ≤ i → i < e → i ∈ F) ∧ e ∉ F := by
  obtain ⟨n, hn⟩ : ∃ n, n = total - j := ⟨_, rfl⟩
  induction n generalizing j with
  | zero =>
      exact ⟨j, le_rfl, fun i h1 h2 => absurd h2 (by omega), fun h => absurd (hF j h) (by omega)⟩
  | succ n ih =>
      by_cases hj : j ∈ F
      · obtain ⟨e, he, hrun, hright⟩ := ih (j + 1) (by omega)
        refine ⟨e, by omega, fun i h1 h2 => ?_, hright⟩
        rcases Nat.eq_or_lt_of_le h1 with rfl | h
        · exact hj
        · exact hrun i h h2
      · exact ⟨j, le_rfl, fun i h1 h2 => absurd h2 (by omega), hj⟩

/-- In a bounded set every run lies in a gap. -/
theorem exists_gap {total : ℕ} (hF : ∀ j ∈ F, j < total) {p q : ℕ} (hpq : p < q)
    (hrun : ∀ j, p ≤ j → j < q → j ∈ F) : ∃ g e, IsGap F g e ∧ g ≤ p ∧ q ≤ e := by
  obtain ⟨g, hg, hgrun, hleft⟩ := exists_gap_left F p
  obtain ⟨e, he, herun, hright⟩ := exists_gap_right hF q
  refine ⟨g, e, ⟨by omega, fun j h1 h2 => ?_, hleft, hright⟩, hg, he⟩
  by_cases hjp : j < p
  · exact hgrun j h1 hjp
  · by_cases hjq : j < q
    · exact hrun j (by omega) hjq
    · exact herun j (by omega) h2

/-- The gaps left after taking `[a, b)` out of the gap `[g, e)`. -/
theorem isGap_diff (h : IsGap F g e) {a b : ℕ} (hga : g ≤ a) (hab : a < b) (hbe : b ≤ e)
    (p q : ℕ) :
    IsGap (F \ Set.Ico a b) p q ↔
      (IsGap F p q ∧ ¬ (p < e ∧ g < q)) ∨ (p = g ∧ q = a ∧ g < a) ∨ (p = b ∧ q = e ∧ b < e) := by
  have hmem : ∀ j, j ∈ F \ Set.Ico a b ↔ j ∈ F ∧ ¬ (a ≤ j ∧ j < b) := fun j => by
    rw [Set.mem_sdiff, Set.mem_Ico]
  constructor
  · intro hpq
    have hrun : ∀ j, p ≤ j → j < q → j ∈ F := fun j h1 h2 => ((hmem j).1 (hpq.subset j h1 h2)).1
    have hout : ∀ j, p ≤ j → j < q → ¬ (a ≤ j ∧ j < b) := fun j h1 h2 =>
      ((hmem j).1 (hpq.subset j h1 h2)).2
    have hlt := hpq.lt
    by_cases hmeet : p < e ∧ g < q
    · obtain ⟨hgp, hqe⟩ := h.run_subset hrun hmeet.1 hmeet.2
      have hside : q ≤ a ∨ b ≤ p := by
        by_contra hcon
        exact hout (max p a) (by omega) (by omega) (by omega)
      rcases hside with hqa | hbp
      · refine Or.inr (Or.inl ⟨?_, ?_, by omega⟩)
        · by_contra hne
          exact hpq.left (p - 1) (by omega)
            ((hmem _).2 ⟨h.subset _ (by omega) (by omega), by omega⟩)
        · by_contra hne
          exact hpq.right ((hmem _).2 ⟨h.subset _ (by omega) (by omega), by omega⟩)
      · refine Or.inr (Or.inr ⟨?_, ?_, by omega⟩)
        · by_contra hne
          exact hpq.left (p - 1) (by omega)
            ((hmem _).2 ⟨h.subset _ (by omega) (by omega), by omega⟩)
        · by_contra hne
          exact hpq.right ((hmem _).2 ⟨h.subset _ (by omega) (by omega), by omega⟩)
    · refine Or.inl ⟨⟨hlt, hrun, fun j hj hjF => ?_, fun hq => ?_⟩, hmeet⟩
      · refine hpq.left j hj ((hmem j).2 ⟨hjF, fun hjab => ?_⟩)
        obtain rfl : p = e := by omega
        exact h.right (hrun p le_rfl hlt)
      · refine hpq.right ((hmem q).2 ⟨hq, fun hqab => ?_⟩)
        obtain rfl : q = g := by omega
        exact h.left (q - 1) (by omega) (hrun (q - 1) (by omega) (by omega))
  · rintro (⟨hpq, hmeet⟩ | ⟨rfl, rfl, hlt⟩ | ⟨rfl, rfl, hlt⟩)
    · have hlt := hpq.lt
      exact ⟨hlt, fun j h1 h2 => (hmem j).2 ⟨hpq.subset j h1 h2, by omega⟩,
        fun j hj hjF => hpq.left j hj ((hmem j).1 hjF).1, fun hq => hpq.right ((hmem q).1 hq).1⟩
    · exact ⟨hlt, fun j h1 h2 => (hmem j).2 ⟨h.subset j h1 (by omega), by omega⟩,
        fun j hj hjF => h.left j hj ((hmem j).1 hjF).1, fun hq => ((hmem q).1 hq).2 (by omega)⟩
    · exact ⟨hlt, fun j h1 h2 => (hmem j).2 ⟨h.subset j (by omega) h2, by omega⟩,
        fun j hj hjF => ((hmem j).1 hjF).2 (by omega), fun hq => h.right ((hmem q).1 hq).1⟩

/-! ## Canonical chunks -/

/-- The chunks of a gap are those canonical chunks that start inside it. -/
theorem IsGap.mem_greedyChunks_iff {L : ℕ} (h : IsGap F g e) (x : Chunk) :
    x ∈ greedyChunks L g (e - g) ↔ x ∈ canonicalChunks L F ∧ g ≤ x.start ∧ x.start < e := by
  have hlt := h.lt
  constructor
  · intro hx
    obtain ⟨haligned, hstart, hstop, -⟩ := mem_greedyChunks hx
    have hpos := haligned.len_pos
    rw [Chunk.stop] at hstop
    exact ⟨⟨g, e, h, hx⟩, hstart, by omega⟩
  · rintro ⟨⟨g', e', h', hx⟩, h1, h2⟩
    obtain ⟨haligned, hstart, hstop, -⟩ := mem_greedyChunks hx
    have hpos := haligned.len_pos
    have hlt' := h'.lt
    rw [Chunk.stop] at hstop
    obtain ⟨rfl, rfl⟩ := h.unique h' (by omega) (by omega)
    exact hx

/-- A canonical chunk lies inside `F`. -/
theorem canonicalChunks_subset {L : ℕ} {x : Chunk} (hx : x ∈ canonicalChunks L F) :
    x.Aligned L ∧ ∀ j, x.start ≤ j → j < x.stop → j ∈ F := by
  obtain ⟨g, e, h, hx⟩ := hx
  obtain ⟨haligned, hstart, hstop, -⟩ := mem_greedyChunks hx
  have hlt := h.lt
  exact ⟨haligned, fun j h1 h2 => h.subset j (by omega) (by omega)⟩

/-- Two canonical chunks that share an index are the same. -/
theorem canonicalChunks_unique {L j : ℕ} {x y : Chunk} (hx : x ∈ canonicalChunks L F)
    (hy : y ∈ canonicalChunks L F) (hxj : x.start ≤ j ∧ j < x.stop)
    (hyj : y.start ≤ j ∧ j < y.stop) : x = y := by
  obtain ⟨g, e, h, hx⟩ := hx
  obtain ⟨g', e', h', hy⟩ := hy
  obtain ⟨-, hx1, hx2, -⟩ := mem_greedyChunks hx
  obtain ⟨-, hy1, hy2, -⟩ := mem_greedyChunks hy
  have hlt := h.lt
  have hlt' := h'.lt
  obtain ⟨rfl, rfl⟩ := h.unique h' (by omega) (by omega)
  exact greedyChunks_unique hx hy hxj hyj

/-- Taking `[a, b)` out of the gap `[g, e)`. -/
theorem mem_canonicalChunks_diff {L : ℕ} (h : IsGap F g e) {a b : ℕ} (hga : g ≤ a) (hab : a < b)
    (hbe : b ≤ e) (x : Chunk) :
    x ∈ canonicalChunks L (F \ Set.Ico a b) ↔
      (x ∈ canonicalChunks L F ∧ x ∉ greedyChunks L g (e - g)) ∨ x ∈ greedyChunks L g (a - g) ∨
        x ∈ greedyChunks L b (e - b) := by
  constructor
  · rintro ⟨p, q, hpq, hx⟩
    rcases (isGap_diff h hga hab hbe p q).1 hpq with ⟨hF, hmeet⟩ | ⟨rfl, rfl, -⟩ | ⟨rfl, rfl, -⟩
    · refine Or.inl ⟨⟨p, q, hF, hx⟩, fun hxg => ?_⟩
      obtain ⟨haligned, h1, h2, -⟩ := mem_greedyChunks hx
      obtain ⟨-, h3, h4, -⟩ := mem_greedyChunks hxg
      have hpos := haligned.len_pos
      have hlt := hF.lt
      have hlt' := h.lt
      rw [Chunk.stop] at h2 h4
      exact hmeet ⟨by omega, by omega⟩
    · exact Or.inr (Or.inl hx)
    · exact Or.inr (Or.inr hx)
  · rintro (⟨⟨p, q, hF, hx⟩, hxg⟩ | hx | hx)
    · refine ⟨p, q, (isGap_diff h hga hab hbe p q).2 (Or.inl ⟨hF, fun hmeet => ?_⟩), hx⟩
      obtain ⟨rfl, rfl⟩ := h.unique hF hmeet.1 hmeet.2
      exact hxg hx
    · rcases Nat.eq_or_lt_of_le hga with rfl | hlt
      · simp at hx
      · exact ⟨g, a, (isGap_diff h hga hab hbe g a).2 (Or.inr (Or.inl ⟨rfl, rfl, hlt⟩)), hx⟩
    · rcases Nat.eq_or_lt_of_le hbe with rfl | hlt
      · simp at hx
      · exact ⟨b, e, (isGap_diff h hga hab hbe b e).2 (Or.inr (Or.inr ⟨rfl, rfl, hlt⟩)), hx⟩

/-- The chunks before `[a, b)` was given back, by those after. -/
theorem mem_canonicalChunks_of_union {L : ℕ} {a b : ℕ} (h : IsGap (F ∪ Set.Ico a b) g e)
    (hdisj : ∀ j, a ≤ j → j < b → j ∉ F) (hga : g ≤ a) (hab : a < b) (hbe : b ≤ e) (x : Chunk) :
    x ∈ canonicalChunks L F ↔
      (x ∈ canonicalChunks L (F ∪ Set.Ico a b) ∧ x ∉ greedyChunks L g (e - g)) ∨
        x ∈ greedyChunks L g (a - g) ∨ x ∈ greedyChunks L b (e - b) := by
  have hback : (F ∪ Set.Ico a b) \ Set.Ico a b = F :=
    Set.union_sdiff_cancel_right fun j hj => hdisj j hj.2.1 hj.2.2 hj.1
  have hdiff := mem_canonicalChunks_diff (L := L) h hga hab hbe x
  rwa [hback] at hdiff

/-- Giving `[a, b)` back, where `[g, e)` is the gap of the enlarged set around it. -/
theorem mem_canonicalChunks_union {L : ℕ} {a b : ℕ} (h : IsGap (F ∪ Set.Ico a b) g e)
    (hdisj : ∀ j, a ≤ j → j < b → j ∉ F) (hga : g ≤ a) (hab : a < b) (hbe : b ≤ e) (x : Chunk) :
    x ∈ canonicalChunks L (F ∪ Set.Ico a b) ↔
      (x ∈ canonicalChunks L F ∧ x ∉ greedyChunks L g (a - g) ∧ x ∉ greedyChunks L b (e - b)) ∨
        x ∈ greedyChunks L g (e - g) := by
  have hdiff := mem_canonicalChunks_of_union (L := L) h hdisj hga hab hbe x
  have hlt := h.lt
  -- the chunks of the remainders start inside the gap, those of other gaps do not
  have hrem : x ∈ greedyChunks L g (a - g) ∨ x ∈ greedyChunks L b (e - b) →
      g ≤ x.start ∧ x.start < e := by
    rintro (hx | hx) <;>
    · obtain ⟨haligned, h1, h2, -⟩ := mem_greedyChunks hx
      have hpos := haligned.len_pos
      rw [Chunk.stop] at h2
      omega
  have hgap := h.mem_greedyChunks_iff (L := L) x
  constructor
  · intro hx
    by_cases hxg : x ∈ greedyChunks L g (e - g)
    · exact Or.inr hxg
    · refine Or.inl ⟨hdiff.2 (Or.inl ⟨hx, hxg⟩), fun hr => ?_, fun hr => ?_⟩
      · exact hxg (hgap.2 ⟨hx, hrem (Or.inl hr)⟩)
      · exact hxg (hgap.2 ⟨hx, hrem (Or.inr hr)⟩)
  · rintro (⟨hx, hr1, hr2⟩ | hx)
    · rcases hdiff.1 hx with hx | hx | hx
      · exact hx.1
      · exact absurd hx hr1
      · exact absurd hx hr2
    · exact (hgap.1 hx).1

/-- Taking `[a, b)` out of a single canonical chunk. -/
theorem mem_canonicalChunks_hole {L a b : ℕ} {x : Chunk} (hx : x ∈ canonicalChunks L F)
    (ha : x.start ≤ a) (hab : a < b) (hb : b ≤ x.stop) (y : Chunk) :
    y ∈ canonicalChunks L (F \ Set.Ico a b) ↔
      (y ∈ canonicalChunks L F ∧ y ≠ x) ∨ y ∈ greedyChunks L x.start (a - x.start) ∨
        y ∈ greedyChunks L b (x.stop - b) := by
  obtain ⟨g, e, h, hxg⟩ := hx
  obtain ⟨-, hstart, hstop, -⟩ := mem_greedyChunks hxg
  have hlt := h.lt
  have hhole := mem_greedyChunks_hole hxg ha hab hb y
  rw [show g + (e - g) - b = e - b by omega] at hhole
  rw [mem_canonicalChunks_diff h (by omega) hab (by omega) y, hhole]
  have hgap : y ∈ greedyChunks L g (e - g) → y ∈ canonicalChunks L F := fun hy => ⟨g, e, h, hy⟩
  constructor
  · rintro (⟨hy, hn⟩ | ⟨hy, hn⟩ | hy)
    · exact Or.inl ⟨hy, fun he => hn (he ▸ hxg)⟩
    · exact Or.inl ⟨hgap hy, hn⟩
    · exact Or.inr hy
  · rintro (⟨hy, hn⟩ | hy)
    · by_cases hyg : y ∈ greedyChunks L g (e - g)
      · exact Or.inr (Or.inl ⟨hyg, hn⟩)
      · exact Or.inl ⟨hy, hyg⟩
    · exact Or.inr (Or.inr hy)

/-- A run of `F` that starts at a multiple of `2 ^ c` and is longer than `2 ^ c / 2` but not than
    `2 ^ c` fits into one canonical chunk, whose class is at least `c`. -/
theorem exists_chunk_of_run {L total c a s : ℕ} (hF : ∀ j ∈ F, j < total) (hcL : c ≤ L)
    (hdvd : 2 ^ c ∣ a) (hs : 0 < s) (hclog : Nat.clog 2 s = c)
    (hrun : ∀ j, a ≤ j → j < a + s → j ∈ F) :
    ∃ x ∈ canonicalChunks L F, c ≤ x.cls ∧ x.start ≤ a ∧ a + s ≤ x.stop := by
  obtain ⟨g, e, h, hga, hae⟩ := exists_gap hF (by omega) hrun
  have hlt := h.lt
  obtain ⟨x, hx, h1, h2⟩ := greedyChunks_cover (L := L) (i := g) (n := e - g) (j := a)
    (by omega) (by omega)
  obtain ⟨haligned, hstart, hstop, hfull⟩ := mem_greedyChunks hx
  have hsc : s ≤ 2 ^ c := hclog ▸ Nat.le_pow_clog (by omega) s
  have hlen := haligned.len_le
  rw [Chunk.stop] at h2 hstop hfull
  have hcls : c ≤ x.cls := by
    rcases Nat.eq_or_lt_of_le h1 with heq | hin
    · have hmono : Nat.clog 2 s ≤ Nat.clog 2 (e - a) := Nat.clog_mono_right 2 (by omega)
      rw [cls_of_mem_greedyChunks hx, heq, show g + (e - g) - a = e - a by omega]
      exact le_greedyClass_iff.2 ⟨hclog ▸ hmono, hcL, hdvd⟩
    · -- a smaller chunk that starts before `a` ends at `a` at the latest
      by_contra hlt
      have hdvda : 2 ^ x.cls ∣ a := (Nat.pow_dvd_pow 2 (by omega)).trans hdvd
      have hle := Nat.le_of_dvd (by omega) (Nat.dvd_sub hdvda haligned.dvd)
      omega
  refine ⟨x, ⟨g, e, h, hx⟩, hcls, h1, ?_⟩
  by_contra hlt
  rw [Chunk.stop] at hlt
  -- the chunk is followed by another one, so it is full and ends at a multiple of `2 ^ c`
  have hlen' : x.len = 2 ^ x.cls := by
    rcases hfull with hfull | hfull <;> omega
  have hdvds : 2 ^ c ∣ x.start + x.len :=
    hlen' ▸ (Nat.pow_dvd_pow 2 hcls).trans (Nat.dvd_add haligned.dvd (dvd_refl _))
  have hle := Nat.le_of_dvd (by omega) (Nat.dvd_sub hdvds hdvd)
  omega

/-- The canonical chunks cover a bounded set. -/
theorem mem_iff_exists_chunk {L total j : ℕ} (hF : ∀ j ∈ F, j < total) :
    j ∈ F ↔ ∃ x ∈ canonicalChunks L F, x.start ≤ j ∧ j < x.stop := by
  constructor
  · intro hj
    obtain ⟨x, hx, -, h1, h2⟩ := exists_chunk_of_run hF (Nat.zero_le L) (one_dvd j) one_pos
      (Nat.clog_one_right 2) (fun k h1 h2 => (by omega : j = k) ▸ hj)
    exact ⟨x, hx, h1, h2⟩
  · rintro ⟨x, hx, h1, h2⟩
    exact (canonicalChunks_subset hx).2 j h1 h2
