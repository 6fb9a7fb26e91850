import Mathlib.Data.List.Induction

set_option autoImplicit false

/-! # Runs

A run of a transition relation is a finite sequence of events, each taking the state one step
further. The lemmas are the two inductions the developments need: an invariant of the steps holds
after every run, and a relation kept by matching steps carries a run over to another system. -/

/-- From `s`, the events `es` lead to the last argument. -/
inductive Run {σ ε : Type*} (step : σ → ε → σ → Prop) (s : σ) : List ε → σ → Prop
  | nil : Run step s [] s
  | snoc {es : List ε} {t u : σ} {e : ε} : Run step s es t → step t e u → Run step s (es ++ [e]) u

namespace Run

variable {σ τ ε : Type*} {step : σ → ε → σ → Prop} {s t : σ} {es : List ε}

/-- What every step keeps holds after every run. -/
theorem invariant {P : σ → Prop} (h : Run step s es t) (hinit : P s)
    (hstep : ∀ s e t, P s → step s e t → P t) : P t := by
  induction h with
  | nil => exact hinit
  | snoc _ hlast ih => exact hstep _ _ _ ih hlast

theorem mono {step' : σ → ε → σ → Prop} (h : Run step s es t)
    (hsub : ∀ s e t, step s e t → step' s e t) : Run step' s es t := by
  induction h with
  | nil => exact nil
  | snoc _ hlast ih => exact ih.snoc (hsub _ _ _ hlast)

theorem eq_of_nil (h : Run step s [] t) : t = s := by
  generalize hall : ([] : List ε) = all at h
  cases h with
  | nil => rfl
  | snoc hinit hlast => simp at hall

/-- The last step of a run. -/
theorem last {e : ε} (h : Run step s (es ++ [e]) t) : ∃ u, Run step s es u ∧ step u e t := by
  generalize hall : es ++ [e] = all at h
  cases h with
  | nil => simp at hall
  | snoc hinit hlast =>
      obtain ⟨rfl, he⟩ := List.append_inj' hall rfl
      obtain rfl := List.singleton_inj.1 he
      exact ⟨_, hinit, hlast⟩

/-- A run over `es ++ es'` passes through a state between the two. -/
theorem split {es' : List ε} (h : Run step s (es ++ es') t) :
    ∃ u, Run step s es u ∧ Run step u es' t := by
  induction es' using List.reverseRecOn generalizing t with
  | nil => exact ⟨t, by simpa using h, nil⟩
  | append_singleton es' e ih =>
      rw [← List.append_assoc] at h
      obtain ⟨v, hv, hlast⟩ := h.last
      obtain ⟨u, hu, hu'⟩ := ih hv
      exact ⟨u, hu, hu'.snoc hlast⟩

/-- The first step of a run. -/
theorem head {e : ε} (h : Run step s (e :: es) t) : ∃ u, step s e u ∧ Run step u es t := by
  obtain ⟨u, hu, hu'⟩ := split (show Run step s ([e] ++ es) t from h)
  obtain ⟨v, hv, hlast⟩ := last (show Run step s ([] ++ [e]) u from hu)
  rw [eq_of_nil hv] at hlast
  exact ⟨u, hlast, hu'⟩

end Run

/-! # Fuel

A loop of a program takes fuel, and has a result when it is given enough. -/

/-- With enough fuel the result is `a`. -/
def Returns {α : Type*} (f : ℕ → Option α) (a : α) : Prop :=
  ∃ bound, ∀ fuel ≥ bound, f fuel = some a

namespace Returns

variable {α β : Type*} {f : ℕ → Option α} {a b : α}

theorem const {o : Option α} (h : o = some a) : Returns (fun _ => o) a := ⟨0, fun _ _ => h⟩

theorem unique (ha : Returns f a) (hb : Returns f b) : a = b := by
  obtain ⟨m, hm⟩ := ha
  obtain ⟨n, hn⟩ := hb
  have h := hm (max m n) (Nat.le_max_left m n)
  rw [hn (max m n) (Nat.le_max_right m n)] at h
  exact (Option.some.inj h).symm

theorem bind {g : ℕ → α → Option β} {b : β} (hf : Returns f a)
    (hg : Returns (fun fuel => g fuel a) b) : Returns (fun fuel => (f fuel).bind (g fuel)) b := by
  obtain ⟨m, hm⟩ := hf
  obtain ⟨n, hn⟩ := hg
  refine ⟨max m n, fun fuel hfuel => ?_⟩
  simp only [hm fuel (Nat.le_trans (Nat.le_max_left m n) hfuel), Option.bind_some]
  exact hn fuel (Nat.le_trans (Nat.le_max_right m n) hfuel)

theorem map (g : α → β) (hf : Returns f a) : Returns (fun fuel => (f fuel).map g) (g a) := by
  obtain ⟨n, hn⟩ := hf
  exact ⟨n, fun fuel hfuel => by simp only [hn fuel hfuel, Option.map_some]⟩

/-- A loop returns what it returns after its first pass. -/
theorem of_succ {g : ℕ → Option α} (h : ∀ fuel, f (fuel + 1) = g fuel) (hg : Returns g a) :
    Returns f a := by
  obtain ⟨n, hn⟩ := hg
  refine ⟨n + 1, fun fuel hfuel => ?_⟩
  obtain ⟨k, rfl⟩ := Nat.exists_eq_add_of_le' hfuel
  rw [← Nat.add_assoc, h]
  exact hn _ (Nat.le_add_left n k)

theorem congr {g : ℕ → Option α} (h : ∀ fuel, f fuel = g fuel) (hg : Returns g a) :
    Returns f a := by
  obtain ⟨n, hn⟩ := hg
  exact ⟨n, fun fuel hfuel => (h fuel).trans (hn fuel hfuel)⟩

/-- A result that more fuel does not change is returned. -/
theorem of_some {bound : ℕ} (hsucc : ∀ fuel a, f fuel = some a → f (fuel + 1) = some a)
    (h : f bound = some a) : Returns f a := by
  refine ⟨bound, fun fuel hfuel => ?_⟩
  obtain ⟨k, rfl⟩ := Nat.exists_eq_add_of_le hfuel
  induction k with
  | zero => exact h
  | succ k ih => exact hsucc _ a (ih (Nat.le_add_right bound k))

/-- A result that more fuel does not change is found from its image. -/
theorem of_map {g : α → β} {c : β} (h : Returns (fun fuel => (f fuel).map g) c)
    (hsucc : ∀ fuel a, f fuel = some a → f (fuel + 1) = some a) : ∃ a, Returns f a ∧ g a = c := by
  obtain ⟨bound, hbound⟩ := h
  obtain ⟨a, ha, hc⟩ := Option.map_eq_some_iff.1 (hbound bound (Nat.le_refl bound))
  exact ⟨a, of_some hsucc ha, hc⟩

end Returns

/-! # Two computations side by side

A computation that keeps more than another one, read for read and write for write. -/

theorem map_bind_map {α β γ δ : Type} {o : Option α} {o' : Option β} {p : α → β}
    {f : α → Option γ} {g : β → Option δ} {q : γ → δ} (ho : o.map p = o')
    (h : ∀ x, (f x).map q = g (p x)) : (o.bind f).map q = o'.bind g := by
  subst ho
  cases o with
  | none => rfl
  | some x => exact h x

/-- A read, after which both go on alike. -/
theorem map_bind_congr {α β γ : Type} {o : Option α} {f : α → Option β} {g : α → Option γ}
    {q : β → γ} (h : ∀ x, (f x).map q = g x) : (o.bind f).map q = o.bind g :=
  map_bind_map Option.map_id' h

theorem map_ite_congr {α β : Type} {p : Prop} [Decidable p] {f f' : Option α} {g g' : Option β}
    {q : α → β} (h : f.map q = g) (h' : f'.map q = g') :
    (if p then f else f').map q = if p then g else g' := by
  split_ifs
  · exact h
  · exact h'

/-! # What a result satisfies -/

theorem forall_mem_bind {α β : Type*} {o : Option α} {f : α → Option β} {P : α → Prop} {Q : β → Prop}
    (h : ∀ x ∈ o, P x) (hf : ∀ x, P x → ∀ y ∈ f x, Q y) : ∀ y ∈ o.bind f, Q y := by
  intro y hy
  obtain ⟨x, hx, hxy⟩ := Option.bind_eq_some_iff.1 hy
  exact hf x (h x hx) y hxy

/-- Nothing is asked of what is only read. -/
theorem forall_mem_read {α β : Type*} {o : Option α} {f : α → Option β} {Q : β → Prop}
    (hf : ∀ x, ∀ y ∈ f x, Q y) : ∀ y ∈ o.bind f, Q y :=
  forall_mem_bind (P := fun _ => True) (fun _ _ => trivial) fun x _ => hf x

theorem forall_mem_some {α : Type*} {a : α} {Q : α → Prop} (h : Q a) : ∀ y ∈ some a, Q y := by
  intro y hy
  obtain rfl := Option.some.inj hy
  exact h

theorem forall_mem_ite {α : Type*} {p : Prop} [Decidable p] {o o' : Option α} {Q : α → Prop}
    (h : ∀ y ∈ o, Q y) (h' : ∀ y ∈ o', Q y) : ∀ y ∈ (if p then o else o'), Q y := by
  split_ifs
  · exact h
  · exact h'

/-! # Counted loops -/

/-- A loop over `0, …, n - 1` keeps an invariant indexed by the rounds done. -/
theorem foldlM_range {α : Type*} {f : α → ℕ → Option α} {P : ℕ → α → Prop} {a : α} {n : ℕ}
    (hinit : P 0 a) (hstep : ∀ i < n, ∀ b, P i b → ∃ c, f b i = some c ∧ P (i + 1) c) :
    ∃ c, (List.range n).foldlM f a = some c ∧ P n c := by
  induction n with
  | zero => exact ⟨a, rfl, hinit⟩
  | succ n ih =>
      obtain ⟨b, hb, hPb⟩ := ih fun i hi => hstep i (Nat.lt_succ_of_lt hi)
      obtain ⟨c, hc, hPc⟩ := hstep n (Nat.lt_succ_self n) b hPb
      refine ⟨c, ?_, hPc⟩
      rw [List.range_succ, List.foldlM_append, hb, Option.bind_eq_bind, Option.bind_some,
        List.foldlM_cons, hc]
      rfl

/-- What every round keeps holds after the loop, if it ends. -/
theorem foldlM_invariant {α ι : Type*} {f : α → ι → Option α} {P : α → Prop} {l : List ι} {a b : α}
    (h : l.foldlM f a = some b) (hinit : P a)
    (hstep : ∀ a, ∀ i ∈ l, ∀ c, P a → f a i = some c → P c) : P b := by
  induction l generalizing a with
  | nil =>
      obtain rfl : a = b := Option.some.inj h
      exact hinit
  | cons i l ih =>
      rw [List.foldlM_cons] at h
      obtain ⟨c, hc, hrest⟩ := Option.bind_eq_some_iff.1 h
      exact ih hrest (hstep a i (List.mem_cons_self ..) c hinit hc) fun a j hj =>
        hstep a j (List.mem_cons_of_mem _ hj)

/-! # Execution -/

/-- The calls executed one after the other: the state at the end, and each call with its reply. -/
def executeAll {σ γ ρ : Type*} (exec : σ → γ → Option (σ × ρ)) (s : σ) (calls : List γ) :
    Option (σ × List (γ × ρ)) :=
  calls.foldlM (fun q c => (exec q.1 c).map fun r => (r.1, q.2 ++ [(c, r.2)])) (s, [])

/-- Calls that execute one after the other form a run. -/
theorem Run.of_executeAll {σ γ ρ : Type*} {step : σ → γ × ρ → σ → Prop}
    {exec : σ → γ → Option (σ × ρ)} {s s' : σ} {calls : List γ} {es : List (γ × ρ)}
    (hstep : ∀ t c t' r, exec t c = some (t', r) → step t (c, r) t')
    (h : executeAll exec s calls = some (s', es)) : Run step s es s' := by
  refine foldlM_invariant (P := fun q => Run step s q.2 q.1) h Run.nil fun q c _ q' hq hnext => ?_
  obtain ⟨⟨t', r⟩, hexec, rfl⟩ := Option.map_eq_some_iff.1 hnext
  exact hq.snoc (hstep _ _ _ _ hexec)

/-- The state at the end, where all the calls execute. -/
def stateAfter {σ γ ρ : Type*} (exec : σ → γ → Option (σ × ρ)) (s : σ) (calls : List γ) : σ :=
  ((executeAll exec s calls).getD (s, [])).1

/-- Calls that execute with the given replies form a run. -/
theorem Run.of_replies {σ γ ρ : Type*} {step : σ → γ × ρ → σ → Prop}
    {exec : σ → γ → Option (σ × ρ)} {s : σ} {es : List (γ × ρ)}
    (hstep : ∀ t c t' r, exec t c = some (t', r) → step t (c, r) t')
    (h : (executeAll exec s (es.map Prod.fst)).map Prod.snd = some es) :
    Run step s es (stateAfter exec s (es.map Prod.fst)) := by
  obtain ⟨⟨s', es'⟩, hexec, rfl⟩ := Option.map_eq_some_iff.1 h
  have hrun : Run step s es' s' := Run.of_executeAll hstep hexec
  rw [stateAfter, hexec, Option.getD_some]
  exact hrun

/-- A call that gives its reply before the state, executed if it is legal. -/
def executeLegal {σ γ ρ : Type*} (legal : σ → γ → Prop) [∀ s c, Decidable (legal s c)]
    (exec : σ → γ → Option (ρ × σ)) (s : σ) (c : γ) : Option (σ × ρ) :=
  if legal s c then (exec s c).map Prod.swap else none

theorem executeLegal_some {σ γ ρ : Type*} {legal : σ → γ → Prop} [∀ s c, Decidable (legal s c)]
    {exec : σ → γ → Option (ρ × σ)} {s s' : σ} {c : γ} {r : ρ}
    (h : executeLegal legal exec s c = some (s', r)) : legal s c ∧ exec s c = some (r, s') := by
  unfold executeLegal at h
  split_ifs at h with hlegal
  obtain ⟨q, hq, hswap⟩ := Option.map_eq_some_iff.1 h
  obtain ⟨rfl, rfl⟩ := Prod.mk.inj hswap
  exact ⟨hlegal, hq⟩

/-! # More fuel

A computation with more fuel has the results it had with less. -/

/-- What `o` has as its result is the result of `o'` too. -/
def Extends {α : Type*} (o o' : Option α) : Prop := ∀ a, o = some a → o' = some a

namespace Extends

variable {α β : Type*}

theorem refl (o : Option α) : Extends o o := fun _ h => h

theorem none_left (o : Option α) : Extends none o := fun _ h => nomatch h

theorem trans {o o' o'' : Option α} (h : Extends o o') (h' : Extends o' o'') : Extends o o'' :=
  fun a ha => h' a (h a ha)

theorem bind {o : Option α} {f g : α → Option β} (h : ∀ a, o = some a → Extends (f a) (g a)) :
    Extends (o.bind f) (o.bind g) := by
  intro b hb
  obtain ⟨a, ha, hf⟩ := Option.bind_eq_some_iff.1 hb
  rw [ha]
  exact h a ha b hf

theorem bind_left {o o' : Option α} (f : α → Option β) (h : Extends o o') :
    Extends (o.bind f) (o'.bind f) := by
  intro b hb
  obtain ⟨a, ha, hf⟩ := Option.bind_eq_some_iff.1 hb
  rw [h a ha]
  exact hf

theorem map {o o' : Option α} (f : α → β) (h : Extends o o') : Extends (o.map f) (o'.map f) := by
  intro b hb
  obtain ⟨a, ha, rfl⟩ := Option.map_eq_some_iff.1 hb
  rw [h a ha, Option.map_some]

theorem ite {p : Prop} [Decidable p] {o o' u u' : Option α} (h : Extends o o') (h' : Extends u u') :
    Extends (if p then o else u) (if p then o' else u') := by
  split_ifs
  · exact h
  · exact h'

end Extends
