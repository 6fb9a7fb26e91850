import TargetUtils.Dll.Shape
import TargetUtils.Library.Runs
import Mathlib.Data.Fintype.Defs

set_option autoImplicit false

/-! # The macros implement lists

Runs of macro uses on any number of list variables, starting with every variable `NULL`. The
abstract state has a list for each variable. A use is legal when the element to add is in no list,
the element to remove is in the given list and the variables to concatenate differ; being in a list
is read off the memory, by following `n` from the variable. Every legal use has a result, and it is
the one of the abstract operation: the memory represents the abstract lists, which stay disjoint.
Every run of the lists is one of the macros (`exists_run_of_lists`). -/

namespace DllMem

variable {ε ν : Type*} {m m' : DllMem ε ν} {l : ν} {e : ε}

/-! ## The uses of the macros -/

/-- A use of a macro. -/
inductive Call (ε ν : Type*)
  | pp (l : ν) (e : ε)
  | ap (l : ν) (e : ε)
  | rem (l : ν) (e : ε)
  | cat (f s : ν)
  | last (l : ν)
deriving DecidableEq

/-- Following `n` from the variable reaches the element. -/
def InList (m : DllMem ε ν) (l : ν) (e : ε) : Prop := ∃ k, m.follow (m.var l) k = some e

def Call.Legal (m : DllMem ε ν) : Call ε ν → Prop
  | .pp _ e => ∀ l, ¬ m.InList l e
  | .ap _ e => ∀ l, ¬ m.InList l e
  | .rem l e => m.InList l e
  | .cat f s => f ≠ s
  | .last _ => True

variable [DecidableEq ε] [DecidableEq ν]

/-- The memory afterwards, and for `last` the value of `r`. -/
def Call.exec (m : DllMem ε ν) : Call ε ν → Option (DllMem ε ν × Option ε)
  | .pp l e => some (m.pp l e, none)
  | .ap l e => (m.ap l e).map (·, none)
  | .rem l e => (m.rem l e).map (·, none)
  | .cat f s => (m.cat f s).map (·, none)
  | .last l => some (m, m.last l)

/-- A legal use. -/
def Step (m : DllMem ε ν) (use : Call ε ν × Option ε) (m' : DllMem ε ν) : Prop :=
  use.1.Legal m ∧ use.1.exec m = some (m', use.2)

/-! ## The abstract operations -/

/-- Cons, snoc, delete, append and last on the list of each variable. -/
def spec (lists : ν → List ε) : Call ε ν → (ν → List ε) × Option ε
  | .pp l e => (Function.update lists l (e :: lists l), none)
  | .ap l e => (Function.update lists l (lists l ++ [e]), none)
  | .rem l e => (Function.update lists l ((lists l).erase e), none)
  | .cat f s => (Function.update (Function.update lists f (lists f ++ lists s)) s [], none)
  | .last l => (lists, (lists l).getLast?)

def SpecStep (lists : ν → List ε) (use : Call ε ν × Option ε) (lists' : ν → List ε) : Prop :=
  spec lists use.1 = (lists', use.2)

/-! ## The representation -/

omit [DecidableEq ε] [DecidableEq ν] in
theorem Heads.inList_iff {xs : List ε} (h : m.Heads l xs) : m.InList l e ↔ e ∈ xs := by
  rw [h.holds.mem_iff, InList, h.var]

/-- Every variable heads its list, and no element is in two lists. -/
structure Represents (m : DllMem ε ν) (lists : ν → List ε) : Prop where
  heads : ∀ l, m.Heads l (lists l)
  disjoint : ∀ l l', l ≠ l' → (lists l).Disjoint (lists l')

variable {lists : ν → List ε}

omit [DecidableEq ε] [DecidableEq ν] in
theorem represents_init (h : ∀ l, m.var l = none) : m.Represents fun _ => [] where
  heads := fun l => ⟨Links.holds_nil _, h l⟩
  disjoint := fun _ _ _ => List.disjoint_nil_left []

omit [DecidableEq ε] in
/-- A macro that changes one list and stays away from the nodes of the others. -/
theorem Represents.update (h : m.Represents lists) {xs ys : List ε} (hheads : m'.Heads l xs)
    (hvar : m'.var = Function.update m.var l xs.head?) (hsame : m.SameOutside m' ys)
    (hys : ∀ l', l ≠ l' → ys.Disjoint (lists l')) (hxs : xs ⊆ ys) :
    m'.Represents (Function.update lists l xs) where
  heads := fun l' => by
    by_cases hl : l' = l
    · rw [hl, Function.update_self]
      exact hheads
    · have hvar' : m'.var l' = m.var l' := by rw [hvar, Function.update_of_ne hl]
      rw [Function.update_of_ne hl]
      exact (h.heads l').congr hvar' hsame (hys l' (Ne.symm hl))
  disjoint := fun l₁ l₂ hne => by
    by_cases h₁ : l₁ = l
    · have h₂ : l₂ ≠ l := fun heq => hne (h₁.trans heq.symm)
      rw [h₁, Function.update_self, Function.update_of_ne h₂]
      exact List.disjoint_of_subset_left hxs (hys l₂ (Ne.symm h₂))
    · rw [Function.update_of_ne h₁]
      by_cases h₂ : l₂ = l
      · rw [h₂, Function.update_self]
        exact List.disjoint_symm (List.disjoint_of_subset_left hxs (hys l₁ (Ne.symm h₁)))
      · rw [Function.update_of_ne h₂]
        exact h.disjoint l₁ l₂ hne

omit [DecidableEq ε] [DecidableEq ν] in
theorem Represents.not_mem (h : m.Represents lists) (hlegal : ∀ l, ¬ m.InList l e) (l : ν) :
    e ∉ lists l := fun hmem => hlegal l ((h.heads l).inList_iff.2 hmem)

omit [DecidableEq ε] [DecidableEq ν] in
theorem Represents.cons_disjoint (h : m.Represents lists) (hlegal : ∀ l, ¬ m.InList l e) (l' : ν)
    (hne : l ≠ l') : (e :: lists l).Disjoint (lists l') :=
  List.disjoint_cons_left.2 ⟨h.not_mem hlegal l', h.disjoint l l' hne⟩

/-! ## One use -/

theorem Represents.pp (h : m.Represents lists) (hlegal : ∀ l, ¬ m.InList l e) :
    (m.pp l e).Represents (Function.update lists l (e :: lists l)) := by
  obtain ⟨hheads, hvar, hsame⟩ := (h.heads l).pp (h.not_mem hlegal l)
  exact h.update hheads hvar hsame (h.cons_disjoint hlegal) fun x hx => hx

theorem Represents.ap (h : m.Represents lists) (hlegal : ∀ l, ¬ m.InList l e) :
    ∃ m', m.ap l e = some m' ∧ m'.Represents (Function.update lists l (lists l ++ [e])) := by
  obtain ⟨m', hap, hheads, hvar, hsame⟩ := (h.heads l).ap (h.not_mem hlegal l)
  refine ⟨m', hap, h.update hheads hvar hsame (h.cons_disjoint hlegal) fun x hx => ?_⟩
  exact (List.perm_append_singleton e (lists l)).subset hx

theorem Represents.rem (h : m.Represents lists) (hlegal : m.InList l e) :
    ∃ m', m.rem l e = some m' ∧ m'.Represents (Function.update lists l ((lists l).erase e)) := by
  obtain ⟨m', hrem, hheads, hvar, hsame⟩ := (h.heads l).rem ((h.heads l).inList_iff.1 hlegal)
  exact ⟨m', hrem, h.update hheads hvar hsame (h.disjoint l) List.erase_subset⟩

theorem Represents.cat (h : m.Represents lists) {f s : ν} (hfs : f ≠ s) :
    ∃ m', m.cat f s = some m' ∧
      m'.Represents (Function.update (Function.update lists f (lists f ++ lists s)) s []) := by
  obtain ⟨m', hcat, hheads, hheads', hvar, hsame⟩ :=
    (h.heads f).cat (h.heads s) hfs (h.disjoint f s hfs)
  have hother : ∀ l', l' ≠ f → l' ≠ s → (lists f ++ lists s).Disjoint (lists l') :=
    fun l' hf hs => List.disjoint_append_left.2
      ⟨h.disjoint f l' (Ne.symm hf), h.disjoint s l' (Ne.symm hs)⟩
  -- the second list is dropped first: then the first one is the only list to change
  have hdrop : (m.setVar s none).Represents (Function.update lists s []) := by
    refine h.update ⟨Links.holds_nil _, ?_⟩ rfl (fun x _ => ⟨rfl, rfl⟩) (fun l' _ => ?_)
      (List.Subset.refl [])
    · rw [setVar_var, Function.update_self, List.head?_nil]
    · exact List.disjoint_nil_left _
  refine ⟨m', hcat, ?_⟩
  rw [Function.update_comm hfs]
  refine hdrop.update hheads ?_ hsame (fun l' hl' => ?_) (List.Subset.refl _)
  · rw [setVar_var, hvar, Function.update_comm hfs]
  · by_cases hs : l' = s
    · rw [hs, Function.update_self]
      exact List.disjoint_nil_right _
    · rw [Function.update_of_ne hs]
      exact hother l' (Ne.symm hl') hs

/-- A legal use has a result, and it is what the abstract operation gives. -/
theorem Represents.step (h : m.Represents lists) {c : Call ε ν} (hlegal : c.Legal m) :
    ∃ m' lists' r, c.exec m = some (m', r) ∧ spec lists c = (lists', r) ∧ m'.Represents lists' := by
  cases c with
  | pp l e => exact ⟨_, _, none, rfl, rfl, h.pp hlegal⟩
  | ap l e =>
      obtain ⟨m', hap, hm'⟩ := h.ap (l := l) hlegal
      exact ⟨m', _, none, by simp only [Call.exec, hap, Option.map_some], rfl, hm'⟩
  | rem l e =>
      obtain ⟨m', hrem, hm'⟩ := h.rem hlegal
      exact ⟨m', _, none, by simp only [Call.exec, hrem, Option.map_some], rfl, hm'⟩
  | cat f s =>
      obtain ⟨m', hcat, hm'⟩ := h.cat hlegal
      exact ⟨m', _, none, by simp only [Call.exec, hcat, Option.map_some], rfl, hm'⟩
  | last l =>
      refine ⟨m, lists, m.last l, rfl, ?_, h⟩
      rw [spec, (h.heads l).last_eq]

/-! ## Runs -/

/-- After every run of legal uses from empty lists the memory represents the lists that the abstract
    operations give, `last` gave what they give, and the next legal use has a result. -/
theorem lists_of_run {uses : List (Call ε ν × Option ε)} (hinit : ∀ l, m.var l = none)
    (h : Run Step m uses m') :
    ∃ lists, Run SpecStep (fun _ => []) uses lists ∧ m'.Represents lists ∧
      ∀ c : Call ε ν, c.Legal m' → ∃ next, c.exec m' = some next := by
  have hrun : ∃ lists, Run SpecStep (fun _ => []) uses lists ∧ m'.Represents lists := by
    induction h with
    | nil => exact ⟨_, .nil, represents_init hinit⟩
    | snoc _ hlast ih =>
        obtain ⟨lists, hspec, hrep⟩ := ih
        obtain ⟨hlegal, hexec⟩ := hlast
        obtain ⟨m₁, lists', r, hexec', hspec', hrep'⟩ := hrep.step hlegal
        -- the macros are functions of the memory, so this is the step of the run
        obtain ⟨rfl, rfl⟩ := Prod.mk.inj (Option.some.inj (hexec'.symm.trans hexec))
        exact ⟨lists', hspec.snoc hspec', hrep'⟩
  obtain ⟨lists, hspec, hrep⟩ := hrun
  refine ⟨lists, hspec, hrep, fun c hlegal => ?_⟩
  obtain ⟨m₁, _, r, hexec, _, _⟩ := hrep.step hlegal
  exact ⟨(m₁, r), hexec⟩

/-! ## Every run of lists is one of the macros -/

/-- What makes a use legal, read off the lists. -/
def Call.LegalOn (lists : ν → List ε) : Call ε ν → Prop
  | .pp _ e => ∀ l, e ∉ lists l
  | .ap _ e => ∀ l, e ∉ lists l
  | .rem l e => e ∈ lists l
  | .cat f s => f ≠ s
  | .last _ => True

instance [Fintype ν] (lists : ν → List ε) : (c : Call ε ν) → Decidable (c.LegalOn lists)
  | .pp _ e | .ap _ e => inferInstanceAs (Decidable (∀ l, e ∉ lists l))
  | .rem l e => inferInstanceAs (Decidable (e ∈ lists l))
  | .cat f s => inferInstanceAs (Decidable (f ≠ s))
  | .last _ => inferInstanceAs (Decidable True)

omit [DecidableEq ε] [DecidableEq ν] in
theorem Represents.legal_iff (h : m.Represents lists) (c : Call ε ν) :
    c.Legal m ↔ c.LegalOn lists := by
  cases c with
  | pp l e => exact forall_congr' fun l => not_congr (h.heads l).inList_iff
  | ap l e => exact forall_congr' fun l => not_congr (h.heads l).inList_iff
  | rem l e => exact (h.heads l).inList_iff
  | cat f s => exact Iff.rfl
  | last l => exact Iff.rfl

/-- A use that is legal on the lists, with its result. -/
def ListStep (lists : ν → List ε) (use : Call ε ν × Option ε) (lists' : ν → List ε) : Prop :=
  use.1.LegalOn lists ∧ SpecStep lists use lists'

theorem exists_run_of_lists {uses : List (Call ε ν × Option ε)} (hinit : ∀ l, m.var l = none)
    (h : Run ListStep (fun _ => []) uses lists) :
    ∃ m', Run Step m uses m' ∧ m'.Represents lists := by
  induction h with
  | nil => exact ⟨m, .nil, represents_init hinit⟩
  | @snoc es t u use _ hlast ih =>
      obtain ⟨m₁, hrun, hrep⟩ := ih
      obtain ⟨hlegal, hspec⟩ := hlast
      have hlegal := (hrep.legal_iff use.1).2 hlegal
      obtain ⟨m₂, lists', r, hexec, hspec', hrep'⟩ := hrep.step hlegal
      obtain ⟨rfl, rfl⟩ := Prod.mk.inj (hspec'.symm.trans hspec)
      exact ⟨m₂, hrun.snoc ⟨hlegal, hexec⟩, hrep'⟩

/-- Two lists are filled at both ends and concatenated, and elements are removed inside, in front
    and at the end. -/
def severalUses : List (Call ℕ Bool × Option ℕ) :=
  [(.ap false 1, none), (.pp false 2, none), (.ap true 3, none), (.ap true 4, none),
    (.pp true 5, none), (.last true, some 4), (.cat false true, none), (.last false, some 4),
    (.rem false 1, none), (.rem false 2, none), (.rem false 4, none), (.last false, some 3),
    (.ap true 4, none)]

/-- Two variables, both `NULL`. -/
def twoEmpty : DllMem ℕ Bool := ⟨⟨fun _ => none, fun _ => none⟩, fun _ => none⟩

theorem lists_of_run_several : ∃ (m : DllMem ℕ Bool) (lists : Bool → List ℕ),
    Run Step twoEmpty severalUses m ∧ Run SpecStep (fun _ => []) severalUses lists ∧
      m.Represents lists ∧ ∀ c : Call ℕ Bool, c.Legal m → ∃ next, c.exec m = some next := by
  have hlists : Run ListStep (fun _ => []) severalUses (stateAfter
      (fun lists c => if c.LegalOn lists then some (spec lists c) else none) (fun _ => [])
      (severalUses.map Prod.fst)) := by
    refine Run.of_replies (fun lists c lists' r hexec => ?_) (by decide +kernel)
    split_ifs at hexec with hlegal
    exact ⟨hlegal, Option.some.inj hexec⟩
  have hinit : ∀ l, twoEmpty.var l = none := fun _ => rfl
  obtain ⟨m, hrun, -⟩ := exists_run_of_lists hinit hlists
  obtain ⟨lists, h⟩ := lists_of_run hinit hrun
  exact ⟨m, lists, hrun, h⟩

end DllMem
