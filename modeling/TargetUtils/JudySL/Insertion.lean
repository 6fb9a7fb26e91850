import TargetUtils.JudySL.Lookup

set_option autoImplicit false

/-! # Insertion into a JudySL array

The loop of `JudySLIns` carries a shortcut leaf down until its index and the new one part. At each
round the tree with the leaf holds what one tree would hold (`Carries`): the leaf where it was, or
the new array it is plugged into. Only the last round adds the new index (`insLoop_spec`). -/

namespace JudySL

variable {wordSize : ℕ} {t : JudySL wordSize} {pscl : Option (Scl wordSize)} {pos : List Chr}

/-! ## `JudyLIns` in a branch -/

/-- What `JudyLIns` is called on: an array with the entries of `judyL` and `next`, or `NULL`. -/
structure Branches (t : JudySL wordSize) (judyL : OrderedMap ℕ (Word wordSize))
    (next : ℕ → JudySL wordSize) : Prop where
  get : t.get = (array judyL next).get
  ins : ∀ word, t.judyLIns word = (array judyL next).judyLIns word
  ok : BranchOk judyL next

theorem branches_null : Branches (null : JudySL wordSize) OrderedMap.empty fun _ => null where
  get := by
    funext k
    rw [get_array, OrderedMap.lookup_empty, Option.bind_none, get_null]
  ins word := congrArg (array _) (Function.update_eq_self word fun _ => null).symm
  ok word hword := absurd (OrderedMap.lookup_empty word) hword

theorem branches_array {judyL : OrderedMap ℕ (Word wordSize)} {next : ℕ → JudySL wordSize}
    (h : (array judyL next).Wf) : Branches (array judyL next) judyL next where
  get := rfl
  ins _ := rfl
  ok := (full_array.1 (h.full (by simp))).2

variable {judyL : OrderedMap ℕ (Word wordSize)} {next : ℕ → JudySL wordSize}

/-- `JudyLIns` of a word that is not the last leaves what the tree holds as it was. -/
theorem Branches.ins_of_not_last (h : t.Branches judyL next)
    (hlast : ¬ lastWordByValue (copyStringToWord wordSize pos) = true) :
    ∃ judyL' next' value, t.judyLIns (copyStringToWord wordSize pos) = array judyL' next' ∧
      judyL'.lookup (copyStringToWord wordSize pos) = some value ∧
      (array judyL' next').get = t.get ∧ (next' (copyStringToWord wordSize pos)).Wf ∧
      ∀ sub : JudySL wordSize, sub.Full →
        (array judyL' (Function.update next' (copyStringToWord wordSize pos) sub)).Full := by
  rw [h.ins, h.get, judyLIns]
  cases hlookup : judyL.lookup (copyStringToWord wordSize pos) with
  | none =>
      refine ⟨_, _, 0, rfl, OrderedMap.lookup_insert_self .., get_insert_null hlast hlookup, ?_, ?_⟩
      · rw [Function.update_self]
        exact wf_null
      · intro sub hsub
        rw [Function.update_idem]
        refine full_array.2 ⟨⟨copyStringToWord wordSize pos, ?_⟩, h.ok.insert_full ⟨pos, rfl⟩ hsub⟩
        rw [OrderedMap.lookup_insert_self]
        exact Option.some_ne_none _
  | some value =>
      have hpresent : judyL.lookup (copyStringToWord wordSize pos) ≠ none :=
        hlookup ▸ Option.some_ne_none _
      refine ⟨judyL, next, value, rfl, hlookup, rfl, ?_, ?_⟩
      · exact ((h.ok _ hpresent).2.resolve_left hlast).wf
      · intro sub hsub
        exact full_array.2 ⟨⟨_, hpresent⟩, h.ok.update hsub⟩

/-! ## The parts of a round -/

/-- With the leaf that is carried down, the tree at this round stands for `u`. -/
inductive Carries : JudySL wordSize → Option (Scl wordSize) → (u : JudySL wordSize) → Prop
  | tree {t : JudySL wordSize} : Carries t none t
  | leaf {leaf : Scl wordSize} : Carries null (some leaf) (scl leaf)

/-- The new index is not that of the leaf. -/
def Apart (pos : List Chr) (pscl : Option (Scl wordSize)) : Prop :=
  ∀ leaf, pscl = some leaf → pos ≠ leaf.index

/-- The leaf starts with the same word as the new index. -/
def SameWord (pos : List Chr) (pscl : Option (Scl wordSize)) : Prop :=
  ∀ leaf, pscl = some leaf →
    copyStringToWord wordSize leaf.index = copyStringToWord wordSize pos

theorem apart_none : Apart pos (none : Option (Scl wordSize)) := fun _ h => nomatch h

theorem apart_some {leaf : Scl wordSize} (h : pos ≠ leaf.index) : Apart pos (some leaf) := by
  intro leaf' hleaf
  obtain rfl := Option.some.inj hleaf
  exact h

theorem sameWord_none : SameWord pos (none : Option (Scl wordSize)) := fun _ h => nomatch h

/-- What an insertion makes of `u`. -/
structure Inserts (u : JudySL wordSize) (pos : List Chr) (r : JudySL wordSize × Word wordSize) :
    Prop where
  full : r.1.Full
  value : r.2 = (u.get pos).getD 0
  get : r.1.get = Function.update u.get pos (some r.2)

theorem appendOrMoveAside_spec {u : JudySL wordSize} (h : Carries t pscl u) (hwf : u.Wf)
    (hapart : Apart pos pscl) :
    (∃ r, t.appendOrMoveAside pscl pos = .inl r ∧ Inserts u pos r) ∨
      ∃ t₁ pscl₁, t.appendOrMoveAside pscl pos = .inr (t₁, pscl₁) ∧ Carries t₁ pscl₁ u ∧
        Apart pos pscl₁ ∧ ∃ judyL next, t₁.Branches judyL next := by
  cases h with
  | leaf => exact Or.inr ⟨_, _, rfl, .leaf, hapart, _, _, branches_null⟩
  | tree =>
      cases t with
      | null =>
          refine Or.inl ⟨_, rfl, trivial, rfl, ?_⟩
          rw [get_scl, get_null]
      | scl leaf =>
          unfold appendOrMoveAside
          by_cases hpos : pos = leaf.index
          · have hget : (scl leaf).get pos = some leaf.value := by
              rw [hpos, get_scl_self]
            refine Or.inl ⟨_, if_pos hpos, trivial, ?_, ?_⟩
            · rw [hget, Option.getD_some]
            · exact (Function.update_eq_self_iff.2 hget.symm).symm
          · exact Or.inr ⟨_, _, if_neg hpos, .leaf, apart_some hpos, _, _, branches_null⟩
      | array judyL next => exact Or.inr ⟨_, _, rfl, .tree, hapart, _, _, branches_array hwf⟩

/-- An array with one word and the leaf below it holds what the leaf holds. -/
theorem get_single {leaf : Scl wordSize} {word : ℕ}
    (hword : copyStringToWord wordSize leaf.index = word) (hlast : ¬ lastWordByValue word = true) :
    (array (OrderedMap.empty.insert word 0)
      (Function.update (fun _ => null) word (scl leaf.drop))).get = (scl leaf).get := by
  subst hword
  have hself := OrderedMap.lookup_insert_self OrderedMap.empty
    (copyStringToWord wordSize leaf.index) (0 : Word wordSize)
  have hempty : (array (OrderedMap.empty.insert (copyStringToWord wordSize leaf.index) 0)
      (Function.update (fun _ => null) (copyStringToWord wordSize leaf.index) null)).get =
        (array OrderedMap.empty fun _ => (null : JudySL wordSize)).get :=
    get_insert_null hlast (OrderedMap.lookup_empty _)
  rw [Function.update_eq_self (copyStringToWord wordSize leaf.index) fun _ => null] at hempty
  rw [get_update_next hself hlast (get_scl leaf.drop), hempty, ← branches_null.get, get_scl,
    get_null]
  rfl

/-- Another word: the rest goes below it, with the leaf if there is one. -/
theorem inserts_next {u : JudySL wordSize} (h : Carries t pscl u) (hapart : Apart pos pscl)
    (hsame : SameWord pos pscl) (hbranches : t.Branches judyL next)
    (hlast : ¬ lastWordByValue (copyStringToWord wordSize pos) = true)
    {r : JudySL wordSize × Word wordSize}
    (hr : ∀ u', Carries ((t.judyLIns (copyStringToWord wordSize pos)).nextAt
      (copyStringToWord wordSize pos)) (pscl.map Scl.drop) u' → u'.Wf →
        Apart (pos.drop wordSize) (pscl.map Scl.drop) → Inserts u' (pos.drop wordSize) r) :
    Inserts u pos ((t.judyLIns (copyStringToWord wordSize pos)).setNext
      (copyStringToWord wordSize pos) r.1, r.2) := by
  obtain ⟨judyL', next', value, hins, hlookup, hget, hwf, hfull⟩ := hbranches.ins_of_not_last hlast
  rw [hins] at hr ⊢
  cases h with
  | tree =>
      have hpos : (array judyL' next').get pos = _ := get_of_not_last hlookup hlast
      rw [hget] at hpos
      obtain ⟨hfull', hvalue, hsub⟩ := hr _ .tree hwf apart_none
      refine ⟨hfull _ hfull', hpos ▸ hvalue, ?_⟩
      rw [← hget]
      exact get_update_next hlookup hlast hsub
  | @leaf leaf =>
      have hword := hsame leaf rfl
      have hnull : array (OrderedMap.empty.insert (copyStringToWord wordSize pos) 0)
          (fun _ => null) = array judyL' next' := hins
      obtain ⟨rfl, rfl⟩ := JudySL.array.inj hnull
      have hdrop : pos.drop wordSize ≠ leaf.drop.index :=
        fun heq => hapart leaf rfl (ext_word hword.symm heq)
      obtain ⟨hfull', hvalue, hsub⟩ := hr _ .leaf (Full.wf trivial) (apart_some hdrop)
      have hnone : (scl leaf).get pos = none := get_scl_of_ne (hapart leaf rfl)
      have hnone' : (scl leaf.drop).get (pos.drop wordSize) = none := get_scl_of_ne hdrop
      refine ⟨hfull _ hfull', hvalue.trans (by rw [hnone, hnone']), ?_⟩
      have hsub' : r.1.get = Function.update (Function.update (fun _ => null)
          (copyStringToWord wordSize pos) (scl leaf.drop) (copyStringToWord wordSize pos)).get
            (pos.drop wordSize) (some r.2) := by
        rw [Function.update_self]
        exact hsub
      have hinserted := get_update_next hlookup hlast hsub'
      rw [Function.update_idem, get_single hword hlast] at hinserted
      exact hinserted

/-! ## The loop -/

variable [NeZero wordSize]

theorem Branches.ins_last (h : t.Branches judyL next)
    (hlast : lastWordByValue (copyStringToWord wordSize pos) = true) :
    (t.judyLIns (copyStringToWord wordSize pos)).Full ∧
      (t.judyLIns (copyStringToWord wordSize pos)).valueAt (copyStringToWord wordSize pos) =
        (t.get pos).getD 0 ∧
      (t.judyLIns (copyStringToWord wordSize pos)).get =
        Function.update t.get pos (some ((t.get pos).getD 0)) := by
  rw [h.ins, h.get]
  cases hlookup : judyL.lookup (copyStringToWord wordSize pos) with
  | none =>
      have hget := get_array judyL next pos
      rw [hlookup, Option.bind_none] at hget
      rw [hget, Option.getD_none, ← get_update_absent hlookup, ← get_insert hlast]
      simp only [judyLIns, hlookup]
      have hself := OrderedMap.lookup_insert_self judyL (copyStringToWord wordSize pos) 0
      refine ⟨full_array.2 ⟨⟨_, hself ▸ Option.some_ne_none _⟩, ?_⟩, ?_, rfl⟩
      · exact (h.ok.update_absent hlookup).insert ⟨pos, rfl⟩ hlast
      · rw [valueAt, hself, Option.getD_some]
  | some value =>
      have hget : (array judyL next).get pos = some value := get_of_last hlookup hlast
      rw [hget, Option.getD_some]
      simp only [judyLIns, hlookup]
      refine ⟨full_array.2 ⟨⟨_, hlookup ▸ Option.some_ne_none _⟩, h.ok⟩, ?_, ?_⟩
      · rw [valueAt, hlookup, Option.getD_some]
      · exact (Function.update_eq_self_iff.2 hget.symm).symm

/-- The leaf alone in a new array. -/
theorem plugIn_null {leaf : Scl wordSize} {word : ℕ}
    (hne : word ≠ copyStringToWord wordSize leaf.index) :
    ∃ t₂ : JudySL wordSize, (null : JudySL wordSize).plugIn (some leaf) word = (t₂, none) ∧
      t₂.get = (scl leaf).get ∧ t₂.Full ∧ ∃ judyL next, t₂.Branches judyL next := by
  have hself (value : Word wordSize) := OrderedMap.lookup_insert_self OrderedMap.empty
    (copyStringToWord wordSize leaf.index) value
  have hok : BranchOk (OrderedMap.empty : OrderedMap ℕ (Word wordSize)) fun _ => null :=
    branches_null.ok
  unfold plugIn
  simp only [ne_eq, hne, not_false_eq_true, if_true, judyLIns]
  by_cases hlast : lastWordByValue (copyStringToWord wordSize leaf.index) = true
  · simp only [(lastWordByValue_iff leaf.index).1 hlast, if_true, setValue]
    refine ⟨_, rfl, ?_, ?_⟩
    · rw [get_insert hlast, get_insert hlast, Function.update_idem, ← branches_null.get, get_scl,
        get_null]
    · have hfull : (array ((OrderedMap.empty.insert (copyStringToWord wordSize leaf.index) 0).insert
          (copyStringToWord wordSize leaf.index) leaf.value) fun _ => null).Full := by
        refine full_array.2 ⟨⟨copyStringToWord wordSize leaf.index, ?_⟩,
          (hok.insert ⟨_, rfl⟩ hlast).insert ⟨_, rfl⟩ hlast⟩
        rw [OrderedMap.lookup_insert_self]
        exact Option.some_ne_none _
      exact ⟨hfull, _, _, branches_array hfull.wf⟩
  · have hlen : ¬ strlen leaf.index ≤ wordSize :=
      fun hlen => hlast ((lastWordByValue_iff leaf.index).2 hlen)
    simp only [hlen, if_false, setNext]
    refine ⟨_, rfl, ?_, ?_⟩
    · exact get_single rfl hlast
    · have hfull : (array (OrderedMap.empty.insert (copyStringToWord wordSize leaf.index) 0)
          (Function.update (fun _ => null) (copyStringToWord wordSize leaf.index)
            (scl leaf.drop))).Full :=
        full_array.2 ⟨⟨_, hself 0 ▸ Option.some_ne_none _⟩, hok.insert_full ⟨_, rfl⟩ trivial⟩
      exact ⟨hfull, _, _, branches_array hfull.wf⟩

theorem plugIn_spec {u : JudySL wordSize} (h : Carries t pscl u) (hwf : u.Wf)
    (hapart : Apart pos pscl) (hbranches : t.Branches judyL next) :
    ∃ t₂ pscl₂ u₂, t.plugIn pscl (copyStringToWord wordSize pos) = (t₂, pscl₂) ∧
      Carries t₂ pscl₂ u₂ ∧ u₂.get = u.get ∧ u₂.Wf ∧ Apart pos pscl₂ ∧ SameWord pos pscl₂ ∧
      ∃ judyL next, t₂.Branches judyL next := by
  cases h with
  | tree => exact ⟨t, none, t, rfl, .tree, rfl, hwf, hapart, sameWord_none, _, _, hbranches⟩
  | @leaf leaf =>
      by_cases hword : copyStringToWord wordSize pos = copyStringToWord wordSize leaf.index
      · refine ⟨null, some leaf, scl leaf, ?_, .leaf, rfl, hwf, hapart, ?_, _, _, branches_null⟩
        · unfold plugIn
          exact if_neg (not_not.2 hword)
        · intro leaf' hleaf
          obtain rfl := Option.some.inj hleaf
          exact hword.symm
      · obtain ⟨t₂, hplug, hget, hfull, hbranches₂⟩ := plugIn_null hword
        exact ⟨t₂, none, t₂, hplug, .tree, hget, hfull.wf, apart_none, sameWord_none, hbranches₂⟩

/-- The last word: nothing is carried down any more. -/
theorem inserts_last {u : JudySL wordSize} (h : Carries t pscl u) (hapart : Apart pos pscl)
    (hsame : SameWord pos pscl) (hbranches : t.Branches judyL next)
    (hlast : lastWordByValue (copyStringToWord wordSize pos) = true) :
    Inserts u pos (t.judyLIns (copyStringToWord wordSize pos),
      (t.judyLIns (copyStringToWord wordSize pos)).valueAt (copyStringToWord wordSize pos)) := by
  cases h with
  | tree =>
      obtain ⟨hfull, hvalue, hget⟩ := hbranches.ins_last hlast
      exact ⟨hfull, hvalue, hvalue ▸ hget⟩
  | @leaf leaf => exact absurd (eq_of_last (hsame leaf rfl) hlast).symm (hapart leaf rfl)

theorem insLoop_spec {u : JudySL wordSize} (h : Carries t pscl u) (hwf : u.Wf)
    (hapart : Apart pos pscl) : Inserts u pos (insLoop t pscl pos) := by
  obtain ⟨n, hn⟩ : ∃ n, n = pos.length := ⟨_, rfl⟩
  induction n using Nat.strongRecOn generalizing t pscl pos u with
  | _ n ih =>
      rw [insLoop]
      rcases appendOrMoveAside_spec h hwf hapart with
        ⟨r, hr, hinserts⟩ | ⟨t₁, pscl₁, hr, h₁, hapart₁, judyL, next, hbranches₁⟩
      · rw [hr]
        exact hinserts
      · obtain ⟨t₂, pscl₂, u₂, hplug, h₂, hget, hwf₂, hapart₂, hsame, judyL, next, hbranches₂⟩ :=
          plugIn_spec h₁ hwf hapart₁ hbranches₁
        have hgoal : ∀ r, Inserts u₂ pos r → Inserts u pos r := by
          intro r hr
          exact ⟨hr.full, hget ▸ hr.value, hget ▸ hr.get⟩
        simp only [hr, hplug]
        by_cases hlast : lastWordByValue (copyStringToWord wordSize pos) = true
        · rw [if_pos ((lastWordByValue_iff pos).1 hlast)]
          exact hgoal _ (inserts_last h₂ hapart₂ hsame hbranches₂ hlast)
        · have hlen : ¬ strlen pos ≤ wordSize :=
            fun hlen => hlast ((lastWordByValue_iff pos).2 hlen)
          rw [if_neg hlen]
          refine hgoal _ (inserts_next h₂ hapart₂ hsame hbranches₂ hlast fun u' hu' hwf' hapart' => ?_)
          exact ih _ (hn ▸ length_drop_lt hlen) hu' hwf' hapart' rfl

end JudySL
