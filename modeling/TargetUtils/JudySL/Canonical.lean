import TargetUtils.JudySL.Runs

set_option autoImplicit false

/-! # The shape of a JudySL array without deletions

Insertion makes a new JudyL array only where two indexes part. A tree that was built by insertions
is `Compressed`: below each pointer with one index there is a shortcut leaf and no array. Such a tree
is determined by its entries (`Compressed.ext`), so that the order of the insertions does not show.
Deletion is lazy and does not keep this: it leaves an array with one index as it is. -/

namespace JudySL

variable {wordSize : ℕ} {t t' : JudySL wordSize} {judyL judyL' : OrderedMap ℕ (Word wordSize)}
  {next next' : ℕ → JudySL wordSize} {pos : List Chr} {word : ℕ}

/-! ## Compressed trees -/

def TwoIndexes (t : JudySL wordSize) : Prop := ∃ k k', k ≠ k' ∧ t.get k ≠ none ∧ t.get k' ≠ none

/-- Arrays hold two indexes at least, and value areas hold nothing that is not used. -/
def Compressed : JudySL wordSize → Prop
  | null => True
  | scl _ => True
  | array judyL next => (array judyL next).TwoIndexes ∧ ∀ word, (next word).Compressed ∧
    (judyL.lookup word = none ∨ lastWordByValue word = true → next word = null) ∧
    (¬ lastWordByValue word = true → ∀ value, judyL.lookup word = some value → value = 0)

/-- The same for a branch, apart from the number of its indexes. -/
def Tidy (judyL : OrderedMap ℕ (Word wordSize)) (next : ℕ → JudySL wordSize) : Prop :=
  ∀ word, (next word).Compressed ∧
    (judyL.lookup word = none ∨ lastWordByValue word = true → next word = null) ∧
    (¬ lastWordByValue word = true → ∀ value, judyL.lookup word = some value → value = 0)

theorem compressed_array :
    (array judyL next).Compressed ↔ (array judyL next).TwoIndexes ∧ Tidy judyL next := by
  rw [Compressed]
  exact Iff.rfl

theorem not_twoIndexes_scl (leaf : Scl wordSize) : ¬ (scl leaf).TwoIndexes := by
  rintro ⟨k, k', hne, hk, hk'⟩
  have hindex : ∀ i, (scl leaf).get i ≠ none → i = leaf.index := by
    intro i hi
    by_contra hne
    exact hi (get_scl_of_ne hne)
  exact hne ((hindex k hk).trans (hindex k' hk').symm)

theorem tidy_null : Tidy (OrderedMap.empty : OrderedMap ℕ (Word wordSize)) fun _ => null := by
  intro word
  refine ⟨trivial, fun _ => rfl, fun _ value hvalue => ?_⟩
  rw [OrderedMap.lookup_empty] at hvalue
  exact absurd hvalue (Option.some_ne_none _).symm

theorem Tidy.insert {value : Word wordSize} (h : Tidy judyL next)
    (hlast : lastWordByValue word = true) : Tidy (judyL.insert word value) next := by
  intro w
  obtain ⟨hcompressed, hnull, hzero⟩ := h w
  rw [OrderedMap.lookup_insert]
  by_cases heq : w = word
  · exact ⟨hcompressed, fun _ => hnull (Or.inr (heq ▸ hlast)), fun hw => absurd (heq ▸ hlast) hw⟩
  · rw [if_neg heq]
    exact ⟨hcompressed, hnull, hzero⟩

theorem Tidy.insert_zero (h : Tidy judyL next) (hnone : judyL.lookup word = none) :
    Tidy (judyL.insert word 0) next := by
  intro w
  obtain ⟨hcompressed, hnull, hzero⟩ := h w
  rw [OrderedMap.lookup_insert]
  by_cases heq : w = word
  · rw [if_pos heq]
    exact ⟨hcompressed, fun _ => hnull (Or.inl (heq ▸ hnone)),
      fun _ value hvalue => (Option.some.inj hvalue).symm⟩
  · rw [if_neg heq]
    exact ⟨hcompressed, hnull, hzero⟩

theorem Tidy.update {value : Word wordSize} {sub : JudySL wordSize} (h : Tidy judyL next)
    (hlookup : judyL.lookup word = some value) (hlast : ¬ lastWordByValue word = true)
    (hsub : sub.Compressed) : Tidy judyL (Function.update next word sub) := by
  intro w
  obtain ⟨hcompressed, hnull, hzero⟩ := h w
  by_cases heq : w = word
  · rw [heq, Function.update_self]
    refine ⟨hsub, ?_, heq ▸ hzero⟩
    rintro (hnone | hlast')
    · exact absurd (hlookup.symm.trans hnone) (Option.some_ne_none _)
    · exact absurd hlast' hlast
  · rw [Function.update_of_ne heq]
    exact ⟨hcompressed, hnull, hzero⟩

/-- The words and the trees below them, read from the entries. -/
theorem lookup_eq_of_get [NeZero wordSize] (hok : BranchOk judyL next)
    (htidy : Tidy judyL next) (htidy' : Tidy judyL' next')
    (hget : (array judyL next).get = (array judyL' next').get) {value : Word wordSize}
    (hlookup : judyL.lookup word = some value) : judyL'.lookup word = some value := by
  obtain ⟨⟨s, rfl⟩, hbelow⟩ := hok word (hlookup ▸ Option.some_ne_none _)
  by_cases hlast : lastWordByValue (copyStringToWord wordSize s) = true
  · have hs := congrFun hget s
    rw [get_of_last hlookup hlast, get_array] at hs
    cases hlookup' : judyL'.lookup (copyStringToWord wordSize s) with
    | none =>
        rw [hlookup', Option.bind_none] at hs
        exact absurd hs (Option.some_ne_none _)
    | some value' =>
        rw [hlookup', Option.bind_some, if_pos hlast] at hs
        exact hs.symm
  · obtain ⟨rest, hrest⟩ := (hbelow.resolve_left hlast).exists_get
    have hs := congrFun hget (s.take wordSize ++ rest)
    rw [get_append hlookup hlast, get_array, (copyStringToWord_append hlast rest).1] at hs
    cases hlookup' : judyL'.lookup (copyStringToWord wordSize s) with
    | none =>
        rw [hlookup', Option.bind_none] at hs
        exact absurd hs hrest
    | some value' =>
        rw [(htidy _).2.2 hlast _ hlookup, (htidy' _).2.2 hlast _ hlookup']

/-- Compressed trees with the same entries are the same. -/
theorem Compressed.ext [NeZero wordSize] (h : t.Compressed) (h' : t'.Compressed) (hwf : t.Wf)
    (hwf' : t'.Wf) (hget : t.get = t'.get) : t = t' := by
  induction t generalizing t' with
  | null =>
      refine (hwf'.eq_null_iff.2 fun k => ?_).symm
      rw [← hget, get_null]
  | scl leaf =>
      have hleaf : t'.get leaf.index = some leaf.value := by
        rw [← hget, get_scl_self]
      cases t' with
      | null => exact absurd hleaf (Option.some_ne_none _).symm
      | scl leaf' =>
          rw [get] at hleaf
          split_ifs at hleaf with hindex
          exact congrArg scl (by cases leaf; cases leaf'; simp_all)
      | array judyL' next' =>
          obtain ⟨k, k', hne, hk, hk'⟩ := (compressed_array.1 h').1
          rw [← hget] at hk hk'
          exact absurd ⟨k, k', hne, hk, hk'⟩ (not_twoIndexes_scl leaf)
  | array judyL next ih =>
      obtain ⟨⟨k, k', hne, hk, hk'⟩, htidy⟩ := compressed_array.1 h
      cases t' with
      | null =>
          rw [hget] at hk
          exact absurd rfl hk
      | scl leaf =>
          rw [hget] at hk hk'
          exact absurd ⟨k, k', hne, hk, hk'⟩ (not_twoIndexes_scl leaf)
      | array judyL' next' =>
          have htidy' := (compressed_array.1 h').2
          have hok := (full_array.1 (hwf.full (by simp))).2
          have hok' := (full_array.1 (hwf'.full (by simp))).2
          obtain rfl : judyL = judyL' := by
            refine OrderedMap.ext_lookup fun word => Option.ext fun value => ?_
            exact ⟨lookup_eq_of_get hok htidy htidy' hget,
              lookup_eq_of_get hok' htidy' htidy hget.symm⟩
          refine congrArg (array judyL) (funext fun word => ?_)
          by_cases hpresent : judyL.lookup word = none ∨ lastWordByValue word = true
          · rw [(htidy word).2.1 hpresent, (htidy' word).2.1 hpresent]
          · push Not at hpresent
            obtain ⟨hsome, hlast⟩ := hpresent
            obtain ⟨value, hlookup⟩ := Option.ne_none_iff_exists'.1 hsome
            obtain ⟨⟨s, rfl⟩, hbelow⟩ := hok word hsome
            have hbelow' := (hok' _ hsome).2
            refine ih _ (htidy _).1 (htidy' _).1 (hbelow.resolve_left hlast).wf
              (hbelow'.resolve_left hlast).wf (funext fun rest => ?_)
            have hs := congrFun hget (s.take wordSize ++ rest)
            rwa [get_append hlookup hlast, get_append hlookup hlast] at hs

/-! ## Insertion -/

/-- A branch whose words are tidy; the leaf of a round is none. -/
def Loose (t : JudySL wordSize) : Prop := ∀ judyL next, t = array judyL next → Tidy judyL next

theorem loose_null : (null : JudySL wordSize).Loose := fun _ _ h => nomatch h

theorem loose_array (h : Tidy judyL next) : (array judyL next).Loose := by
  intro judyL' next' heq
  obtain ⟨rfl, rfl⟩ := JudySL.array.inj heq
  exact h

theorem Compressed.loose (h : t.Compressed) : t.Loose := by
  rintro judyL next rfl
  exact (compressed_array.1 h).2

/-- `JudyLIns` leaves a tidy array, also with a compressed tree below the word. -/
theorem Loose.ins (h : t.Loose) (word : ℕ) :
    ∃ judyL' next' value, t.judyLIns word = array judyL' next' ∧ Tidy judyL' next' ∧
      judyL'.lookup word = some value := by
  have hsingle : Tidy ((OrderedMap.empty : OrderedMap ℕ (Word wordSize)).insert word 0)
      fun _ => null := tidy_null.insert_zero (OrderedMap.lookup_empty word)
  cases t with
  | null => exact ⟨_, _, _, rfl, hsingle, OrderedMap.lookup_insert_self ..⟩
  | scl leaf => exact ⟨_, _, _, rfl, hsingle, OrderedMap.lookup_insert_self ..⟩
  | array judyL next =>
      have htidy := h judyL next rfl
      rw [judyLIns]
      cases hlookup : judyL.lookup word with
      | none =>
          have hnull : next word = null := (htidy word).2.1 (Or.inl hlookup)
          refine ⟨_, _, _, rfl, ?_, OrderedMap.lookup_insert_self ..⟩
          rw [← hnull, Function.update_eq_self]
          exact htidy.insert_zero hlookup
      | some value => exact ⟨_, _, _, rfl, htidy, hlookup⟩

variable {pscl : Option (Scl wordSize)} {u : JudySL wordSize}

/-- A round that does not return finds another index than the new one in the tree. -/
theorem start_compressed (h : Carries t pscl u) (hcompressed : u.Compressed)
    (hapart : Apart pos pscl) :
    (∃ leaf value, t.appendOrMoveAside pscl pos = .inl (scl leaf, value)) ∨
      (∃ k, k ≠ pos ∧ u.get k ≠ none) ∧ ∃ t₁ pscl₁,
        t.appendOrMoveAside pscl pos = .inr (t₁, pscl₁) ∧ t₁.Loose := by
  have hleaf : ∀ leaf : Scl wordSize, pos ≠ leaf.index →
      ∃ k, k ≠ pos ∧ (scl leaf).get k ≠ none := by
    intro leaf hne
    refine ⟨leaf.index, hne.symm, ?_⟩
    rw [get_scl_self]
    exact Option.some_ne_none _
  cases h with
  | @leaf leaf => exact Or.inr ⟨hleaf leaf (hapart leaf rfl), null, some leaf, rfl, loose_null⟩
  | tree =>
      cases t with
      | null => exact Or.inl ⟨_, _, rfl⟩
      | scl leaf =>
          unfold appendOrMoveAside
          by_cases hpos : pos = leaf.index
          · exact Or.inl ⟨_, _, if_pos hpos⟩
          · exact Or.inr ⟨hleaf leaf hpos, null, some leaf, if_neg hpos, loose_null⟩
      | array judyL next =>
          refine Or.inr ⟨?_, _, _, rfl, hcompressed.loose⟩
          obtain ⟨k, k', hne, hk, hk'⟩ := (compressed_array.1 hcompressed).1
          by_cases hpos : k = pos
          · exact ⟨k', fun hpos' => hne (hpos.trans hpos'.symm), hk'⟩
          · exact ⟨k, hpos, hk⟩

/-- What the next round starts from. -/
theorem Carries.nextRound (h : Carries t pscl u) (hapart : Apart pos pscl)
    (hsame : SameWord pos pscl) (hbranches : t.Branches judyL next) (hloose : t.Loose)
    (hlast : ¬ lastWordByValue (copyStringToWord wordSize pos) = true) :
    ∃ u', Carries ((t.judyLIns (copyStringToWord wordSize pos)).nextAt
      (copyStringToWord wordSize pos)) (pscl.map Scl.drop) u' ∧ u'.Wf ∧ u'.Compressed ∧
        Apart (pos.drop wordSize) (pscl.map Scl.drop) := by
  cases h with
  | tree =>
      obtain ⟨judyL', next', -, hins, -, -, hwf, -⟩ := hbranches.ins_of_not_last hlast
      obtain ⟨judyL₁, next₁, -, hins₁, htidy, -⟩ := hloose.ins (copyStringToWord wordSize pos)
      obtain ⟨rfl, rfl⟩ := JudySL.array.inj (hins.symm.trans hins₁)
      rw [hins]
      exact ⟨_, .tree, hwf, (htidy _).1, apart_none⟩
  | @leaf leaf =>
      refine ⟨scl leaf.drop, .leaf, Full.wf trivial, trivial, apart_some fun heq => ?_⟩
      exact hapart leaf rfl (ext_word (hsame leaf rfl).symm heq)

variable [NeZero wordSize]

theorem Loose.plugIn (h : t.Loose) (pscl : Option (Scl wordSize)) (word : ℕ) :
    (t.plugIn pscl word).1.Loose := by
  cases pscl with
  | none => exact h
  | some leaf =>
      obtain ⟨judyL', next', value, hins, htidy, hlookup⟩ :=
        h.ins (copyStringToWord wordSize leaf.index)
      unfold JudySL.plugIn
      simp only [hins, setValue, setNext]
      split_ifs with hword hlen
      · exact loose_array (htidy.insert ((lastWordByValue_iff leaf.index).2 hlen))
      · refine loose_array (htidy.update hlookup (fun hlast => hlen ?_) trivial)
        exact (lastWordByValue_iff leaf.index).1 hlast
      · exact h

theorem insLoop_compressed (h : Carries t pscl u) (hwf : u.Wf) (hapart : Apart pos pscl)
    (hcompressed : u.Compressed) : (insLoop t pscl pos).1.Compressed := by
  obtain ⟨n, hn⟩ : ∃ n, n = pos.length := ⟨_, rfl⟩
  induction n using Nat.strongRecOn generalizing t pscl pos u with
  | _ n ih =>
      have hget := (insLoop_spec h hwf hapart).get
      rcases start_compressed h hcompressed hapart with
        ⟨leaf, value, hr⟩ | ⟨⟨k, hne, hk⟩, t₁, pscl₁, hr, hloose₁⟩
      · rw [insLoop, hr]
        trivial
      · have hshape : ∃ judyL' next', (insLoop t pscl pos).1 = array judyL' next' ∧
            Tidy judyL' next' := by
          rcases appendOrMoveAside_spec h hwf hapart with
            ⟨r, hr', -⟩ | ⟨t₁', pscl₁', hr', h₁, hapart₁, judyL, next, hbranches₁⟩
          · exact absurd (hr.symm.trans hr') Sum.inr_ne_inl
          obtain ⟨rfl, rfl⟩ := Prod.mk.inj (Sum.inr.inj (hr.symm.trans hr'))
          obtain ⟨t₂, pscl₂, u₂, hplug, h₂, -, -, hapart₂, hsame, judyL, next, hbranches₂⟩ :=
            plugIn_spec h₁ hwf hapart₁ hbranches₁
          have hloose₂ : t₂.Loose := by
            have hloose := hloose₁.plugIn pscl₁ (copyStringToWord wordSize pos)
            rwa [hplug] at hloose
          obtain ⟨judyL', next', value, hins, htidy, hlookup⟩ :=
            hloose₂.ins (copyStringToWord wordSize pos)
          rw [insLoop]
          simp only [hr, hplug]
          by_cases hlast : lastWordByValue (copyStringToWord wordSize pos) = true
          · rw [if_pos ((lastWordByValue_iff pos).1 hlast), hins]
            exact ⟨_, _, rfl, htidy⟩
          · have hlen : ¬ strlen pos ≤ wordSize :=
              fun hlen => hlast ((lastWordByValue_iff pos).2 hlen)
            obtain ⟨u', hu', hwf', hcompressed', hapart'⟩ :=
              h₂.nextRound hapart₂ hsame hbranches₂ hloose₂ hlast
            rw [if_neg hlen, hins]
            refine ⟨_, _, rfl, htidy.update hlookup hlast ?_⟩
            rw [hins] at hu'
            exact ih _ (hn ▸ length_drop_lt hlen) hu' hwf' hapart' hcompressed' rfl
        obtain ⟨judyL', next', harray, htidy⟩ := hshape
        rw [harray] at hget ⊢
        refine compressed_array.2 ⟨⟨pos, k, hne.symm, ?_, ?_⟩, htidy⟩
        · rw [hget, Function.update_self]
          exact Option.some_ne_none _
        · rw [hget, Function.update_of_ne hne]
          exact hk

/-! ## Stores -/

theorem Compressed.write (h : t.Compressed) (pos : List Chr) (value : Word wordSize) :
    (t.write pos value).Compressed := by
  induction t generalizing pos with
  | null => trivial
  | scl leaf => trivial
  | array judyL next ih =>
      obtain ⟨⟨k, k', hne, hk, hk'⟩, htidy⟩ := compressed_array.1 h
      have hkept : ∀ i, (array judyL next).get i ≠ none →
          ((array judyL next).write pos value).get i ≠ none := by
        intro i hi
        rw [get_write]
        split_ifs with hnone
        · exact hi
        · rw [Function.update_apply]
          split_ifs
          · exact Option.some_ne_none _
          · exact hi
      have htwo : ((array judyL next).write pos value).TwoIndexes :=
        ⟨k, k', hne, hkept k hk, hkept k' hk'⟩
      rw [JudySL.write] at htwo ⊢
      cases hlookup : judyL.lookup (copyStringToWord wordSize pos) with
      | none => exact h
      | some old =>
          simp only [hlookup] at htwo ⊢
          by_cases hlast : lastWordByValue (copyStringToWord wordSize pos) = true
          · rw [if_pos hlast] at htwo ⊢
            exact compressed_array.2 ⟨htwo, htidy.insert hlast⟩
          · rw [if_neg hlast] at htwo ⊢
            refine compressed_array.2 ⟨htwo, htidy.update hlookup hlast ?_⟩
            exact ih _ (htidy _).1 _

/-! ## Whole runs -/

/-- A call other than a deletion. -/
def Call.Keeps : Call wordSize → Prop
  | del _ => False
  | _ => True

/-- A step of a run without deletions. -/
def KeepingStep (t : JudySL wordSize) (e : Call wordSize × Reply wordSize) (t' : JudySL wordSize) :
    Prop :=
  e.1.Keeps ∧ Step t e t'

theorem wf_of_run {events : List (Call wordSize × Reply wordSize)}
    (h : Run KeepingStep null events t) : t.Wf := by
  obtain ⟨m, -, hholds⟩ := holds_of_run (h.mono fun _ _ _ hstep => hstep.2)
  exact hholds.wf

theorem compressed_of_run {events : List (Call wordSize × Reply wordSize)}
    (h : Run KeepingStep null events t) : t.Compressed := by
  induction h with
  | nil => trivial
  | @snoc es t₁ t₂ e hrun hstep ih =>
      obtain ⟨c, r⟩ := e
      obtain ⟨hkeeps, hexec⟩ := hstep
      obtain rfl := (congrArg Prod.fst hexec : (c.exec t₁).1 = t₂)
      cases c with
      | ins index => exact insLoop_compressed .tree (wf_of_run hrun) apart_none ih
      | write index value => exact ih.write index value
      | del index => exact hkeeps.elim
      | get index => exact ih
      | neighbor d index => exact ih
      | atOrBeyond d index => exact ih

/-- As long as nothing is deleted, the tree is determined by its entries: any two runs of
    insertions, stores and searches that end with the same entries end with the same tree. Every
    array in it holds two indexes at least. -/
theorem sameTree_of_run {events events' : List (Call wordSize × Reply wordSize)}
    (h : Run KeepingStep null events t) (h' : Run KeepingStep null events' t') :
    t.Compressed ∧ (t = t' ↔ ∀ index, t.get index = t'.get index) := by
  refine ⟨compressed_of_run h, ?_, fun hget => ?_⟩
  · rintro rfl index
    rfl
  · exact (compressed_of_run h).ext (compressed_of_run h') (wf_of_run h) (wf_of_run h') (funext hget)

theorem keepingStep_ins (t : JudySL wordSize) (index : List Chr) :
    KeepingStep t (.ins index, .value (t.ins index).2) (t.ins index).1 := ⟨trivial, rfl⟩

theorem get_ins (hwf : t.Wf) (index : List Chr) :
    (t.ins index).1.get = Function.update t.get index (some ((t.get index).getD 0)) := by
  have hinserts : Inserts t index (t.ins index) := insLoop_spec .tree hwf apart_none
  rw [hinserts.get, hinserts.value]

/-- Two indexes of two words each, inserted in either order. -/
theorem sameTree_of_run_orders :
    let one := twoWords ⟨1, by decide⟩
    let two := twoWords ⟨2, by decide⟩
    (((null : JudySL 4).ins one).1.ins two).1.Compressed ∧
      (((null : JudySL 4).ins one).1.ins two).1 = (((null : JudySL 4).ins two).1.ins one).1 := by
  intro one two
  have hrun (i j : List Chr) := (Run.nil.snoc (keepingStep_ins (null : JudySL 4) i)).snoc
    (keepingStep_ins _ j)
  have hwf (i : List Chr) : ((null : JudySL 4).ins i).1.Wf :=
    wf_of_run (Run.nil.snoc (keepingStep_ins (null : JudySL 4) i))
  have hne : one ≠ two := by decide
  obtain ⟨hcompressed, hsame⟩ := sameTree_of_run (hrun one two) (hrun two one)
  refine ⟨hcompressed, hsame.2 fun index => congrFun ?_ index⟩
  -- both end with the value 0 at the two indexes
  have hget (i j : List Chr) (hij : i ≠ j) : (((null : JudySL 4).ins i).1.ins j).1.get =
      Function.update (Function.update (fun _ => none) i (some 0)) j (some 0) := by
    rw [get_ins (hwf i), get_ins wf_null, Function.update_of_ne hij.symm]
    rfl
  rw [hget one two hne, hget two one hne.symm, Function.update_comm hne]

end JudySL
