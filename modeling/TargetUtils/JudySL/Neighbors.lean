import TargetUtils.JudySL.Lookup

set_option autoImplicit false

/-! # Searching a JudySL array in order

`JudySLNext` finds the least index greater than the one given, `JudySLPrev` the greatest smaller
one (`neighbor_spec`). The search goes down along the words of the index as far as they are in the
tree, and at the lowest level where it can turns to the neighbouring word and from there to the first
index below it. -/

namespace JudySL

variable {wordSize : ℕ} {d : Direction} {t : JudySL wordSize}
  {judyL : OrderedMap ℕ (Word wordSize)} {next : ℕ → JudySL wordSize} {index : List Chr}
  {word : ℕ} {value : Word wordSize}

/-! ## The equations of a branch -/

/-- What the search makes of the word it found, with the rest of the buffer. -/
def found (d : Direction) (next : ℕ → JudySL wordSize) (rest : List Chr)
    (x : ℕ × Word wordSize) : Option (List Chr × Word wordSize) :=
  if lastWordByValue x.1 then some (copyWordToString wordSize x.1, x.2)
  else ((next x.1).neighborSub d false rest).map fun y =>
    (copyWordToString wordSize x.1 ++ y.1, y.2)

theorem neighborSub_false (d : Direction) (judyL : OrderedMap ℕ (Word wordSize))
    (next : ℕ → JudySL wordSize) (index : List Chr) :
    (array judyL next).neighborSub d false index =
      (judyL.atOrBeyond d (startWord wordSize d)).bind (found d next (index.drop wordSize)) := by
  rw [neighborSub]
  simp only [Bool.false_eq_true, false_and, if_false]
  cases judyL.atOrBeyond d (startWord wordSize d) <;> rfl

/-- What the search finds below the first word of the given index. -/
def searchBelow (d : Direction) (judyL : OrderedMap ℕ (Word wordSize)) (next : ℕ → JudySL wordSize)
    (index : List Chr) : Option (List Chr × Word wordSize) :=
  if wordSize < strlen index ∧ judyL.lookup (copyStringToWord wordSize index) ≠ none then
    (next (copyStringToWord wordSize index)).neighborSub d true (index.drop wordSize)
  else none

theorem neighborSub_below {x : List Chr × Word wordSize} (h : searchBelow d judyL next index = some x) :
    (array judyL next).neighborSub d true index = some (index.take wordSize ++ x.1, x.2) := by
  unfold searchBelow at h
  rw [neighborSub]
  simp only [true_and, h]

theorem neighborSub_beyond (h : searchBelow d judyL next index = none) :
    (array judyL next).neighborSub d true index =
      (judyL.neighbor d (copyStringToWord wordSize index)).bind
        (found d next (index.drop wordSize)) := by
  unfold searchBelow at h
  rw [neighborSub]
  simp only [true_and, h, if_true]
  cases judyL.neighbor d (copyStringToWord wordSize index) <;> rfl

/-! ## The first index of a tree -/

/-- The first entry of `t` in direction `d` is the one with the key `k`. -/
def IsFirst (d : Direction) (t : JudySL wordSize) (k : List Chr) (value : Word wordSize) : Prop :=
  d.Nearest t.get (fun _ => True) (some (k, value))

/-- No key of the branch is passed before the word at which a search starts. -/
theorem BranchOk.not_before_start (h : BranchOk judyL next) (hword : judyL.lookup word ≠ none) :
    startWord wordSize d = word ∨ d.Before (startWord wordSize d) word := by
  obtain ⟨⟨s, rfl⟩, -⟩ := h word hword
  have hlt : copyStringToWord wordSize s < 256 ^ wordSize := copyStringToWord_lt s
  cases d with
  | up => exact (Nat.eq_zero_or_pos _).imp_left Eq.symm
  | down =>
      rcases Nat.lt_or_ge (copyStringToWord wordSize s) (256 ^ wordSize - 1) with h | h
      · exact Or.inr h
      · exact Or.inl (Nat.le_antisymm h (Nat.le_sub_one_of_lt hlt))

theorem get_scl_of_before {leaf : Scl wordSize} {i : List Chr} (h : d.Before i leaf.index) :
    (scl leaf).get i = none := by
  refine get_scl_of_ne ?_
  rintro rfl
  exact Direction.Before.irrefl d _ h

variable [NeZero wordSize]

/-- From a word of the branch the search comes to the first index that starts with it. -/
theorem found_spec (hok : BranchOk judyL next) (hlookup : judyL.lookup word = some value)
    (hnext : (next word).Full → ∀ rest, ∃ k v,
      (next word).neighborSub d false rest = some (k, v) ∧ IsFirst d (next word) k v)
    (rest : List Chr) :
    ∃ k v, found d next rest (word, value) = some (k, v) ∧ copyStringToWord wordSize k = word ∧
      (array judyL next).get k = some v ∧
      ∀ i, copyStringToWord wordSize i = word → d.Before i k → (array judyL next).get i = none := by
  obtain ⟨⟨s, rfl⟩, hbelow⟩ := hok word (hlookup ▸ Option.some_ne_none _)
  unfold found
  by_cases hlast : lastWordByValue (copyStringToWord wordSize s) = true
  · refine ⟨s, value, ?_, rfl, ?_, ?_⟩
    · rw [if_pos hlast, copyWordToString_of_last hlast]
    · exact get_of_last hlookup hlast
    · intro i hword hbefore
      rw [eq_of_last hword hlast] at hbefore
      exact absurd hbefore (Direction.Before.irrefl d s)
  · obtain ⟨k, v, hfound, hk, -, hfirst⟩ := hnext (hbelow.resolve_left hlast) rest
    obtain ⟨hcopy, hdrop⟩ := copyStringToWord_append hlast k
    refine ⟨s.take wordSize ++ k, v, ?_, hcopy, ?_, ?_⟩
    · rw [if_neg hlast, hfound, Option.map_some]
      unfold copyWordToString copyStringToWord
      rw [PaddedWords.decode_encode]
    · rw [get_append hlookup hlast]
      exact hk
    · intro i hword hbefore
      rw [before_of_word (hword.trans hcopy.symm), hdrop] at hbefore
      rw [get_of_not_last (hword ▸ hlookup) (hword ▸ hlast), hword]
      exact hfirst _ trivial hbefore

/-- The search without a given index finds the first one. -/
theorem first_spec (h : t.Full) (index : List Chr) :
    ∃ k v, t.neighborSub d false index = some (k, v) ∧ IsFirst d t k v := by
  induction t generalizing index with
  | null => exact h.elim
  | scl leaf =>
      refine ⟨leaf.index, leaf.value, ?_, ?_, trivial, ?_⟩
      · rw [neighborSub, if_pos (Or.inl rfl)]
      · exact get_scl_self leaf
      · exact fun i _ hbefore => get_scl_of_before hbefore
  | array judyL next ih =>
      obtain ⟨⟨word, hword⟩, hok⟩ := full_array.1 h
      have hnearest := judyL.nearest_atOrBeyond d (startWord wordSize d)
      rw [neighborSub_false]
      cases hstart : judyL.atOrBeyond d (startWord wordSize d) with
      | none =>
          rw [hstart] at hnearest
          exact absurd (hnearest word (hok.not_before_start hword)) hword
      | some x =>
          rw [hstart] at hnearest
          obtain ⟨hx, -, hfirst⟩ := hnearest
          obtain ⟨k, v, hfound, hcopy, hk, hbefore⟩ :=
            found_spec hok hx (fun hfull rest => ih x.1 hfull rest) (index.drop wordSize)
          refine ⟨k, v, hfound, hk, trivial, fun i _ hi => ?_⟩
          rcases (before_iff d i k).1 hi with hword | ⟨hword, -⟩
          · by_contra hne
            rw [hcopy] at hword
            have hpresent : judyL.lookup (copyStringToWord wordSize i) ≠ none := by
              intro hnone
              rw [get_array, hnone] at hne
              exact hne rfl
            exact hpresent (hfirst _ (hok.not_before_start hpresent) hword)
          · exact hbefore i (hword.trans hcopy) hi

/-! ## The neighbour of an index -/

/-- The search below the word of the index is right. -/
def BelowNearest (d : Direction) (judyL : OrderedMap ℕ (Word wordSize))
    (next : ℕ → JudySL wordSize) (index : List Chr) : Prop :=
  judyL.lookup (copyStringToWord wordSize index) ≠ none →
    ¬ lastWordByValue (copyStringToWord wordSize index) = true →
      d.Nearest (next (copyStringToWord wordSize index)).get (d.Before (index.drop wordSize))
        ((next (copyStringToWord wordSize index)).neighborSub d true (index.drop wordSize))

theorem nearest_below {x : List Chr × Word wordSize} (h : searchBelow d judyL next index = some x)
    (hnext : BelowNearest d judyL next index) :
    d.Nearest (array judyL next).get (d.Before index)
      (some (index.take wordSize ++ x.1, x.2)) := by
  unfold searchBelow at h
  split_ifs at h with hcond
  obtain ⟨value, hlookup⟩ := Option.ne_none_iff_exists'.1 hcond.2
  have hlast : ¬ lastWordByValue (copyStringToWord wordSize index) = true := by
    rw [lastWordByValue_iff]
    exact Nat.not_le_of_lt hcond.1
  have hnearest := hnext hcond.2 hlast
  rw [h] at hnearest
  obtain ⟨hx, hbeyond, hfirst⟩ := hnearest
  obtain ⟨hcopy, hdrop⟩ := copyStringToWord_append hlast x.1
  refine ⟨?_, ?_, fun i hi hbefore => ?_⟩
  · rw [get_append hlookup hlast]
    exact hx
  · rw [before_of_word hcopy.symm, hdrop]
    exact hbeyond
  · -- what lies between the two starts with their word
    have hword : copyStringToWord wordSize i = copyStringToWord wordSize index := by
      rcases (before_iff d index i).1 hi with hlt | ⟨heq, -⟩
      · rcases (before_iff d i _).1 hbefore with hlt' | ⟨heq', -⟩
        · rw [hcopy] at hlt'
          exact absurd hlt' hlt.asymm
        · exact heq'.trans hcopy
      · exact heq.symm
    rw [before_of_word hword.symm] at hi
    rw [before_of_word (hword.trans hcopy.symm), hdrop] at hbefore
    rw [get_of_not_last (hword ▸ hlookup) (hword ▸ hlast), hword]
    exact hfirst _ hi hbefore

/-- Nothing found below the word of the index: nothing beyond the index starts with this word. -/
theorem get_of_below_none (h : searchBelow d judyL next index = none)
    (hnext : BelowNearest d judyL next index) {i : List Chr}
    (hword : copyStringToWord wordSize i = copyStringToWord wordSize index)
    (hi : d.Before index i) : (array judyL next).get i = none := by
  rw [get_array, hword]
  cases hlookup : judyL.lookup (copyStringToWord wordSize index) with
  | none => rfl
  | some value =>
      have hlast : ¬ lastWordByValue (copyStringToWord wordSize index) = true := by
        intro hlast
        rw [eq_of_last hword hlast] at hi
        exact Direction.Before.irrefl d _ hi
      have hnearest := hnext (hlookup ▸ Option.some_ne_none _) hlast
      rw [lastWordByValue_iff] at hlast
      unfold searchBelow at h
      rw [if_pos ⟨Nat.lt_of_not_le hlast, hlookup ▸ Option.some_ne_none _⟩] at h
      rw [h] at hnearest
      rw [Option.bind_some, if_neg ((lastWordByValue_iff index).not.2 hlast)]
      exact hnearest _ ((before_of_word hword.symm).1 hi)

theorem neighborSub_spec (h : t.Wf) (index : List Chr) :
    d.Nearest t.get (d.Before index) (t.neighborSub d true index) := by
  induction t generalizing index with
  | null =>
      intro i _
      rfl
  | scl leaf =>
      rw [neighborSub]
      by_cases hbefore : d.Before index leaf.index
      · rw [if_pos (Or.inr hbefore)]
        exact ⟨get_scl_self leaf, hbefore, fun i _ hi => get_scl_of_before hi⟩
      · rw [if_neg (by simpa using hbefore)]
        intro i hi
        have hne : i ≠ leaf.index := by
          rintro rfl
          exact hbefore hi
        exact get_scl_of_ne hne
  | array judyL next ih =>
      obtain ⟨-, hok⟩ := full_array.1 (h.full (by simp))
      have hnext : BelowNearest d judyL next index := by
        intro hpresent hlast
        exact ih _ ((hok _ hpresent).2.resolve_left hlast).wf _
      cases hbelow : searchBelow d judyL next index with
      | some x =>
          rw [neighborSub_below hbelow]
          exact nearest_below hbelow hnext
      | none =>
          have hsame : ∀ i, copyStringToWord wordSize i = copyStringToWord wordSize index →
              d.Before index i → (array judyL next).get i = none :=
            fun i => get_of_below_none hbelow hnext
          have hnearest := judyL.nearest_neighbor d (copyStringToWord wordSize index)
          rw [neighborSub_beyond hbelow]
          cases hneighbor : judyL.neighbor d (copyStringToWord wordSize index) with
          | none =>
              rw [hneighbor] at hnearest
              intro i hi
              rcases (before_iff d index i).1 hi with hlt | ⟨heq, -⟩
              · rw [get_array, hnearest _ hlt, Option.bind_none]
              · exact hsame i heq.symm hi
          | some x =>
              rw [hneighbor] at hnearest
              obtain ⟨hx, hbeyond, hfirst⟩ := hnearest
              obtain ⟨k, v, hfound, hcopy, hk, hbefore⟩ :=
                found_spec hok hx (fun hfull rest => first_spec hfull rest) (index.drop wordSize)
              rw [Option.bind_some, hfound]
              refine ⟨hk, (before_iff d index k).2 (Or.inl (hcopy ▸ hbeyond)), fun i hi hik => ?_⟩
              rcases (before_iff d index i).1 hi with hlt | ⟨heq, -⟩
              · rcases (before_iff d i k).1 hik with hlt' | ⟨heq', -⟩
                · rw [get_array, hfirst _ hlt (hcopy ▸ hlt'), Option.bind_none]
                · exact hbefore i (heq'.trans hcopy) hik
              · exact hsame i heq.symm hi

/-- `JudySLFirst` and `JudySLLast` find the first entry from the given index on. -/
theorem atOrBeyond_spec (h : t.Wf) (index : List Chr) :
    d.Nearest t.get (fun i => index = i ∨ d.Before index i) (t.atOrBeyond d index) := by
  unfold atOrBeyond
  cases hget : t.get index with
  | some value => exact Direction.nearest_self hget
  | none => exact (neighborSub_spec h index).of_beyond hget

end JudySL
