import TargetUtils.JudySL.Basic
import Mathlib

set_option autoImplicit false

/-! # What a JudySL array holds

A branch is a JudyL array with the trees its words point to. Looking an index up goes to the branch
of its first word with the rest of the index, so that a change behind one word is a change at one
index (`get_insert`, `get_erase`, `get_update_next`). A tree is `Full` when every word in it starts
some index and nothing in it is empty; `JudySLDel` keeps this, and empties the tree with its last
index. -/

namespace JudySL

variable {wordSize : ℕ}

/-! ## Words and strings -/

/-- The word of some string. -/
def IsWord (wordSize word : ℕ) : Prop := ∃ str, copyStringToWord wordSize str = word

section

variable {s t : List Chr} {d : Direction}

theorem ext_word (hword : copyStringToWord wordSize s = copyStringToWord wordSize t)
    (hrest : s.drop wordSize = t.drop wordSize) : s = t := by
  have htake := PaddedWords.encode_eq_encode.1 hword
  rw [← List.take_append_drop wordSize s, htake, hrest, List.take_append_drop]

theorem before_iff (d : Direction) (s t : List Chr) :
    d.Before s t ↔ d.Before (copyStringToWord wordSize s) (copyStringToWord wordSize t) ∨
      copyStringToWord wordSize s = copyStringToWord wordSize t ∧
        d.Before (s.drop wordSize) (t.drop wordSize) := by
  cases d with
  | up => exact PaddedWords.lt_iff_encode wordSize s t
  | down =>
      refine (PaddedWords.lt_iff_encode wordSize t s).trans ?_
      rw [eq_comm (a := copyStringToWord wordSize s)]
      exact Iff.rfl

/-- Two indexes with the same first word are passed in the order of their rests. -/
theorem before_of_word {i k : List Chr}
    (hword : copyStringToWord wordSize i = copyStringToWord wordSize k) :
    d.Before i k ↔ d.Before (i.drop wordSize) (k.drop wordSize) := by
  rw [before_iff d, hword]
  constructor
  · intro h
    exact (h.resolve_left (Direction.Before.irrefl d _)).2
  · intro h
    exact Or.inr ⟨rfl, h⟩

theorem copyStringToWord_lt (s : List Chr) : copyStringToWord wordSize s < 256 ^ wordSize :=
  PaddedWords.encode_lt (by decide) wordSize s

variable [NeZero wordSize]

/-- The two tests for the last word of an index agree. -/
theorem lastWordByValue_iff (s : List Chr) :
    lastWordByValue (copyStringToWord wordSize s) = true ↔ strlen s ≤ wordSize := by
  unfold lastWordByValue copyStringToWord strlen
  rw [decide_eq_true_iff, PaddedWords.encode_mod_eq_zero (NeZero.pos wordSize), Nat.succ_le_iff]

theorem drop_of_last (h : lastWordByValue (copyStringToWord wordSize s) = true) :
    s.drop wordSize = [] := by
  have hlen := (lastWordByValue_iff s).1 h
  exact List.drop_eq_nil_of_le (Nat.le_of_succ_le hlen)

theorem eq_of_last (hword : copyStringToWord wordSize s = copyStringToWord wordSize t)
    (h : lastWordByValue (copyStringToWord wordSize t) = true) : s = t := by
  have hs := drop_of_last (hword ▸ h : lastWordByValue (copyStringToWord wordSize s) = true)
  exact ext_word hword (hs.trans (drop_of_last h).symm)

theorem copyWordToString_of_last (h : lastWordByValue (copyStringToWord wordSize s) = true) :
    copyWordToString wordSize (copyStringToWord wordSize s) = s := by
  have htake : s.take wordSize ++ s.drop wordSize = s := List.take_append_drop wordSize s
  rw [drop_of_last h, List.append_nil] at htake
  exact (PaddedWords.decode_encode wordSize s).trans htake

theorem length_take (h : ¬ lastWordByValue (copyStringToWord wordSize s) = true) :
    (s.take wordSize).length = wordSize := by
  rw [lastWordByValue_iff] at h
  unfold strlen at h
  rw [List.length_take]
  omega

/-- Behind a word that is not the last any string can follow. -/
theorem copyStringToWord_append (h : ¬ lastWordByValue (copyStringToWord wordSize s) = true)
    (rest : List Chr) :
    copyStringToWord wordSize (s.take wordSize ++ rest) = copyStringToWord wordSize s ∧
      (s.take wordSize ++ rest).drop wordSize = rest := by
  constructor
  · refine PaddedWords.encode_eq_encode.2 ?_
    rw [List.take_append_of_le_length (length_take h).ge, List.take_take, Nat.min_self]
  · rw [List.drop_append_of_le_length (length_take h).ge,
      List.drop_eq_nil_of_le (length_take h).le, List.nil_append]

end

/-! ## Looking up in a branch -/

section

variable {judyL : OrderedMap ℕ (Word wordSize)} {next : ℕ → JudySL wordSize} {pos : List Chr}
  {word : ℕ} {value : Word wordSize} {sub : JudySL wordSize}

theorem get_array (judyL : OrderedMap ℕ (Word wordSize)) (next : ℕ → JudySL wordSize)
    (pos : List Chr) :
    (array judyL next).get pos = (judyL.lookup (copyStringToWord wordSize pos)).bind fun value =>
      if lastWordByValue (copyStringToWord wordSize pos) then some value
      else (next (copyStringToWord wordSize pos)).get (pos.drop wordSize) := by
  rw [get]
  cases judyL.lookup (copyStringToWord wordSize pos) <;> rfl

theorem get_null : (null : JudySL wordSize).get = fun _ => none := rfl

theorem get_scl (leaf : Scl wordSize) :
    (scl leaf).get = Function.update (fun _ => none) leaf.index (some leaf.value) := by
  funext pos
  rw [get, Function.update_apply]

theorem get_scl_self (leaf : Scl wordSize) : (scl leaf).get leaf.index = some leaf.value := by
  rw [get_scl, Function.update_self]

theorem get_scl_of_ne {leaf : Scl wordSize} (h : pos ≠ leaf.index) : (scl leaf).get pos = none := by
  rw [get_scl, Function.update_of_ne h]

/-- An index that ends with its first word. -/
theorem get_of_last (hlookup : judyL.lookup (copyStringToWord wordSize pos) = some value)
    (h : lastWordByValue (copyStringToWord wordSize pos) = true) :
    (array judyL next).get pos = some value := by
  rw [get_array, hlookup, Option.bind_some, if_pos h]

/-- An index that goes on behind its first word. -/
theorem get_of_not_last (hlookup : judyL.lookup (copyStringToWord wordSize pos) = some value)
    (h : ¬ lastWordByValue (copyStringToWord wordSize pos) = true) :
    (array judyL next).get pos = (next (copyStringToWord wordSize pos)).get (pos.drop wordSize) := by
  rw [get_array, hlookup, Option.bind_some, if_neg h]

/-- The entries of a branch behind a word are those of the tree there. -/
theorem get_append [NeZero wordSize]
    (hlookup : judyL.lookup (copyStringToWord wordSize pos) = some value)
    (h : ¬ lastWordByValue (copyStringToWord wordSize pos) = true) (rest : List Chr) :
    (array judyL next).get (pos.take wordSize ++ rest) =
      (next (copyStringToWord wordSize pos)).get rest := by
  obtain ⟨hcopy, hdrop⟩ := copyStringToWord_append h rest
  rw [get_of_not_last (hcopy.symm ▸ hlookup) (hcopy.symm ▸ h), hcopy, hdrop]

/-- Storing a value for the last word of an index. -/
theorem get_insert [NeZero wordSize]
    (h : lastWordByValue (copyStringToWord wordSize pos) = true) :
    (array (judyL.insert (copyStringToWord wordSize pos) value) next).get =
      Function.update (array judyL next).get pos (some value) := by
  funext k
  rw [Function.update_apply, get_array, get_array, OrderedMap.lookup_insert]
  by_cases hk : k = pos
  · rw [hk, if_pos rfl, if_pos rfl, Option.bind_some, if_pos h]
  · have hword : copyStringToWord wordSize k ≠ copyStringToWord wordSize pos := by
      intro hword
      exact hk (eq_of_last hword h)
    rw [if_neg hword, if_neg hk]

theorem get_erase [NeZero wordSize] (h : lastWordByValue (copyStringToWord wordSize pos) = true) :
    (array (judyL.erase (copyStringToWord wordSize pos)) next).get =
      Function.update (array judyL next).get pos none := by
  funext k
  rw [Function.update_apply, get_array, get_array, OrderedMap.lookup_erase]
  by_cases hk : k = pos
  · rw [hk, if_pos rfl, if_pos rfl, Option.bind_none]
  · have hword : copyStringToWord wordSize k ≠ copyStringToWord wordSize pos := by
      intro hword
      exact hk (eq_of_last hword h)
    rw [if_neg hword, if_neg hk]

/-- A change at one index behind a word. -/
theorem get_update_next {r : Option (Word wordSize)}
    (hlookup : judyL.lookup (copyStringToWord wordSize pos) = some value)
    (h : ¬ lastWordByValue (copyStringToWord wordSize pos) = true)
    (hsub : sub.get =
      Function.update (next (copyStringToWord wordSize pos)).get (pos.drop wordSize) r) :
    (array judyL (Function.update next (copyStringToWord wordSize pos) sub)).get =
      Function.update (array judyL next).get pos r := by
  funext k
  rw [Function.update_apply, get_array, get_array]
  by_cases hword : copyStringToWord wordSize k = copyStringToWord wordSize pos
  · rw [hword, hlookup, Option.bind_some, Option.bind_some, if_neg h, if_neg h,
      Function.update_self, hsub, Function.update_apply]
    have hiff : k.drop wordSize = pos.drop wordSize ↔ k = pos :=
      ⟨ext_word hword, fun hk => hk ▸ rfl⟩
    simp only [hiff]
  · have hk : k ≠ pos := fun hk => hword (hk ▸ rfl)
    rw [if_neg hk, Function.update_of_ne hword]

/-- A word that has nothing behind it does not count. -/
theorem get_erase_null (h : ¬ lastWordByValue word = true) (hnull : next word = null) :
    (array (judyL.erase word) next).get = (array judyL next).get := by
  funext k
  rw [get_array, get_array, OrderedMap.lookup_erase]
  by_cases hword : copyStringToWord wordSize k = word
  · simp only [hword, if_true, h, if_false, hnull, Option.bind_none, Bool.false_eq_true]
    cases judyL.lookup word <;> rfl
  · rw [if_neg hword]

/-- The pointer of an absent word does not count. -/
theorem get_update_absent (hnone : judyL.lookup word = none) :
    (array judyL (Function.update next word sub)).get = (array judyL next).get := by
  funext k
  rw [get_array, get_array]
  by_cases hword : copyStringToWord wordSize k = word
  · rw [hword, hnone, Option.bind_none, Option.bind_none]
  · rw [Function.update_of_ne hword]

theorem get_insert_null (h : ¬ lastWordByValue word = true) (hnone : judyL.lookup word = none) :
    (array (judyL.insert word value) (Function.update next word null)).get =
      (array judyL next).get := by
  funext k
  rw [get_array, get_array, OrderedMap.lookup_insert]
  by_cases hword : copyStringToWord wordSize k = word
  · rw [hword, if_pos rfl, hnone, Option.bind_some, if_neg h, Function.update_self]
    rfl
  · rw [if_neg hword, Function.update_of_ne hword]

end

/-! ## Full trees -/

/-- There are indexes in the tree, and below each of its words. -/
def Full : JudySL wordSize → Prop
  | null => False
  | scl _ => True
  | array judyL next => (∃ word, judyL.lookup word ≠ none) ∧
    ∀ word, judyL.lookup word ≠ none →
      IsWord wordSize word ∧ (lastWordByValue word = true ∨ (next word).Full)

/-- Every word of the branch starts an index. -/
def BranchOk (judyL : OrderedMap ℕ (Word wordSize)) (next : ℕ → JudySL wordSize) : Prop :=
  ∀ word, judyL.lookup word ≠ none →
    IsWord wordSize word ∧ (lastWordByValue word = true ∨ (next word).Full)

/-- The trees `PArray` can point to: `NULL`, or one with indexes. -/
def Wf (t : JudySL wordSize) : Prop := t = null ∨ t.Full

section

variable {judyL : OrderedMap ℕ (Word wordSize)} {next : ℕ → JudySL wordSize} {pos : List Chr}
  {word : ℕ} {value : Word wordSize} {sub t : JudySL wordSize}

theorem full_array :
    (array judyL next).Full ↔ (∃ word, judyL.lookup word ≠ none) ∧ BranchOk judyL next := by
  rw [Full]
  exact Iff.rfl

theorem BranchOk.insert (h : BranchOk judyL next) (hword : IsWord wordSize word)
    (hlast : lastWordByValue word = true) : BranchOk (judyL.insert word value) next := by
  intro w hw
  rw [OrderedMap.lookup_insert] at hw
  split_ifs at hw with heq
  · exact heq ▸ ⟨hword, Or.inl hlast⟩
  · exact h w hw

theorem BranchOk.insert_full (h : BranchOk judyL next) (hword : IsWord wordSize word)
    (hsub : sub.Full) : BranchOk (judyL.insert word value) (Function.update next word sub) := by
  intro w hw
  rw [OrderedMap.lookup_insert] at hw
  by_cases heq : w = word
  · rw [heq, Function.update_self]
    exact ⟨hword, Or.inr hsub⟩
  · rw [if_neg heq] at hw
    rw [Function.update_of_ne heq]
    exact h w hw

theorem BranchOk.update (h : BranchOk judyL next) (hsub : sub.Full) :
    BranchOk judyL (Function.update next word sub) := by
  intro w hw
  by_cases heq : w = word
  · rw [heq, Function.update_self]
    exact ⟨(h word (heq ▸ hw)).1, Or.inr hsub⟩
  · rw [Function.update_of_ne heq]
    exact h w hw

theorem BranchOk.update_absent (h : BranchOk judyL next) (hnone : judyL.lookup word = none) :
    BranchOk judyL (Function.update next word sub) := by
  intro w hw
  have hne : w ≠ word := fun heq => hw (heq ▸ hnone)
  rw [Function.update_of_ne hne]
  exact h w hw

theorem BranchOk.erase (h : BranchOk judyL next) (word : ℕ) (sub : JudySL wordSize) :
    BranchOk (judyL.erase word) (Function.update next word sub) := by
  intro w hw
  rw [OrderedMap.lookup_erase] at hw
  split_ifs at hw with heq
  · exact absurd rfl hw
  · rw [Function.update_of_ne heq]
    exact h w hw

theorem isNull_iff : t.isNull = true ↔ t = null := by
  cases t <;> simp [isNull]

theorem wf_null : (null : JudySL wordSize).Wf := Or.inl rfl

theorem Full.wf (h : t.Full) : t.Wf := Or.inr h

theorem Wf.full (h : t.Wf) (hnull : t ≠ null) : t.Full := h.resolve_left hnull

theorem Full.write (h : t.Full) (pos : List Chr) (value : Word wordSize) :
    (t.write pos value).Full := by
  induction t generalizing pos with
  | null => exact h.elim
  | scl leaf => trivial
  | array judyL next ih =>
      obtain ⟨hne, hok⟩ := full_array.1 h
      rw [JudySL.write]
      cases hlookup : judyL.lookup (copyStringToWord wordSize pos) with
      | none => exact h
      | some old =>
          have hword := hok _ (hlookup ▸ Option.some_ne_none _)
          by_cases hlast : lastWordByValue (copyStringToWord wordSize pos) = true
          · simp only [hlast, if_true]
            refine full_array.2 ⟨⟨copyStringToWord wordSize pos, ?_⟩, hok.insert hword.1 hlast⟩
            rw [OrderedMap.lookup_insert_self]
            exact Option.some_ne_none _
          · simp only [hlast, if_false, Bool.false_eq_true]
            exact full_array.2 ⟨hne, hok.update (ih _ (hword.2.resolve_left hlast) _)⟩

theorem judyLDel_array (next : ℕ → JudySL wordSize) {old : Word wordSize}
    (hlookup : judyL.lookup word = some old) :
    ((array judyL next).judyLDel word).2 = 1 ∧
      ((array judyL next).judyLDel word).1.get = (array (judyL.erase word) next).get ∧
        (BranchOk (judyL.erase word) next → ((array judyL next).judyLDel word).1.Wf) := by
  simp only [judyLDel, hlookup]
  by_cases hempty : judyL.erase word = OrderedMap.empty
  · rw [if_pos hempty, hempty]
    refine ⟨trivial, ?_, fun _ => wf_null⟩
    funext k
    rw [get_array, OrderedMap.lookup_empty, Option.bind_none, get]
  · rw [if_neg hempty]
    refine ⟨trivial, rfl, fun hok => Full.wf (full_array.2 ⟨?_, hok⟩)⟩
    by_contra hnone
    push Not at hnone
    exact hempty (OrderedMap.ext_lookup fun k => (hnone k).trans (OrderedMap.lookup_empty k).symm)

variable [NeZero wordSize]

/-- A full tree has an index. -/
theorem Full.exists_get (h : t.Full) : ∃ pos, t.get pos ≠ none := by
  induction t with
  | null => exact h.elim
  | scl leaf =>
      refine ⟨leaf.index, ?_⟩
      rw [get_scl_self]
      exact Option.some_ne_none _
  | array judyL next ih =>
      obtain ⟨⟨word, hword⟩, hok⟩ := full_array.1 h
      obtain ⟨value, hvalue⟩ := Option.ne_none_iff_exists'.1 hword
      obtain ⟨⟨s, rfl⟩, hbelow⟩ := hok word hword
      by_cases hlast : lastWordByValue (copyStringToWord wordSize s) = true
      · refine ⟨s, ?_⟩
        rw [get_of_last hvalue hlast]
        exact Option.some_ne_none _
      · obtain ⟨rest, hrest⟩ := ih _ (hbelow.resolve_left hlast)
        refine ⟨s.take wordSize ++ rest, ?_⟩
        rw [get_append hvalue hlast]
        exact hrest

/-- The pointer is `NULL` exactly when there is no index. -/
theorem Wf.eq_null_iff (h : t.Wf) : t = null ↔ ∀ pos, t.get pos = none := by
  constructor
  · rintro rfl pos
    rfl
  · intro hnone
    by_contra hnull
    obtain ⟨pos, hpos⟩ := (h.full hnull).exists_get
    exact hpos (hnone pos)

/-! ## Storing and deleting -/

theorem get_write (t : JudySL wordSize) (pos : List Chr) (value : Word wordSize) :
    (t.write pos value).get =
      if t.get pos = none then t.get else Function.update t.get pos (some value) := by
  induction t generalizing pos with
  | null =>
      rw [get_null, if_pos rfl]
      rfl
  | scl leaf =>
      rw [write]
      by_cases hpos : pos = leaf.index
      · rw [if_pos hpos, get_scl, get_scl, hpos, Function.update_self,
          if_neg (Option.some_ne_none _), Function.update_idem]
      · rw [if_neg hpos, get_scl_of_ne hpos, if_pos rfl]
  | array judyL next ih =>
      rw [write]
      cases hlookup : judyL.lookup (copyStringToWord wordSize pos) with
      | none =>
          have hget := get_array judyL next pos
          rw [hlookup, Option.bind_none] at hget
          rw [if_pos hget]
      | some old =>
          by_cases hlast : lastWordByValue (copyStringToWord wordSize pos) = true
          · simp only [hlast, if_true]
            rw [get_of_last hlookup hlast, if_neg (Option.some_ne_none _), get_insert hlast]
          · have hget : (array judyL next).get pos = _ := get_of_not_last hlookup hlast
            simp only [hlast, if_false, Bool.false_eq_true]
            have hsub := ih (copyStringToWord wordSize pos) (pos.drop wordSize)
            rw [← hget] at hsub
            by_cases hnone : (array judyL next).get pos = none
            · rw [if_pos hnone] at hsub ⊢
              rw [← Function.update_eq_self (pos.drop wordSize)
                (next (copyStringToWord wordSize pos)).get, ← hget] at hsub
              rw [get_update_next hlookup hlast hsub, Function.update_eq_self]
            · rw [if_neg hnone] at hsub ⊢
              exact get_update_next hlookup hlast hsub

/-- Below a word the index is deleted, and the word with it if nothing is left behind it. -/
theorem delSub_next {old : Word wordSize} {retcode : ℤ} (h : (array judyL next).Full)
    (hlookup : judyL.lookup (copyStringToWord wordSize pos) = some old)
    (hlast : ¬ lastWordByValue (copyStringToWord wordSize pos) = true)
    (hcode : retcode = if (array judyL next).get pos = none then 0 else 1)
    (hsub : sub.get = Function.update (next (copyStringToWord wordSize pos)).get
      (pos.drop wordSize) none) (hwf : sub.Wf) {r : JudySL wordSize × ℤ}
    (hr : r = if retcode ≠ 1 then
        (array judyL (Function.update next (copyStringToWord wordSize pos) sub), retcode)
      else if sub.isNull then
        (array judyL (Function.update next (copyStringToWord wordSize pos) sub)).judyLDel
          (copyStringToWord wordSize pos)
      else (array judyL (Function.update next (copyStringToWord wordSize pos) sub), 1)) :
    r.2 = (if (array judyL next).get pos = none then 0 else 1) ∧
      r.1.get = Function.update (array judyL next).get pos none ∧ r.1.Wf := by
  obtain ⟨hne, hok⟩ := full_array.1 h
  have hdel := get_update_next hlookup hlast hsub
  have hget : (array judyL next).get pos = _ := get_of_not_last hlookup hlast
  by_cases hnone : (array judyL next).get pos = none
  · -- nothing was deleted, so that there still is an index below
    rw [if_pos hnone] at hcode ⊢
    have hnext : (next (copyStringToWord wordSize pos)).Full :=
      (hok _ (hlookup ▸ Option.some_ne_none _)).2.resolve_left hlast
    have hnull : sub ≠ null := by
      rintro rfl
      obtain ⟨k, hk⟩ := hnext.exists_get
      rw [get_null, eq_comm, Function.update_eq_self_iff.2 (hget.symm.trans hnone).symm] at hsub
      rw [hsub] at hk
      exact hk rfl
    rw [hcode, if_pos zero_ne_one] at hr
    subst hr
    exact ⟨rfl, hdel, Full.wf (full_array.2 ⟨hne, hok.update (hwf.full hnull)⟩)⟩
  · rw [if_neg hnone] at hcode ⊢
    rw [hcode, if_neg (not_not.2 rfl)] at hr
    by_cases hnull : sub = null
    · subst hnull
      obtain ⟨hcode', hdel', hwf'⟩ :=
        judyLDel_array (Function.update next (copyStringToWord wordSize pos) null) hlookup
      rw [if_pos (isNull_iff.2 rfl)] at hr
      rw [hr, hcode', hdel', get_erase_null hlast (Function.update_self ..), hdel]
      exact ⟨rfl, rfl, hwf' (hok.erase _ _)⟩
    · rw [if_neg fun htrue => hnull (isNull_iff.1 htrue)] at hr
      subst hr
      exact ⟨rfl, hdel, Full.wf (full_array.2 ⟨hne, hok.update (hwf.full hnull)⟩)⟩

/-- Deleting an index deletes it and no other, and says whether it was there. -/
theorem delSub_spec (h : t.Wf) (pos : List Chr) :
    (t.delSub pos).2 = (if t.get pos = none then 0 else 1) ∧
      (t.delSub pos).1.get = Function.update t.get pos none ∧ (t.delSub pos).1.Wf := by
  induction t generalizing pos with
  | null =>
      rw [delSub, get_null, if_pos rfl]
      refine ⟨rfl, ?_, wf_null⟩
      exact (Function.update_eq_self pos _).symm
  | scl leaf =>
      rw [delSub]
      by_cases hpos : pos = leaf.index
      · rw [if_neg (not_not.2 hpos), get_scl, hpos, Function.update_self, Function.update_idem,
          if_neg (Option.some_ne_none _)]
        refine ⟨rfl, ?_, wf_null⟩
        exact (Function.update_eq_self leaf.index _).symm
      · have hnone : (scl leaf).get pos = none := get_scl_of_ne hpos
        rw [if_pos hpos, if_pos hnone]
        exact ⟨rfl, (Function.update_eq_self_iff.2 hnone.symm).symm, Full.wf trivial⟩
  | array judyL next ih =>
      obtain ⟨hne, hok⟩ := full_array.1 (h.full (by simp))
      rw [delSub]
      cases hlookup : judyL.lookup (copyStringToWord wordSize pos) with
      | none =>
          have hget := get_array judyL next pos
          rw [hlookup, Option.bind_none] at hget
          have hsame : (array judyL next).get = Function.update (array judyL next).get pos none := by
            rw [eq_comm, Function.update_eq_self_iff, hget]
          rw [if_pos hget]
          simp only [judyLDel, hlookup, ite_self]
          exact ⟨trivial, hsame, h⟩
      | some old =>
          by_cases hlast : lastWordByValue (copyStringToWord wordSize pos) = true
          · obtain ⟨hcode, hdel, hwf⟩ := judyLDel_array next hlookup
            simp only [(lastWordByValue_iff pos).1 hlast, if_true]
            rw [get_of_last hlookup hlast, if_neg (Option.some_ne_none _), hdel, get_erase hlast]
            refine ⟨hcode, rfl, hwf ?_⟩
            have herase := hok.erase (copyStringToWord wordSize pos)
              (next (copyStringToWord wordSize pos))
            rwa [Function.update_eq_self] at herase
          · have hlen : ¬ strlen pos ≤ wordSize := fun hlen => hlast ((lastWordByValue_iff pos).2 hlen)
            have hnext : (next (copyStringToWord wordSize pos)).Full :=
              (hok _ (hlookup ▸ Option.some_ne_none _)).2.resolve_left hlast
            obtain ⟨hcode, hsub, hwf⟩ := ih _ hnext.wf (pos.drop wordSize)
            rw [← get_of_not_last hlookup hlast] at hcode
            simp only [hlen, if_false]
            exact delSub_next (h.full (by simp)) hlookup hlast hcode hsub hwf rfl

end

end JudySL
