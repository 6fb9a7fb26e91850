import TargetUtils.Dll.Basic

set_option autoImplicit false

/-! # What the macros do to a list

One lemma for each macro: on a list variable that heads a list, the macro has a result, the variable
heads the list that the abstract operation gives, and only links of the nodes of the list and of the
element change. -/

namespace DllMem

variable {ε ν : Type*} {m m' : DllMem ε ν} {l : ν} {e : ε} {xs ys : List ε}

/-- The variable heads the list. -/
structure Heads (m : DllMem ε ν) (l : ν) (xs : List ε) : Prop where
  holds : m.Holds xs
  var : m.var l = xs.head?

/-- The links of other nodes are the same. -/
def SameOutside (m m' : DllMem ε ν) (xs : List ε) : Prop :=
  ∀ x, x ∉ xs → m'.next x = m.next x ∧ m'.prev x = m.prev x

theorem Heads.congr (h : m.Heads l ys) (hvar : m'.var l = m.var l) (hsame : m.SameOutside m' xs)
    (hdisj : xs.Disjoint ys) : m'.Heads l ys where
  holds := h.holds.congr (fun x hx => (hsame x fun hx' => hdisj hx' hx).1)
    fun x hx => (hsame x fun hx' => hdisj hx' hx).2
  var := hvar.trans h.var

theorem not_mem_dropLast {x : ε} (hnodup : xs.Nodup) (hx : xs.getLast? = some x) :
    x ∉ xs.dropLast := by
  obtain ⟨ys, rfl⟩ := List.getLast?_eq_some_iff.1 hx
  rw [List.dropLast_concat]
  intro hmem
  exact List.disjoint_of_nodup_append hnodup hmem (List.mem_singleton_self x)

/-- The last element is what the first refers to. -/
theorem Heads.last_eq (h : m.Heads l xs) : m.last l = xs.getLast? := by
  have hvar := h.var
  cases xs with
  | nil => simp only [last, hvar, List.head?_nil, List.getLast?_nil]
  | cons a rest =>
      simp only [last, hvar, List.head?_cons]
      exact h.holds.first a rfl

variable [DecidableEq ε] [DecidableEq ν]

/-- Into an empty list both `DLL_PP` and `DLL_AP` put the element this way. -/
theorem Heads.linkFirst (h : m.Heads l []) (e : ε) :
    (((m.setNext e none).setPrev e (some e)).setVar l (some e)).Heads l [e] ∧
      m.SameOutside (((m.setNext e none).setPrev e (some e)).setVar l (some e)) [e] := by
  refine ⟨⟨h.holds.cons List.not_mem_nil ?_ ?_ ?_ ?_ ?_, ?_⟩, fun x hx => ?_⟩
  · simp
  · simp
  · simp
  · simp
  · simp
  · simp
  · have hxe : x ≠ e := by simpa using hx
    simp [hxe]

/-! ## Prepending -/

theorem Heads.pp (h : m.Heads l xs) (he : e ∉ xs) :
    (m.pp l e).Heads l (e :: xs) ∧ (m.pp l e).var = Function.update m.var l (some e) ∧
      m.SameOutside (m.pp l e) (e :: xs) := by
  have hvar := h.var
  cases xs with
  | nil =>
      have hpp : m.pp l e = ((m.setNext e none).setPrev e (some e)).setVar l (some e) := by
        simp only [DllMem.pp, hvar, setNext_var, List.head?_nil]
      obtain ⟨hheads, hsame⟩ := h.linkFirst e
      rw [hpp]
      exact ⟨hheads, rfl, hsame⟩
  | cons a rest =>
      have hea : e ≠ a := fun heq => he (heq ▸ List.mem_cons_self ..)
      have hpp : m.pp l e = (((m.setNext e (some a)).setPrev e (m.prev a)).setPrev a
          (some e)).setVar l (some e) := by
        simp only [DllMem.pp, hvar, setNext_var, setNext_prev, List.head?_cons]
      rw [hpp]
      refine ⟨⟨h.holds.cons he (fun x hx => ?_) (fun x hx => ?_) ?_ ?_ ?_, ?_⟩, rfl, fun x hx => ?_⟩
      · have hxe : x ≠ e := fun heq => he (heq ▸ hx)
        simp [hxe]
      · have hxa : x ≠ a := fun heq => (List.nodup_cons.1 h.holds.nodup).1 (heq ▸ hx)
        have hxe : x ≠ e := fun heq => he (heq ▸ List.mem_cons_of_mem _ hx)
        simp [hxa, hxe]
      · simp
      · simp
      · have hfirst := h.holds.first a rfl
        simp [hea, hfirst, List.getLast?_cons_cons]
      · simp
      · have hxe : x ≠ e := fun heq => hx (by simp [heq])
        have hxa : x ≠ a := fun heq => hx (by simp [heq])
        simp [hxe, hxa]

/-! ## Appending -/

theorem Heads.ap (h : m.Heads l xs) (he : e ∉ xs) :
    ∃ m', m.ap l e = some m' ∧ m'.Heads l (xs ++ [e]) ∧
      m'.var = Function.update m.var l (xs ++ [e]).head? ∧ m.SameOutside m' (e :: xs) := by
  have hvar := h.var
  cases xs with
  | nil =>
      obtain ⟨hheads, hsame⟩ := h.linkFirst e
      refine ⟨_, ?_, hheads, rfl, hsame⟩
      simp only [DllMem.ap, hvar, setNext_var, List.head?_nil]
  | cons a rest =>
      obtain ⟨t, ht⟩ : ∃ t, (a :: rest).getLast? = some t :=
        ⟨_, List.getLast?_eq_getLast_of_ne_nil (List.cons_ne_nil a rest)⟩
      have hfirst : m.prev a = some t := (h.holds.first a rfl).trans ht
      have htmem : t ∈ a :: rest := List.mem_of_getLast? ht
      have hte : t ≠ e := fun heq => he (heq ▸ htmem)
      have hea : e ≠ a := fun heq => he (heq ▸ List.mem_cons_self ..)
      refine ⟨(((m.setNext e none).setPrev e (some t)).setNext t (some e)).setPrev a (some e), ?_,
        ⟨Links.holds_append ?_ (h.holds.chained.congr (fun x hx => ?_) (fun x hx => ?_))
          (Links.chained_singleton _ e) (List.cons_ne_nil e []) ?_ ?_ ?_, ?_⟩, ?_, fun x hx => ?_⟩
      · simp only [DllMem.ap, hvar, setNext_var, setNext_prev, List.head?_cons, setPrev_prev,
          if_neg hea.symm, hfirst]
      · exact h.holds.nodup.append (List.nodup_singleton e) (List.disjoint_singleton.2 he)
      -- `t` may be `a`: then the list had one element
      · have hxt : x ≠ t := fun heq => not_mem_dropLast h.holds.nodup ht (heq ▸ hx)
        have hxe : x ≠ e := fun heq => he (heq ▸ List.dropLast_subset _ hx)
        simp [hxt, hxe]
      · have hxa : x ≠ a := fun heq => (List.nodup_cons.1 h.holds.nodup).1 (heq ▸ hx)
        have hxe : x ≠ e := fun heq => he (heq ▸ List.mem_cons_of_mem _ hx)
        simp [hxa, hxe]
      · rintro y hy
        obtain rfl : e = y := Option.some.inj hy
        simp [hte.symm]
      · rintro x hx y hy
        obtain rfl : e = y := Option.some.inj hy
        obtain rfl : t = x := Option.some.inj (ht.symm.trans hx)
        exact ⟨by simp, by simp [hea]⟩
      · rintro x hx
        obtain rfl : a = x := Option.some.inj hx
        simp
      · exact hvar
      · exact (Function.update_eq_self_iff.2 hvar.symm).symm
      · have hxe : x ≠ e := fun heq => hx (by simp [heq])
        have hxa : x ≠ a := fun heq => hx (by simp [heq])
        have hxt : x ≠ t := fun heq => hx (List.mem_cons_of_mem _ (heq ▸ htmem))
        simp [hxe, hxa, hxt]

/-! ## Concatenating -/

variable {f s : ν}

/-- Two lists that are not empty: the last element of the first is linked to the second. -/
theorem Heads.cat_cons {a b : ε} (h : m.Heads f (a :: xs)) (h' : m.Heads s (b :: ys)) (hfs : f ≠ s)
    (hdisj : (a :: xs).Disjoint (b :: ys)) :
    ∃ m', m.cat f s = some m' ∧ m'.Heads f (a :: xs ++ b :: ys) ∧
      m'.var = Function.update m.var s none ∧ m.SameOutside m' (a :: xs ++ b :: ys) := by
  have hvar : m.var f = some a := h.var
  have hvar' : m.var s = some b := h'.var
  obtain ⟨t, ht⟩ : ∃ t, (a :: xs).getLast? = some t :=
    ⟨_, List.getLast?_eq_getLast_of_ne_nil (List.cons_ne_nil a xs)⟩
  have hfirst : m.prev a = some t := (h.holds.first a rfl).trans ht
  have htmem : t ∈ a :: xs := List.mem_of_getLast? ht
  have hamem : a ∈ a :: xs := List.mem_cons_self ..
  have hbmem : b ∈ b :: ys := List.mem_cons_self ..
  have hne : ∀ x ∈ a :: xs, ∀ y ∈ b :: ys, x ≠ y := fun x hx y hy heq => hdisj hx (heq ▸ hy)
  refine ⟨(((m.setNext t (some b)).setPrev a (m.prev b)).setPrev b (some t)).setVar s none,
    ?_, ⟨Links.holds_append ?_ (h.holds.chained.congr (fun x hx => ?_) (fun x hx => ?_))
      (h'.holds.chained.congr (fun x hx => ?_) (fun x hx => ?_)) (List.cons_ne_nil b ys)
      (fun y hy => ?_) (fun x hx y hy => ?_) (fun x hx => ?_), ?_⟩, rfl, fun x hx => ?_⟩
  · simp only [DllMem.cat, hvar', hvar, hfirst, setNext_prev]
  · exact h.holds.nodup.append h'.holds.nodup hdisj
  -- of the first list only the last element has a new successor, the first a new predecessor
  · have hxt : x ≠ t := fun heq => not_mem_dropLast h.holds.nodup ht (heq ▸ hx)
    simp [hxt]
  · have hxa : x ≠ a := fun heq => (List.nodup_cons.1 h.holds.nodup).1 (heq ▸ hx)
    have hxb : x ≠ b := hne x (List.mem_cons_of_mem _ hx) b hbmem
    simp [hxa, hxb]
  · have hxt : x ≠ t := (hne t htmem x (List.dropLast_subset _ hx)).symm
    simp [hxt]
  · have hxb : x ≠ b := fun heq => (List.nodup_cons.1 h'.holds.nodup).1 (heq ▸ hx)
    have hxa : x ≠ a := (hne a hamem x (List.mem_cons_of_mem _ hx)).symm
    simp [hxa, hxb]
  · have hyt : y ≠ t := (hne t htmem y (List.mem_of_getLast? hy)).symm
    have hlast := h'.holds.last y hy
    simp [hyt, hlast]
  · obtain rfl : t = x := Option.some.inj (ht.symm.trans hx)
    obtain rfl : b = y := Option.some.inj hy
    exact ⟨by simp, by simp⟩
  · obtain rfl : a = x := Option.some.inj hx
    have hab : a ≠ b := hne a hamem b hbmem
    have hlast := h'.holds.first b rfl
    simp [hab, hlast]
  · simp [Function.update_of_ne hfs, hvar]
  · have hxt : x ≠ t := fun heq => hx (List.mem_append_left _ (heq ▸ htmem))
    have hxa : x ≠ a := fun heq => hx (List.mem_append_left _ (heq ▸ hamem))
    have hxb : x ≠ b := fun heq => hx (List.mem_append_right _ (heq ▸ hbmem))
    simp [hxt, hxa, hxb]

theorem Heads.cat (h : m.Heads f xs) (h' : m.Heads s ys) (hfs : f ≠ s) (hdisj : xs.Disjoint ys) :
    ∃ m', m.cat f s = some m' ∧ m'.Heads f (xs ++ ys) ∧ m'.Heads s [] ∧
      m'.var = Function.update (Function.update m.var f (xs ++ ys).head?) s none ∧
      m.SameOutside m' (xs ++ ys) := by
  have hvar := h.var
  have hvar' := h'.var
  cases ys with
  | nil =>
      refine ⟨m, ?_, ?_, h', ?_, fun x _ => ⟨rfl, rfl⟩⟩
      · simp only [DllMem.cat, hvar', List.head?_nil]
      · rwa [List.append_nil]
      · have hself : Function.update m.var f xs.head? = m.var :=
          Function.update_eq_self_iff.2 hvar.symm
        rw [List.append_nil, hself]
        exact (Function.update_eq_self_iff.2 hvar'.symm).symm
  | cons b ys =>
      cases xs with
      | nil =>
          refine ⟨(m.setVar f (some b)).setVar s none, ?_, ⟨h'.holds.congr (fun _ _ => rfl)
            (fun _ _ => rfl), ?_⟩, ⟨Links.holds_nil _, ?_⟩, rfl, fun x _ => ⟨rfl, rfl⟩⟩
          · simp only [DllMem.cat, hvar', hvar, List.head?_cons, List.head?_nil]
          · simp [Function.update_of_ne hfs]
          · simp
      | cons a xs =>
          obtain ⟨m', hcat, hheads, hupdate, hsame⟩ := h.cat_cons h' hfs hdisj
          have hself : Function.update m.var f (some a) = m.var :=
            Function.update_eq_self_iff.2 hvar.symm
          refine ⟨m', hcat, hheads, ⟨Links.holds_nil _, ?_⟩, ?_, hsame⟩
          · rw [hupdate, Function.update_self, List.head?_nil]
          · rw [List.cons_append, List.head?_cons, hself, hupdate]

/-! ## Removing -/

/-- Taking out the first element. -/
theorem Heads.rem_first {bs : List ε} (h : m.Heads l (e :: bs)) :
    ∃ m', m.rem l e = some m' ∧ m'.Heads l bs ∧ m'.var = Function.update m.var l bs.head? ∧
      m.SameOutside m' (e :: bs) := by
  have hvar := h.var
  have hfirst := h.holds.first e rfl
  cases bs with
  | nil =>
      refine ⟨((m.setVar l none).setPrev e none).setNext e none, ?_, ⟨Links.holds_nil _, ?_⟩, rfl,
        fun x hx => ?_⟩
      · simp only [rem, unlink, hfirst, List.getLast?_singleton, if_true, Option.map_some]
      · simp
      · have hxe : x ≠ e := by simpa using hx
        simp [hxe]
  | cons x bs =>
      obtain ⟨u, hu⟩ : ∃ u, (x :: bs).getLast? = some u :=
        ⟨_, List.getLast?_eq_getLast_of_ne_nil (List.cons_ne_nil x bs)⟩
      obtain ⟨hnot, hnodup⟩ := List.nodup_cons.1 h.holds.nodup
      have hne : ∀ y ∈ x :: bs, y ≠ e := fun y hy heq => hnot (heq ▸ hy)
      have hue : u ≠ e := hne u (List.mem_of_getLast? hu)
      have hholds : m.Holds ([] ++ e :: x :: bs) := h.holds
      have hnext : m.next e = some x := hholds.next_of_split
      rw [List.getLast?_cons_cons, hu] at hfirst
      refine ⟨(((m.setPrev x (some u)).setVar l (some x)).setPrev e none).setNext e none, ?_,
        ⟨⟨hnodup, (Links.chained_cons.1 h.holds.chained).2.congr (fun y hy => ?_) (fun y hy => ?_),
          fun y hy => ?_, fun y hy => ?_⟩, ?_⟩, rfl, fun y hy => ?_⟩
      · simp only [rem, unlink, hfirst, Option.some.injEq, if_neg hue, hvar, List.head?_cons,
          if_true, hnext, Option.map_some]
      · simp [hne y (List.dropLast_subset _ hy)]
      · have hyx : y ≠ x := fun heq => (List.nodup_cons.1 hnodup).1 (heq ▸ hy)
        simp [hne y (List.mem_cons_of_mem _ hy), hyx]
      · have hlast := h.holds.last y (by rwa [List.getLast?_cons_cons])
        simp [hne y (List.mem_of_getLast? hy), hlast]
      · obtain rfl : x = y := Option.some.inj hy
        simp [hne x (List.mem_cons_self ..), hu]
      · simp
      · have hye : y ≠ e := fun heq => hy (by simp [heq])
        have hyx : y ≠ x := fun heq => hy (by simp [heq])
        simp [hye, hyx]

/-- What the macro does to a later element: `q` comes before it. -/
theorem Heads.rem_later_eq {a q : ε} {rest bs : List ε} (h : m.Heads l (a :: rest ++ e :: bs))
    (hq : (a :: rest).getLast? = some q) :
    m.rem l e = some ((((m.setNext q bs.head?).setPrev (bs.head?.getD a) (some q)).setPrev e
      none).setNext e none) := by
  have hvar : m.var l = some a := h.var
  have hprev : m.prev e = some q := h.holds.prev_of_split hq
  have hnext : m.next e = bs.head? := h.holds.next_of_split
  have hdisj := List.disjoint_of_nodup_append h.holds.nodup
  have hqe : q ≠ e := fun heq =>
    hdisj (List.mem_of_getLast? hq) (heq ▸ List.mem_cons_self ..)
  have hae : a ≠ e := fun heq => hdisj (List.mem_cons_self ..) (heq ▸ List.mem_cons_self ..)
  cases bs with
  | nil =>
      simp only [DllMem.rem, unlink, hprev, Option.some.injEq, if_neg hqe, hvar, if_neg hae, hnext,
        List.head?_nil, Option.getD_none, setNext_next, if_neg hqe.symm, setNext_prev, setNext_var,
        Option.map_some]
  | cons y bs =>
      simp only [DllMem.rem, unlink, hprev, Option.some.injEq, if_neg hqe, hvar, if_neg hae, hnext,
        List.head?_cons, Option.getD_some, setNext_next, if_neg hqe.symm, setNext_prev,
        Option.map_some]

/-- Taking out the last element. -/
theorem Heads.rem_last {a : ε} {rest : List ε} (h : m.Heads l (a :: rest ++ [e])) :
    ∃ m', m.rem l e = some m' ∧ m'.Heads l (a :: rest) ∧ m'.var = m.var ∧
      m.SameOutside m' (a :: rest ++ [e]) := by
  obtain ⟨q, hq⟩ : ∃ q, (a :: rest).getLast? = some q :=
    ⟨_, List.getLast?_eq_getLast_of_ne_nil (List.cons_ne_nil a rest)⟩
  obtain ⟨hchain, -⟩ := Links.chained_append.1 h.holds.chained
  obtain ⟨hnodup, -, hdisj⟩ := List.nodup_append.1 h.holds.nodup
  have hne : ∀ x ∈ a :: rest, x ≠ e := fun x hx => hdisj x hx e (List.mem_cons_self ..)
  refine ⟨_, h.rem_later_eq hq, ⟨⟨hnodup, hchain.congr (fun x hx => ?_) (fun x hx => ?_),
    fun x hx => ?_, fun x hx => ?_⟩, h.var⟩, rfl, fun x hx => ?_⟩
  · have hxe : x ≠ e := hne x (List.dropLast_subset _ hx)
    have hxq : x ≠ q := fun heq => not_mem_dropLast hnodup hq (heq ▸ hx)
    simp [hxe, hxq]
  · have hxe : x ≠ e := hne x (List.mem_cons_of_mem _ hx)
    have hxa : x ≠ a := fun heq => (List.nodup_cons.1 hnodup).1 (heq ▸ hx)
    simp [hxe, hxa]
  · obtain rfl : q = x := Option.some.inj (hq.symm.trans hx)
    simp
  · obtain rfl : a = x := Option.some.inj hx
    simp [hne a (List.mem_cons_self ..), hq]
  · have hxe : x ≠ e := fun heq => hx (by simp [heq])
    have hxa : x ≠ a := fun heq => hx (by simp [heq])
    have hxq : x ≠ q := fun heq =>
      hx (List.mem_append_left _ (heq ▸ List.mem_of_getLast? hq))
    simp [hxe, hxa, hxq]

/-- Taking out an element between two others. -/
theorem Heads.rem_inner {a y : ε} {rest bs : List ε} (h : m.Heads l (a :: rest ++ e :: y :: bs)) :
    ∃ m', m.rem l e = some m' ∧ m'.Heads l (a :: rest ++ y :: bs) ∧ m'.var = m.var ∧
      m.SameOutside m' (a :: rest ++ e :: y :: bs) := by
  obtain ⟨q, hq⟩ : ∃ q, (a :: rest).getLast? = some q :=
    ⟨_, List.getLast?_eq_getLast_of_ne_nil (List.cons_ne_nil a rest)⟩
  have hqmem : q ∈ a :: rest := List.mem_of_getLast? hq
  have hfirst := h.holds.first a rfl
  have hlast := h.holds.last
  rw [List.getLast?_append_of_ne_nil _ (List.cons_ne_nil e _), List.getLast?_cons_cons]
    at hfirst hlast
  obtain ⟨hchain, htail, -⟩ := Links.chained_append.1 h.holds.chained
  obtain ⟨hnodup, hnodup', hdisj⟩ := List.nodup_append.1 h.holds.nodup
  obtain ⟨hnote, hnodupy⟩ := List.nodup_cons.1 hnodup'
  have hae : ∀ x ∈ a :: rest, x ≠ e := fun x hx => hdisj x hx e (List.mem_cons_self ..)
  have hab : ∀ x ∈ a :: rest, ∀ z ∈ y :: bs, x ≠ z := fun x hx z hz =>
    hdisj x hx z (List.mem_cons_of_mem _ hz)
  have hbe : ∀ x ∈ y :: bs, x ≠ e := fun x hx heq => hnote (heq ▸ hx)
  refine ⟨_, h.rem_later_eq hq, ⟨Links.holds_append ?_ (hchain.congr (fun x hx => ?_)
    (fun x hx => ?_)) ((Links.chained_cons.1 htail).2.congr (fun x hx => ?_) (fun x hx => ?_))
    (List.cons_ne_nil y bs) (fun x hx => ?_) (fun x hx z hz => ?_) (fun x hx => ?_), h.var⟩, rfl,
    fun x hx => ?_⟩
  · exact hnodup.append hnodupy fun x hx hx' => hab x hx x hx' rfl
  · have hxe : x ≠ e := hae x (List.dropLast_subset _ hx)
    have hxq : x ≠ q := fun heq => not_mem_dropLast hnodup hq (heq ▸ hx)
    simp [hxe, hxq]
  · have hxe : x ≠ e := hae x (List.mem_cons_of_mem _ hx)
    have hxy : x ≠ y := hab x (List.mem_cons_of_mem _ hx) y (List.mem_cons_self ..)
    simp [hxe, hxy]
  · have hxmem : x ∈ y :: bs := List.dropLast_subset _ hx
    simp [hbe x hxmem, (hab q hqmem x hxmem).symm]
  · have hxy : x ≠ y := fun heq => (List.nodup_cons.1 hnodupy).1 (heq ▸ hx)
    simp [hbe x (List.mem_cons_of_mem _ hx), hxy]
  · have hxmem : x ∈ y :: bs := List.mem_of_getLast? hx
    simp [hbe x hxmem, (hab q hqmem x hxmem).symm, hlast x hx]
  · obtain rfl : q = x := Option.some.inj (hq.symm.trans hx)
    obtain rfl : y = z := Option.some.inj hz
    exact ⟨by simp [hae q hqmem], by simp [hbe y (List.mem_cons_self ..)]⟩
  · obtain rfl : a = x := Option.some.inj hx
    have hay : a ≠ y := hab a (List.mem_cons_self ..) y (List.mem_cons_self ..)
    simp [hae a (List.mem_cons_self ..), hay, hfirst]
  · have hxe : x ≠ e := fun heq => hx (by simp [heq])
    have hxy : x ≠ y := fun heq => hx (by simp [heq])
    have hxq : x ≠ q := fun heq => hx (List.mem_append_left _ (heq ▸ hqmem))
    simp [hxe, hxy, hxq]

theorem Heads.rem (h : m.Heads l xs) (he : e ∈ xs) :
    ∃ m', m.rem l e = some m' ∧ m'.Heads l (xs.erase e) ∧
      m'.var = Function.update m.var l (xs.erase e).head? ∧ m.SameOutside m' xs := by
  obtain ⟨as, bs, rfl⟩ := List.append_of_mem he
  have hnot : e ∉ as := fun hmem =>
    List.disjoint_of_nodup_append h.holds.nodup hmem (List.mem_cons_self ..)
  rw [List.erase_append_right _ hnot, List.erase_cons_head]
  cases as with
  | nil => exact h.rem_first
  | cons a as =>
      have hself : m.var = Function.update m.var l (a :: as ++ bs).head? :=
        (Function.update_eq_self_iff.2 h.var.symm).symm
      rw [← hself]
      cases bs with
      | nil =>
          -- the first element refers to the last, so it has a new `p`
          rw [List.append_nil]
          exact h.rem_last
      | cons y bs => exact h.rem_inner

end DllMem
