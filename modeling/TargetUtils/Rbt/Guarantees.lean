import TargetUtils.Rbt.Execution

set_option autoImplicit false

/-! # Guarantees of the red-black tree

What holds after every run from an empty tree. -/

open ColoredTree

namespace Rbt

variable {s : Rbt} {events : List (Call × Reply)} {t : ColoredTree Entry} {key : Key}

/-! ## A red-black tree -/

/-- The head has no parent, and a child points back to the node that points to it. -/
def ParentPointers (s : Rbt) : Prop :=
  (∀ a n, s.head = some a → s.nodes a = some n → n.parent = none) ∧
    ∀ a n d b, Linked s a → s.nodes a = some n → n.child d = some b →
      ∃ m, s.nodes b = some m ∧ m.parent = some a

theorem Represents.parentPointers (h : Represents s t) : ParentPointers s := by
  constructor
  · intro a n hhead hn
    rw [h.head_eq] at hhead
    obtain ⟨c, l, e, r, rfl⟩ := (exists_nodeAt .left t).resolve_left fun hnil => by
      simp [hnil] at hhead
    obtain rfl : e.addr = a := by simpa using hhead
    have hroot : Represents s (plug [] (nodeAt .left c l e r)) := h
    obtain rfl := Option.some.inj (hn.symm.trans hroot.node)
    exact RbtNode.parent_ofEntry ..
  · intro a n d b hlinked hn hchild
    obtain ⟨e, he, rfl⟩ := h.linked_iff.1 hlinked
    obtain ⟨ctx, c, l, r, rfl⟩ := exists_plug_of_mem he
    obtain ⟨near, far, hsides⟩ : ∃ near far, ColoredTree.node c l e r = nodeAt d c near e far := by
      cases d with
      | left => exact ⟨l, r, rfl⟩
      | right => exact ⟨r, l, rfl⟩
    rw [hsides] at h
    obtain rfl := Option.some.inj (hn.symm.trans h.node)
    rw [RbtNode.child_ofEntry] at hchild
    obtain ⟨c', near', x, far', rfl⟩ := (exists_nodeAt .left near).resolve_left fun hnil => by
      simp [hnil] at hchild
    obtain rfl : x.addr = b := by simpa using hchild
    have hx : Represents s (plug (⟨d, c, e, far⟩ :: ctx) (nodeAt .left c' near' x far')) := h
    exact ⟨_, hx.node, RbtNode.parent_ofEntry ..⟩

/-- After every run the head points to a red-black tree, and every call returns. -/
theorem redBlack_of_run (h : Run Step empty events s) :
    (∃ t, Represents s t ∧ Sorted t ∧ t.IsRedBlack) ∧ ParentPointers s ∧
      ∀ c : Call, c.Legal s → ∃ r s', Step s (c, r) s' := by
  obtain ⟨t, hrep, hsorted, hred, hm⟩ := tree_of_run h
  refine ⟨⟨t, hrep, hsorted, hred⟩, hrep.parentPointers, fun c hlegal => ?_⟩
  obtain ⟨r, s', -, hreturns, -⟩ := hrep.meets hsorted hred hm hlegal
  exact ⟨r, s', hlegal, hreturns⟩

theorem redBlack_of_run_several : (∃ t, Represents several t ∧ Sorted t ∧ t.IsRedBlack) ∧
    ParentPointers several ∧ ∀ c : Call, c.Legal several → ∃ r s', Step several (c, r) s' :=
  redBlack_of_run run_several

/-! ## A map -/

theorem Represents.pairs_of_agrees {m : AbstractMap} (h : Represents s t) (hm : Agrees t m) :
    s.pairs = {q | m q.1 = some q.2} := by
  rw [h.pairs_eq]
  ext ⟨k, x⟩
  exact hm k x

/-- The tree stands for the map of the same calls, and so does what the next call returns. -/
theorem refinesMap_of_run (h : Run Step empty events s) :
    s.pairs = {q | mapAfter (events.map Prod.fst) q.1 = some q.2} ∧
      ∀ c : Call, c.Legal s → (∃ r s', Step s (c, r) s') ∧ ∀ r s', Step s (c, r) s' →
        c.Replies (mapAfter (events.map Prod.fst)) s s' r ∧
          s'.pairs = {q | c.apply (mapAfter (events.map Prod.fst)) q.1 = some q.2} := by
  obtain ⟨t, hrep, hsorted, hred, hm⟩ := tree_of_run h
  refine ⟨hrep.pairs_of_agrees hm, fun c hlegal => ?_⟩
  obtain ⟨r, s', u, hreturns, hrep', -, -, hm', hreplies⟩ := hrep.meets hsorted hred hm hlegal
  refine ⟨⟨r, s', hlegal, hreturns⟩, fun r' s'' hstep => ?_⟩
  obtain ⟨rfl, rfl⟩ := Prod.mk.inj (hstep.2.unique hreturns)
  exact ⟨hreplies, hrep'.pairs_of_agrees hm'⟩

theorem refinesMap_of_run_several : several.pairs =
    {q | mapAfter (severalEvents.map Prod.fst) q.1 = some q.2} ∧
      ∀ c : Call, c.Legal several → (∃ r s', Step several (c, r) s') ∧
        ∀ r s', Step several (c, r) s' →
          c.Replies (mapAfter (severalEvents.map Prod.fst)) several s' r ∧
            s'.pairs = {q | c.apply (mapAfter (severalEvents.map Prod.fst)) q.1 = some q.2} :=
  refinesMap_of_run run_several

/-! ## No NULL pointer is read

A function that reads through NULL has no result, whatever the fuel. -/

theorem rotateRbtNode_reads {d : Side} {a : Addr} {q : Rbt × Addr}
    (h : s.rotateRbtNode d a = some q) : ∃ n, s.nodes a = some n ∧ n.child d.other = some q.2 := by
  simp only [rotateRbtNode, Option.bind_eq_bind, Option.bind_eq_some_iff, Option.some.injEq] at h
  obtain ⟨n, hn, child, hchild, -, -, -, -, -, -, -, -, -, -, -, -, -, -, rfl⟩ := h
  exact ⟨n, hn, hchild⟩

theorem performRotation_reads {a : Addr} {q : Rbt × Addr}
    (h : s.performRotation a key = some q) :
    ∃ n g, s.nodes a = some n ∧ n.parent = some g ∧ s.nodes g ≠ none := by
  simp only [performRotation, Option.bind_eq_bind, Option.bind_eq_some_iff] at h
  obtain ⟨n, hn, g, hg, m, hm, -⟩ := h
  exact ⟨n, g, hn, hg, by simp [hm]⟩

theorem colorFixRbtNodes_reads {fuel : ℕ} {a : Addr} {s' : Rbt} {n : RbtNode}
    (h : s.colorFixRbtNodes fuel a = some s') (hn : s.nodes a = some n) (hred : n.color = .red) :
    ∃ p m w, n.parent = some p ∧ s.nodes p = some m ∧
      (if m.key < n.key then m.left else m.right) = some w ∧ s.nodes w ≠ none := by
  cases fuel with
  | zero => simp [colorFixRbtNodes] at h
  | succ fuel =>
      simp only [colorFixRbtNodes, hn, hred, Option.bind_eq_bind, Option.bind_some, reduceCtorEq,
        if_false, Option.bind_eq_some_iff, setColor, modify, Option.map_eq_some_iff] at h
      obtain ⟨p, hp, m, hm, w, hw, -, ⟨k, hk, -⟩, -⟩ := h
      exact ⟨p, m, w, hp, hm, hw, by simp [hk]⟩

/-- What these functions have read where they have a result: a rotated node has the child that takes
    its place, `bf_perform_rotation` finds a grandparent, and `bf_color_fix_rbt_nodes` finds a parent
    and a sibling of a red node. -/
structure ReadsNoNull (s : Rbt) : Prop where
  child : ∀ d a q, s.rotateRbtNode d a = some q →
    ∃ n, s.nodes a = some n ∧ n.child d.other = some q.2
  grandparent : ∀ a key q, s.performRotation a key = some q →
    ∃ n g, s.nodes a = some n ∧ n.parent = some g ∧ s.nodes g ≠ none
  sibling : ∀ fuel a s' n, s.colorFixRbtNodes fuel a = some s' → s.nodes a = some n →
    n.color = .red → ∃ p m w, n.parent = some p ∧ s.nodes p = some m ∧
      (if m.key < n.key then m.left else m.right) = some w ∧ s.nodes w ≠ none

theorem readsNoNull (s : Rbt) : s.ReadsNoNull :=
  ⟨fun _ _ _ => rotateRbtNode_reads, fun _ _ _ => performRotation_reads,
    fun _ _ _ _ => colorFixRbtNodes_reads⟩

/-- After every run the next insertion returns, with or without memory for it, and so does the next
    removal: every loop ends, and no NULL pointer is read, in whatever state. -/
theorem returns_of_run (h : Run Step empty events s) (key : Key) :
    (∀ mem : Option Addr, (∀ a, mem = some a → s.nodes a = none) →
        ∃ q, Returns (fun fuel => s.insertRbtEntry fuel mem s.head key) q) ∧
      (∃ q, Returns (fun fuel => s.removeRbtEntry fuel key) q) ∧ ∀ m : Rbt, m.ReadsNoNull := by
  obtain ⟨t, hrep, hsorted, hred, -⟩ := tree_of_run h
  refine ⟨?_, ?_, readsNoNull⟩
  · intro mem hmem
    rcases locate_snd key [] t with hloc | ⟨c, l, e, r, hloc, hkey⟩
    · cases mem with
      | none =>
          obtain ⟨s', hreturns⟩ := insertRbtEntry_noMemory hrep hsorted hloc
          exact ⟨_, hreturns⟩
      | some a =>
          obtain ⟨s', -, hreturns, -⟩ := insertRbtEntry_absent hrep hsorted hred (hmem a rfl) hloc
          exact ⟨_, hreturns⟩
    · exact ⟨_, insertRbtEntry_present hrep hloc hkey⟩
  · rcases removeRbtEntry_spec key hrep hsorted hred with ⟨-, hreturns⟩ |
        ⟨_, _, _, _, _, -, hreturns, -⟩
    · exact ⟨_, hreturns⟩
    · exact ⟨_, hreturns⟩

theorem returns_of_run_several :
    (∀ mem : Option Addr, (∀ a, mem = some a → several.nodes a = none) →
        ∃ q, Returns (fun fuel => several.insertRbtEntry fuel mem several.head 12) q) ∧
      (∃ q, Returns (fun fuel => several.removeRbtEntry fuel 20) q) ∧ ∀ m : Rbt, m.ReadsNoNull :=
  ⟨(returns_of_run run_several 12).1, (returns_of_run run_several 20).2⟩

end Rbt
