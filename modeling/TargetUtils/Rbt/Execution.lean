import TargetUtils.Rbt.Runs

set_option autoImplicit false

/-! # Running the red-black tree

More fuel does not change a result, so that a call which has a result with some fuel returns it.
Legal calls that execute one after the other therefore form a run (`step_of_execute`). -/

namespace Rbt

variable {s s' : Rbt} {d : Side} {a : Addr} {key : Key} {fuel : ℕ}

/-! ## More fuel -/

theorem descend_succ (d : Side) (fuel : ℕ) (s : Rbt) (a : Addr) :
    Extends (descend d fuel s a) (descend d (fuel + 1) s a) := by
  induction fuel generalizing a with
  | zero => exact Extends.none_left _
  | succ fuel ih =>
      rw [descend, descend]
      refine Extends.bind fun n _ => ?_
      cases n.child d with
      | none => exact Extends.refl _
      | some b => exact ih b

theorem nearestRbtNode_succ (d : Side) (fuel : ℕ) (s : Rbt) (root : Addr) :
    Extends (s.nearestRbtNode d fuel root) (s.nearestRbtNode d (fuel + 1) root) := by
  unfold nearestRbtNode
  refine Extends.bind fun n _ => ?_
  cases n.child d with
  | none => exact Extends.refl _
  | some b => exact Extends.map _ (descend_succ d.other fuel s b)

theorem insertLoop_succ (fuel : ℕ) (s : Rbt) (key : Key) (root prev : Option Addr) :
    Extends (s.insertLoop fuel key root prev) (s.insertLoop (fuel + 1) key root prev) := by
  induction fuel generalizing root prev with
  | zero => exact Extends.none_left _
  | succ fuel ih =>
      cases root with
      | none => exact Extends.refl _
      | some root =>
          rw [insertLoop, insertLoop]
          exact Extends.bind fun n _ => Extends.ite (ih _ _) (Extends.ite (ih _ _) (Extends.refl _))

theorem balance_insertion_succ (fuel : ℕ) : ∀ (s : Rbt) (a : Addr),
    Extends (s.colorFixRbtNodes fuel a) (s.colorFixRbtNodes (fuel + 1) a) ∧
      ∀ key, Extends (s.balanceRbtPostInsertion fuel a key)
        (s.balanceRbtPostInsertion (fuel + 1) a key) := by
  induction fuel with
  | zero => exact fun s a => ⟨Extends.none_left _, fun key => Extends.none_left _⟩
  | succ fuel ih =>
      intro s a
      constructor
      · rw [colorFixRbtNodes, colorFixRbtNodes]
        refine Extends.bind fun n _ => Extends.ite (Extends.refl _) ?_
        refine Extends.bind fun p _ => Extends.bind fun parent _ => Extends.bind fun sibling _ =>
          Extends.bind fun s _ => Extends.bind fun s _ => ?_
        cases parent.parent with
        | none => exact Extends.refl _
        | some g => exact Extends.bind fun s _ => (ih s g).2 n.key
      · intro key
        rw [balanceRbtPostInsertion, balanceRbtPostInsertion]
        refine Extends.bind fun n _ => Extends.ite ?_ (Extends.refl _)
        exact Extends.bind fun color _ => Extends.ite (ih s a).1 (Extends.refl _)

theorem insertRbtEntry_succ (fuel : ℕ) (mem : Option Addr) (s : Rbt) (root : Option Addr)
    (key : Key) :
    Extends (s.insertRbtEntry fuel mem root key) (s.insertRbtEntry (fuel + 1) mem root key) := by
  unfold insertRbtEntry
  cases root with
  | none => exact Extends.refl _
  | some root =>
      refine Extends.trans (Extends.bind_left _ (insertLoop_succ fuel s key _ _)) ?_
      refine Extends.bind fun q _ => Extends.bind fun root _ => Extends.bind fun n _ =>
        Extends.ite (Extends.refl _) (Extends.bind fun s _ => ?_)
      cases mem with
      | none => exact Extends.refl _
      | some a => exact Extends.bind_left _ ((balance_insertion_succ fuel s root).2 key)

theorem searchLoop_succ (fuel : ℕ) (s : Rbt) (key : Key) (root : Option Addr) :
    Extends (s.searchLoop fuel key root) (s.searchLoop (fuel + 1) key root) := by
  induction fuel generalizing root with
  | zero => exact Extends.none_left _
  | succ fuel ih =>
      cases root with
      | none => exact Extends.refl _
      | some root =>
          rw [searchLoop, searchLoop]
          exact Extends.bind fun n _ => Extends.ite (Extends.refl _) (Extends.ite (ih _) (ih _))

theorem replaceLoop_succ (fuel : ℕ) (s : Rbt) (root : Addr) :
    Extends (s.replaceLoop fuel root) (s.replaceLoop (fuel + 1) root) := by
  induction fuel generalizing s root with
  | zero => exact Extends.none_left _
  | succ fuel ih =>
      rw [replaceLoop, replaceLoop]
      refine Extends.bind fun n _ => Extends.ite (Extends.refl _) ?_
      refine Extends.trans (Extends.bind_left _ (nearestRbtNode_succ .right fuel s root)) ?_
      refine Extends.bind fun successor _ => ?_
      refine Extends.trans (Extends.bind_left _
        (Extends.ite (nearestRbtNode_succ .left fuel s root) (Extends.refl _))) ?_
      exact Extends.bind fun replacement _ => Extends.bind fun b _ => Extends.bind fun r _ =>
        Extends.bind fun s _ => ih s b

theorem bstNodeDeletion_succ (fuel : ℕ) (s : Rbt) (key : Key) :
    Extends (s.bstNodeDeletion fuel key) (s.bstNodeDeletion (fuel + 1) key) := by
  unfold bstNodeDeletion
  refine Extends.trans (Extends.bind_left _ (searchLoop_succ fuel s key _)) ?_
  refine Extends.bind fun found _ => ?_
  cases found with
  | none => exact Extends.refl _
  | some root => exact Extends.bind_left _ (replaceLoop_succ fuel s root)

theorem balanceLoop_succ (fuel : ℕ) (s : Rbt) (node : Addr) :
    Extends (s.balanceLoop fuel node) (s.balanceLoop (fuel + 1) node) := by
  induction fuel generalizing s node with
  | zero => exact Extends.none_left _
  | succ fuel ih =>
      rw [balanceLoop, balanceLoop]
      exact Extends.bind fun q _ => Extends.ite (ih _ _) (Extends.refl _)

theorem removeRbtEntry_succ (fuel : ℕ) (s : Rbt) (key : Key) :
    Extends (s.removeRbtEntry fuel key) (s.removeRbtEntry (fuel + 1) key) := by
  unfold removeRbtEntry
  refine Extends.trans (Extends.bind_left _ (bstNodeDeletion_succ fuel s key)) ?_
  refine Extends.bind fun q _ => ?_
  obtain ⟨s, found⟩ := q
  cases found with
  | none => exact Extends.refl _
  | some found =>
      refine Extends.bind_left _ (Extends.ite ?_ (Extends.refl _))
      exact Extends.bind_left _ (balanceLoop_succ fuel s found.1)

theorem Call.exec_succ (fuel : ℕ) (s : Rbt) (c : Call) :
    Extends (c.exec fuel s) (c.exec (fuel + 1) s) := by
  cases c with
  | insert mem key => exact Extends.map _ (insertRbtEntry_succ fuel _ s _ key)
  | remove key => exact Extends.map _ (removeRbtEntry_succ fuel s key)
  | write key a data => exact Extends.refl _

/-! ## Executing calls -/

/-- The node that a search ends at can be reached, and holds the key. -/
theorem nodeOf_of_searchLoop {root : Option Addr} (hroot : ∀ b, root = some b → Linked s b)
    (h : s.searchLoop fuel key root = some (some a)) : NodeOf s key a := by
  induction fuel generalizing root with
  | zero => cases h
  | succ fuel ih =>
      cases root with
      | none => cases h
      | some root =>
          have hlinked := hroot root rfl
          rw [searchLoop] at h
          obtain ⟨n, hn, h⟩ := Option.bind_eq_some_iff.1 h
          split_ifs at h with hkey
          · obtain rfl := Option.some.inj (Option.some.inj h)
            exact ⟨hlinked, n, hn, hkey⟩
          · exact ih (fun b hb => .child (d := .right) hlinked hn hb) h
          · exact ih (fun b hb => .child (d := .left) hlinked hn hb) h

/-- The test of `Call.Legal`: a client that writes finds the node of the key by a search. -/
def Call.allowed (fuel : ℕ) (s : Rbt) : Call → Bool
  | .insert mem _ => (s.nodes mem).isNone
  | .remove _ => true
  | .write key a _ => s.searchLoop fuel key s.head == some (some a)

theorem Call.legal_of_allowed {c : Call} (h : c.allowed fuel s = true) : c.Legal s := by
  cases c with
  | insert mem key => exact Option.isNone_iff_eq_none.1 h
  | remove key => trivial
  | write key a data => exact nodeOf_of_searchLoop (fun b hb => .head hb) (eq_of_beq h)

/-- A call, executed if it is legal. -/
def Call.execute (fuel : ℕ) (s : Rbt) (c : Call) : Option (Rbt × Reply) :=
  if c.allowed fuel s then c.exec fuel s else none

theorem step_of_execute {c : Call} {r : Reply} (h : c.execute fuel s = some (s', r)) :
    Step s (c, r) s' := by
  unfold Call.execute at h
  split_ifs at h with hallowed
  exact ⟨Call.legal_of_allowed hallowed,
    Returns.of_some (fun fuel => Call.exec_succ fuel s c) h⟩

/-- Six insertions with rotations and colour changes on the way, and two removals of which the first
    rotates. -/
def severalEvents : List (Call × Reply) :=
  [(.insert 11 50, .node (some 11)), (.insert 12 40, .node (some 12)),
    (.insert 13 30, .node (some 13)), (.insert 14 20, .node (some 14)),
    (.insert 15 10, .node (some 15)), (.insert 16 15, .node (some 16)),
    (.write 20 14 (some 1), .done), (.remove 50, .status .ok), (.remove 30, .status .ok)]

/-- The tree after them: 20 above 10 and 40, with a red 15 below 10. -/
def several : Rbt := stateAfter (Call.execute 9) empty (severalEvents.map Prod.fst)

theorem run_several : Run Step empty severalEvents several :=
  Run.of_replies (fun _ _ _ _ hexec => step_of_execute hexec) (by decide +kernel)

theorem several_represents : Represents several (.node .black
    (.node .black .nil ⟨15, 10, none⟩ (.node .red .nil ⟨16, 15, none⟩ .nil)) ⟨14, 20, some 1⟩
    (.node .black .nil ⟨12, 40, none⟩ .nil)) := by
  refine ⟨⟨?_, ⟨?_, trivial, ?_, trivial, trivial⟩, ?_, trivial, trivial⟩, ?_, ?distinct⟩
  case distinct =>
    unfold Distinct
    decide
  all_goals decide +kernel

end Rbt
