import TargetUtils.Rbt.Removal

set_option autoImplicit false

/-! # Runs of the red-black tree

Every call from a red-black tree returns, leaves a red-black tree, and changes the pairs of keys and
data as a map does (`Represents.step`). -/

open ColoredTree

namespace Rbt

/-! ## Calls -/

/-- The calls of a client. `mem` is what `bf_sys_calloc` returns if it is called, and a client writes
    data to the node it has for a key. -/
inductive Call
  | insert (mem : Addr) (key : Key)
  | remove (key : Key)
  | write (key : Key) (a : Addr) (data : Option Addr)
deriving DecidableEq

/-- What a call returns. -/
inductive Reply
  | node (p : Option Addr)
  | status (sts : Sts)
  | done
deriving DecidableEq

def Call.exec (fuel : ℕ) (s : Rbt) : Call → Option (Rbt × Reply)
  | .insert mem key => (s.insertRbtEntry fuel (some mem) s.head key).map fun q => (q.1, .node q.2)
  | .remove key => (s.removeRbtEntry fuel key).map fun q => (q.1, .status q.2)
  | .write _ a data => (s.modify a fun n => { n with data := data }).map fun s => (s, .done)

/-- The nodes that can be reached from the head. -/
inductive Linked (s : Rbt) : Addr → Prop
  | head {a : Addr} : s.head = some a → Linked s a
  | child {a b : Addr} {n : RbtNode} {d : Side} :
      Linked s a → s.nodes a = some n → n.child d = some b → Linked s b

/-- The node in the tree that holds the key. -/
def NodeOf (s : Rbt) (key : Key) (a : Addr) : Prop :=
  Linked s a ∧ ∃ n, s.nodes a = some n ∧ n.key = key

/-- The pairs of keys and data held in the tree. -/
def pairs (s : Rbt) : Set (Key × Option Addr) :=
  {q | ∃ a n, Linked s a ∧ s.nodes a = some n ∧ (n.key, n.data) = q}

/-- `bf_sys_calloc` returns memory that is not in use. A client writes to the node that holds the key
    at that time; a pointer kept over a removal may be stale, as the keys move between nodes. -/
def Call.Legal (s : Rbt) : Call → Prop
  | .insert mem _ => s.nodes mem = none
  | .remove _ => True
  | .write key a _ => NodeOf s key a

/-- One call and what it returns. -/
def Step (s : Rbt) (e : Call × Reply) (s' : Rbt) : Prop :=
  e.1.Legal s ∧ Returns (fun fuel => e.1.exec fuel s) (s', e.2)

/-- The map that a tree stands for. -/
abbrev AbstractMap := Key → Option (Option Addr)

/-- The effect of a call on the map. -/
def Call.apply (m : AbstractMap) : Call → AbstractMap
  | .insert _ key => if (m key).isSome then m else Function.update m key (some none)
  | .remove key => Function.update m key none
  | .write key _ data => Function.update m key (some data)

/-- The map after some calls. -/
def mapAfter (calls : List Call) : AbstractMap := calls.foldl Call.apply fun _ => none

/-- What a call returns, as the map before it says, and which nodes a client may keep. -/
def Call.Replies (m : AbstractMap) (s : Rbt) (s' : Rbt) : Call → Reply → Prop
  | .insert _ key, r => (∃ a, r = .node (some a) ∧ NodeOf s' key a) ∧
      ((m key).isSome → s' = s) ∧ ∀ k a, NodeOf s k a → NodeOf s' k a
  | .remove key, r => if (m key).isSome then r = .status .ok else r = .status .noKey ∧ s' = s
  | .write _ _ _, r => r = .done ∧ ∀ k a, NodeOf s k a → NodeOf s' k a

variable {s s' : Rbt} {a : Addr} {key : Key} {t u : ColoredTree Entry} {ctx : Context Entry}
  {m : AbstractMap}

/-! ## What can be reached -/

theorem Represents.linked_root (h : Represents s (plug ctx t)) (ha : rootOf t = some a) :
    Linked s a := by
  induction ctx generalizing t a with
  | nil => exact .head (h.head_eq.trans ha)
  | cons f rest ih =>
      refine .child (d := f.side) (ih h.fill rootOf_nodeAt) h.frame ?_
      rw [RbtNode.child_ofEntry, ha]

/-- The nodes that can be reached are those of the tree. -/
theorem Represents.linked_iff (h : Represents s t) : Linked s a ↔ ∃ e ∈ t.toList, e.addr = a := by
  constructor
  · intro hlinked
    induction hlinked with
    | @head a hhead =>
        rw [h.head_eq] at hhead
        obtain ⟨c, l, e, r, rfl⟩ := (exists_nodeAt .left t).resolve_left fun hnil => by
          simp [hnil] at hhead
        exact ⟨e, by simp, by simpa using hhead⟩
    | @child a b n d _ hn hchild ih =>
        obtain ⟨e, he, rfl⟩ := ih
        obtain ⟨ctx, c, l, r, rfl⟩ := exists_plug_of_mem he
        have hnode := Represents.node (d := .left) h
        rw [hn, Option.some.injEq] at hnode
        subst hnode
        have hsub : ∀ v : ColoredTree Entry, rootOf v = some b →
            (∀ x ∈ v.toList, x ∈ (plug ctx (.node c l e r)).toList) →
            ∃ x ∈ (plug ctx (.node c l e r)).toList, x.addr = b := by
          intro v hv hmem
          obtain ⟨c', l', x, r', rfl⟩ := (exists_nodeAt .left v).resolve_left fun hnil => by
            simp [hnil] at hv
          exact ⟨x, hmem x (by simp), by simpa using hv⟩
        cases d with
        | left => exact hsub l hchild fun x hx => mem_plug.2 (Or.inl (by simp [toList, hx]))
        | right => exact hsub r hchild fun x hx => mem_plug.2 (Or.inl (by simp [toList, hx]))
  · rintro ⟨e, he, rfl⟩
    obtain ⟨ctx, c, l, r, rfl⟩ := exists_plug_of_mem he
    exact h.linked_root rfl

theorem Represents.nodes_of_mem {e : Entry} (h : Represents s t) (he : e ∈ t.toList) :
    ∃ n, s.nodes e.addr = some n ∧ n.key = e.key ∧ n.data = e.data := by
  obtain ⟨ctx, c, l, r, rfl⟩ := exists_plug_of_mem he
  exact ⟨_, Represents.node (d := .left) h, rfl, rfl⟩

theorem Represents.nodeOf_iff (h : Represents s t) :
    NodeOf s key a ↔ ∃ e ∈ t.toList, e.addr = a ∧ e.key = key := by
  constructor
  · rintro ⟨hlinked, n, hn, rfl⟩
    obtain ⟨e, he, rfl⟩ := h.linked_iff.1 hlinked
    obtain ⟨n', hn', hkey, -⟩ := h.nodes_of_mem he
    obtain rfl := Option.some.inj (hn.symm.trans hn')
    exact ⟨e, he, rfl, hkey.symm⟩
  · rintro ⟨e, he, rfl, rfl⟩
    obtain ⟨n, hn, hkey, -⟩ := h.nodes_of_mem he
    exact ⟨h.linked_iff.2 ⟨e, he, rfl⟩, n, hn, hkey⟩

theorem Represents.pairs_eq (h : Represents s t) : s.pairs = {q | q ∈ t.toList.map Entry.pair} := by
  ext q
  simp only [pairs, Set.mem_ofPred_eq, List.mem_map]
  constructor
  · rintro ⟨a, n, hlinked, hn, rfl⟩
    obtain ⟨e, he, rfl⟩ := h.linked_iff.1 hlinked
    obtain ⟨n', hn', hkey, hdata⟩ := h.nodes_of_mem he
    obtain rfl := Option.some.inj (hn.symm.trans hn')
    exact ⟨e, he, by rw [Entry.pair, hkey, hdata]⟩
  · rintro ⟨e, he, rfl⟩
    obtain ⟨n, hn, hkey, hdata⟩ := h.nodes_of_mem he
    exact ⟨e.addr, n, h.linked_iff.2 ⟨e, he, rfl⟩, hn, by rw [Entry.pair, hkey, hdata]⟩

/-! ## One call -/

/-- The pairs of the tree are those of the map. -/
def Agrees (t : ColoredTree Entry) (m : AbstractMap) : Prop :=
  ∀ k x, (k, x) ∈ t.toList.map Entry.pair ↔ m k = some x

theorem Agrees.isSome_iff (h : Agrees t m) : (m key).isSome ↔ ∃ e ∈ t.toList, e.key = key := by
  rw [Option.isSome_iff_exists]
  simp only [← h key, List.mem_map, Entry.pair, Prod.mk.injEq]
  constructor
  · rintro ⟨x, e, he, hkey, -⟩
    exact ⟨e, he, hkey⟩
  · rintro ⟨e, he, hkey⟩
    exact ⟨e.data, e, he, hkey, rfl⟩

/-- What a call does from a red-black tree that stands for `m`. -/
def Call.Meets (m : AbstractMap) (s : Rbt) (c : Call) : Prop :=
  ∃ r s' u, Returns (fun fuel => c.exec fuel s) (s', r) ∧ Represents s' u ∧ Sorted u ∧
    u.IsRedBlack ∧ Agrees u (c.apply m) ∧ c.Replies m s s' r

theorem Represents.insert {mem : Addr} (h : Represents s t) (hsorted : Sorted t)
    (hred : t.IsRedBlack) (hm : Agrees t m) (hmem : s.nodes mem = none) :
    (Call.insert mem key).Meets m s := by
  rcases insertRbtEntry_spec key h hsorted hred hmem with
    ⟨e, he, hkey, hreturns⟩ | ⟨habsent, s', u, l, r, hreturns, hrep, hsorted', hred', hlist, hlist'⟩
  · have hsome : (m key).isSome := hm.isSome_iff.2 ⟨e, he, hkey⟩
    refine ⟨_, s, t, hreturns.map _, h, hsorted, hred, ?_, ⟨e.addr, rfl, ?_⟩, fun _ => rfl,
      fun _ _ hnode => hnode⟩
    · rwa [Call.apply, if_pos hsome]
    · exact h.nodeOf_iff.2 ⟨e, he, rfl, hkey⟩
  · have hnone : ¬ (m key).isSome := fun hsome => by
      obtain ⟨e, he, hkey⟩ := hm.isSome_iff.1 hsome
      exact habsent e he hkey
    refine ⟨_, s', u, hreturns.map _, hrep, hsorted', hred', fun k x => ?_, ⟨mem, rfl, ?_⟩,
      fun hsome => absurd hsome hnone, fun k a hnode => ?_⟩
    · have hm := hm k x
      rw [hlist] at hm
      rw [Call.apply, if_neg hnone, hlist', List.map_append, List.map_cons, List.mem_append,
        List.mem_cons, or_left_comm, ← List.mem_append, ← List.map_append, hm,
        Function.update_apply]
      rw [Bool.not_eq_true, Option.isSome_eq_false_iff, Option.isNone_iff_eq_none] at hnone
      simp only [Entry.pair, Prod.mk.injEq]
      split_ifs with hk
      · subst hk
        simp [hnone, eq_comm]
      · simp [hk]
    · exact hrep.nodeOf_iff.2 ⟨⟨mem, key, none⟩, by simp [hlist'], rfl, rfl⟩
    · obtain ⟨e, he, haddr, hkey⟩ := h.nodeOf_iff.1 hnode
      refine hrep.nodeOf_iff.2 ⟨e, ?_, haddr, hkey⟩
      rw [hlist, List.mem_append] at he
      rw [hlist', List.mem_append, List.mem_cons]
      tauto

theorem Sorted.ne_of_split {l r : List Entry} {e : Entry} (hsorted : Sorted t)
    (hlist : t.toList = l ++ e :: r) : ∀ x ∈ l ++ r, x.key ≠ e.key := by
  rw [Sorted, hlist, List.pairwise_append, List.pairwise_cons] at hsorted
  intro x hx
  rcases List.mem_append.1 hx with hx | hx
  · exact (hsorted.2.2 x hx e (by simp)).ne
  · exact (hsorted.2.1.1 x hx).ne'

/-- Of the pairs of a sorted tree, one has the key of `e`, and the others agree with the map. -/
theorem Agrees.split {l r : List Entry} {e : Entry} (hm : Agrees t m) (hsorted : Sorted t)
    (hlist : t.toList = l ++ e :: r) (k : Key) (x : Option Addr) :
    (k, x) ∈ (l ++ r).map Entry.pair ↔ k ≠ e.key ∧ m k = some x := by
  have hother := hsorted.ne_of_split hlist
  rw [← hm k x, hlist, List.map_append, List.map_append, List.map_cons, List.mem_append,
    List.mem_append, List.mem_cons]
  simp only [List.mem_append, List.mem_map, Entry.pair, Prod.mk.injEq] at hother ⊢
  grind

theorem Represents.remove (h : Represents s t) (hsorted : Sorted t) (hred : t.IsRedBlack)
    (hm : Agrees t m) : (Call.remove key).Meets m s := by
  rcases removeRbtEntry_spec key h hsorted hred with
    ⟨habsent, hreturns⟩ | ⟨e, s', u, l, r, hkey, hreturns, hrep, hsorted', hred', hlist, hpairs⟩
  · have hnone : ¬ (m key).isSome := fun hsome => by
      obtain ⟨e, he, hkey⟩ := hm.isSome_iff.1 hsome
      exact habsent e he hkey
    refine ⟨_, s, t, hreturns.map _, h, hsorted, hred, ?_, ?_⟩
    · rw [Call.apply, Function.update_eq_self_iff.2]
      · exact hm
      · simpa using (Option.not_isSome_iff_eq_none.1 hnone).symm
    · rw [Call.Replies, if_neg hnone]
      exact ⟨rfl, rfl⟩
  · have hsome : (m key).isSome := hm.isSome_iff.2 ⟨e, by simp [hlist], hkey⟩
    refine ⟨_, s', u, hreturns.map _, hrep, hsorted', hred', fun k x => ?_, ?_⟩
    · rw [hpairs, hm.split hsorted hlist, hkey, Call.apply, Function.update_apply]
      split_ifs with hk <;> simp [hk]
    · rw [Call.Replies, if_pos hsome]

theorem Represents.write {x : Option Addr} (h : Represents s t) (hsorted : Sorted t)
    (hred : t.IsRedBlack) (hm : Agrees t m) (hnode : NodeOf s key a) :
    (Call.write key a x).Meets m s := by
  obtain ⟨e, he, rfl, rfl⟩ := h.nodeOf_iff.1 hnode
  obtain ⟨ctx, c, l, r, rfl⟩ := exists_plug_of_mem he
  let e' : Entry := { e with data := x }
  have hlist : ∀ y, (plug ctx (.node c l y r)).toList =
      (before ctx ++ l.toList) ++ y :: (r.toList ++ after ctx) := fun y => by simp [toList]
  have hrep : Represents (s.store e.addr (.ofEntry .left c e' (rootOf l) (rootOf r) (parentOf ctx)))
      (plug ctx (.node c l e' r)) := Represents.store (d := .left) h rfl
  refine ⟨.done, _, _, Returns.const ?_, hrep, ?_, ?_, fun k y => ?_, rfl, fun k b hb => ?_⟩
  · rw [modify_eq _ (Represents.node (d := .left) h)]
    rfl
  · rw [Sorted, hlist, ← List.pairwise_map (f := Entry.key)] at hsorted ⊢
    simpa using hsorted
  · rw [← isRedBlack_map Entry.key] at hred ⊢
    rwa [map_plug_congr (show (ColoredTree.node c l e' r).map Entry.key =
      (ColoredTree.node c l e r).map Entry.key from rfl)]
  · rw [hlist, List.map_append, List.map_cons, List.mem_append, List.mem_cons, or_left_comm,
      ← List.mem_append, ← List.map_append, hm.split hsorted (hlist e), Call.apply,
      Function.update_apply]
    simp only [Entry.pair, e', Prod.mk.injEq]
    split_ifs with hk <;> simp [hk, eq_comm]
  · obtain ⟨y, hy, rfl, rfl⟩ := h.nodeOf_iff.1 hb
    rw [hlist, List.mem_append, List.mem_cons] at hy
    have hsame : ∀ z ∈ (plug ctx (.node c l e' r)).toList, z.addr = y.addr → z.key = y.key →
        NodeOf _ y.key y.addr := fun z hz haddr hkey => hrep.nodeOf_iff.2 ⟨z, hz, haddr, hkey⟩
    rcases hy with hy | rfl | hy
    · exact hsame y (by rw [hlist]; exact List.mem_append_left _ hy) rfl rfl
    · exact hsame e' (by rw [hlist]; simp) rfl rfl
    · exact hsame y (by rw [hlist]; simp only [List.mem_append, List.mem_cons] at hy ⊢; tauto) rfl rfl

/-- A call from a red-black tree. -/
theorem Represents.meets {c : Call} (h : Represents s t) (hsorted : Sorted t) (hred : t.IsRedBlack)
    (hm : Agrees t m) (hlegal : c.Legal s) : c.Meets m s := by
  cases c with
  | insert mem key => exact h.insert hsorted hred hm hlegal
  | remove key => exact h.remove hsorted hred hm
  | write key a x => exact h.write hsorted hred hm hlegal

/-! ## All calls -/

theorem empty_represents : Represents empty .nil := ⟨trivial, rfl, List.Pairwise.nil⟩

/-- After any run the memory holds a red-black tree that stands for the map of the same calls. -/
theorem tree_of_run {events : List (Call × Reply)} (h : Run Step empty events s) :
    ∃ t, Represents s t ∧ Sorted t ∧ t.IsRedBlack ∧ Agrees t (mapAfter (events.map Prod.fst)) := by
  induction h with
  | nil => exact ⟨.nil, empty_represents, List.Pairwise.nil, isRedBlack_nil, by simp [Agrees, mapAfter]⟩
  | snoc _ hlast ih =>
      obtain ⟨t, hrep, hsorted, hred, hm⟩ := ih
      obtain ⟨hlegal, hreturns⟩ := hlast
      obtain ⟨r, s', u, hreturns', hrep', hsorted', hred', hm', -⟩ :=
        hrep.meets hsorted hred hm hlegal
      obtain ⟨rfl, -⟩ := Prod.mk.inj (hreturns.unique hreturns')
      refine ⟨u, hrep', hsorted', hred', ?_⟩
      rwa [List.map_append, mapAfter, List.foldl_append]

end Rbt
