import TargetUtils.Rbt.Guarantees
import Mathlib.Data.Finset.Card
import Mathlib.Data.Finset.Dedup

set_option autoImplicit false

/-! # The memory of the tree

Rotations, recolouring and the copying of keys write to nodes that are allocated and allocate none.
An insertion allocates the node it returns, a removal frees the one it unlinks, so in every run the
allocated nodes are the nodes of the tree: none is lost, and none is used after it was freed
(`allocated_of_run`). -/

open ColoredTree

namespace Rbt

variable {s : Rbt} {A : Set Addr} {a b : Addr} {key : Key} {d : Side}

/-- The allocated nodes are those of `A`. -/
def Allocates (A : Set Addr) (s : Rbt) : Prop := ∀ a, s.nodes a ≠ none ↔ a ∈ A

theorem Allocates.of_nodes {s' : Rbt} (h : Allocates A s) (hnodes : s'.nodes = s.nodes) :
    Allocates A s' := by
  intro a
  rw [hnodes]
  exact h a

theorem Allocates.store (h : Allocates A s) (n : RbtNode) : Allocates (insert a A) (s.store a n) := by
  intro b
  by_cases hb : b = a
  · simp [hb]
  · rw [nodes_store_of_ne hb, h, Set.mem_insert_iff, or_iff_right hb]

theorem Allocates.free (h : Allocates A s) : Allocates (A \ {a}) (s.free a) := by
  intro b
  by_cases hb : b = a
  · simp [hb, Rbt.free]
  · rw [nodes_free_of_ne hb, h]
    simp [hb]

/-! ## What allocates nothing -/

theorem Allocates.modify (h : Allocates A s) (f : RbtNode → RbtNode) :
    ∀ s' ∈ s.modify a f, Allocates A s' := by
  intro s' hs'
  obtain ⟨n, hn, rfl⟩ := Option.map_eq_some_iff.1 hs'
  have hmem : a ∈ A := (h a).1 (by rw [hn]; simp)
  have hstore := h.store (a := a) (f n)
  rwa [Set.insert_eq_of_mem hmem] at hstore

theorem Allocates.setColor (h : Allocates A s) (c : Color) :
    ∀ s' ∈ s.setColor a c, Allocates A s' := h.modify _

theorem Allocates.setParent (h : Allocates A s) (p : Option Addr) :
    ∀ s' ∈ s.setParent p b, Allocates A s' := by
  cases p with
  | none => exact forall_mem_some h
  | some a => exact h.modify _

theorem mem_any {α : Type*} (o : Option α) : ∀ x ∈ o, True := fun _ _ => trivial

theorem Allocates.relink (h : Allocates A s) (gParent : Option Addr) :
    ∀ s' ∈ s.relink gParent b, Allocates A s' := by
  cases gParent with
  | none => exact forall_mem_some h
  | some g => exact forall_mem_bind (mem_any _) fun c _ => h.modify _

theorem Allocates.rotateRbtNode (h : Allocates A s) :
    ∀ q ∈ s.rotateRbtNode d a, Allocates A q.1 := by
  unfold Rbt.rotateRbtNode
  refine forall_mem_bind (mem_any _) fun n _ => forall_mem_bind (mem_any _) fun child _ =>
    forall_mem_bind (mem_any _) fun c _ => ?_
  refine forall_mem_bind (h.modify _) fun s h => forall_mem_bind (h.modify _) fun s h =>
    forall_mem_bind (h.setColor _) fun s h => forall_mem_bind (h.setColor _) fun s h =>
    forall_mem_bind (h.setParent _) fun s h => forall_mem_bind (h.relink _) fun s h =>
    forall_mem_some ?_
  split_ifs
  · exact h.of_nodes rfl
  · exact h

theorem Allocates.performRotation (h : Allocates A s) :
    ∀ q ∈ s.performRotation a key, Allocates A q.1 := by
  unfold Rbt.performRotation
  refine forall_mem_bind (mem_any _) fun p _ => forall_mem_bind (mem_any _) fun gParent _ =>
    forall_mem_bind (mem_any _) fun g _ => forall_mem_ite (forall_mem_ite ?_ ?_) (forall_mem_ite ?_ ?_)
  · exact h.rotateRbtNode
  · exact forall_mem_bind h.rotateRbtNode fun q hq => hq.rotateRbtNode
  · exact forall_mem_bind h.rotateRbtNode fun q hq => hq.rotateRbtNode
  · exact h.rotateRbtNode

/-- The two functions call each other with less fuel. -/
theorem Allocates.balance_insertion (fuel : ℕ) : ∀ {s : Rbt}, Allocates A s → ∀ (a : Addr) (key : Key),
    (∀ s' ∈ s.colorFixRbtNodes fuel a, Allocates A s') ∧
      ∀ s' ∈ s.balanceRbtPostInsertion fuel a key, Allocates A s' := by
  induction fuel with
  | zero =>
      intro s _ a key
      constructor
      · intro s' hs'
        exact nomatch hs'
      · intro s' hs'
        exact nomatch hs'
  | succ fuel ih =>
      intro s h a key
      constructor
      · unfold colorFixRbtNodes
        refine forall_mem_bind (mem_any _) fun n _ => forall_mem_ite (forall_mem_some h) ?_
        refine forall_mem_bind (mem_any _) fun p _ => forall_mem_bind (mem_any _) fun parent _ =>
          forall_mem_bind (mem_any _) fun sibling _ => forall_mem_bind (h.setColor _) fun s h =>
          forall_mem_bind (h.setColor _) fun s h => ?_
        cases parent.parent with
        | none => exact h.setColor _
        | some g => exact forall_mem_bind (h.setColor _) fun s h => (ih h g n.key).2
      · unfold balanceRbtPostInsertion
        refine forall_mem_bind (mem_any _) fun n _ => forall_mem_ite ?_ (forall_mem_some h)
        refine forall_mem_bind (mem_any _) fun c _ => forall_mem_ite (ih h a key).1 ?_
        intro s' hs'
        obtain ⟨q, hq, rfl⟩ := Option.map_eq_some_iff.1 hs'
        exact h.performRotation q hq

theorem Allocates.replaceLoop (fuel : ℕ) : ∀ {s : Rbt}, Allocates A s → ∀ a : Addr,
    ∀ q ∈ s.replaceLoop fuel a, Allocates A q.1 := by
  induction fuel with
  | zero =>
      intro s _ a q hq
      exact nomatch hq
  | succ fuel ih =>
      intro s h a
      unfold Rbt.replaceLoop
      refine forall_mem_bind (mem_any _) fun n _ => forall_mem_ite (forall_mem_some h) ?_
      refine forall_mem_bind (mem_any _) fun successor _ => forall_mem_bind (mem_any _) fun r _ =>
        forall_mem_bind (mem_any _) fun r _ => forall_mem_bind (mem_any _) fun m _ =>
        forall_mem_bind (h.modify _) fun s h => ih h _

theorem Allocates.balanceStep (h : Allocates A s) : ∀ q ∈ s.balanceStep a, Allocates A q.1 := by
  unfold Rbt.balanceStep
  refine forall_mem_bind (mem_any _) fun n _ => ?_
  cases n.parent with
  | none => exact forall_mem_some h
  | some p =>
      refine forall_mem_bind (mem_any _) fun neighNode _ => forall_mem_bind (mem_any _) fun nodeDir _ =>
        forall_mem_bind (mem_any _) fun neighColor _ => forall_mem_ite ?_ ?_
      · refine forall_mem_bind (mem_any _) fun colors _ => forall_mem_ite ?_
          (forall_mem_bind (mem_any _) fun w _ => ?_)
        · refine forall_mem_bind (P := Allocates A) ?_ fun s h =>
            forall_mem_bind (mem_any _) fun parent _ => forall_mem_ite
              (forall_mem_bind (h.setColor _) fun s h => forall_mem_some h) (forall_mem_some h)
          cases neighNode with
          | none => exact forall_mem_some h
          | some w => exact h.setColor _
        · refine forall_mem_ite ?_ (forall_mem_ite ?_ (forall_mem_ite ?_ (forall_mem_ite ?_
            (forall_mem_some h))))
          · exact forall_mem_bind h.rotateRbtNode fun q h => forall_mem_bind (mem_any _) fun neigh _ =>
              forall_mem_bind (mem_any _) fun right _ => forall_mem_bind (h.setColor _) fun s h =>
                forall_mem_some h
          · exact forall_mem_bind h.rotateRbtNode fun q h => forall_mem_bind (mem_any _) fun neigh _ =>
              forall_mem_bind (mem_any _) fun left _ => forall_mem_bind (h.setColor _) fun s h =>
                forall_mem_some h
          · exact forall_mem_bind h.rotateRbtNode fun q h => forall_mem_some h
          · exact forall_mem_bind h.rotateRbtNode fun q h => forall_mem_some h
      · exact forall_mem_bind (forall_mem_ite h.rotateRbtNode h.rotateRbtNode) fun q h =>
          forall_mem_some h

theorem Allocates.balanceLoop (fuel : ℕ) : ∀ {s : Rbt}, Allocates A s → ∀ a : Addr,
    ∀ s' ∈ s.balanceLoop fuel a, Allocates A s' := by
  induction fuel with
  | zero =>
      intro s _ a q hq
      exact nomatch hq
  | succ fuel ih =>
      intro s h a
      exact forall_mem_bind h.balanceStep fun q hq => forall_mem_ite (ih hq _) (forall_mem_some hq)

theorem Allocates.balanceRbtPostDeletion (h : Allocates A s) (fuel : ℕ) :
    ∀ s' ∈ s.balanceRbtPostDeletion fuel a, Allocates A s' := by
  unfold Rbt.balanceRbtPostDeletion
  exact forall_mem_bind (Allocates.balanceLoop fuel h a) fun s h =>
    forall_mem_bind (mem_any _) fun head _ => forall_mem_bind (mem_any _) fun n _ =>
      forall_mem_ite (h.setColor _) (forall_mem_some h)

/-! ## What allocates and frees -/

/-- A call that returns another node than the new one has not asked for memory. -/
theorem Allocates.insertRbtEntry (h : Allocates A s) (mem : Addr) (root : Option Addr) (fuel : ℕ) :
    ∀ q ∈ s.insertRbtEntry fuel (some mem) root key,
      Allocates A q.1 ∨ Allocates (insert mem A) q.1 ∧ q.2 = some mem := by
  unfold Rbt.insertRbtEntry
  cases root with
  | none =>
      refine forall_mem_bind ((h.store _).setColor _) fun s h => forall_mem_some (Or.inr ⟨?_, rfl⟩)
      exact h.of_nodes rfl
  | some root =>
      refine forall_mem_bind (mem_any _) fun p _ => forall_mem_bind (mem_any _) fun root _ =>
        forall_mem_bind (mem_any _) fun n _ => forall_mem_ite (forall_mem_some (Or.inl h)) ?_
      exact forall_mem_bind ((h.store _).modify _) fun s h =>
        forall_mem_bind (Allocates.balance_insertion fuel h _ _).2 fun s h =>
          forall_mem_some (Or.inr ⟨h, rfl⟩)

theorem Allocates.removeRbtEntry (h : Allocates A s) (fuel : ℕ) :
    ∀ q ∈ s.removeRbtEntry fuel key,
      q.2 = .noKey ∨ ∃ a ∈ A, Allocates (A \ {a}) q.1 := by
  unfold Rbt.removeRbtEntry
  refine forall_mem_bind (P := fun q => Allocates A q.1) ?_ fun q hq => ?_
  · exact forall_mem_bind (mem_any _) fun root _ => by
      cases root with
      | none => exact forall_mem_some h
      | some root => exact forall_mem_bind (Allocates.replaceLoop fuel h _) fun q hq => forall_mem_some hq
  · obtain ⟨s, _ | ⟨a, color⟩⟩ := q
    · exact forall_mem_some (Or.inl rfl)
    · refine forall_mem_bind (P := Allocates A) ?_ fun s h => ?_
      · exact forall_mem_ite (Allocates.balanceRbtPostDeletion hq fuel) (forall_mem_some hq)
      · refine forall_mem_bind (P := fun _ => a ∈ A) (fun n hn => ?_) fun n ha => ?_
        · exact (h a).1 (by rw [hn]; simp)
        · refine forall_mem_bind (P := Allocates A) ?_ fun s h =>
            forall_mem_some (Or.inr ⟨a, ha, h.free⟩)
          cases n.parent with
          | none => exact forall_mem_some (h.of_nodes rfl)
          | some p => exact forall_mem_bind (mem_any _) fun d _ =>
              forall_mem_ite (h.modify _) (h.modify _)

/-! ## Runs -/

/-- The nodes of the tree. -/
def addrs (t : ColoredTree Entry) : Finset Addr := (t.toList.map Entry.addr).toFinset

theorem mem_addrs {t : ColoredTree Entry} : a ∈ addrs t ↔ ∃ e ∈ t.toList, e.addr = a := by
  rw [addrs, List.mem_toFinset, List.mem_map]

theorem card_addrs {t : ColoredTree Entry} (h : Distinct t) : (addrs t).card = t.toList.length := by
  rw [addrs, List.toFinset_card_of_nodup (List.pairwise_map.2 h), List.length_map]

/-- The nodes of a tree are allocated. -/
theorem Represents.addrs_subset {t : ColoredTree Entry} (h : Represents s t)
    (hA : Allocates A s) : ↑(addrs t) ⊆ A := by
  intro a ha
  obtain ⟨e, he, rfl⟩ := mem_addrs.1 ha
  exact (hA e.addr).1 (h.nodes_ne_none he)

theorem Represents.addrs_unique {t u : ColoredTree Entry} (h : Represents s t)
    (h' : Represents s u) : addrs t = addrs u := by
  ext a
  rw [mem_addrs, mem_addrs, ← h.linked_iff, h'.linked_iff]

theorem returns_insert {mem : Addr} {s' : Rbt} {p : Option Addr}
    (h : Returns (fun fuel => s.insertRbtEntry fuel (some mem) s.head key) (s', p)) :
    Returns (fun fuel => (Call.insert mem key).exec fuel s) (s', .node p) :=
  h.map fun q : Rbt × Option Addr => (q.1, Reply.node q.2)

theorem returns_remove {s' : Rbt} {sts : Sts}
    (h : Returns (fun fuel => s.removeRbtEntry fuel key) (s', sts)) :
    Returns (fun fuel => (Call.remove key).exec fuel s) (s', .status sts) :=
  h.map fun q : Rbt × Sts => (q.1, Reply.status q.2)

theorem allocates_insert {t : ColoredTree Entry} {mem : Addr} {s' : Rbt} {r : Reply}
    (h : Represents s t) (hsorted : Sorted t) (hred : t.IsRedBlack) (hA : Allocates ↑(addrs t) s)
    (hmem : s.nodes mem = none)
    (hcall : Returns (fun fuel => (Call.insert mem key).exec fuel s) (s', r)) :
    ∃ u, Represents s' u ∧ Allocates ↑(addrs u) s' := by
  rcases insertRbtEntry_spec key h hsorted hred hmem with
    ⟨e, -, -, hreturns⟩ | ⟨-, s₁, u, left, right, hreturns, hrep, -, -, ht, hu⟩
  · obtain ⟨rfl, -⟩ := Prod.mk.inj (hcall.unique (returns_insert hreturns))
    exact ⟨t, h, hA⟩
  · obtain ⟨rfl, -⟩ := Prod.mk.inj (hcall.unique (returns_insert hreturns))
    refine ⟨u, hrep, ?_⟩
    have haddrs : addrs u = insert mem (addrs t) := by
      ext a
      simp only [mem_addrs, Finset.mem_insert, ht, hu, List.mem_append, List.mem_cons]
      grind
    obtain ⟨bound, hbound⟩ := hreturns
    rcases hA.insertRbtEntry mem s.head bound _ (hbound bound le_rfl) with hsame | ⟨hnew, -⟩
    · -- the new node is linked, so it was allocated
      have hlinked : mem ∈ (addrs t : Set Addr) :=
        hrep.addrs_subset hsame (by rw [haddrs]; exact Finset.mem_insert_self ..)
      exact absurd hmem ((hA mem).2 hlinked)
    · rwa [haddrs, Finset.coe_insert]

theorem allocates_remove {t : ColoredTree Entry} {s' : Rbt} {r : Reply} (h : Represents s t)
    (hsorted : Sorted t) (hred : t.IsRedBlack) (hA : Allocates ↑(addrs t) s)
    (hcall : Returns (fun fuel => (Call.remove key).exec fuel s) (s', r)) :
    ∃ u, Represents s' u ∧ Allocates ↑(addrs u) s' := by
  rcases removeRbtEntry_spec key h hsorted hred with
    ⟨-, hreturns⟩ | ⟨e, s₁, u, bs, as, -, hreturns, hrep, -, -, ht, hu⟩
  · obtain ⟨rfl, -⟩ := Prod.mk.inj (hcall.unique (returns_remove hreturns))
    exact ⟨t, h, hA⟩
  · obtain ⟨rfl, -⟩ := Prod.mk.inj (hcall.unique (returns_remove hreturns))
    refine ⟨u, hrep, ?_⟩
    obtain ⟨bound, hbound⟩ := hreturns
    obtain ⟨a, ha, hfreed⟩ :=
      (hA.removeRbtEntry bound _ (hbound bound le_rfl)).resolve_left (by simp)
    rw [← Finset.coe_singleton, ← Finset.coe_sdiff] at hfreed
    -- one node is freed, and the tree has one entry less
    have hcard : (addrs t \ {a}).card ≤ (addrs u).card := by
      have hlen := congrArg List.length hu
      have hlen' := congrArg List.length ht
      rw [List.length_map, List.length_map, List.length_append] at hlen
      rw [List.length_append, List.length_cons] at hlen'
      rw [Finset.card_sdiff_of_subset (Finset.singleton_subset_iff.2 ha), Finset.card_singleton,
        card_addrs h.distinct, card_addrs hrep.distinct]
      omega
    rw [Finset.eq_of_subset_of_card_le (Finset.coe_subset.1 (hrep.addrs_subset hfreed)) hcard]
    exact hfreed

theorem allocates_write {t : ColoredTree Entry} {m : AbstractMap} {s' : Rbt} {x : Option Addr}
    {r : Reply}
    (h : Represents s t) (hsorted : Sorted t) (hred : t.IsRedBlack) (hm : Agrees t m)
    (hA : Allocates ↑(addrs t) s) (hnode : NodeOf s key a)
    (hcall : Returns (fun fuel => (Call.write key a x).exec fuel s) (s', r)) :
    ∃ u, Represents s' u ∧ Allocates ↑(addrs u) s' := by
  obtain ⟨_, s₁, u, hreturns, hrep, -, -, -, -, hkept⟩ := h.write (x := x) hsorted hred hm hnode
  obtain ⟨rfl, -⟩ := Prod.mk.inj (hcall.unique hreturns)
  refine ⟨u, hrep, ?_⟩
  obtain ⟨bound, hbound⟩ := hcall
  obtain ⟨s₂, hs₂, heq⟩ := Option.map_eq_some_iff.1 (hbound bound le_rfl)
  obtain ⟨rfl, -⟩ := Prod.mk.inj heq
  have hA' := hA.modify _ s₂ hs₂
  have hsub : addrs t ⊆ addrs u := by
    intro b hb
    obtain ⟨e, he, heb⟩ := mem_addrs.1 hb
    have hkept' := hkept e.key b (h.nodeOf_iff.2 ⟨e, he, heb, rfl⟩)
    exact mem_addrs.2 (hrep.linked_iff.1 hkept'.1)
  rw [Finset.Subset.antisymm hsub (Finset.coe_subset.1 (hrep.addrs_subset hA'))] at hA'
  exact hA'

/-- One call keeps the allocated nodes those of the tree. -/
theorem allocates_step {t : ColoredTree Entry} {m : AbstractMap} {e : Call × Reply} {s' : Rbt}
    (h : Represents s t) (hsorted : Sorted t) (hred : t.IsRedBlack) (hm : Agrees t m)
    (hA : Allocates ↑(addrs t) s) (hstep : Step s e s') :
    ∃ u, Represents s' u ∧ Allocates ↑(addrs u) s' := by
  obtain ⟨c, r⟩ := e
  obtain ⟨hlegal, hcall⟩ := hstep
  cases c with
  | insert mem key => exact allocates_insert h hsorted hred hA hlegal hcall
  | remove key => exact allocates_remove h hsorted hred hA hcall
  | write key a x => exact allocates_write h hsorted hred hm hA hlegal hcall

/-- In every run the allocated nodes are those linked into the tree. -/
theorem allocated_of_run {events : List (Call × Reply)} (h : Run Step empty events s) :
    ∀ a, s.nodes a ≠ none ↔ Linked s a := by
  have hall : ∃ t, Represents s t ∧ Allocates ↑(addrs t) s := by
    induction h with
    | nil => exact ⟨.nil, empty_represents, fun a => by simp [empty, addrs]⟩
    | snoc hinit hlast ih =>
        obtain ⟨t', ht', hA⟩ := ih
        obtain ⟨t, ht, hsorted, hred, hm⟩ := tree_of_run hinit
        rw [ht'.addrs_unique ht] at hA
        exact allocates_step ht hsorted hred hm hA hlast
  obtain ⟨t, ht, hA⟩ := hall
  intro a
  rw [hA a, ht.linked_iff, Finset.mem_coe, mem_addrs]

theorem allocated_of_run_several : Linked several 16 ∧ ¬ Linked several 11 :=
  ⟨(allocated_of_run run_several 16).1 (by decide +kernel),
    fun h => (allocated_of_run run_several 11).2 h (by decide +kernel)⟩

end Rbt
