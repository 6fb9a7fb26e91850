import TargetUtils.Rbt.Bounds
import TargetUtils.Rbt.Memory
import Mathlib.Data.Set.Card

set_option autoImplicit false

/-! # How far the loops go

Every loop over the tree goes down one level a round (`Walks`), and the rebalancing after an
insertion goes up (`Chain`). A tree of `n` nodes is `2 * log 2 (n + 1)` levels deep at most, so with
that many rounds the lookups and the insertion end (`logarithmic_of_run`). -/

open ColoredTree

namespace Rbt

variable {s s' : Rbt} {t : ColoredTree Entry} {ctx : Context Entry} {key : Key} {a : Addr}
  {p : Option Addr}

/-! ## Down -/

/-- A loop that at each node either ends or goes to a child, and ends at NULL; `acc` is what it
    carries along. -/
structure Walks {α β : Type} (s : Rbt) (loop : ℕ → Option Addr → α → Option β) : Prop where
  null : ∀ acc, ∃ r, ∀ fuel, loop (fuel + 1) none acc = some r
  node : ∀ a n acc, s.nodes a = some n → (∃ r, ∀ fuel, loop (fuel + 1) (some a) acc = some r) ∨
    ∃ d acc', ∀ fuel, loop (fuel + 1) (some a) acc = loop fuel (n.child d) acc'

/-- A loop down a tree takes one round for each level, and one for NULL. -/
theorem Walks.ends {α β : Type} {loop : ℕ → Option Addr → α → Option β} (h : Walks s loop)
    (hrep : Rep s p t) (acc : α) : ∃ r, ∀ fuel, t.depth < fuel → loop fuel (rootOf t) acc = some r := by
  induction t generalizing p acc with
  | nil =>
      obtain ⟨r, hr⟩ := h.null acc
      refine ⟨r, fun fuel hfuel => ?_⟩
      obtain ⟨fuel, rfl⟩ := Nat.exists_eq_add_of_lt hfuel
      rw [Nat.add_comm (depth _)]
      exact hr _
  | node c l e r ihl ihr =>
      obtain ⟨hnode, hl, hr⟩ := hrep
      rcases h.node e.addr _ acc hnode with ⟨y, hy⟩ | ⟨d, acc', hnext⟩
      · refine ⟨y, fun fuel hfuel => ?_⟩
        obtain ⟨fuel, rfl⟩ := Nat.exists_eq_add_of_lt hfuel
        exact hy _
      · have hchild : ∃ y, ∀ fuel, max l.depth r.depth < fuel →
            loop fuel (RbtNode.child ⟨e.key, c, rootOf l, rootOf r, p, e.data⟩ d) acc' = some y := by
          cases d with
          | left =>
              obtain ⟨y, hy⟩ := ihl hl acc'
              exact ⟨y, fun fuel hfuel => hy fuel (lt_of_le_of_lt (Nat.le_max_left ..) hfuel)⟩
          | right =>
              obtain ⟨y, hy⟩ := ihr hr acc'
              exact ⟨y, fun fuel hfuel => hy fuel (lt_of_le_of_lt (Nat.le_max_right ..) hfuel)⟩
        obtain ⟨y, hy⟩ := hchild
        refine ⟨y, fun fuel hfuel => ?_⟩
        rw [depth] at hfuel
        cases fuel with
        | zero => omega
        | succ fuel => exact (hnext fuel).trans (hy fuel (by omega))

theorem insertLoop_walks (s : Rbt) (key : Key) :
    Walks s fun fuel p prev => s.insertLoop fuel key p prev := by
  refine ⟨fun prev => ⟨_, fun fuel => rfl⟩, ?_⟩
  intro a n prev hn
  have hround : ∀ fuel, s.insertLoop (fuel + 1) key (some a) prev =
      if n.key < key then s.insertLoop fuel key n.right (some a)
      else if key < n.key then s.insertLoop fuel key n.left (some a)
      else some (some a, some a) := by
    intro fuel
    rw [insertLoop, hn]
    rfl
  simp only [hround]
  split_ifs
  · exact Or.inr ⟨.right, some a, fun fuel => rfl⟩
  · exact Or.inr ⟨.left, some a, fun fuel => rfl⟩
  · exact Or.inl ⟨_, fun fuel => rfl⟩

theorem searchLoop_walks (s : Rbt) (key : Key) :
    Walks s fun fuel p (_ : Unit) => s.searchLoop fuel key p := by
  refine ⟨fun _ => ⟨_, fun fuel => rfl⟩, ?_⟩
  intro a n _ hn
  have hround : ∀ fuel, s.searchLoop (fuel + 1) key (some a) =
      if n.key = key then some (some a)
      else if n.key < key then s.searchLoop fuel key n.right
      else s.searchLoop fuel key n.left := by
    intro fuel
    rw [searchLoop, hn]
    rfl
  simp only [hround]
  split_ifs
  · exact Or.inl ⟨_, fun fuel => rfl⟩
  · exact Or.inr ⟨.right, (), fun fuel => rfl⟩
  · exact Or.inr ⟨.left, (), fun fuel => rfl⟩

theorem boundLoop_walks (d : Side) (s : Rbt) (key : Key) :
    Walks s fun fuel p bound => boundLoop d fuel s key p bound := by
  refine ⟨fun bound => ⟨_, fun fuel => rfl⟩, ?_⟩
  intro a n bound hn
  have hround : ∀ fuel, boundLoop d (fuel + 1) s key (some a) bound =
      if n.key = key then some (some a)
      else if OnSide d key n.key then boundLoop d fuel s key (n.child d) bound
      else boundLoop d fuel s key (n.child d.other) (some a) := by
    intro fuel
    rw [boundLoop, hn]
    rfl
  simp only [hround]
  split_ifs
  · exact Or.inl ⟨_, fun fuel => rfl⟩
  · exact Or.inr ⟨d, bound, fun fuel => rfl⟩
  · exact Or.inr ⟨d.other, some a, fun fuel => rfl⟩

theorem outermostKeyNode_walks (d : Side) (s : Rbt) :
    Walks s fun fuel p (_ : Unit) => s.outermostKeyNode d fuel p := by
  refine ⟨fun _ => ⟨_, fun fuel => rfl⟩, ?_⟩
  intro a n _ hn
  have hround : ∀ fuel, s.outermostKeyNode d (fuel + 1) (some a) =
      (n.child d).elim (some (some a)) fun b => s.outermostKeyNode d fuel (some b) := by
    intro fuel
    simp only [outermostKeyNode, descend, hn, Option.bind_eq_bind, Option.bind_some]
    cases n.child d <;> rfl
  simp only [hround]
  cases hchild : n.child d with
  | none => exact Or.inl ⟨_, fun fuel => rfl⟩
  | some b => exact Or.inr ⟨d, (), fun fuel => by rw [hchild, Option.elim_some]⟩

/-- A loop has its result from the depth of the tree on. -/
theorem Walks.result {α β : Type} {loop : ℕ → Option Addr → α → Option β} (h : Walks s loop)
    (hrep : Rep s p t) (acc : α) {r : β} (hr : Returns (fun fuel => loop fuel (rootOf t) acc) r)
    {fuel : ℕ} (hfuel : t.depth < fuel) : loop fuel (rootOf t) acc = some r := by
  obtain ⟨r', hr'⟩ := h.ends hrep acc
  have hsame : r' = r := Returns.unique ⟨t.depth + 1, hr'⟩ hr
  rw [hr' fuel hfuel, hsame]

/-! ## Up -/

/-- `n` nodes lie on the way from the node up to the head. -/
inductive Chain (s : Rbt) : Option Addr → ℕ → Prop
  | head : Chain s none 0
  | up {a : Addr} {m : RbtNode} {n : ℕ} :
      s.nodes a = some m → Chain s m.parent n → Chain s (some a) (n + 1)

/-- Every node of `s` is still there, below the same parent. -/
def KeepsParents (s s' : Rbt) : Prop :=
  ∀ a n, s.nodes a = some n → ∃ n', s'.nodes a = some n' ∧ n'.parent = n.parent

theorem Chain.keeps {n : ℕ} (h : Chain s p n) (hkeeps : KeepsParents s s') : Chain s' p n := by
  induction h with
  | head => exact Chain.head
  | up hm _ ih =>
      obtain ⟨m', hm', hparent⟩ := hkeeps _ _ hm
      refine Chain.up hm' ?_
      rw [hparent]
      exact ih

theorem Chain.of_contextRep (h : ContextRep s ctx p) : Chain s (parentOf ctx) ctx.length := by
  induction ctx generalizing p with
  | nil => exact Chain.head
  | cons f rest ih =>
      refine Chain.up h.1 ?_
      rw [RbtNode.parent_ofEntry]
      exact ih h.2.2

theorem keepsParents_modify {f : RbtNode → RbtNode} (hf : ∀ n, (f n).parent = n.parent)
    (h : s.modify a f = some s') : KeepsParents s s' := by
  obtain ⟨m, hm, rfl⟩ := Option.map_eq_some_iff.1 h
  intro b k hk
  by_cases hb : b = a
  · subst hb
    obtain rfl := Option.some.inj (hm.symm.trans hk)
    exact ⟨f m, nodes_store_self, hf m⟩
  · exact ⟨k, by rw [nodes_store_of_ne hb, hk], rfl⟩

theorem keepsParents_fresh {n : RbtNode} (ha : s.nodes a = none) : KeepsParents s (s.store a n) := by
  intro b k hk
  refine ⟨k, ?_, rfl⟩
  rw [nodes_store_of_ne, hk]
  rintro rfl
  rw [ha] at hk
  cases hk

theorem keepsParents_setColor {c : Color} (h : s.setColor a c = some s') : KeepsParents s s' :=
  keepsParents_modify (f := fun n => { n with color := c }) (fun _ => rfl) h

theorem Chain.above {n : ℕ} {m : RbtNode} (h : Chain s (some a) n) (hm : s.nodes a = some m) :
    ∃ k, n = k + 1 ∧ Chain s m.parent k := by
  cases h with
  | up hm' hparent =>
      obtain rfl := Option.some.inj (hm'.symm.trans hm)
      exact ⟨_, rfl, hparent⟩

/-- What the balancing of `a` returns with any fuel, it returns with one round for each node above. -/
theorem balance_insertion_extends (N : ℕ) : ∀ {s : Rbt} {a : Addr} {n fuel : ℕ} (key : Key),
    Chain s (some a) n →
    (n ≤ fuel → Extends (s.colorFixRbtNodes N a) (s.colorFixRbtNodes fuel a)) ∧
      (n < fuel → Extends (s.balanceRbtPostInsertion N a key) (s.balanceRbtPostInsertion fuel a key)) := by
  induction N with
  | zero =>
      intro s a n fuel key _
      exact ⟨fun _ => Extends.none_left _, fun _ => Extends.none_left _⟩
  | succ N ih =>
      intro s a n fuel key hchain
      constructor
      · intro hfuel
        cases hchain with
        | up hm hparent =>
          obtain ⟨fuel, rfl⟩ := Nat.exists_eq_add_of_le' (Nat.succ_le_of_lt (by omega) : 1 ≤ fuel)
          unfold colorFixRbtNodes
          refine Extends.bind fun m' hm' => Extends.ite (Extends.refl _) ?_
          obtain rfl := Option.some.inj (hm.symm.trans hm')
          refine Extends.bind fun p hp => Extends.bind fun parent hp' => Extends.bind fun sib _ =>
            Extends.bind fun s₁ h₁ => Extends.bind fun s₂ h₂ => ?_
          rw [hp] at hparent
          obtain ⟨k, rfl, hup⟩ := hparent.above hp'
          cases hg : parent.parent with
          | none => exact Extends.refl _
          | some g =>
              refine Extends.bind fun s₃ h₃ => ?_
              rw [hg] at hup
              have hup₃ := ((hup.keeps (keepsParents_setColor h₁)).keeps
                (keepsParents_setColor h₂)).keeps (keepsParents_setColor h₃)
              exact (ih _ hup₃).2 (by omega)
      · intro hfuel
        obtain ⟨fuel, rfl⟩ := Nat.exists_eq_add_of_le' (by omega : 1 ≤ fuel)
        unfold balanceRbtPostInsertion
        refine Extends.bind fun m hm => Extends.ite ?_ (Extends.refl _)
        refine Extends.bind fun c _ => Extends.ite ?_ (Extends.refl _)
        exact (ih key hchain).1 (by omega)

/-- Where the search of an insertion ends, no more nodes lie above than the tree is deep. -/
theorem Represents.chain {u : ColoredTree Entry} (h : Represents s (plug ctx u))
    (ha : (rootOf u).or (parentOf ctx) = some a) :
    ∃ n, n ≤ (plug ctx u).depth ∧ Chain s (some a) n := by
  obtain ⟨hu, hctx⟩ := rep_plug.1 h.rep
  have hup := Chain.of_contextRep hctx
  have hle := length_le_depth ctx u
  cases u with
  | nil =>
      rw [rootOf_nil, Option.none_or] at ha
      rw [ha] at hup
      exact ⟨ctx.length, hle, hup⟩
  | node c l e r =>
      obtain rfl : e.addr = a := Option.some.inj ha
      refine ⟨ctx.length + 1, ?_, Chain.up hu.1 hup⟩
      rw [depth] at hle
      omega

/-- An insertion has its result with one round more than the tree is deep. -/
theorem insertRbtEntry_result {mem : Addr} {q : Rbt × Option Addr} (h : Represents s t)
    (hmem : s.nodes mem = none)
    (hq : Returns (fun fuel => s.insertRbtEntry fuel (some mem) s.head key) q) {fuel : ℕ}
    (hfuel : t.depth < fuel) : s.insertRbtEntry fuel (some mem) s.head key = some q := by
  obtain ⟨bound, hbound⟩ := hq
  obtain ⟨N, hN, hlarge⟩ : ∃ N, bound ≤ N ∧ t.depth < N :=
    ⟨max bound fuel, Nat.le_max_left .., lt_of_lt_of_le hfuel (Nat.le_max_right ..)⟩
  refine (?_ : Extends (s.insertRbtEntry N (some mem) s.head key) _) q (hbound N hN)
  have hplug : plug (locate key [] t).1 (locate key [] t).2 = t := plug_locate
  have hspec := insertLoop_spec key [] s.head h fun hnil => by rw [h.head_eq, hnil]; rfl
  have hloop : ∀ fuel, t.depth < fuel → s.insertLoop fuel key (rootOf t) s.head = _ :=
    fun fuel hfuel => (insertLoop_walks s key).result h.rep _ hspec hfuel
  rw [← h.head_eq] at hloop
  cases hroot : s.head with
  | none => exact Extends.refl _
  | some root =>
      rw [hroot] at hloop
      unfold insertRbtEntry
      simp only [hloop N hlarge, hloop fuel hfuel, Option.bind_eq_bind, Option.bind_some]
      refine Extends.bind fun r hr => Extends.bind fun n hn => Extends.ite (Extends.refl _) ?_
      refine Extends.bind fun s₁ hs₁ => ?_
      have hor : (rootOf (locate key [] t).2).or (parentOf (locate key [] t).1) = some r := by
        split_ifs at hr with hnone
        · exact hr
        · rw [hr, Option.some_or]
      obtain ⟨k, hk, hchain⟩ := Represents.chain (by rwa [hplug]) hor
      rw [hplug] at hk
      have hparent : ∀ (m : RbtNode) d p, (m.setChild d p).parent = m.parent := by
        intro m d p
        cases d <;> rfl
      have hchain₁ := (hchain.keeps (keepsParents_fresh hmem)).keeps
        (keepsParents_modify (fun m => hparent m _ _) hs₁)
      exact Extends.bind_left _ ((balance_insertion_extends N key hchain₁).2 (by omega))

theorem insertRbtEntry_returns {mem : Addr} (key : Key) (h : Represents s t) (hsorted : Sorted t)
    (hred : t.IsRedBlack) (hmem : s.nodes mem = none) :
    ∃ s' r, Returns (fun fuel => s.insertRbtEntry fuel (some mem) s.head key) (s', r) := by
  rcases insertRbtEntry_spec key h hsorted hred hmem with
    ⟨e, -, -, hreturns⟩ | ⟨-, s', u, left, right, hreturns, -⟩
  · exact ⟨s, some e.addr, hreturns⟩
  · exact ⟨s', some mem, hreturns⟩

/-! ## Runs -/

/-- The nodes linked into the tree. -/
def linkedNodes (s : Rbt) : Set Addr := {a | Linked s a}

theorem Represents.ncard_linkedNodes (h : Represents s t) :
    s.linkedNodes.ncard = t.toList.length := by
  have hset : s.linkedNodes = ↑(addrs t) := by
    ext a
    rw [Finset.mem_coe, mem_addrs]
    exact h.linked_iff
  rw [hset, Set.ncard_coe_finset, card_addrs h.distinct]

/-- The search of a removal ends at the node of the key. -/
theorem Represents.rootOf_locate (h : Represents s t) (hsorted : Sorted t) (key : Key) :
    rootOf (locate key [] t).2 = some a ↔ NodeOf s key a := by
  rw [h.nodeOf_iff]
  rcases hsorted.locate_cases key with ⟨l, r, hl, hr, ⟨hlist, hroot, -⟩ | ⟨e, hlist, hkey, hroot⟩⟩
  · rw [hroot]
    constructor
    · intro hnone
      cases hnone
    · rintro ⟨e, he, -, rfl⟩
      rw [hlist, List.mem_append] at he
      rcases he with he | he
      · exact absurd rfl (hl e he).ne
      · exact absurd rfl (hr e he).ne
  · rw [hroot, Option.some.injEq]
    constructor
    · intro ha
      exact ⟨e, by simp [hlist], ha, hkey⟩
    · rintro ⟨x, hx, rfl, hxkey⟩
      rw [hlist, List.mem_append, List.mem_cons] at hx
      rcases hx with hx | rfl | hx
      · exact absurd hxkey (hl x hx).ne
      · rfl
      · exact absurd hxkey (hr x hx).ne'

/-- In a tree of `n` nodes more than `2 * log 2 (n + 1)` rounds of each loop and recursion are enough
    for every lookup, for the search of a removal and for a whole insertion. -/
theorem logarithmic_of_run {events : List (Call × Reply)} (h : Run Step empty events s) (key : Key)
    {fuel : ℕ} (hfuel : 2 * Nat.log 2 (s.linkedNodes.ncard + 1) < fuel) :
    (∃ r, s.getLowerBound fuel key s.head = some r ∧ s.GreatestNode {k ∈ s.keys | k ≤ key} r) ∧
      (∃ r, s.getUpperBound fuel key s.head = some r ∧ s.LeastNode {k ∈ s.keys | key ≤ k} r) ∧
      (∃ r, s.getLowestKeyNode fuel s.head = some r ∧ s.LeastNode s.keys r) ∧
      (∃ r, s.getHighestKeyNode fuel s.head = some r ∧ s.GreatestNode s.keys r) ∧
      (∃ r, s.searchLoop fuel key s.head = some r ∧ ∀ a, r = some a ↔ NodeOf s key a) ∧
      ∀ mem, s.nodes mem = none → ∃ s' r, s.insertRbtEntry fuel (some mem) s.head key = some (s', r) ∧
        Step s (.insert mem key, .node r) s' := by
  obtain ⟨t, ht, hsorted, hred, hm⟩ := tree_of_run h
  have hdepth : t.depth < fuel := by
    rw [ht.ncard_linkedNodes] at hfuel
    exact lt_of_le_of_lt hred.depth_le hfuel
  have hhead := ht.head_eq
  refine ⟨?_, ?_, ?_, ?_, ?_, ?_⟩
  · obtain ⟨r, hr, hbest⟩ := getLowerBound_spec ht hsorted key
    rw [hhead] at hr ⊢
    exact ⟨r, (boundLoop_walks .left s key).result ht.rep _ hr hdepth, hbest⟩
  · obtain ⟨r, hr, hbest⟩ := getUpperBound_spec ht hsorted key
    rw [hhead] at hr ⊢
    exact ⟨r, (boundLoop_walks .right s key).result ht.rep _ hr hdepth, hbest⟩
  · obtain ⟨r, hr, hbest⟩ := getLowestKeyNode_spec ht hsorted
    rw [hhead] at hr ⊢
    exact ⟨r, (outermostKeyNode_walks .left s).result ht.rep () hr hdepth, hbest⟩
  · obtain ⟨r, hr, hbest⟩ := getHighestKeyNode_spec ht hsorted
    rw [hhead] at hr ⊢
    exact ⟨r, (outermostKeyNode_walks .right s).result ht.rep () hr hdepth, hbest⟩
  · have hr := searchLoop_spec key [] ht
    rw [hhead]
    exact ⟨_, (searchLoop_walks s key).result ht.rep () hr hdepth,
      fun a => ht.rootOf_locate hsorted key⟩
  · intro mem hmem
    obtain ⟨s', r, hreturns⟩ := insertRbtEntry_returns key ht hsorted hred hmem
    exact ⟨s', r, insertRbtEntry_result ht hmem hreturns hdepth, hmem, returns_insert hreturns⟩

theorem ncard_linkedNodes_several : several.linkedNodes.ncard = 4 :=
  several_represents.ncard_linkedNodes

theorem logarithmic_of_run_several : ∃ s' r,
    several.insertRbtEntry 5 (some 17) several.head 12 = some (s', r) ∧
      Step several (.insert 17 12, .node r) s' :=
  (logarithmic_of_run run_several 12 (by rw [ncard_linkedNodes_several]; decide)).2.2.2.2.2 17
    (by decide +kernel)

end Rbt
