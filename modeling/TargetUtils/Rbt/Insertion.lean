import TargetUtils.Rbt.PostInsertion
import TargetUtils.Rbt.Search

set_option autoImplicit false

/-! # Insertion

An insertion returns the node of a key that is there and changes nothing, and else adds the key
where it belongs, with NULL as its data (`insertRbtEntry_spec`). -/

open ColoredTree

namespace Rbt

variable {s : Rbt} {a : Addr} {f : Frame Entry} {t : ColoredTree Entry} {ctx : Context Entry}
  {key : Key}

/-- A new leaf. -/
def leaf (c : Color) (e : Entry) : ColoredTree Entry := nodeAt .left c .nil e .nil

theorem Represents.ne_of_fresh (h : Represents s t) (ha : s.nodes a = none) :
    ∀ x ∈ t.toList, x.addr ≠ a := by
  rintro x hx rfl
  exact h.nodes_ne_none hx ha

/-- A node is allocated and linked into a hole. -/
theorem Represents.link (key : Key) (h : Represents s (plug (f :: ctx) .nil)) (ha : s.nodes a = none) :
    Represents ((s.store a ⟨key, .red, none, none, some f.elem.addr, none⟩).store f.elem.addr
      (.ofEntry f.side f.color f.elem (some a) (rootOf f.sibling) (parentOf ctx)))
      (plug (f :: ctx) (leaf .red ⟨a, key, none⟩)) := by
  have hfresh := h.ne_of_fresh ha
  simp only [mem_plug, toList_nil, List.not_mem_nil, false_or] at hfresh
  obtain ⟨hrep, hhead, hdistinct⟩ := h
  obtain ⟨-, -, hsib, hctx⟩ := rep_plug.1 hrep
  obtain ⟨-, haround, -⟩ := distinct_plug.1 hdistinct
  obtain ⟨hnode, -, hapart⟩ := distinct_plug.1 (show Distinct (plug ctx (f.fill .nil)) from hdistinct)
  have hsibling := (distinct_nodeAt.1 hnode).2.2.2.1
  simp only [Frame.fill, mem_toList_nodeAt] at hapart
  have hfa : f.elem.addr ≠ a := hfresh _ (mem_around_cons.2 (Or.inl rfl))
  refine ⟨rep_plug.2 ⟨rep_nodeAt.2 ⟨?_, trivial, trivial⟩, ?_, ?_, ?_⟩, ?_,
    distinct_plug.2 ⟨?_, haround, ?_⟩⟩
  · rw [nodes_store_of_ne hfa.symm, nodes_store_self]
    rfl
  · rw [nodes_store_self, leaf, rootOf_nodeAt]
  · exact hsib.congr fun x hx => (nodes_store_of_ne (hsibling x hx)).trans
      (nodes_store_of_ne (hfresh x (mem_around_cons.2 (Or.inr (Or.inl hx)))))
  · exact hctx.congr fun x hx => (nodes_store_of_ne (hapart _ (Or.inl rfl) x hx).symm).trans
      (nodes_store_of_ne (hfresh x (mem_around_cons.2 (Or.inr (Or.inr hx)))))
  · exact hhead.trans (rootOf_plug_cons ..)
  · simp [Distinct, leaf, nodeAt, toList]
  · intro x hx y hy
    obtain rfl : x = ⟨a, key, none⟩ := by simpa [leaf] using hx
    exact (hfresh y hy).symm

/-- The search ends below a node: a red leaf is linked there. -/
theorem insertRbtEntry_link (h : Represents s (plug (f :: ctx) .nil))
    (hsorted : Sorted (plug (f :: ctx) .nil)) (hred : (plug (f :: ctx) .nil).IsRedBlack)
    (ha : s.nodes a = none) (hbefore : ∀ x ∈ before (f :: ctx), x.key < key)
    (hafter : ∀ x ∈ after (f :: ctx), key < x.key)
    (hloop : Returns (fun fuel => s.insertLoop fuel key s.head s.head) (none, some f.elem.addr)) :
    ∃ s' u, Returns (fun fuel => s.insertRbtEntry fuel (some a) s.head key) (s', some a) ∧
      Represents s' u ∧ u.IsRedBlack ∧
      u.toList = (plug (f :: ctx) (leaf .red ⟨a, key, none⟩)).toList := by
  have hlink := h.link key ha
  have hleaf : Sorted (plug (f :: ctx) (leaf .red ⟨a, key, none⟩)) := by
    refine sorted_plug.2 ⟨hsorted, List.pairwise_singleton .., fun x hx => ?_⟩
    obtain rfl : x = ⟨a, key, none⟩ := by simpa [leaf] using hx
    exact ⟨hbefore, hafter⟩
  have hang : f.elem.key < key ↔ f.side = .right := hleaf.hangsAt (v := ⟨a, key, none⟩) (by simp [leaf])
  have hne : f.elem.key ≠ key := by
    cases hside : f.side with
    | left => exact (hafter _ (by simp [after, hside])).ne'
    | right => exact (hbefore _ (by simp [before, hside])).ne
  obtain ⟨n, hctx, hn, -⟩ := isRedBlack_plug.1 hred
  obtain rfl : n = 0 := hn
  obtain ⟨s', u, hreturns, hrep, hlist, hu⟩ := balanceRbtPostInsertion_spec hlink hleaf hang
    (color_nodeAt ..) (balanced_red.2 ⟨rfl, rfl, rfl, rfl⟩) hctx
  refine ⟨s', u, ?_, hrep, hu, hlist⟩
  obtain ⟨root, hroot⟩ : ∃ root, s.head = some root := by
    obtain ⟨x, -, hx⟩ := exists_mem_around_of_rootOf f ctx .nil
    exact ⟨x.addr, h.head_eq.trans hx⟩
  have hfa : f.elem.addr ≠ a := h.ne_of_fresh ha _ (mem_plug.2 (Or.inr (mem_around_cons.2 (Or.inl rfl))))
  have hside : (if f.elem.key < key then Side.right else Side.left) = f.side := by
    cases hs : f.side <;> simp [hang, hs]
  rw [hroot] at hloop ⊢
  simp only [insertRbtEntry, Option.bind_eq_bind]
  refine Returns.bind hloop ?_
  simp only [if_true, Option.bind_some, h.frame, RbtNode.key_ofEntry, hne, if_false, hside,
    createRbtNode, modify, nodes_store_of_ne hfa, Option.map_some, rootOf_nil,
    RbtNode.setChild_ofEntry]
  exact Returns.bind hreturns (Returns.const rfl)

/-- The key is new: a leaf is added in its place. -/
theorem insertRbtEntry_absent (h : Represents s t) (hsorted : Sorted t) (hred : t.IsRedBlack)
    (ha : s.nodes a = none) (hloc : (locate key [] t).2 = .nil) :
    ∃ s' u, Returns (fun fuel => s.insertRbtEntry fuel (some a) s.head key) (s', some a) ∧
      Represents s' u ∧ u.IsRedBlack ∧
      u.toList = (plug (locate key [] t).1 (leaf .red ⟨a, key, none⟩)).toList := by
  have hplug : plug (locate key [] t).1 .nil = t := by
    rw [← hloc]
    exact plug_locate
  obtain ⟨hbefore, hafter⟩ :=
    locate_fst key [] hsorted (by simp [before]) (by simp [after])
  have hloop := insertLoop_spec key [] s.head h
    (fun hnil => by rw [h.head_eq, hnil]; rfl)
  rw [hloc, ← h.head_eq] at hloop
  cases hctx : (locate key [] t).1 with
  | nil =>
      -- the new node is the head, and black
      obtain rfl : t = .nil := by rw [← hplug, hctx]; rfl
      have hhead : s.head = none := h.head_eq
      refine ⟨{ s.store a ⟨key, .black, none, none, none, none⟩ with head := some a },
        leaf .black ⟨a, key, none⟩, Returns.congr (fun fuel => ?_) (Returns.const rfl),
        ⟨?_, rfl, ?_⟩, ⟨rfl, 1, ?_⟩, rfl⟩
      · simp [hhead, insertRbtEntry, createRbtNode, setColor, modify, store]
      · exact rep_nodeAt.2 ⟨nodes_store_self, trivial, trivial⟩
      · simp [Distinct, leaf, nodeAt, toList]
      · exact balanced_black_succ.2 ⟨rfl, rfl⟩
  | cons f ctx =>
      rw [hctx] at hplug hbefore hafter hloop
      subst hplug
      exact insertRbtEntry_link h hsorted hred ha hbefore hafter hloop

/-- The key is there: its node is returned. -/
theorem insertRbtEntry_present {c : Color} {e : Entry} {l r : ColoredTree Entry} {mem : Option Addr}
    (h : Represents s t) (hloc : (locate key [] t).2 = nodeAt .left c l e r) (hkey : e.key = key) :
    Returns (fun fuel => s.insertRbtEntry fuel mem s.head key) (s, some e.addr) := by
  have hplug : plug (locate key [] t).1 (nodeAt .left c l e r) = t := by
    rw [← hloc]
    exact plug_locate
  have hloop := insertLoop_spec key [] s.head h
    (fun hnil => by rw [h.head_eq, hnil]; rfl)
  rw [hloc, ← h.head_eq, rootOf_nodeAt, Option.some_or] at hloop
  have hnode := Represents.node (show Represents s (plug _ (nodeAt .left c l e r)) by rwa [hplug])
  cases hroot : s.head with
  | none =>
      have hnil : t = .nil := rootOf_eq_none.1 (h.head_eq.symm.trans hroot)
      rw [hnil] at hloc
      simp [locate, nodeAt] at hloc
  | some root =>
      rw [hroot] at hloop
      simp only [insertRbtEntry, Option.bind_eq_bind]
      refine Returns.bind hloop ?_
      simp only [reduceCtorEq, if_false, Option.bind_some, hnode, RbtNode.key_ofEntry, hkey, if_true]
      exact Returns.const rfl

/-- The key is new and there is no memory for it. -/
theorem insertRbtEntry_noMemory (h : Represents s t) (hsorted : Sorted t)
    (hloc : (locate key [] t).2 = .nil) :
    ∃ s', Returns (fun fuel => s.insertRbtEntry fuel none s.head key) (s', none) := by
  have hplug : plug (locate key [] t).1 .nil = t := by
    rw [← hloc]
    exact plug_locate
  have hloop := insertLoop_spec key [] s.head h (fun hnil => by rw [h.head_eq, hnil]; rfl)
  rw [hloc, ← h.head_eq] at hloop
  cases hctx : (locate key [] t).1 with
  | nil =>
      obtain rfl : t = .nil := by rw [← hplug, hctx]; rfl
      have hhead : s.head = none := h.head_eq
      refine ⟨s, Returns.congr (fun fuel => ?_) (Returns.const rfl)⟩
      simp [hhead, insertRbtEntry, createRbtNode]
  | cons f ctx =>
      rw [hctx] at hplug hloop
      subst hplug
      obtain ⟨x, -, hroot⟩ := exists_mem_around_of_rootOf f ctx .nil
      rw [h.head_eq, hroot] at hloop ⊢
      have hkey : f.elem.key ≠ key := ne_of_locate_eq_nil hsorted hloc _
        (mem_plug.2 (Or.inr (mem_around_cons.2 (Or.inl rfl))))
      let d : Side := if f.elem.key < key then .right else .left
      refine ⟨s.store f.elem.addr ((RbtNode.ofEntry f.side f.color f.elem none (rootOf f.sibling)
        (parentOf ctx)).setChild d none), ?_⟩
      simp only [insertRbtEntry, Option.bind_eq_bind]
      refine Returns.bind hloop ?_
      simp only [if_true, Option.bind_some, h.frame, RbtNode.key_ofEntry, hkey, if_false,
        createRbtNode, modify, Option.map_some, parentOf_cons, Option.none_or, rootOf_nil]
      exact Returns.const rfl

/-- `bf_insert_rbt_entry` on a red-black tree. -/
theorem insertRbtEntry_spec (key : Key) (h : Represents s t) (hsorted : Sorted t)
    (hred : t.IsRedBlack) (ha : s.nodes a = none) :
    (∃ e ∈ t.toList, e.key = key ∧
      Returns (fun fuel => s.insertRbtEntry fuel (some a) s.head key) (s, some e.addr)) ∨
    ((∀ e ∈ t.toList, e.key ≠ key) ∧ ∃ s' u l r,
      Returns (fun fuel => s.insertRbtEntry fuel (some a) s.head key) (s', some a) ∧
      Represents s' u ∧ Sorted u ∧ u.IsRedBlack ∧ t.toList = l ++ r ∧
      u.toList = l ++ ⟨a, key, none⟩ :: r) := by
  have hplug : plug (locate key [] t).1 (locate key [] t).2 = t := plug_locate
  rcases locate_snd key [] t with hloc | ⟨c, l, e, r, hloc, hkey⟩
  · rw [hloc] at hplug
    obtain ⟨hbefore, hafter⟩ :=
      locate_fst key [] hsorted (by simp [before]) (by simp [after])
    obtain ⟨s', u, hreturns, hrep, hu, hlist⟩ := insertRbtEntry_absent h hsorted hred ha hloc
    have ht : t.toList = before (locate key [] t).1 ++ after (locate key [] t).1 := by
      rw [← hplug, toList_plug_empty, hplug]
      rfl
    have hnew : u.toList = before (locate key [] t).1 ++ ⟨a, key, none⟩ ::
        after (locate key [] t).1 := by
      rw [hlist, toList_plug]
      simp [leaf, nodeAt, toList]
    refine Or.inr ⟨ne_of_locate_eq_nil hsorted hloc, s', u, _, _, hreturns, hrep, ?_, hu, ht, hnew⟩
    rw [Sorted, ht, List.pairwise_append] at hsorted
    rw [Sorted, hnew, List.pairwise_append, List.pairwise_cons]
    refine ⟨hsorted.1, ⟨hafter, hsorted.2.1⟩, fun x hx y hy => ?_⟩
    rcases List.mem_cons.1 hy with rfl | hy
    · exact hbefore x hx
    · exact hsorted.2.2 x hx y hy
  · refine Or.inl ⟨e, ?_, hkey, insertRbtEntry_present h hloc hkey⟩
    rw [← hplug, hloc]
    simp [nodeAt, toList]

end Rbt
