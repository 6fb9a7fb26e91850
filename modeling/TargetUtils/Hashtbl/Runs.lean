import TargetUtils.Hashtbl.Basic
import TargetUtils.Library.PartialMap
import TargetUtils.Library.Runs

set_option autoImplicit false

/-! # Runs of the hash table

The table is a multiset of data: with a comparison function that tests for the key of the data, the
answers of every run are those of the multiset, every node that is allocated is in the table, and
`bf_hashtbl_delete` frees each of them and its data once (`multiset_of_run`). -/

namespace Hashtbl

variable {τ ι κ δ : Type}

/-- The calls between `bf_hashtbl_init` and `bf_hashtbl_delete`. -/
inductive Call (ι κ δ : Type)
  | insert (mem : Option ι) (node : Option δ) (key : Option κ)
  | search (key : Option κ)
  | getRemove (key : Option κ)
  | foreachFn

/-- What the calls return; for `foreachFn`, what the function is called for. -/
inductive Answer (δ : Type)
  | sts (sts : HashtblSts)
  | node (node : Option δ)
  | nodes (nodes : List δ)

/-- The answer of the call and the table afterwards. -/
def Call.exec [DecidableEq ι] (H : TommyHashlin τ ι) (xxh32 : κ → UInt8 → UInt32 → UInt32)
    (htbl : Hashtbl τ ι κ δ) : Call ι κ δ → Option (Answer δ × Hashtbl τ ι κ δ)
  | .insert mem node key =>
    let r := htbl.insert H xxh32 mem node key
    some (.sts r.1, r.2)
  | .search key => (htbl.search H xxh32 key).map fun r => (.node r, htbl)
  | .getRemove key => (htbl.getRemove H xxh32 key).map fun r => (.node r.1, r.2)
  | .foreachFn => (htbl.foreachFn H).map fun r => (.nodes r, htbl)

/-- New memory is not allocated yet, and data is inserted with its own key. -/
def Call.Legal (keyOf : δ → κ) (htbl : Hashtbl τ ι κ δ) : Call ι κ δ → Prop
  | .insert mem node key => (∀ a ∈ mem, htbl.nodes a = none) ∧ ∀ d ∈ node, ∀ k ∈ key, keyOf d = k
  | _ => True

/-- A legal call with its answer. -/
def Step [DecidableEq ι] (H : TommyHashlin τ ι) (xxh32 : κ → UInt8 → UInt32 → UInt32)
    (keyOf : δ → κ) (htbl : Hashtbl τ ι κ δ) (e : Call ι κ δ × Answer δ)
    (htbl' : Hashtbl τ ι κ δ) : Prop :=
  e.1.Legal keyOf htbl ∧ e.1.exec H xxh32 htbl = some (e.2, htbl')

/-- What the table is for: a multiset of data, found and removed by key. -/
inductive SpecStep (keyOf : δ → κ) : Multiset δ → Call ι κ δ × Answer δ → Multiset δ → Prop
  | inserted (s : Multiset δ) (mem : ι) (d : δ) (k : κ) :
      SpecStep keyOf s (.insert mem d k, .sts .ok) (d ::ₘ s)
  | noMemory (s : Multiset δ) (d : δ) (k : κ) :
      SpecStep keyOf s (.insert none (some d) (some k), .sts .err) s
  | invalidArg (s : Multiset δ) (mem : Option ι) (node : Option δ) (key : Option κ)
      (h : node = none ∨ key = none) :
      SpecStep keyOf s (.insert mem node key, .sts .invalidArg) s
  | searchNoKey (s : Multiset δ) : SpecStep keyOf s (.search none, .node none) s
  | found (s : Multiset δ) (d : δ) (h : d ∈ s) :
      SpecStep keyOf s (.search (keyOf d), .node (some d)) s
  | notFound (s : Multiset δ) (k : κ) (h : ∀ d ∈ s, keyOf d ≠ k) :
      SpecStep keyOf s (.search (some k), .node none) s
  | removeNoKey (s : Multiset δ) : SpecStep keyOf s (.getRemove none, .node none) s
  | removed (s : Multiset δ) (d : δ) :
      SpecStep keyOf (d ::ₘ s) (.getRemove (keyOf d), .node (some d)) s
  | notRemoved (s : Multiset δ) (k : κ) (h : ∀ d ∈ s, keyOf d ≠ k) :
      SpecStep keyOf s (.getRemove (some k), .node none) s
  | visited (l : List δ) : SpecStep keyOf l (.foreachFn, .nodes l) l

variable {H : TommyHashlin τ ι} {xxh32 : κ → UInt8 → UInt32 → UInt32} {keyOf : δ → κ}
  {elems : τ → Multiset (ι × UInt32)} {freeFn : Bool}
  {htbl htbl' : Hashtbl τ ι κ δ} {m : Multiset (ι × δ)}

/-- The nodes `m`, each in the table by the hash of the key of its data. -/
structure Holds (xxh32 : κ → UInt8 → UInt32 → UInt32) (keyOf : δ → κ)
    (elems : τ → Multiset (ι × UInt32)) (freeFn : Bool) (htbl : Hashtbl τ ι κ δ)
    (m : Multiset (ι × δ)) : Prop where
  nodes : PartialMap.HasEntries htbl.nodes m
  elems_eq : elems htbl.phtbl = m.map fun e => (e.1, htbl.constructHash xxh32 (keyOf e.2))
  cmp_iff : ∀ k d, htbl.cmpFn k d = true ↔ keyOf d = k
  freeFn_eq : htbl.freeFn = freeFn

/-! ## The table and the library -/

/-- `bf_hashtbl_init` with a comparison function that tests for the key. -/
theorem holds_init {cmp : κ → δ → Bool} {keySz dataSz : UInt8} {seed : UInt32}
    (hlaw : H.Lawful elems) (hcmp : ∀ k d, cmp k d = true ↔ keyOf d = k)
    (hinit : init H (some cmp) freeFn keySz dataSz seed = (.ok, some htbl)) :
    htbl.Holds xxh32 keyOf elems freeFn 0 := by
  unfold init at hinit
  split_ifs at hinit with hkey hdata
  · exact nomatch (Prod.mk.inj hinit).1
  · exact nomatch (Prod.mk.inj hinit).1
  obtain rfl := Option.some.inj (Prod.mk.inj hinit).2
  refine ⟨PartialMap.hasEntries_empty, ?_, hcmp, rfl⟩
  rw [Multiset.map_zero]
  exact hlaw.elems_init

theorem cmpNode_eq_true (hcmp : ∀ k d, htbl.cmpFn k d = true ↔ keyOf d = k) {k : κ} {obj : ι} :
    htbl.cmpNode k obj = true ↔ ∃ d, htbl.nodes obj = some d ∧ keyOf d = k := by
  unfold cmpNode
  cases hobj : htbl.nodes obj with
  | none => simp
  | some d => simp [hcmp]

theorem Holds.foreach (h : htbl.Holds xxh32 keyOf elems freeFn m) (hlaw : H.Lawful elems) :
    (H.foreachArg htbl.phtbl : Multiset ι) = m.map Prod.fst := by
  rw [hlaw.foreach, h.elems_eq, Multiset.map_map]
  rfl

/-- The node found has data with the key. -/
theorem Holds.of_search_some (h : htbl.Holds xxh32 keyOf elems freeFn m) (hlaw : H.Lawful elems) {k : κ}
    {obj : ι}
    (hsearch : H.search htbl.phtbl (htbl.cmpNode k) (htbl.constructHash xxh32 k) = some obj) :
    ∃ d m', htbl.nodes obj = some d ∧ m = (obj, d) ::ₘ m' ∧ keyOf d = k := by
  obtain ⟨d, hobj, hkey⟩ := (cmpNode_eq_true h.cmp_iff).1 (hlaw.found _ _ _ _ hsearch)
  obtain ⟨m', hm⟩ := Multiset.exists_cons_of_mem ((h.nodes.eq_some obj d).1 hobj)
  exact ⟨d, m', hobj, hm, hkey⟩

/-- Nothing is found when no data has the key. -/
theorem Holds.of_search_none (h : htbl.Holds xxh32 keyOf elems freeFn m) (hlaw : H.Lawful elems) {k : κ}
    (hsearch : H.search htbl.phtbl (htbl.cmpNode k) (htbl.constructHash xxh32 k) = none) :
    ∀ d ∈ m.map Prod.snd, keyOf d ≠ k := by
  intro d hd hkey
  obtain ⟨⟨obj, d⟩, he, rfl⟩ := Multiset.mem_map.1 hd
  have hmem : (obj, htbl.constructHash xxh32 k) ∈ elems htbl.phtbl := by
    rw [h.elems_eq, ← hkey]
    exact Multiset.mem_map.2 ⟨(obj, d), he, rfl⟩
  have hfalse := hlaw.absent _ _ _ hsearch obj hmem
  rw [(cmpNode_eq_true h.cmp_iff).2 ⟨d, (h.nodes.eq_some obj d).2 he, hkey⟩] at hfalse
  exact nomatch hfalse

/-- Every node that is visited is allocated. -/
theorem Holds.foreachFn (h : htbl.Holds xxh32 keyOf elems freeFn m) (hlaw : H.Lawful elems) :
    ∃ l : List δ, htbl.foreachFn H = some l ∧ (l : Multiset δ) = m.map Prod.snd :=
  PartialMap.exists_mapM (h.foreach hlaw) fun e he => (h.nodes.eq_some e.1 e.2).2 he

/-! ## The calls -/

variable [DecidableEq ι]

theorem Holds.insert (h : htbl.Holds xxh32 keyOf elems freeFn m) (hlaw : H.Lawful elems) {a : ι} {d : δ}
    (ha : htbl.nodes a = none) :
    (htbl.insert H xxh32 (some a) (some d) (some (keyOf d))).2.Holds xxh32 keyOf elems freeFn
      ((a, d) ::ₘ m) := by
  refine ⟨h.nodes.update_some ha d, ?_, h.cmp_iff, h.freeFn_eq⟩
  unfold Hashtbl.insert
  rw [hlaw.elems_insert, Multiset.map_cons, h.elems_eq]
  rfl

theorem getRemove_eq_some (hlaw : H.Lawful elems) {k : κ} {obj : ι} {d : δ}
    (hsearch : H.search htbl.phtbl (htbl.cmpNode k) (htbl.constructHash xxh32 k) = some obj)
    (hobj : htbl.nodes obj = some d) :
    htbl.getRemove H xxh32 (some k) = some (some d, { htbl with
      phtbl := (H.remove htbl.phtbl (htbl.cmpNode k) (htbl.constructHash xxh32 k)).1
      nodes := Function.update htbl.nodes obj none }) := by
  unfold getRemove
  rw [← hlaw.remove_snd] at hsearch
  rcases hremove : H.remove htbl.phtbl (htbl.cmpNode k) (htbl.constructHash xxh32 k) with ⟨t, o⟩
  rw [hremove] at hsearch
  subst hsearch
  simp only [hremove, hobj, Option.bind_eq_bind, Option.bind_some]

theorem getRemove_eq_none (hlaw : H.Lawful elems) {k : κ}
    (hsearch : H.search htbl.phtbl (htbl.cmpNode k) (htbl.constructHash xxh32 k) = none) :
    htbl.getRemove H xxh32 (some k) = some (none, { htbl with
      phtbl := (H.remove htbl.phtbl (htbl.cmpNode k) (htbl.constructHash xxh32 k)).1 }) := by
  unfold getRemove
  rw [← hlaw.remove_snd] at hsearch
  rcases hremove : H.remove htbl.phtbl (htbl.cmpNode k) (htbl.constructHash xxh32 k) with ⟨t, o⟩
  rw [hremove] at hsearch
  subst hsearch
  simp only [hremove]

/-- What is found is removed by the same key, and its node is freed. -/
theorem Holds.searched (h : htbl.Holds xxh32 keyOf elems freeFn m) (hlaw : H.Lawful elems) (k : κ) :
    (∃ d a m' htbl', m = (a, d) ::ₘ m' ∧ keyOf d = k ∧
      htbl.search H xxh32 (some k) = some (some d) ∧
      htbl.getRemove H xxh32 (some k) = some (some d, htbl') ∧
      htbl'.Holds xxh32 keyOf elems freeFn m') ∨
    ((∀ d ∈ m.map Prod.snd, keyOf d ≠ k) ∧ htbl.search H xxh32 (some k) = some none ∧
      ∃ htbl', htbl.getRemove H xxh32 (some k) = some (none, htbl') ∧
        htbl'.Holds xxh32 keyOf elems freeFn m) := by
  cases hsearch : H.search htbl.phtbl (htbl.cmpNode k) (htbl.constructHash xxh32 k) with
  | none =>
      have hreturn : htbl.search H xxh32 (some k) = some none := by
        unfold Hashtbl.search
        simp only [hsearch]
      have helems := hlaw.kept _ _ _ hsearch
      exact Or.inr ⟨h.of_search_none hlaw hsearch, hreturn, _, getRemove_eq_none hlaw hsearch,
        ⟨h.nodes, helems.trans h.elems_eq, h.cmp_iff, h.freeFn_eq⟩⟩
  | some a =>
      obtain ⟨d, m', ha, rfl, hkey⟩ := h.of_search_some hlaw hsearch
      have hreturn : htbl.search H xxh32 (some k) = some (some d) := by
        unfold Hashtbl.search
        simp only [hsearch, ha, Option.map_some]
      have helems := hlaw.removed _ _ _ _ hsearch
      rw [h.elems_eq, Multiset.map_cons, hkey, Multiset.cons_inj_right] at helems
      exact Or.inl ⟨d, a, m', _, rfl, hkey, hreturn, getRemove_eq_some hlaw hsearch ha,
        ⟨h.nodes.update_none, helems.symm, h.cmp_iff, h.freeFn_eq⟩⟩

/-- Each of the nodes is freed once, with its data if there is a function for it. -/
theorem freeNodes_spec {l : List ι} (h : PartialMap.HasEntries htbl.nodes m)
    (hl : (l : Multiset ι) = m.map Prod.fst) :
    ∃ freed htbl', htbl.freeNodes l = some (freed, htbl') ∧
      (freed : Multiset δ) = (if htbl.freeFn then m.map Prod.snd else 0) ∧
      ∀ a, htbl'.nodes a = none := by
  induction l generalizing htbl m with
  | nil =>
      obtain rfl := Multiset.map_eq_zero.1 hl.symm
      refine ⟨[], htbl, rfl, by simp, fun a => ?_⟩
      exact Option.eq_none_iff_forall_ne_some.2 fun d hd =>
        Multiset.notMem_zero _ ((h.eq_some a d).1 hd)
  | cons a l ih =>
      obtain ⟨d, m', rfl, hl'⟩ := PartialMap.exists_entry_of_cons hl
      obtain ⟨freed, htbl', hrest, hfreed, hnone⟩ :=
        @ih { htbl with nodes := Function.update htbl.nodes a none } m' h.update_none hl'
      refine ⟨if htbl.freeFn then d :: freed else freed, htbl', ?_, ?_, hnone⟩
      · unfold freeNodes
        rw [(h.eq_some a d).2 (Multiset.mem_cons_self ..)]
        simp only [Option.bind_eq_bind, Option.bind_some, hrest]
      · cases hfree : htbl.freeFn with
        | false => simpa [hfree] using hfreed
        | true =>
            simp only [hfree, if_true] at hfreed
            simp [← hfreed]

/-! ## Runs -/

/-- A legal call returns, with an answer of the multiset. -/
theorem Holds.exec (h : htbl.Holds xxh32 keyOf elems freeFn m) (hlaw : H.Lawful elems) {c : Call ι κ δ}
    (hlegal : c.Legal keyOf htbl) :
    ∃ r htbl' m', c.exec H xxh32 htbl = some (r, htbl') ∧ htbl'.Holds xxh32 keyOf elems freeFn m' ∧
      SpecStep keyOf (m.map Prod.snd) (c, r) (m'.map Prod.snd) := by
  cases c with
  | insert mem node key =>
      cases node with
      | none => exact ⟨_, _, m, rfl, h, .invalidArg _ _ _ _ (Or.inl rfl)⟩
      | some d =>
          cases key with
          | none => exact ⟨_, _, m, rfl, h, .invalidArg _ _ _ _ (Or.inr rfl)⟩
          | some k =>
              cases mem with
              | none => exact ⟨_, _, m, rfl, h, .noMemory _ _ _⟩
              | some a =>
                  obtain rfl := hlegal.2 d rfl k rfl
                  refine ⟨_, _, _, rfl, h.insert hlaw (hlegal.1 a rfl), ?_⟩
                  rw [Multiset.map_cons]
                  exact .inserted _ _ _ _
  | search key =>
      cases key with
      | none => exact ⟨_, _, m, rfl, h, .searchNoKey _⟩
      | some k =>
          rcases h.searched hlaw k with ⟨d, a, m', -, rfl, rfl, hreturn, -⟩ | ⟨hnone, hreturn, -⟩
          · have hmem : d ∈ ((a, d) ::ₘ m').map Prod.snd :=
              Multiset.mem_map.2 ⟨_, Multiset.mem_cons_self .., rfl⟩
            exact ⟨_, _, _, congrArg (Option.map _) hreturn, h, .found _ _ hmem⟩
          · exact ⟨_, _, m, congrArg (Option.map _) hreturn, h, .notFound _ _ hnone⟩
  | getRemove key =>
      cases key with
      | none => exact ⟨_, _, m, rfl, h, .removeNoKey _⟩
      | some k =>
          rcases h.searched hlaw k with
            ⟨d, a, m', t, rfl, rfl, -, hreturn, ht⟩ | ⟨hnone, -, t, hreturn, ht⟩
          · refine ⟨_, _, m', congrArg (Option.map _) hreturn, ht, ?_⟩
            rw [Multiset.map_cons]
            exact .removed _ _
          · exact ⟨_, _, m, congrArg (Option.map _) hreturn, ht, .notRemoved _ _ hnone⟩
  | foreachFn =>
      obtain ⟨l, hreturn, hl⟩ := h.foreachFn hlaw
      refine ⟨_, _, m, congrArg (Option.map _) hreturn, h, ?_⟩
      rw [← hl]
      exact .visited l

/-- Every run is one of the multiset of the data in the allocated nodes; every legal call then
    returns, what a search finds is what a removal by the same key takes out, and
    `bf_hashtbl_delete` passes each data once to the function that frees it and leaves no node. -/
theorem multiset_of_run {cmp : κ → δ → Bool} {keySz dataSz : UInt8} {seed : UInt32}
    {htbl₀ : Hashtbl τ ι κ δ} {es : List (Call ι κ δ × Answer δ)} (hlaw : H.Lawful elems)
    (hcmp : ∀ k d, cmp k d = true ↔ keyOf d = k)
    (hinit : init H (some cmp) freeFn keySz dataSz seed = (.ok, some htbl₀))
    (hrun : Run (Step H xxh32 keyOf) htbl₀ es htbl) :
    ∃ m, PartialMap.HasEntries htbl.nodes m ∧ Run (SpecStep keyOf) 0 es (m.map Prod.snd) ∧
      (∀ c : Call ι κ δ, c.Legal keyOf htbl → (c.exec H xxh32 htbl).isSome) ∧
      (∀ k, ∃ r htbl', htbl.search H xxh32 k = some r ∧
        htbl.getRemove H xxh32 k = some (r, htbl')) ∧
      ∃ freed htbl', htbl.delete H = some (freed, htbl') ∧
        (freed : Multiset δ) = (if freeFn then m.map Prod.snd else 0) ∧
        ∀ a, htbl'.nodes a = none := by
  have hholds : ∃ m, htbl.Holds xxh32 keyOf elems freeFn m ∧
      Run (SpecStep keyOf) 0 es (m.map Prod.snd) := by
    induction hrun with
    | nil =>
        exact ⟨0, holds_init hlaw hcmp hinit, Run.nil⟩
    | snoc _ hlast ih =>
        obtain ⟨m, h, hspec⟩ := ih
        obtain ⟨hlegal, hexec⟩ := hlast
        obtain ⟨r, t, m', hexec', ht, hstep⟩ := h.exec hlaw hlegal
        rw [hexec] at hexec'
        obtain ⟨rfl, rfl⟩ := Prod.mk.inj (Option.some.inj hexec')
        exact ⟨m', ht, hspec.snoc hstep⟩
  obtain ⟨m, h, hspec⟩ := hholds
  have hfreed := freeNodes_spec h.nodes (h.foreach hlaw)
  rw [h.freeFn_eq] at hfreed
  refine ⟨m, h.nodes, hspec, fun c hlegal => ?_, fun k => ?_, hfreed⟩
  · obtain ⟨r, t, -, hexec, -⟩ := h.exec hlaw hlegal
    rw [hexec]
    rfl
  · cases k with
    | none => exact ⟨none, htbl, rfl, rfl⟩
    | some k =>
        rcases h.searched hlaw k with
          ⟨d, -, -, t, -, -, hsearch, hremove, -⟩ | ⟨-, hsearch, t, hremove, -⟩
        · exact ⟨some d, t, hsearch, hremove⟩
        · exact ⟨none, t, hsearch, hremove⟩

/-- The library with one chain for all hashes. -/
def listHashlin (ι : Type) [DecidableEq ι] : TommyHashlin (List (ι × UInt32)) ι where
  init := []
  insert t obj hash := t ++ [(obj, hash)]
  search t cmp hash := (t.find? fun e => e.2 == hash && cmp e.1).map Prod.fst
  remove t cmp hash :=
    match t.find? fun e => e.2 == hash && cmp e.1 with
    | none => (t, none)
    | some e => (t.erase e, some e.1)
  foreachArg t := t.map Prod.fst

theorem listHashlin_lawful : (listHashlin ι).Lawful fun t => (t : Multiset (ι × UInt32)) where
  elems_init := rfl
  elems_insert t obj hash := by
    rw [Multiset.cons_coe, Multiset.coe_eq_coe]
    exact List.perm_append_singleton _ t
  found t cmp hash obj h := by
    obtain ⟨e, he, rfl⟩ := Option.map_eq_some_iff.1 h
    have hequal := List.find?_some he
    exact (Bool.and_eq_true_iff.1 hequal).2
  absent t cmp hash h obj hmem := by
    have hnone := List.find?_eq_none.1 (Option.map_eq_none_iff.1 h) _ (Multiset.mem_coe.1 hmem)
    simpa using hnone
  remove_snd t cmp hash := by
    unfold listHashlin
    simp only
    split
    next hfind => rw [hfind, Option.map_none]
    next e hfind => rw [hfind, Option.map_some]
  removed t cmp hash obj h := by
    obtain ⟨e, hfind, rfl⟩ := Option.map_eq_some_iff.1 h
    have hequal := List.find?_some hfind
    have hhash : e.2 = hash := beq_iff_eq.1 (Bool.and_eq_true_iff.1 hequal).1
    unfold listHashlin
    simp only [hfind]
    rw [← hhash, Multiset.cons_coe, Multiset.coe_eq_coe]
    exact List.perm_cons_erase (List.mem_of_find?_eq_some hfind)
  kept t cmp hash h := by
    unfold listHashlin
    simp only [Option.map_eq_none_iff.1 h]
  foreach t := rfl

/-- Keys that are their own data: 5 is inserted and found. -/
theorem multiset_of_run_found :
    let H := listHashlin ℕ
    let xxh32 : ℕ → UInt8 → UInt32 → UInt32 := fun key _ seed => UInt32.ofNat key + seed
    let es := [(.insert (some 0) (some 5) (some 5), .sts .ok), (.search (some 5), .node (some 5))]
    ∃ htbl : Hashtbl _ ℕ ℕ ℕ,
      (∃ m, PartialMap.HasEntries htbl.nodes m ∧ Run (SpecStep id) 0 es (m.map Prod.snd) ∧
        (∀ c : Call ℕ ℕ ℕ, c.Legal id htbl → (c.exec H xxh32 htbl).isSome) ∧
        (∀ k, ∃ r htbl', htbl.search H xxh32 k = some r ∧
          htbl.getRemove H xxh32 k = some (r, htbl')) ∧
        ∃ freed htbl', htbl.delete H = some (freed, htbl') ∧
          (freed : Multiset ℕ) = (if true then m.map Prod.snd else 0) ∧
          ∀ a, htbl'.nodes a = none) := by
  intro H xxh32 es
  have hinit : init H (some fun k d : ℕ => decide (d = k)) true 4 4 0 = (.ok, some
      ⟨fun k d => decide (d = k), true, 4, 4, 0, [], fun _ => none⟩) := rfl
  have hlegal : ∀ a ∈ some 0, (fun _ : ℕ => (none : Option ℕ)) a = none := fun _ _ => rfl
  have hkey : ∀ d ∈ some 5, ∀ k ∈ some 5, id d = k := by simp
  exact ⟨_, multiset_of_run listHashlin_lawful (by simp) hinit
    ((Run.nil.snoc ⟨⟨hlegal, hkey⟩, rfl⟩).snoc ⟨trivial, rfl⟩)⟩

end Hashtbl
