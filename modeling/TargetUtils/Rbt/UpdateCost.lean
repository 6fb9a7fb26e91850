import TargetUtils.Rbt.Depth
import TargetUtils.Rbt.Intermediate

set_option autoImplicit false

/-! # The cost of an update

The balancing of an insertion makes at most two rotations, whatever it starts from, and that of a
removal at most three; both are read off a record of what is done to the tree (`Recorded`). For each
loop of a removal the rounds are enough that are enough for a lookup: the search and the replacements
go down, and the balancing takes one pass for each node above the leaf and two more (`Settled`). -/

open ColoredTree

namespace Rbt

/-! ## Counting -/

/-- The action is a rotation. -/
def Action.isRotation : Action → Bool
  | .rotate _ _ => true
  | _ => false

namespace Recorded

/-- The number of rotations on the record. -/
def rotations (t : Recorded) : ℕ := t.log.countP fun q => q.2.isRotation

variable {t t' : Recorded} {a : Addr} {c : Color} {d : Side}

@[simp] theorem rotations_start (s : Rbt) : (start s).rotations = 0 := rfl

@[simp] theorem rotations_examine : (t.examine a).rotations = t.rotations := by
  unfold rotations examine
  rw [List.countP_append]
  rfl

theorem rotations_setColor (h : t.setColor a c = some t') : t'.rotations = t.rotations := by
  obtain ⟨s, -, hs⟩ := Option.bind_eq_some_iff.1 h
  obtain rfl := Option.some.inj hs
  unfold rotations
  rw [List.countP_append]
  rfl

theorem rotations_rotate (h : t.rotate d a = some t') : t'.rotations = t.rotations + 1 := by
  obtain ⟨q, -, hq⟩ := Option.bind_eq_some_iff.1 h
  obtain rfl := Option.some.inj hq
  unfold rotations
  rw [List.countP_append]
  rfl

/-! ## The balancing of an insertion with its record -/

/-- `bf_perform_rotation`. -/
def performRotation (t : Recorded) (parent : Addr) (key : Key) : Option Recorded := do
  let p ← t.state.nodes parent
  let gParent ← p.parent
  let g ← t.state.nodes gParent
  if g.key < p.key then
    if p.key < key then
      t.rotate .left gParent
    else do
      let t ← t.rotate .right parent
      t.rotate .left gParent
  else
    if p.key < key then do
      let t ← t.rotate .left parent
      t.rotate .right gParent
    else
      t.rotate .right gParent

mutual

/-- `bf_color_fix_rbt_nodes`. -/
def colorFixRbtNodes : (fuel : ℕ) → Recorded → Addr → Option Recorded
  | 0, _, _ => none
  | fuel + 1, t, root => do
    let n ← t.state.nodes root
    if n.color = .black then some t
    else do
      let p ← n.parent
      let parent ← t.state.nodes p
      let sibling ← (if parent.key < n.key then parent.left else parent.right)
      let t ← t.setColor sibling .black
      let t ← t.setColor root .black
      match parent.parent with
      | none => t.setColor p .black
      | some g => do
        let t ← t.setColor p .red
        balanceRbtPostInsertion fuel t g n.key

/-- `bf_balance_rbt_post_insertion`. -/
def balanceRbtPostInsertion : (fuel : ℕ) → Recorded → Addr → Key → Option Recorded
  | 0, _, _, _ => none
  | fuel + 1, t, root, key => do
    let n ← t.state.nodes root
    if n.color = .red then do
      let neighColor ← t.state.getRbtNeighColor root
      if neighColor = .red then colorFixRbtNodes fuel t root
      else t.performRotation root key
    else some t

end

/-! ## Without the record -/

theorem map_performRotation (parent : Addr) (key : Key) :
    (t.performRotation parent key).map state = (t.state.performRotation parent key).map Prod.fst := by
  have hrotate : ∀ (t : Recorded) d a,
      (t.rotate d a).map state = (t.state.rotateRbtNode d a).map Prod.fst := by
    intro t d a
    unfold rotate
    cases t.state.rotateRbtNode d a <;> rfl
  unfold performRotation Rbt.performRotation
  conv_rhs =>
    simp only [leftRotateRbtNode, rightRotateRbtNode, Option.bind_eq_bind, Option.map_bind,
      Function.comp_def, apply_ite (Option.map Prod.fst)]
  refine map_bind_congr fun p => map_bind_congr fun gParent => map_bind_congr fun g => ?_
  refine map_ite_congr (map_ite_congr (hrotate ..) ?_) (map_ite_congr ?_ (hrotate ..))
  · exact map_rotate_bind fun t v => hrotate ..
  · exact map_rotate_bind fun t v => hrotate ..

theorem map_balancing (fuel : ℕ) : ∀ (t : Recorded) (a : Addr),
    (colorFixRbtNodes fuel t a).map state = t.state.colorFixRbtNodes fuel a ∧
    ∀ key, (balanceRbtPostInsertion fuel t a key).map state =
      t.state.balanceRbtPostInsertion fuel a key := by
  induction fuel with
  | zero => exact fun t a => ⟨rfl, fun key => rfl⟩
  | succ fuel ih =>
      intro t a
      constructor
      · unfold colorFixRbtNodes Rbt.colorFixRbtNodes
        refine map_bind_congr fun n => map_ite_congr rfl ?_
        refine map_bind_congr fun p => map_bind_congr fun parent => map_bind_congr fun sibling => ?_
        refine map_bind_map map_setColor fun t => map_bind_map map_setColor fun t => ?_
        cases parent.parent with
        | none => exact map_setColor
        | some g => exact map_bind_map map_setColor fun t => (ih t g).2 n.key
      · intro key
        unfold balanceRbtPostInsertion Rbt.balanceRbtPostInsertion
        refine map_bind_congr fun n => map_ite_congr ?_ rfl
        exact map_bind_congr fun color => map_ite_congr (ih t a).1 (map_performRotation a key)

/-! ## What the record keeps -/

/-- One or two rotations: what holds after one leads to what holds after two. -/
theorem performRotation_keeps {P Q R : Recorded → Prop} (hQR : ∀ t, Q t → R t)
    (hone : ∀ t d a, P t → ∀ t' ∈ t.rotate d a, Q t')
    (htwo : ∀ t d a, Q t → ∀ t' ∈ t.rotate d a, R t') (h : P t) (parent : Addr) (key : Key) :
    ∀ t' ∈ t.performRotation parent key, R t' := by
  have hsingle : ∀ d a, ∀ t' ∈ t.rotate d a, R t' := fun d a t' ht' => hQR t' (hone t d a h t' ht')
  have hdouble : ∀ d a d' a', ∀ t' ∈ (t.rotate d a).bind (·.rotate d' a'), R t' :=
    fun d a d' a' => forall_mem_bind (hone t d a h) fun t ht => htwo t d' a' ht
  refine forall_mem_read fun p => forall_mem_read fun gParent => forall_mem_read fun g => ?_
  exact forall_mem_ite (forall_mem_ite (hsingle _ _) (hdouble _ _ _ _))
    (forall_mem_ite (hdouble _ _ _ _) (hsingle _ _))

/-- The colour changes go on upwards, and rotations end the way. -/
theorem balancing_keeps {P Q : Recorded → Prop} (hPQ : ∀ t, P t → Q t)
    (hcolor : ∀ t a c, P t → ∀ t' ∈ t.setColor a c, P t')
    (hrotate : ∀ t a key, P t → ∀ t' ∈ t.performRotation a key, Q t') (fuel : ℕ) :
    ∀ (t : Recorded) (a : Addr), P t →
      (∀ t' ∈ colorFixRbtNodes fuel t a, Q t') ∧
      ∀ key, ∀ t' ∈ balanceRbtPostInsertion fuel t a key, Q t' := by
  induction fuel with
  | zero => exact fun t a _ => ⟨fun _ ht' => (nomatch ht'), fun _ _ ht' => (nomatch ht')⟩
  | succ fuel ih =>
      intro t a ht
      have hsame : ∀ t' ∈ some t, Q t' := forall_mem_some (hPQ t ht)
      constructor
      · refine forall_mem_read fun m => forall_mem_ite hsame ?_
        refine forall_mem_read fun p => forall_mem_read fun parent =>
          forall_mem_read fun sibling => ?_
        refine forall_mem_bind (hcolor t _ _ ht) fun t₁ ht₁ =>
          forall_mem_bind (hcolor t₁ _ _ ht₁) fun t₂ ht₂ => ?_
        cases parent.parent with
        | none => exact fun t' ht' => hPQ t' (hcolor t₂ _ _ ht₂ t' ht')
        | some g => exact forall_mem_bind (hcolor t₂ _ _ ht₂) fun t₃ ht₃ => (ih t₃ g ht₃).2 m.key
      · intro key
        refine forall_mem_read fun m => forall_mem_ite ?_ hsame
        exact forall_mem_read fun color => forall_mem_ite (ih t a ht).1 (hrotate t a key ht)

/-- The record of a balancing is a run. -/
theorem Replays.balanceRbtPostInsertion {s : Rbt} (h : t.Replays s) (fuel : ℕ) (a : Addr)
    (key : Key) : ∀ t' ∈ t.balanceRbtPostInsertion fuel a key, t'.Replays s := by
  have hrotate : ∀ (t : Recorded) d a, t.Replays s → ∀ t' ∈ t.rotate d a, t'.Replays s :=
    fun t d a ht => ht.rotate d a
  refine (balancing_keeps (fun t ht => ht) (fun t a c ht => ht.setColor a c) ?_ fuel t a h).2 key
  exact fun t a key ht => performRotation_keeps (fun t ht => ht) hrotate hrotate ht a key

/-- A balancing makes at most two rotations. -/
theorem rotations_balanceRbtPostInsertion (fuel : ℕ) (t : Recorded) (a : Addr) (key : Key) :
    ∀ t' ∈ t.balanceRbtPostInsertion fuel a key, t'.rotations ≤ t.rotations + 2 := by
  have hrotate : ∀ n, ∀ (t : Recorded) d a, t.rotations = n →
      ∀ t' ∈ t.rotate d a, t'.rotations = n + 1 := by
    intro n t d a ht t' ht'
    rw [rotations_rotate ht', ht]
  refine (balancing_keeps (P := fun u => u.rotations = t.rotations) (fun u hu => by omega)
    (fun u b c hu u' hu' => (rotations_setColor hu').trans hu) (fun u b k hu => ?_) fuel t a rfl).2 key
  refine performRotation_keeps (Q := fun u => u.rotations = t.rotations + 1) (fun u hu => by omega)
    (hrotate _) (fun v d b hv v' hv' => ?_) hu b k
  exact (hrotate _ v d b hv v' hv').le

end Recorded

/-! ## Whole insertions -/

/-- `bf_insert_rbt_entry` up to its balancing: the state, the node to balance from if the new node
    is linked below one, and the node returned. -/
def linkRbtEntry (fuel : ℕ) (mem : Option Addr) (s : Rbt) (root : Option Addr) (key : Key) :
    Option (Rbt × Option Addr × Option Addr) :=
  match root with
  | none =>
    match s.createRbtNode mem key none with
    | (s, none) => some (s, none, none)
    | (s, some newNode) => do
      let s ← s.setColor newNode .black
      some ({ s with head := some newNode }, none, some newNode)
  | some root => do
    let (root, prev) ← insertLoop fuel s key (some root) (some root)
    let root ← (if root = none then prev else root)
    let n ← s.nodes root
    if n.key = key then some (s, none, some root)
    else do
      let d : Side := if n.key < key then .right else .left
      let (s, resNode) := s.createRbtNode mem key (some root)
      let s ← s.modify root fun n => n.setChild d resNode
      match resNode with
      | none => some (s, none, none)
      | some resNode => some (s, some root, some resNode)

/-- `bf_insert_rbt_entry` with the record of its balancing. -/
def recordInsertion (fuel : ℕ) (mem : Option Addr) (s : Rbt) (root : Option Addr) (key : Key) :
    Option (Recorded × Option Addr) := do
  let (s, parent, resNode) ← s.linkRbtEntry fuel mem root key
  match parent with
  | none => some (.start s, resNode)
  | some parent => do
    let t ← (Recorded.start s).balanceRbtPostInsertion fuel parent key
    some (t, resNode)

/-- Without the record an insertion is `bf_insert_rbt_entry`. -/
theorem map_recordInsertion (fuel : ℕ) (mem : Option Addr) (s : Rbt) (root : Option Addr)
    (key : Key) :
    (s.recordInsertion fuel mem root key).map (fun q => (q.1.state, q.2)) =
      s.insertRbtEntry fuel mem root key := by
  unfold recordInsertion linkRbtEntry insertRbtEntry
  simp only [Option.bind_eq_bind]
  cases root with
  | none =>
      cases mem with
      | none => rfl
      | some a =>
          refine (congrArg (Option.map _) (Option.bind_assoc ..)).trans ?_
          exact map_bind_congr fun s => rfl
  | some root =>
      simp only [Option.bind_assoc]
      refine map_bind_congr fun q => map_bind_congr fun root => map_bind_congr fun n => ?_
      by_cases hkey : n.key = key
      · rw [if_pos hkey, if_pos hkey]
        rfl
      · rw [if_neg hkey, if_neg hkey]
        cases mem with
        | none =>
            refine (congrArg (Option.map _) (Option.bind_assoc ..)).trans ?_
            exact map_bind_congr fun s => rfl
        | some a =>
            refine (congrArg (Option.map _) (Option.bind_assoc ..)).trans ?_
            refine map_bind_congr fun s => ?_
            have hbalance := (Recorded.map_balancing fuel (.start s) root).2 key
            exact map_bind_map (f := fun t => some (t, some a)) hbalance fun t => rfl

/-- The record of an insertion leads from the state in which the new node is linked to the end. -/
theorem replays_recordInsertion {fuel : ℕ} {mem root : Option Addr} {s : Rbt} {key : Key}
    {t : Recorded} {r : Option Addr} (h : s.recordInsertion fuel mem root key = some (t, r)) :
    ∃ linked parent, s.linkRbtEntry fuel mem root key = some (linked, parent, r) ∧
      t.Replays linked ∧ t.rotations ≤ 2 := by
  obtain ⟨⟨linked, parent, resNode⟩, hlink, h⟩ := Option.bind_eq_some_iff.1 h
  cases parent with
  | none =>
      obtain ⟨rfl, rfl⟩ := Prod.mk.inj (Option.some.inj h)
      exact ⟨linked, none, hlink, Recorded.Replays.start linked, Nat.zero_le 2⟩
  | some parent =>
      obtain ⟨t', ht', h⟩ := Option.bind_eq_some_iff.1 h
      obtain ⟨rfl, rfl⟩ := Prod.mk.inj (Option.some.inj h)
      have hreplays := (Recorded.Replays.start linked).balanceRbtPostInsertion fuel parent key
      exact ⟨linked, some parent, hlink, hreplays t' ht',
        Recorded.rotations_balanceRbtPostInsertion fuel _ parent key t' ht'⟩

/-! ## Down to the leaf -/

variable {s s' : Rbt} {a b : Addr} {d d' : Side} {c c₀ : Color} {e w x : Entry}
  {l r near far u : ColoredTree Entry} {f : Frame Entry} {ctx : Context Entry} {key : Key}
  {p : Option Addr} {L : List Entry} {t t' : Recorded} {m n : ℕ}

/-- The subtree of the node is at most `n` levels deep. -/
inductive Below (s : Rbt) : Option Addr → ℕ → Prop
  | null {n : ℕ} : Below s none n
  | node {a : Addr} {k : RbtNode} {n : ℕ} :
      s.nodes a = some k → (∀ d, Below s (k.child d) n) → Below s (some a) (n + 1)

theorem Below.mono (h : Below s p m) (hle : m ≤ n) : Below s p n := by
  induction h generalizing n with
  | null => exact Below.null
  | node hk _ ih =>
      obtain ⟨n, rfl⟩ := Nat.exists_eq_add_of_le' (Nat.succ_le_of_lt (by omega) : 1 ≤ n)
      exact Below.node hk fun d => ih d (by omega)

theorem Below.of_rep (h : Rep s p u) : Below s (rootOf u) u.depth := by
  induction u generalizing p with
  | nil => exact Below.null
  | node c l e r ihl ihr =>
      obtain ⟨hnode, hl, hr⟩ := h
      refine Below.node hnode fun d => ?_
      cases d with
      | left => exact (ihl hl).mono (Nat.le_max_left ..)
      | right => exact (ihr hr).mono (Nat.le_max_right ..)

theorem Below.child {k : RbtNode} (h : Below s (some a) (n + 1)) (hk : s.nodes a = some k)
    (d : Side) : Below s (k.child d) n := by
  cases h with
  | node hk' hchild =>
      obtain rfl := Option.some.inj (hk'.symm.trans hk)
      exact hchild d

/-- A node that takes over the key and data of another one stays where it is. -/
theorem Below.modify {g : RbtNode → RbtNode} (h : Below s p n) (hs : s.modify a g = some s')
    (hg : ∀ k d, (g k).child d = k.child d) : Below s' p n := by
  obtain ⟨k₀, hk₀, rfl⟩ := Option.map_eq_some_iff.1 hs
  induction h with
  | null => exact Below.null
  | @node b k _ hk _ ih =>
      by_cases hb : b = a
      · subst hb
        obtain rfl := Option.some.inj (hk₀.symm.trans hk)
        exact Below.node nodes_store_self fun d => (hg k₀ d).symm ▸ ih d
      · exact Below.node ((nodes_store_of_ne hb).trans hk) ih

theorem descend_extends (N : ℕ) {fuel : ℕ} (h : Below s (some a) n) (hfuel : n ≤ fuel) :
    Extends (descend d N s a) (descend d fuel s a) := by
  induction N generalizing a n fuel with
  | zero => exact Extends.none_left _
  | succ N ih =>
      cases n with
      | zero => cases h
      | succ n =>
          obtain ⟨fuel, rfl⟩ := Nat.exists_eq_add_of_le' (by omega : 1 ≤ fuel)
          unfold descend
          refine Extends.bind fun k hk => ?_
          have hchild := h.child hk d
          cases hb : k.child d with
          | none => exact Extends.refl _
          | some b =>
              rw [hb] at hchild
              exact ih hchild (by omega)

theorem descend_below {N : ℕ} (h : Below s (some a) n) (hb : descend d N s a = some b) :
    Below s (some b) n := by
  induction N generalizing a n with
  | zero => cases hb
  | succ N ih =>
      cases n with
      | zero => cases h
      | succ n =>
          unfold descend at hb
          obtain ⟨k, hk, hrest⟩ := Option.bind_eq_some_iff.1 hb
          have hchild := h.child hk d
          cases hx : k.child d with
          | none =>
              rw [hx] at hrest
              obtain rfl := Option.some.inj hrest
              exact h
          | some x =>
              rw [hx] at hrest hchild
              exact (ih hchild hrest).mono (Nat.le_succ n)

theorem nearestRbtNode_extends (N : ℕ) {fuel : ℕ} (h : Below s (some a) (n + 1)) (hfuel : n ≤ fuel) :
    Extends (s.nearestRbtNode d N a) (s.nearestRbtNode d fuel a) := by
  unfold nearestRbtNode
  refine Extends.bind fun k hk => ?_
  have hchild := h.child hk d
  cases hx : k.child d with
  | none => exact Extends.refl _
  | some x =>
      rw [hx] at hchild
      exact Extends.map _ (descend_extends N hchild hfuel)

theorem nearestRbtNode_below {N : ℕ} (h : Below s (some a) (n + 1))
    (hb : s.nearestRbtNode d N a = some (some b)) : Below s (some b) n := by
  unfold nearestRbtNode at hb
  obtain ⟨k, hk, hrest⟩ := Option.bind_eq_some_iff.1 hb
  have hchild := h.child hk d
  cases hx : k.child d with
  | none => simp [hx] at hrest
  | some x =>
      rw [hx] at hrest hchild
      obtain ⟨y, hy, hyb⟩ := Option.map_eq_some_iff.1 hrest
      obtain rfl := Option.some.inj hyb
      exact descend_below hchild hy

/-- The replacements go down with every round. -/
theorem replaceLoop_extends (N : ℕ) {fuel : ℕ} (h : Below s (some a) n) (hfuel : n ≤ fuel) :
    Extends (s.replaceLoop N a) (s.replaceLoop fuel a) := by
  induction N generalizing s a n fuel with
  | zero => exact Extends.none_left _
  | succ N ih =>
      cases n with
      | zero => cases h
      | succ n =>
          obtain ⟨fuel, rfl⟩ := Nat.exists_eq_add_of_le' (by omega : 1 ≤ fuel)
          have hle : n ≤ fuel := by omega
          unfold replaceLoop
          refine Extends.bind fun k hk => Extends.ite (Extends.refl _) ?_
          refine Extends.trans (Extends.bind_left _ (nearestRbtNode_extends N h hle)) ?_
          refine Extends.bind fun successor hsucc => ?_
          have hpred : Extends
              (if successor = none then s.getPredecessorRbtNode N a else some successor)
              (if successor = none then s.getPredecessorRbtNode fuel a else some successor) :=
            Extends.ite (nearestRbtNode_extends N h hle) (Extends.refl _)
          refine Extends.trans (Extends.bind_left _ hpred) ?_
          refine Extends.bind fun replacement hrep => Extends.bind fun b hb => ?_
          have hbelow : Below s (some b) n := by
            subst hb
            split_ifs at hrep with hnone
            · exact nearestRbtNode_below h hrep
            · exact nearestRbtNode_below h (hsucc.trans hrep)
          refine Extends.bind fun k' _ => Extends.bind fun s' hs' => ?_
          exact ih (hbelow.modify hs' fun k d => by cases d <;> rfl) hle

/-! ## The passes of the balancing -/

namespace Recorded

/-- The loop ends with `passes` rounds, after at most `k` more rotations. -/
def Settled (t : Recorded) (a : Addr) (passes k : ℕ) : Prop :=
  ∃ t', (∀ fuel, passes ≤ fuel → balanceLoop fuel t a = some t') ∧ t'.rotations ≤ t.rotations + k

variable {k k' passes : ℕ}

theorem Settled.mono {passes' : ℕ} (h : t.Settled a passes k) (hpasses : passes ≤ passes')
    (hk : k ≤ k') : t.Settled a passes' k' := by
  obtain ⟨t', hloop, hle⟩ := h
  exact ⟨t', fun fuel hfuel => hloop fuel (hpasses.trans hfuel), by omega⟩

theorem Settled.of_done (hstep : t.balanceStep a = some (t', b, false))
    (hle : t'.rotations ≤ t.rotations + k) : t.Settled a 1 k := by
  refine ⟨t', fun fuel hfuel => ?_, hle⟩
  obtain ⟨fuel, rfl⟩ := Nat.exists_eq_add_of_le' hfuel
  simp [balanceLoop, hstep]

theorem Settled.of_step (hstep : t.balanceStep a = some (t', b, true))
    (hle : t'.rotations ≤ t.rotations + k) (h : t'.Settled b passes k') :
    t.Settled a (passes + 1) (k + k') := by
  obtain ⟨t'', hloop, hle'⟩ := h
  refine ⟨t'', fun fuel hfuel => ?_, by omega⟩
  obtain ⟨fuel, rfl⟩ := Nat.exists_eq_add_of_le' (le_trans (Nat.le_add_left 1 passes) hfuel)
  simp only [balanceLoop, hstep, Option.bind_eq_bind, Option.bind_some, if_true]
  exact hloop fuel (by omega)

/-- The far child of a black neighbour is red: one rotation ends the loop. -/
theorem settled_far
    (h : t.At L (⟨d, c₀, x, nodeAt d .black near w far⟩ :: ctx) (nodeAt d' c l e r))
    (hkeys : KeysAround (⟨d, c₀, x, nodeAt d .black near w far⟩ :: ctx) e.key)
    (hfar : far.color = .red) : t.Settled e.addr 1 1 := by
  obtain ⟨cf, y, v, z, rfl⟩ := (exists_nodeAt .left far).resolve_left fun hnil => by
    simp [hnil] at hfar
  obtain ⟨t₁, ht₁, hat₁, -⟩ := h.examine.rotate_parent hkeys
  obtain ⟨t₂, ht₂, -, -⟩ := hat₁.fill.setColor_sibling .black
  have hstep : t.balanceStep e.addr = some (t₂, e.addr, false) := by
    rw [balanceStep_black h.rep hkeys, if_neg (by simp [hfar]), if_pos hfar, ht₁, Option.bind_some,
      hat₁.fill.rep.frame, Option.bind_some, RbtNode.child_other_ofEntry, rootOf_nodeAt,
      Option.bind_some, ht₂, Option.bind_some]
  refine Settled.of_done hstep (le_of_eq ?_)
  rw [rotations_setColor ht₂, rotations_rotate ht₁, rotations_examine]

/-- A child of a black neighbour is red: the near one is rotated to the far side first. -/
theorem settled_redChild
    (h : t.At L (⟨d, c₀, x, nodeAt d .black near w far⟩ :: ctx) (nodeAt d' c l e r))
    (hkeys : KeysAround (⟨d, c₀, x, nodeAt d .black near w far⟩ :: ctx) e.key)
    (hchild : ¬ (near.color = .black ∧ far.color = .black)) : t.Settled e.addr 2 2 := by
  by_cases hfar : far.color = .red
  · exact (settled_far h hkeys hfar).mono (by omega) (by omega)
  · have hnear : near.color = .red :=
      Color.ne_black.1 fun hnear => hchild ⟨hnear, Color.ne_red.1 hfar⟩
    obtain ⟨cn, y, v, z, rfl⟩ := (exists_nodeAt d near).resolve_left fun hnil => by
      simp [hnil] at hnear
    obtain rfl : cn = .red := by simpa using hnear
    obtain ⟨t₁, ht₁, hat₁, hsame⟩ := h.examine.rotate_neighbor hkeys
    have hstep : t.balanceStep e.addr = some (t₁, e.addr, true) := by
      rw [balanceStep_black h.rep hkeys, if_neg hchild, if_neg hfar, ht₁, Option.bind_some]
    refine Settled.of_step hstep (le_of_eq ?_)
      (settled_far hat₁ (hsame.keysAround hkeys) (color_nodeAt ..))
    rw [rotations_rotate ht₁, rotations_examine]

/-- Black children of a black neighbour below a red parent: the colours change and the loop ends. -/
theorem settled_blackChildren
    (h : t.At L (⟨d, .red, x, nodeAt d .black near w far⟩ :: ctx) (nodeAt d' c l e r))
    (hkeys : KeysAround (⟨d, .red, x, nodeAt d .black near w far⟩ :: ctx) e.key)
    (hchild : near.color = .black ∧ far.color = .black) : t.Settled e.addr 1 0 := by
  obtain ⟨t₁, ht₁, hat₁, -⟩ := h.examine.setColor_sibling .red
  obtain ⟨t₂, ht₂, -, -⟩ := hat₁.setColor_frame .black
  have hstep : t.balanceStep e.addr = some (t₂, e.addr, false) := by
    rw [balanceStep_black h.rep hkeys, if_pos hchild, ht₁, Option.bind_some, settle, hat₁.rep.frame,
      Option.bind_some, RbtNode.color_ofEntry, if_pos rfl, ht₂, Option.bind_some]
  refine Settled.of_done hstep (le_of_eq ?_)
  rw [rotations_setColor ht₂, rotations_setColor ht₁, rotations_examine]
  rfl

theorem settled_redParent {sib : ColoredTree Entry}
    (h : t.At L (⟨d, .red, x, sib⟩ :: ctx) (nodeAt d' c l e r))
    (hkeys : KeysAround (⟨d, .red, x, sib⟩ :: ctx) e.key)
    (hctx : ContextBalanced (⟨d, .red, x, sib⟩ :: ctx) (n + 1)) : t.Settled e.addr 2 2 := by
  obtain ⟨hsc, hsb, -⟩ := contextBalanced_red.1 hctx
  obtain ⟨cs, near, w, far, rfl⟩ := exists_nodeAt_of_balanced_succ d hsb
  obtain rfl : cs = .black := by simpa using hsc
  by_cases hchild : near.color = .black ∧ far.color = .black
  · exact (settled_blackChildren h hkeys hchild).mono (by omega) (by omega)
  · exact settled_redChild h hkeys hchild

/-- A red neighbour is rotated up once; otherwise nothing is rotated until the loop ends. -/
theorem settled (h : t.At L ctx (nodeAt d' c l e r)) (hkeys : KeysAround ctx e.key)
    (hctx : ContextBalanced ctx (n + 1)) : t.Settled e.addr (ctx.length + 2) 3 := by
  induction ctx generalizing t d' c l e r n with
  | nil =>
      exact (Settled.of_done (k := 0) (balanceStep_root h.rep) (by simp)).mono (by omega) (by omega)
  | cons f rest ih =>
      obtain ⟨d, c₀, x, sib⟩ := f
      cases c₀ with
      | red => exact (settled_redParent h hkeys hctx).mono (by simp) (by omega)
      | black =>
          obtain ⟨(hsb : sib.Balanced (n + 1)), hrest⟩ := hctx
          obtain ⟨cs, near, w, far, rfl⟩ := exists_nodeAt_of_balanced_succ d hsb
          cases cs with
          | red =>
              obtain ⟨hnc, hfc, hnb, hfb⟩ := balanced_red.1 hsb
              obtain ⟨t₁, ht₁, hat₁, hsame⟩ := h.examine.rotate_parent hkeys
              have hstep : t.balanceStep e.addr = some (t₁, e.addr, true) := by
                rw [balanceStep_red h.rep hkeys (color_nodeAt ..), ht₁, Option.bind_some]
              have hbelow : t₁.Settled e.addr 2 2 :=
                settled_redParent hat₁ (hsame.keysAround hkeys) ⟨hnc, hnb, rfl, hfb, hrest⟩
              refine (Settled.of_step (k := 1) hstep ?_ hbelow).mono (by simp) (by omega)
              rw [rotations_rotate ht₁, rotations_examine]
          | black =>
              by_cases hchild : near.color = .black ∧ far.color = .black
              · obtain ⟨t₁, ht₁, hat₁, -⟩ := h.examine.setColor_sibling .red
                have hstep : t.balanceStep e.addr = some (t₁, x.addr, true) := by
                  rw [balanceStep_black h.rep hkeys, if_pos hchild, ht₁, Option.bind_some, settle,
                    hat₁.rep.frame, Option.bind_some, RbtNode.color_ofEntry, if_neg (by simp)]
                refine (Settled.of_step (k := 0) hstep ?_ (ih hat₁.fill hkeys.up hrest)).mono
                  (by simp) (by omega)
                rw [rotations_setColor ht₁, rotations_examine]
                exact Nat.le_add_right ..
              · exact (settled_redChild h hkeys hchild).mono (by simp) (by omega)

/-- The balancing of a removal has its result from the passes of its loop on. -/
theorem Settled.result {fuel : ℕ} (h : t.Settled a passes k)
    (ht' : Returns (fun fuel => t.balanceRbtPostDeletion fuel a) t') (hfuel : passes ≤ fuel) :
    t.balanceRbtPostDeletion fuel a = some t' ∧ t'.rotations ≤ t.rotations + k := by
  obtain ⟨v, hloop, hle⟩ := h
  obtain ⟨bound, hbound⟩ := ht'
  have hend : t.balanceRbtPostDeletion (max bound passes) a = some t' :=
    hbound _ (Nat.le_max_left ..)
  unfold balanceRbtPostDeletion at hend ⊢
  rw [hloop _ (Nat.le_max_right ..), Option.bind_eq_bind, Option.bind_some] at hend
  rw [hloop _ hfuel, Option.bind_eq_bind, Option.bind_some]
  refine ⟨hend, le_trans (le_of_eq ?_) hle⟩
  obtain ⟨head, -, hhead⟩ := Option.bind_eq_some_iff.1 hend
  obtain ⟨node, -, hnode⟩ := Option.bind_eq_some_iff.1 hhead
  split_ifs at hnode
  · exact rotations_setColor hnode
  · rw [Option.some.inj hnode]

end Recorded

/-! ## Whole removals -/

/-- The leaf is found with one round more than the tree is deep. -/
theorem bstNodeDeletion_result {q : Rbt × Option (Addr × Color)} (h : Represents s u)
    (hq : Returns (fun fuel => s.bstNodeDeletion fuel key) q) {fuel : ℕ} (hfuel : u.depth < fuel) :
    s.bstNodeDeletion fuel key = some q := by
  obtain ⟨bound, hbound⟩ := hq
  refine (?_ : Extends (s.bstNodeDeletion (max bound fuel) key) _) q (hbound _ (Nat.le_max_left ..))
  have hspec := searchLoop_spec key [] h
  have hsearch : ∀ fuel, u.depth < fuel →
      s.searchLoop fuel key s.head = some (rootOf (locate key [] u).2) := by
    intro fuel hfuel
    rw [h.head_eq]
    exact (searchLoop_walks s key).result h.rep () hspec hfuel
  unfold bstNodeDeletion
  rw [hsearch _ (lt_of_lt_of_le hfuel (Nat.le_max_right ..)), hsearch _ hfuel]
  simp only [Option.bind_eq_bind, Option.bind_some]
  have hplug : plug (locate key [] u).1 (locate key [] u).2 = u := plug_locate
  have hbelow := Below.of_rep (rep_plug.1 (hplug.symm ▸ h).rep).1
  have hdepth := length_le_depth (locate key [] u).1 (locate key [] u).2
  rw [hplug] at hdepth
  cases hroot : rootOf (locate key [] u).2 with
  | none => exact Extends.refl _
  | some root =>
      rw [hroot] at hbelow
      exact Extends.bind_left _ (replaceLoop_extends _ hbelow (by omega))

/-- The removal of a key that is there, with its record. -/
theorem recordRemoval_result {c : Color} {l r : ColoredTree Entry} {e : Entry} {fuel : ℕ}
    (h : Represents s u) (hsorted : Sorted u) (hred : u.IsRedBlack)
    (hloc : (locate key [] u).2 = nodeAt .left c l e r)
    (hfuel : 2 * Nat.log 2 (u.toList.length + 1) < fuel) :
    ∃ s₁ leaf color t s', s.bstNodeDeletion fuel key = some (s₁, some (leaf, color)) ∧
      s.recordRemoval fuel key = some (some (leaf, t)) ∧ t.Replays s₁ ∧ t.rotations ≤ 3 ∧
      t.state.unlinkLeaf leaf = some s' ∧ Returns (fun fuel => s.removeRbtEntry fuel key) (s', .ok) := by
  obtain ⟨s₁, ctx, c₁, v, bs, as, hdelete, hrep₁, hred₁, hkeys, hlist, hpairs⟩ :=
    bstNodeDeletion_present h hsorted hred hloc
  obtain ⟨t, ctx', hbalance, hreplays, -, hrep₂, hsame⟩ := recordBalancing_spec hrep₁ hred₁ hkeys
  obtain ⟨s', hunlink, -⟩ := unlinkLeaf_spec hrep₂ (hsame.keysAround hkeys)
  have hdepth : ctx.length + 1 < fuel := by
    have hlength : (plug ctx (leaf c₁ v)).toList.length = u.toList.length := by
      have hsum := congrArg List.length hpairs
      simp only [List.length_map, List.length_append, around] at hsum
      simp only [hlist, toList_plug, leaf, nodeAt, toList, List.length_append, List.length_cons,
        List.length_nil]
      omega
    have hle := (length_le_depth ctx (leaf c₁ v)).trans hred₁.depth_le
    rw [hlength] at hle
    exact lt_of_le_of_lt hle hfuel
  have hend : (if c₁ = .black then (Recorded.start s₁).balanceRbtPostDeletion fuel v.addr
      else some (.start s₁)) = some t ∧ t.rotations ≤ 3 := by
    cases c₁ with
    | red =>
        obtain rfl := Returns.unique (Returns.const rfl) hbalance
        exact ⟨rfl, Nat.zero_le 3⟩
    | black =>
        obtain ⟨n, hctx, hleaf, -⟩ := isRedBlack_plug.1 hred₁
        cases n with
        | zero => exact absurd hleaf balanced_black_zero
        | succ n =>
            have hat : (Recorded.start s₁).At (plug ctx (leaf .black v)).toList ctx
                (nodeAt .left .black .nil v .nil) := ⟨hrep₁, rfl, Recorded.Sound.start s₁⟩
            have hsettled := Recorded.settled hat hkeys hctx
            obtain ⟨hresult, hle⟩ := hsettled.result hbalance (Nat.succ_le_of_lt hdepth)
            exact ⟨hresult, by simpa using hle⟩
  have hrecord : Returns (fun fuel => s.recordRemoval fuel key) (some (v.addr, t)) :=
    Returns.bind hdelete (Returns.bind hbalance (Returns.const rfl))
  have hdown := bstNodeDeletion_result h hdelete (lt_of_le_of_lt hred.depth_le hfuel)
  refine ⟨s₁, v.addr, c₁, t, s', hdown, ?_, hreplays, hend.2, hunlink,
    removeRbtEntry_of_record hrecord hunlink⟩
  unfold recordRemoval
  simp only [hdown, Option.bind_eq_bind, Option.bind_some, hend.1]

/-- In a tree of `n` nodes more than `2 * log 2 (n + 1)` rounds of each loop and recursion are enough
    for an insertion, whose balancing makes at most two rotations, and for a removal, whose balancing
    makes at most three before the leaf is unlinked. -/
theorem rotations_of_run {events : List (Call × Reply)} (h : Run Step empty events s) (key : Key)
    {fuel : ℕ} (hfuel : 2 * Nat.log 2 (s.linkedNodes.ncard + 1) < fuel) :
    (∀ mem, s.nodes mem = none → ∃ linked parent t r,
      s.insertRbtEntry fuel (some mem) s.head key = some (t.state, r) ∧
        s.linkRbtEntry fuel (some mem) s.head key = some (linked, parent, r) ∧
        s.recordInsertion fuel (some mem) s.head key = some (t, r) ∧ t.Replays linked ∧
        t.rotations ≤ 2 ∧ Step s (.insert mem key, .node r) t.state) ∧
      ∃ s' sts, s.removeRbtEntry fuel key = some (s', sts) ∧ Step s (.remove key, .status sts) s' ∧
        ((sts = .noKey ∧ s.recordRemoval fuel key = some none) ∨
          ∃ s₁ leaf color t, s.bstNodeDeletion fuel key = some (s₁, some (leaf, color)) ∧
            s.recordRemoval fuel key = some (some (leaf, t)) ∧ t.Replays s₁ ∧ t.rotations ≤ 3 ∧
            t.state.unlinkLeaf leaf = some s') := by
  obtain ⟨u, hrep, hsorted, hred, -⟩ := tree_of_run h
  rw [hrep.ncard_linkedNodes] at hfuel
  have hdepth : u.depth < fuel := lt_of_le_of_lt hred.depth_le hfuel
  constructor
  · intro mem hmem
    obtain ⟨s', r, hreturns⟩ := insertRbtEntry_returns key hrep hsorted hred hmem
    have hcall := insertRbtEntry_result hrep hmem hreturns hdepth
    obtain ⟨⟨t, r'⟩, ht, heq⟩ := Option.map_eq_some_iff.1
      ((map_recordInsertion fuel (some mem) s s.head key).trans hcall)
    obtain ⟨rfl, rfl⟩ := Prod.mk.inj heq
    obtain ⟨linked, parent, hlink, hreplays, hle⟩ := replays_recordInsertion ht
    exact ⟨linked, parent, t, r', hcall, hlink, ht, hreplays, hle, hmem, returns_insert hreturns⟩
  · rcases locate_snd key [] u with hloc | ⟨c, l, e, r, hloc, -⟩
    · have hdown := bstNodeDeletion_result hrep (bstNodeDeletion_absent hrep hloc) hdepth
      refine ⟨s, .noKey, ?_, ⟨trivial, returns_remove (removeRbtEntry_absent hrep hloc)⟩,
        Or.inl ⟨rfl, ?_⟩⟩
      · unfold removeRbtEntry
        rw [hdown]
        rfl
      · unfold recordRemoval
        rw [hdown]
        rfl
    · obtain ⟨s₁, leaf, color, t, s', hdown, hrecord, hreplays, hle, hunlink, hreturns⟩ :=
        recordRemoval_result hrep hsorted hred hloc hfuel
      refine ⟨s', .ok, ?_, ⟨trivial, returns_remove hreturns⟩,
        Or.inr ⟨s₁, leaf, color, t, hdown, hrecord, hreplays, hle, hunlink⟩⟩
      rw [removeRbtEntry_eq hrecord, hunlink, Option.map_some]

/-- 12 goes below the red 15 in `several`, and 20 is removed from its root. -/
theorem rotations_of_run_several :
    (∃ linked parent t r, several.insertRbtEntry 5 (some 17) several.head 12 = some (t.state, r) ∧
      several.linkRbtEntry 5 (some 17) several.head 12 = some (linked, parent, r) ∧
      several.recordInsertion 5 (some 17) several.head 12 = some (t, r) ∧ t.Replays linked ∧
      t.rotations ≤ 2 ∧ Step several (.insert 17 12, .node r) t.state) ∧
      ∃ s' sts, several.removeRbtEntry 5 20 = some (s', sts) ∧
        Step several (.remove 20, .status sts) s' ∧
        ((sts = .noKey ∧ several.recordRemoval 5 20 = some none) ∨
          ∃ s₁ leaf color t, several.bstNodeDeletion 5 20 = some (s₁, some (leaf, color)) ∧
            several.recordRemoval 5 20 = some (some (leaf, t)) ∧ t.Replays s₁ ∧ t.rotations ≤ 3 ∧
            t.state.unlinkLeaf leaf = some s') := by
  have hfuel : 2 * Nat.log 2 (several.linkedNodes.ncard + 1) < 5 := by
    rw [ncard_linkedNodes_several]
    decide
  exact ⟨(rotations_of_run run_several 12 hfuel).1 17 (by decide +kernel),
    (rotations_of_run run_several 20 hfuel).2⟩

example : (several.recordInsertion 5 (some 17) several.head 12).map (fun q => q.1.rotations) = some 2 ∧
    (several.recordRemoval 5 20).map (fun found => found.map fun q => q.2.rotations) =
      some (some 2) := by
  decide +kernel

end Rbt
