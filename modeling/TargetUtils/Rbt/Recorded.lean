import TargetUtils.Library.Runs
import TargetUtils.Rbt.Basic

set_option autoImplicit false

/-! # The balancing of a removal, step by step

`bf_balance_rbt_post_deletion` with a record of what it does between two states of the tree. Without
the record it is the function of `Rbt.Basic` (`Recorded.map_balanceRbtPostDeletion`), and the record
is a run from the first state to the last (`Recorded.Replays`). -/

namespace Rbt

/-- What the balancing does: a pass begins by examining a node; a colour is assigned; a node is
    rotated to side `d`. -/
inductive Action
  | examine (node : Addr)
  | setColor (a : Addr) (c : Color)
  | rotate (d : Side) (a : Addr)
deriving DecidableEq

/-- A state, and the actions before it, each with the state it was done in. -/
structure Recorded where
  state : Rbt
  log : List (Rbt × Action)

namespace Recorded

def start (s : Rbt) : Recorded := { state := s, log := [] }

def examine (t : Recorded) (node : Addr) : Recorded :=
  { t with log := t.log ++ [(t.state, .examine node)] }

def setColor (t : Recorded) (a : Addr) (c : Color) : Option Recorded := do
  let s ← t.state.setColor a c
  some { state := s, log := t.log ++ [(t.state, .setColor a c)] }

def rotate (t : Recorded) (d : Side) (a : Addr) : Option Recorded := do
  let (s, _) ← t.state.rotateRbtNode d a
  some { state := s, log := t.log ++ [(t.state, .rotate d a)] }

/-- A pass of the loop of `bf_balance_rbt_post_deletion`. -/
def balanceStep (t : Recorded) (node : Addr) : Option (Recorded × Addr × Bool) := do
  let t := t.examine node
  let n ← t.state.nodes node
  match n.parent with
  | none => some (t, node, false)
  | some p => do
    let neighNode ← t.state.getNeighborRbtNode node
    let nodeDir ← t.state.getRbtNodeDirection node
    let neighColor ← t.state.colorOf neighNode
    if neighColor = .black then do
      let (rightColor, leftColor) ← (match neighNode with
        | none => some (.black, .black)
        | some w => do
          let neigh ← t.state.nodes w
          let rightColor ← t.state.colorOf neigh.right
          let leftColor ← t.state.colorOf neigh.left
          some (rightColor, leftColor))
      if rightColor = .black ∧ leftColor = .black then do
        let t ← (match neighNode with
          | none => some t
          | some w => t.setColor w .red)
        let parent ← t.state.nodes p
        if parent.color = .red then do
          let t ← t.setColor p .black
          some (t, node, false)
        else some (t, p, true)
      else do
        let w ← neighNode
        if nodeDir = .child .left ∧ rightColor = .red then do
          let t ← t.rotate .left p
          let neigh ← t.state.nodes w
          let t ← t.setColor (← neigh.right) .black
          some (t, node, false)
        else if nodeDir = .child .right ∧ leftColor = .red then do
          let t ← t.rotate .right p
          let neigh ← t.state.nodes w
          let t ← t.setColor (← neigh.left) .black
          some (t, node, false)
        else if nodeDir = .child .left ∧ rightColor = .black ∧ leftColor = .red then do
          let t ← t.rotate .right w
          some (t, node, true)
        else if nodeDir = .child .right ∧ leftColor = .black ∧ rightColor = .red then do
          let t ← t.rotate .left w
          some (t, node, true)
        else some (t, node, true)
    else do
      let t ← (if nodeDir = .child .right then t.rotate .right p else t.rotate .left p)
      some (t, node, true)

/-- The loop of `bf_balance_rbt_post_deletion`. -/
def balanceLoop : (fuel : ℕ) → Recorded → Addr → Option Recorded
  | 0, _, _ => none
  | fuel + 1, t, node => do
    let (t, node, imbalanceTree) ← t.balanceStep node
    if imbalanceTree then balanceLoop fuel t node else some t

/-- `bf_balance_rbt_post_deletion`. -/
def balanceRbtPostDeletion (fuel : ℕ) (t : Recorded) (node : Addr) : Option Recorded := do
  let t ← balanceLoop fuel t node
  let head ← t.state.head
  let n ← t.state.nodes head
  if n.color = .red then t.setColor head .black else some t

end Recorded

/-! ## Without the record -/

namespace Recorded

variable {t : Recorded} {a node : Addr} {c : Color} {d : Side} {fuel : ℕ}

@[simp] theorem state_start (s : Rbt) : (start s).state = s := rfl

@[simp] theorem log_start (s : Rbt) : (start s).log = [] := rfl

@[simp] theorem state_examine : (t.examine a).state = t.state := rfl

theorem map_setColor : (t.setColor a c).map state = t.state.setColor a c := by
  rw [setColor]
  cases t.state.setColor a c <;> rfl

theorem map_rotate_bind {α β : Type} {f : Recorded → Option α} {g : Rbt × Addr → Option β}
    {q : α → β} (h : ∀ x v, (f x).map q = g (x.state, v)) :
    ((t.rotate d a).bind f).map q = (t.state.rotateRbtNode d a).bind g := by
  rw [rotate]
  cases t.state.rotateRbtNode d a with
  | none => rfl
  | some x => exact h _ x.2

theorem map_balanceStep :
    (t.balanceStep node).map (fun q => (q.1.state, q.2)) = t.state.balanceStep node := by
  simp only [balanceStep, Rbt.balanceStep, leftRotateRbtNode, rightRotateRbtNode,
    Option.bind_eq_bind]
  refine map_bind_congr fun n => ?_
  cases hp : n.parent with
  | none => rfl
  | some p =>
      refine map_bind_congr fun neighNode => map_bind_congr fun nodeDir =>
        map_bind_congr fun neighColor => map_ite_congr ?_ ?_
      · refine map_bind_congr fun colors => map_ite_congr ?_ (map_bind_congr fun w => ?_)
        · cases neighNode with
          | none =>
              exact map_bind_congr fun parent =>
                map_ite_congr (map_bind_map map_setColor fun _ => rfl) rfl
          | some w =>
              exact map_bind_map map_setColor fun _ => map_bind_congr fun parent =>
                map_ite_congr (map_bind_map map_setColor fun _ => rfl) rfl
        · refine map_ite_congr ?_ (map_ite_congr ?_ (map_ite_congr ?_ (map_ite_congr ?_ rfl)))
          · exact map_rotate_bind fun _ _ => map_bind_congr fun neigh => map_bind_congr fun right =>
              map_bind_map map_setColor fun _ => rfl
          · exact map_rotate_bind fun _ _ => map_bind_congr fun neigh => map_bind_congr fun left =>
              map_bind_map map_setColor fun _ => rfl
          · exact map_rotate_bind fun _ _ => rfl
          · exact map_rotate_bind fun _ _ => rfl
      · split_ifs
        · exact map_rotate_bind fun _ _ => rfl
        · exact map_rotate_bind fun _ _ => rfl

theorem map_balanceStep_start (s : Rbt) (node : Addr) :
    ((start s).balanceStep node).map (fun q => (q.1.state, q.2)) = s.balanceStep node :=
  map_balanceStep

theorem map_balanceLoop :
    (balanceLoop fuel t node).map state = t.state.balanceLoop fuel node := by
  induction fuel generalizing t node with
  | zero => rfl
  | succ fuel ih =>
      rw [balanceLoop, Rbt.balanceLoop]
      exact map_bind_map map_balanceStep fun q => map_ite_congr ih rfl

theorem map_balanceRbtPostDeletion :
    (t.balanceRbtPostDeletion fuel node).map state = t.state.balanceRbtPostDeletion fuel node := by
  rw [balanceRbtPostDeletion, Rbt.balanceRbtPostDeletion]
  exact map_bind_map map_balanceLoop fun _ => map_bind_congr fun head => map_bind_congr fun n =>
    map_ite_congr map_setColor rfl

/-! ## More fuel -/

theorem balanceLoop_succ {t' : Recorded} (h : balanceLoop fuel t node = some t') :
    balanceLoop (fuel + 1) t node = some t' := by
  induction fuel generalizing t node with
  | zero => simp [balanceLoop] at h
  | succ fuel ih =>
      rw [balanceLoop, Option.bind_eq_bind, Option.bind_eq_some_iff] at h ⊢
      obtain ⟨⟨u, a, imbalanceTree⟩, hstep, hrest⟩ := h
      refine ⟨_, hstep, ?_⟩
      cases imbalanceTree with
      | true => exact ih hrest
      | false => exact hrest

theorem balanceRbtPostDeletion_succ {t' : Recorded}
    (h : t.balanceRbtPostDeletion fuel node = some t') :
    t.balanceRbtPostDeletion (fuel + 1) node = some t' := by
  rw [balanceRbtPostDeletion, Option.bind_eq_bind, Option.bind_eq_some_iff] at h ⊢
  obtain ⟨u, hloop, hrest⟩ := h
  exact ⟨u, balanceLoop_succ hloop, hrest⟩

/-! ## The record is a run -/

/-- An action leads from one state to the next. -/
def ActionStep (s : Rbt) (act : Action) (s' : Rbt) : Prop :=
  match act with
  | .examine _ => s' = s
  | .setColor a c => s.setColor a c = some s'
  | .rotate d a => ∃ v, s.rotateRbtNode d a = some (s', v)

/-- The actions lead from `s` to the state at the end, and those before an action to the state that
    it is recorded with. -/
structure Replays (s : Rbt) (t : Recorded) : Prop where
  run : Run ActionStep s (t.log.map Prod.snd) t.state
  before : ∀ pre m act post, t.log = pre ++ (m, act) :: post →
    Run ActionStep s (pre.map Prod.snd) m

variable {s s' : Rbt} {act : Action}

theorem Replays.start (s : Rbt) : (start s).Replays s :=
  ⟨Run.nil, fun pre m act post h => by simp at h⟩

theorem Replays.snoc (h : t.Replays s) (hact : ActionStep t.state act s') :
    ({ state := s', log := t.log ++ [(t.state, act)] } : Recorded).Replays s := by
  refine ⟨?_, fun pre m act' post hsplit => ?_⟩
  · rw [List.map_append]
    exact Run.snoc h.run hact
  · rcases List.eq_nil_or_concat post with rfl | ⟨post', last, rfl⟩
    · obtain ⟨rfl, hlast⟩ := List.append_inj' hsplit rfl
      obtain ⟨rfl, -⟩ := Prod.mk.inj (List.singleton_inj.1 hlast)
      exact h.run
    · rw [List.concat_eq_append, ← List.cons_append, ← List.append_assoc] at hsplit
      exact h.before pre m act' post' (List.append_inj' hsplit rfl).1

theorem Replays.examine (h : t.Replays s) (node : Addr) : (t.examine node).Replays s :=
  h.snoc (show ActionStep t.state (.examine node) t.state from rfl)

theorem Replays.setColor (h : t.Replays s) (a : Addr) (c : Color) :
    ∀ t' ∈ t.setColor a c, t'.Replays s := by
  intro t' ht'
  obtain ⟨s', hs', heq⟩ := Option.bind_eq_some_iff.1 ht'
  obtain rfl := Option.some.inj heq
  exact h.snoc (show ActionStep t.state (.setColor a c) s' from hs')

theorem Replays.rotate (h : t.Replays s) (d : Side) (a : Addr) :
    ∀ t' ∈ t.rotate d a, t'.Replays s := by
  intro t' ht'
  obtain ⟨⟨s', v⟩, hs', heq⟩ := Option.bind_eq_some_iff.1 ht'
  obtain rfl := Option.some.inj heq
  exact h.snoc (show ActionStep t.state (.rotate d a) s' from ⟨v, hs'⟩)

theorem Replays.balanceStep (h : t.Replays s) (node : Addr) :
    ∀ q ∈ t.balanceStep node, q.1.Replays s := by
  have ht := h.examine node
  refine forall_mem_read fun n => ?_
  cases n.parent with
  | none => exact forall_mem_some ht
  | some p =>
      refine forall_mem_read fun neighNode => forall_mem_read fun nodeDir =>
        forall_mem_read fun neighColor => forall_mem_ite ?_ ?_
      · refine forall_mem_read fun colors => forall_mem_ite ?_
          (forall_mem_read fun w => ?_)
        · refine forall_mem_bind (P := (Replays s ·)) ?_ fun t ht =>
            forall_mem_read fun parent => forall_mem_ite
              (forall_mem_bind (ht.setColor _ _) fun t ht => forall_mem_some ht) (forall_mem_some ht)
          cases neighNode with
          | none => exact forall_mem_some ht
          | some w => exact ht.setColor w .red
        · refine forall_mem_ite ?_ (forall_mem_ite ?_ (forall_mem_ite ?_ (forall_mem_ite ?_
            (forall_mem_some ht))))
          · exact forall_mem_bind (ht.rotate _ _) fun t ht =>
              forall_mem_read fun neigh => forall_mem_read fun right =>
                forall_mem_bind (ht.setColor _ _) fun t ht => forall_mem_some ht
          · exact forall_mem_bind (ht.rotate _ _) fun t ht =>
              forall_mem_read fun neigh => forall_mem_read fun left =>
                forall_mem_bind (ht.setColor _ _) fun t ht => forall_mem_some ht
          · exact forall_mem_bind (ht.rotate _ _) fun t ht => forall_mem_some ht
          · exact forall_mem_bind (ht.rotate _ _) fun t ht => forall_mem_some ht
      · exact forall_mem_bind (forall_mem_ite (ht.rotate _ _) (ht.rotate _ _)) fun t ht =>
          forall_mem_some ht

theorem Replays.balanceLoop (h : t.Replays s) (fuel : ℕ) (node : Addr) :
    ∀ t' ∈ balanceLoop fuel t node, t'.Replays s := by
  induction fuel generalizing t node with
  | zero => simp [Recorded.balanceLoop]
  | succ fuel ih =>
      refine forall_mem_bind (h.balanceStep node) fun q hq => ?_
      exact forall_mem_ite (ih hq q.2.1) (forall_mem_some hq)

theorem Replays.balanceRbtPostDeletion (h : t.Replays s) (fuel : ℕ) (node : Addr) :
    ∀ t' ∈ t.balanceRbtPostDeletion fuel node, t'.Replays s := by
  refine forall_mem_bind (h.balanceLoop fuel node) fun t ht => ?_
  refine forall_mem_read fun head => ?_
  refine forall_mem_read fun n => ?_
  exact forall_mem_ite (ht.setColor head .black) (forall_mem_some ht)

end Recorded

end Rbt
