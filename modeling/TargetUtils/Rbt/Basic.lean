import TargetUtils.Library.ColoredTree
import Mathlib.Algebra.Order.Ring.Nat
import Mathlib.Order.Fin.Basic
import Mathlib.Data.Set.Basic

set_option autoImplicit false

/-! # The red-black tree of `rbt.c`

Translation of `rbt.c` over a memory of nodes. A function that reads through NULL, or through a
pointer to memory that is not allocated, has no result. The loops and the recursion of the source
take fuel; without enough of it they have no result either (`Returns` in `Rbt.Heap`). -/

/-- The address of a node. NULL is `none`. -/
abbrev Addr := ℕ

/-- `uint32_t`. -/
abbrev Key := Fin (2 ^ 32)

/-- `bf_rbt_node_t`. -/
structure RbtNode where
  key : Key
  color : Color
  left : Option Addr
  right : Option Addr
  parent : Option Addr
  data : Option Addr
deriving DecidableEq

namespace RbtNode

def child (n : RbtNode) : Side → Option Addr
  | .left => n.left
  | .right => n.right

def setChild (n : RbtNode) (d : Side) (p : Option Addr) : RbtNode :=
  match d with
  | .left => { n with left := p }
  | .right => { n with right := p }

end RbtNode

/-- The memory that holds the nodes, and `*rbt_head`. -/
structure Rbt where
  nodes : Addr → Option RbtNode
  head : Option Addr

namespace Rbt

/-- `bf_rbt_sts_t`. -/
inductive Sts
  | ok
  | err
  | noKey
  | keyExists
deriving DecidableEq

/-- `bf_rbt_node_direction_t`. -/
inductive NodeDirection
  | child (d : Side)
  | root
deriving DecidableEq

/-- No node is allocated, and the head is NULL. -/
def empty : Rbt := { nodes := fun _ => none, head := none }

def store (s : Rbt) (a : Addr) (n : RbtNode) : Rbt :=
  { s with nodes := Function.update s.nodes a (some n) }

/-- An assignment to fields of the node at `a`. -/
def modify (s : Rbt) (a : Addr) (f : RbtNode → RbtNode) : Option Rbt :=
  (s.nodes a).map fun n => s.store a (f n)

/-- `bf_sys_free`. -/
def free (s : Rbt) (a : Addr) : Rbt := { s with nodes := Function.update s.nodes a none }

def setColor (s : Rbt) (a : Addr) (c : Color) : Option Rbt :=
  s.modify a fun n => { n with color := c }

/-- `p != NULL && p->key == key`. -/
def hasKey (s : Rbt) (p : Option Addr) (key : Key) : Option Bool :=
  match p with
  | none => some false
  | some a => (s.nodes a).map fun n => decide (n.key = key)

/-- `p->color` of a non-NULL `p`, else `BLACK`. So `p != NULL && p->color == RED` is
    `colorOf p = red`, and `p == NULL || p->color == BLACK` is `colorOf p = black`. -/
def colorOf (s : Rbt) (p : Option Addr) : Option Color :=
  match p with
  | none => some .black
  | some a => (s.nodes a).map RbtNode.color

/-! ## Creation and rotation -/

/-- `bf_create_rbt_node`; `mem` is what `bf_sys_calloc` returns. -/
def createRbtNode (s : Rbt) (mem : Option Addr) (key : Key) (root : Option Addr) :
    Rbt × Option Addr :=
  match mem with
  | none => (s, none)
  | some a =>
    (s.store a { key := key, color := .red, left := none, right := none, parent := root,
                 data := none }, some a)

/-- `if (p != NULL) p->parent = parent`. -/
def setParent (s : Rbt) (p : Option Addr) (parent : Addr) : Option Rbt :=
  match p with
  | none => some s
  | some a => s.modify a fun n => { n with parent := some parent }

/-- The rotated-in `child` takes the place of the rotated node below `g_parent`. -/
def relink (s : Rbt) (gParent : Option Addr) (child : Addr) : Option Rbt :=
  match gParent with
  | none => some s
  | some g => do
    let c ← s.nodes child
    s.modify g fun gp =>
      if gp.key < c.key then gp.setChild .right (some child) else gp.setChild .left (some child)

/-- `bf_left_rotate_rbt_node` and `bf_right_rotate_rbt_node`: `node` sinks to side `d`, its child on
    the other side takes its place. -/
def rotateRbtNode (d : Side) (s : Rbt) (node : Addr) : Option (Rbt × Addr) := do
  let n ← s.nodes node
  let child ← n.child d.other
  let c ← s.nodes child
  let gParent := n.parent
  let gChild := c.child d
  let s ← s.modify child fun c => { c.setChild d (some node) with parent := gParent }
  let s ← s.modify node fun n => { n.setChild d.other gChild with parent := some child }
  let s ← s.setColor child n.color
  let s ← s.setColor node c.color
  let s ← s.setParent gChild node
  let s ← s.relink gParent child
  some (if s.head = some node then { s with head := some child } else s, child)

/-- `bf_right_rotate_rbt_node`. -/
def rightRotateRbtNode : Rbt → Addr → Option (Rbt × Addr) := rotateRbtNode .right

/-- `bf_left_rotate_rbt_node`. -/
def leftRotateRbtNode : Rbt → Addr → Option (Rbt × Addr) := rotateRbtNode .left

/-- `bf_perform_rotation`. -/
def performRotation (s : Rbt) (parent : Addr) (key : Key) : Option (Rbt × Addr) := do
  let p ← s.nodes parent
  let gParent ← p.parent
  let g ← s.nodes gParent
  if g.key < p.key then
    if p.key < key then
      s.leftRotateRbtNode gParent
    else do
      let (s, _) ← s.rightRotateRbtNode parent
      s.leftRotateRbtNode gParent
  else
    if p.key < key then do
      let (s, _) ← s.leftRotateRbtNode parent
      s.rightRotateRbtNode gParent
    else
      s.rightRotateRbtNode gParent

/-! ## Neighbours -/

/-- The loop of the descents to an outermost node: `while (a->child != NULL) a = a->child`. -/
def descend (d : Side) : (fuel : ℕ) → Rbt → Addr → Option Addr
  | 0, _, _ => none
  | fuel + 1, s, a => do
    let n ← s.nodes a
    match n.child d with
    | none => some a
    | some b => descend d fuel s b

/-- The nearest node in order on side `d`, below `root`. -/
def nearestRbtNode (d : Side) (fuel : ℕ) (s : Rbt) (root : Addr) : Option (Option Addr) := do
  let n ← s.nodes root
  match n.child d with
  | none => some none
  | some a => (descend d.other fuel s a).map some

/-- `bf_get_successor_rbt_node`. -/
def getSuccessorRbtNode : ℕ → Rbt → Addr → Option (Option Addr) := nearestRbtNode .right

/-- `bf_get_predecessor_rbt_node`. -/
def getPredecessorRbtNode : ℕ → Rbt → Addr → Option (Option Addr) := nearestRbtNode .left

/-- `bf_get_rbt_node_direction`. -/
def getRbtNodeDirection (s : Rbt) (root : Addr) : Option NodeDirection := do
  let n ← s.nodes root
  match n.parent with
  | none => some .root
  | some p => do
    let parent ← s.nodes p
    if parent.key < n.key then some (.child .right)
    else if ← s.hasKey parent.right n.key then some (.child .right)
    else some (.child .left)

/-- `bf_get_rbt_neigh_color`. -/
def getRbtNeighColor (s : Rbt) (root : Addr) : Option Color := do
  let n ← s.nodes root
  match n.parent with
  | none => some .black
  | some p => do
    let parent ← s.nodes p
    if (← s.hasKey parent.right n.key) || decide (parent.key < n.key) then
      s.colorOf parent.left
    else if (← s.hasKey parent.left n.key) || decide (n.key < parent.key) then
      s.colorOf parent.right
    else some .black

/-- `bf_get_neighbor_rbt_node`. -/
def getNeighborRbtNode (s : Rbt) (root : Addr) : Option (Option Addr) := do
  let n ← s.nodes root
  match n.parent with
  | none => some none
  | some p => do
    let parent ← s.nodes p
    if (← s.hasKey parent.right n.key) || decide (parent.key < n.key) then some parent.left
    else if (← s.hasKey parent.left n.key) || decide (n.key < parent.key) then some parent.right
    else some none

/-! ## Insertion -/

mutual

/-- `bf_color_fix_rbt_nodes`. -/
def colorFixRbtNodes : (fuel : ℕ) → Rbt → Addr → Option Rbt
  | 0, _, _ => none
  | fuel + 1, s, root => do
    let n ← s.nodes root
    if n.color = .black then some s
    else do
      let p ← n.parent
      let parent ← s.nodes p
      let sibling ← (if parent.key < n.key then parent.left else parent.right)
      let s ← s.setColor sibling .black
      let s ← s.setColor root .black
      match parent.parent with
      | none => s.setColor p .black
      | some g => do
        let s ← s.setColor p .red
        balanceRbtPostInsertion fuel s g n.key

/-- `bf_balance_rbt_post_insertion`. -/
def balanceRbtPostInsertion : (fuel : ℕ) → Rbt → Addr → Key → Option Rbt
  | 0, _, _, _ => none
  | fuel + 1, s, root, key => do
    let n ← s.nodes root
    if n.color = .red then do
      let neighColor ← s.getRbtNeighColor root
      if neighColor = .red then colorFixRbtNodes fuel s root
      else (s.performRotation root key).map Prod.fst
    else some s

end

/-- The `while` loop of `bf_insert_rbt_entry`: `root` and `prev` where it ends. -/
def insertLoop : (fuel : ℕ) → Rbt → Key → (root prev : Option Addr) →
    Option (Option Addr × Option Addr)
  | 0, _, _, _, _ => none
  | _ + 1, _, _, none, prev => some (none, prev)
  | fuel + 1, s, key, some root, _ => do
    let n ← s.nodes root
    if n.key < key then insertLoop fuel s key n.right (some root)
    else if key < n.key then insertLoop fuel s key n.left (some root)
    else some (some root, some root)

/-- `bf_insert_rbt_entry`; `mem` is what `bf_sys_calloc` returns if it is called. -/
def insertRbtEntry (fuel : ℕ) (mem : Option Addr) (s : Rbt) (root : Option Addr) (key : Key) :
    Option (Rbt × Option Addr) :=
  match root with
  | none =>
    match s.createRbtNode mem key none with
    | (s, none) => some (s, none)
    | (s, some newNode) => do
      let s ← s.setColor newNode .black
      some ({ s with head := some newNode }, some newNode)
  | some root => do
    let (root, prev) ← insertLoop fuel s key (some root) (some root)
    let root ← (if root = none then prev else root)
    let n ← s.nodes root
    if n.key = key then some (s, some root)
    else do
      let d : Side := if n.key < key then .right else .left
      let (s, resNode) := s.createRbtNode mem key (some root)
      let s ← s.modify root fun n => n.setChild d resNode
      match resNode with
      | none => some (s, none)
      | some resNode => do
        let s ← balanceRbtPostInsertion fuel s root key
        some (s, some resNode)

/-! ## Deletion -/

/-- The first loop of `bf_bst_node_deletion`. -/
def searchLoop : (fuel : ℕ) → Rbt → Key → Option Addr → Option (Option Addr)
  | 0, _, _, _ => none
  | _ + 1, _, _, none => some none
  | fuel + 1, s, key, some root => do
    let n ← s.nodes root
    if n.key = key then some (some root)
    else if n.key < key then searchLoop fuel s key n.right
    else searchLoop fuel s key n.left

/-- The second loop of `bf_bst_node_deletion`: the leaf to delete and its colour. -/
def replaceLoop : (fuel : ℕ) → Rbt → Addr → Option (Rbt × Addr × Color)
  | 0, _, _ => none
  | fuel + 1, s, root => do
    let n ← s.nodes root
    if n.right = none ∧ n.left = none then some (s, root, n.color)
    else do
      let successor ← s.getSuccessorRbtNode fuel root
      let replacement ←
        (if successor = none then s.getPredecessorRbtNode fuel root else some successor)
      let replacement ← replacement
      let r ← s.nodes replacement
      let s ← s.modify root fun n => { n with key := r.key, data := r.data }
      replaceLoop fuel s replacement

/-- `bf_bst_node_deletion`: the node to delete and `*color`, or `none` for NULL. -/
def bstNodeDeletion (fuel : ℕ) (s : Rbt) (key : Key) : Option (Rbt × Option (Addr × Color)) := do
  match ← searchLoop fuel s key s.head with
  | none => some (s, none)
  | some root => do
    let (s, leaf, color) ← replaceLoop fuel s root
    some (s, some (leaf, color))

/-- A pass of the loop of `bf_balance_rbt_post_deletion`: the state, `node` and `imbalance_tree`
    after it. -/
def balanceStep (s : Rbt) (node : Addr) : Option (Rbt × Addr × Bool) := do
  let n ← s.nodes node
  match n.parent with
  | none => some (s, node, false)
  | some p => do
    let neighNode ← s.getNeighborRbtNode node
    let nodeDir ← s.getRbtNodeDirection node
    let neighColor ← s.colorOf neighNode
    if neighColor = .black then do
      let (rightColor, leftColor) ← (match neighNode with
        | none => some (.black, .black)
        | some w => do
          let neigh ← s.nodes w
          let rightColor ← s.colorOf neigh.right
          let leftColor ← s.colorOf neigh.left
          some (rightColor, leftColor))
      if rightColor = .black ∧ leftColor = .black then do
        let s ← (match neighNode with
          | none => some s
          | some w => s.setColor w .red)
        let parent ← s.nodes p
        if parent.color = .red then do
          let s ← s.setColor p .black
          some (s, node, false)
        else some (s, p, true)
      else do
        let w ← neighNode
        if nodeDir = .child .left ∧ rightColor = .red then do
          let (s, _) ← s.leftRotateRbtNode p
          let neigh ← s.nodes w
          let s ← s.setColor (← neigh.right) .black
          some (s, node, false)
        else if nodeDir = .child .right ∧ leftColor = .red then do
          let (s, _) ← s.rightRotateRbtNode p
          let neigh ← s.nodes w
          let s ← s.setColor (← neigh.left) .black
          some (s, node, false)
        else if nodeDir = .child .left ∧ rightColor = .black ∧ leftColor = .red then do
          let (s, _) ← s.rightRotateRbtNode w
          some (s, node, true)
        else if nodeDir = .child .right ∧ leftColor = .black ∧ rightColor = .red then do
          let (s, _) ← s.leftRotateRbtNode w
          some (s, node, true)
        else some (s, node, true)
    else do
      let (s, _) ← (if nodeDir = .child .right then s.rightRotateRbtNode p
        else s.leftRotateRbtNode p)
      some (s, node, true)

/-- The loop of `bf_balance_rbt_post_deletion`. -/
def balanceLoop : (fuel : ℕ) → Rbt → Addr → Option Rbt
  | 0, _, _ => none
  | fuel + 1, s, node => do
    let (s, node, imbalanceTree) ← s.balanceStep node
    if imbalanceTree then balanceLoop fuel s node else some s

/-- `bf_balance_rbt_post_deletion`. -/
def balanceRbtPostDeletion (fuel : ℕ) (s : Rbt) (node : Addr) : Option Rbt := do
  let s ← balanceLoop fuel s node
  let head ← s.head
  let n ← s.nodes head
  if n.color = .red then s.setColor head .black else some s

/-- `bf_remove_rbt_entry`. -/
def removeRbtEntry (fuel : ℕ) (s : Rbt) (key : Key) : Option (Rbt × Sts) := do
  match ← bstNodeDeletion fuel s key with
  | (s, none) => some (s, .noKey)
  | (s, some (resNode, color)) => do
    let s ← (if color = .black then balanceRbtPostDeletion fuel s resNode else some s)
    let n ← s.nodes resNode
    let s ← (match n.parent with
      | none => some { s with head := none }
      | some p => do
        let childDir ← s.getRbtNodeDirection resNode
        if childDir = .child .left then s.modify p fun n => n.setChild .left none
        else s.modify p fun n => n.setChild .right none)
    some (s.free resNode, .ok)

/-! ## Ordered lookups -/

/-- `key` lies on side `d` of the key `k`. -/
def OnSide (d : Side) (key k : Key) : Prop :=
  match d with
  | .left => key < k
  | .right => k < key

instance (d : Side) (key k : Key) : Decidable (OnSide d key k) :=
  match d with
  | .left => inferInstanceAs (Decidable (key < k))
  | .right => inferInstanceAs (Decidable (k < key))

/-- The loops of `bf_get_lower_bound` and `bf_get_upper_bound`: a node that `key` does not lie on side
    `d` of is the bound so far. -/
def boundLoop (d : Side) : (fuel : ℕ) → Rbt → Key → (root bound : Option Addr) →
    Option (Option Addr)
  | 0, _, _, _, _ => none
  | _ + 1, _, _, none, bound => some bound
  | fuel + 1, s, key, some root, bound => do
    let n ← s.nodes root
    if n.key = key then some (some root)
    else if OnSide d key n.key then boundLoop d fuel s key (n.child d) bound
    else boundLoop d fuel s key (n.child d.other) (some root)

/-- `bf_get_lower_bound`. -/
def getLowerBound (fuel : ℕ) (s : Rbt) (key : Key) (rbtHead : Option Addr) : Option (Option Addr) :=
  boundLoop .left fuel s key rbtHead none

/-- `bf_get_upper_bound`. -/
def getUpperBound (fuel : ℕ) (s : Rbt) (key : Key) (rbtHead : Option Addr) : Option (Option Addr) :=
  boundLoop .right fuel s key rbtHead none

/-- The outermost node on side `d`. -/
def outermostKeyNode (d : Side) (fuel : ℕ) (s : Rbt) (rbtHead : Option Addr) :
    Option (Option Addr) :=
  match rbtHead with
  | none => some none
  | some a => (descend d fuel s a).map some

/-- `bf_get_highest_key_node`. -/
def getHighestKeyNode : ℕ → Rbt → Option Addr → Option (Option Addr) := outermostKeyNode .right

/-- `bf_get_lowest_key_node`. -/
def getLowestKeyNode : ℕ → Rbt → Option Addr → Option (Option Addr) := outermostKeyNode .left

end Rbt
