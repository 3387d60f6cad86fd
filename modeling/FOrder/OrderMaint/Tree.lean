import FOrder.OrderMaint.Blist
import Mathlib.Algebra.Order.Field.Rat
import Mathlib.Tactic.Linarith

/-!
# `OrderMaint.Tree` — the tree over the lists

`om.c` and `om_relabel.c`: the leaves of a binary tree carry the lists, and a leaf's 64-bit label is the left end
of the range of labels its place in the tree stands for. A relabel splits the heavy leaves and rebuilds the
subtrees that have become too dense.

Parent pointers are data: where the code follows one, the model stops (`none`, as for a failed assertion) unless
it leads to the node above. `shl` is what `1 << h` yields for `h > 30`, which C leaves open. New nodes get the
next unused address.

An operation fails for one of three reasons: an assertion of the source, a pointer that does not lead to the node
above, or a structure that is full. A refused insert is none of these: it is a result (`some none`). The modules
from `OrderMaint.Shape` on say what the operations keep, and `OrderMaint.Runs` that they do not fail in a run.
-/

namespace FOrder.OrderMaint

def maxLevel : Nat := 64

/-- The fields of a `tl_node` that are not unions. -/
structure TlNode where
  name : TlName
  parent : Option TlName
  label : Nat
  level : Nat
  numLeaves : Nat
  needsRebalance : Bool
  deriving DecidableEq

/-- A leaf with the list below it. -/
structure Leaf where
  node : TlNode
  list : Blist
  deriving DecidableEq

/-- The union of `below` and `split_nodes`. -/
inductive Below where
  | list (b : Blist)
  | splitNodes (ns : List Leaf)
  deriving DecidableEq

inductive Tree where
  | leaf (n : TlNode) (below : Below)
  | node (n : TlNode) (left right : Tree)
  deriving DecidableEq

/-- The `om`; `fresh` is the next unused address. -/
structure Om where
  root : Tree
  height : Nat
  fresh : TlName
  deriving DecidableEq

def Tree.root : Tree → TlNode
  | .leaf n _ => n
  | .node n _ _ => n

/-- The leaves from left to right, those a split leaf is to be replaced by in its place. -/
def Tree.leaves : Tree → List Leaf
  | .leaf n (.list b) => [⟨n, b⟩]
  | .leaf _ (.splitNodes ns) => ns
  | .node _ l r => l.leaves ++ r.leaves

/-- The lists from left to right. -/
def Tree.lists (t : Tree) : List Blist := t.leaves.map Leaf.list

/-- The nodes of all lists from left to right. -/
def Tree.names (t : Tree) : List Name := t.lists.flatMap Blist.names

/-- The addresses of the leaves that have not been split. -/
def Tree.leafNames : Tree → List TlName
  | .leaf n (.list _) => [n.name]
  | .leaf _ (.splitNodes _) => []
  | .node _ l r => l.leafNames ++ r.leafNames

/-! ## Creating and inserting -/

/-- `om_create`. -/
def create : Om where
  root := .leaf ⟨0, none, 0, maxLevel, 1, false⟩ (.list (.create 0))
  height := 0
  fresh := 1

/-- `om_insert_initial`. -/
def insertInitial (om : Om) (n : Name) : Option Om :=
  match om.root with
  | .leaf root (.list b) =>
      if root.numLeaves = 1 then do
        let b ← b.insertInitial n
        if b.above = root.name then some { om with root := .leaf root (.list b) } else none
      else none
  | _ => none

/-- The insert in the leaf of the base. -/
def Tree.insert (base n : Name) : Tree → Option (Option Tree)
  | .leaf t (.list b) =>
      if t.level = maxLevel ∧ b.above = t.name then
        (b.insert base n).map fun r => r.map fun b => .leaf t (.list b)
      else none
  | .leaf _ (.splitNodes _) => none
  | .node t l r =>
      if base ∈ l.names then (l.insert base n).map fun res => res.map fun l => .node t l r
      else (r.insert base n).map fun res => res.map fun r => .node t l r

/-- `om_insert`: the new node `n`, or `some none` when there is no room for it. -/
def insert (om : Om) (base n : Name) : Option (Option Om) :=
  (om.root.insert base n).map fun r => r.map fun root => { om with root := root }

/-- The leaf and the place of a node. -/
def locate (om : Om) (x : Name) : Option (Leaf × BlNode) :=
  om.root.leaves.findSome? fun l => (l.list.nodes.find? fun b => b.name = x).map fun b => (l, b)

/-- `om_precedes`. -/
def precedes (om : Om) : Option Name → Option Name → Option Bool
  | none, _ => some true
  | some _, none => some false
  | some x, some y => do
      let (lx, bx) ← locate om x
      let (ly, by') ← locate om y
      if lx.list.above = ly.list.above then some (bx.label < by'.label)
      else some (lx.node.label < ly.node.label)

/-! ## Ranges and densities -/

/-- `range_left`; the shift to the right is arithmetic. -/
def rangeLeft (n : TlNode) : Nat :=
  if n.parent = none then 0
  else ((BitVec.allOnes 64 <<< (maxLevel - 1)).sshiftRight (n.level - 1) &&& BitVec.ofNat 64 n.label).toNat

section

variable (shl : Nat → Nat)

/-- `capacity`. -/
def capacity (n : TlNode) : Nat :=
  if n.level = 0 then maxLabel
  else if maxLevel - n.level ≤ 30 then 2 ^ (maxLevel - n.level)
  else shl (maxLevel - n.level)

def threshold (n : TlNode) (height : Nat) : ℚ := 3 / 4 + 1 / 4 * ((n.level : ℚ) / (height : ℚ))

/-- `too_heavy`: the density, `num_leaves` over the capacity, is at least the threshold. -/
def tooHeavy (n : TlNode) (height : Nat) : Bool :=
  n.needsRebalance && decide (threshold n height * (capacity shl n : ℚ) ≤ (n.numLeaves : ℚ))

/-! ## Rebuilding -/

/-- `build_array_of_leaves`; `size` is the distance of the indices. -/
def buildArray : Tree → Nat → Option (List Leaf)
  | .leaf n below, size =>
      if n.numLeaves = 1 then
        match below with
        | .list b => if size = 1 then some [⟨n, b⟩] else none
        | .splitNodes _ => none
      else
        match below with
        | .list _ => none
        | .splitNodes ns => if ns.length = size then some ns else none
  | .node _ l r, size => do
      let left ← buildArray l l.root.numLeaves
      let right ← buildArray r (size - l.root.numLeaves)
      some (left ++ right)

/-- The end of `rebuild` and the middle of `rebuild_recursive`: the left half of the array goes to the left half of
the range, and the rest to the right. -/
def rebuildHalves (build : List Leaf → Nat → Nat → TlName → Option (Tree × TlName)) (array : List Leaf)
    (llab rlab : Nat) (fresh : TlName) : Option (Tree × Tree × TlName) := do
  let mindex := array.length - array.length / 2
  let mlab := llab + ((rlab - llab) / 2 + 1) - 1
  let (left, fresh) ← build (array.take mindex) llab mlab fresh
  let (right, fresh) ← build (array.drop mindex) (mlab + 1) rlab fresh
  some (left, right, fresh)

/-- `rebuild_recursive`: the subtree of the array, and the next unused address. -/
def rebuildRecursive : Nat → TlNode → List Leaf → Nat → Nat → TlName → Option (Tree × TlName)
  | 0, _, _, _, _, _ => none
  | fuel + 1, parent, array, llab, rlab, fresh =>
      if llab ≤ rlab then
        match array with
        | [a] =>
            some (.leaf ⟨a.node.name, some parent.name, llab, maxLevel, 1, false⟩ (.list a.list), fresh)
        | array => do
            let n : TlNode := ⟨fresh, some parent.name, rlab, parent.level + 1, array.length, false⟩
            let (left, right, fresh) ← rebuildHalves (rebuildRecursive fuel n) array llab rlab (fresh + 1)
            if rlab % 2 = 1 then some (.node n left right, fresh) else none
      else none

/-- A leaf that becomes an internal node gets the level and the label of its place; `up` is the node above, and
whether the leaf is its right child. -/
def internalNode (up : Option (TlNode × Bool)) (n : TlNode) : TlNode :=
  match up with
  | some (p, isRight) =>
      { n with
        label := if isRight then p.label else (p.label - rangeLeft p) / 2 + rangeLeft p
        level := p.level + 1 }
  | none => { n with label := maxLabel, level := 0 }

/-- The root of a rebuilt subtree. -/
def Tree.rootNode (up : Option (TlNode × Bool)) : Tree → TlNode
  | .leaf n _ => internalNode up n
  | .node n _ _ => n

/-- `rebuild`. -/
def rebuild (up : Option (TlNode × Bool)) (t : Tree) (fresh : TlName) : Option (Tree × TlName) :=
  if t.root.parent = up.map fun p => p.1.name then do
    let array ← buildArray t t.root.numLeaves
    let n := t.rootNode up
    if n.label % 2 = 1 then
      let (left, right, fresh) ←
        rebuildHalves (rebuildRecursive array.length n) array (rangeLeft n) n.label fresh
      some (.node n left right, fresh)
    else none
  else none

/-- `rebalance`. -/
def rebalance (height : Nat) : Option (TlNode × Bool) → Tree → TlName → Option (Tree × TlName)
  | up, .leaf n below, fresh =>
      if n.needsRebalance then rebuild up (.leaf { n with needsRebalance := false } below) fresh
      else some (.leaf n below, fresh)
  | up, .node n l r, fresh =>
      if n.needsRebalance then
        let n := { n with needsRebalance := false }
        if n.numLeaves ≤ capacity shl n then
          if tooHeavy shl l.root height || tooHeavy shl r.root height then rebuild up (.node n l r) fresh
          else do
            let (l, fresh) ← rebalance height (some (n, false)) l fresh
            let (r, fresh) ← rebalance height (some (n, true)) r fresh
            some (.node n l r, fresh)
        else none
      else some (.node n l r, fresh)

/-! ## Relabelling -/

/-- `FAST_LOG2`. -/
def fastLog2 (x : Nat) : Nat := Nat.log2 x

/-- `FAST_LOG2_CEIL`. -/
def fastLog2Ceil (x : Nat) : Nat := if x - 2 ^ fastLog2 x ≠ 0 then fastLog2 x + 1 else fastLog2 x

/-- The new leaves of a split, each with its sublist. -/
def splitNodes : TlName → List (List BlNode) → List Leaf
  | _, [] => []
  | fresh, nodes :: rest =>
      ⟨⟨fresh, none, 0, maxLevel, 1, false⟩, ⟨fresh, false, nodes⟩⟩ :: splitNodes (fresh + 1) rest

/-- The body of the loop of `om_relabel` at the leaf itself: the leaf, the number of its sublists and the next
unused address. -/
def splitLeaf (n : TlNode) (b : Blist) (fresh : TlName) : Option (Tree × Nat × TlName) :=
  if n.level = maxLevel ∧ b.above = n.name ∧ b.nodes ≠ [] then do
    let subs ← sublists b.nodes.length b.nodes
    let k := subs.length
    if 1 < k then
      let n := { n with numLeaves := n.numLeaves + (k - 1), needsRebalance := true }
      some (.leaf n (.splitNodes (splitNodes fresh subs)), k, fresh + k)
    else
      match subs with
      | [nodes] =>
          let n := { n with needsRebalance := false }
          some (.leaf n (.list ⟨n.name, false, nodes⟩), k, fresh + k)
      | _ => none
  else none

/-- What the loop does at a node above the leaf. -/
def bump (k : Nat) (n : TlNode) : TlNode :=
  if 1 < k then { n with numLeaves := n.numLeaves + (k - 1), needsRebalance := true } else n

/-- The body of the loop: the leaf is split, and the nodes above it are updated. The result has the number of
sublists and the height counted on the way up. -/
def splitAt (name : TlName) : Tree → TlName → Option (Tree × Nat × Nat × TlName)
  | .leaf n (.list b), fresh =>
      if n.name = name then do
        let (t, k, fresh) ← splitLeaf n b fresh
        some (t, k, fastLog2Ceil k - 1 + 1, fresh)
      else none
  | .leaf _ (.splitNodes _), _ => none
  | .node n l r, fresh =>
      if name ∈ l.leafNames then do
        let (l', k, height, fresh) ← splitAt name l fresh
        if l.root.parent = some n.name then some (.node (bump k n) l' r, k, height + 1, fresh) else none
      else do
        let (r', k, height, fresh) ← splitAt name r fresh
        if r.root.parent = some n.name then some (.node (bump k n) l r', k, height + 1, fresh) else none

def splitHeavy (om : Om) (name : TlName) : Option Om := do
  let (root, k, height, fresh) ← splitAt name om.root om.fresh
  some ⟨root, if 1 < k ∧ om.height < height then height else om.height, fresh⟩

/-- `om_relabel`; `none` also when the structure is full. -/
def relabel (om : Om) (heavyLists : List TlName) : Option Om := do
  let oldSize := om.root.root.numLeaves
  let om ← heavyLists.foldlM splitHeavy om
  if om.root.root.numLeaves < oldSize then none
  else do
    let (root, fresh) ← rebalance shl om.height none om.root om.fresh
    some { om with root := root, fresh := fresh }

end

end FOrder.OrderMaint
