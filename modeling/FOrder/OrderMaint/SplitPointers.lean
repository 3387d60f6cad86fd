import FOrder.Lib.Store
import FOrder.OrderMaint.Tree

/-!
# `OrderMaint.SplitPointers` — `split` on the pointers

`blist_split.c`, `insert_internal` and `bl_verify` on the nodes, lists and leaves as they are in memory. `none` is a
failed assertion or the use of a null or dangling pointer. `malloc` always finds room; the fields of a leaf that
`split` neither reads nor writes are left out.
-/

namespace FOrder.OrderMaint.Pointers

/-- The address of a list. -/
abbrev ListName := Nat

/-- `bl_node`. -/
structure NodeCell where
  label : Nat
  next : Option Name
  prev : Option Name
  list : Option ListName
  inUse : Int
  activeInsert : Int
  lastInsertId : Int
  deriving DecidableEq

/-- `blist`. -/
structure BlistCell where
  head : Option Name
  tail : Option Name
  above : Option TlName
  heavy : Bool
  deriving DecidableEq

/-- The union of `below` and `split_nodes`. -/
inductive Under where
  | below (list : ListName)
  | splitNodes (n : TlName)
  deriving DecidableEq

/-- A leaf: `tl_node` without `label`, `parent` and `needs_rebalance`. -/
structure LeafCell where
  level : Nat
  numLeaves : Nat
  prev : Option TlName
  next : Option TlName
  under : Under
  deriving DecidableEq

structure Memory where
  nodes : Store NodeCell
  lists : Store BlistCell
  leaves : Store LeafCell

/-- `assert`. -/
def check (c : Prop) [Decidable c] : Option Unit :=
  if c then some () else none

/-! ## Writing a field -/

def Memory.setNode (m : Memory) (n : Name) (f : NodeCell → NodeCell) : Option Memory := do
  let x ← m.nodes.get n
  let nodes ← m.nodes.put n (f x)
  some { m with nodes := nodes }

def Memory.setList (m : Memory) (l : ListName) (f : BlistCell → BlistCell) : Option Memory := do
  let x ← m.lists.get l
  let lists ← m.lists.put l (f x)
  some { m with lists := lists }

def Memory.setLeaf (m : Memory) (n : TlName) (f : LeafCell → LeafCell) : Option Memory := do
  let x ← m.leaves.get n
  let leaves ← m.leaves.put n (f x)
  some { m with leaves := leaves }

/-! ## The functions -/

/-- `insert_internal` for the first node of a list. -/
def insertFirst (m : Memory) (self : ListName) (n : Name) : Option Memory := do
  let m ← m.setList self fun l => { l with head := some n, tail := some n }
  m.setNode n fun x => { x with next := none, prev := none, label := 0 }

/-- `insert_internal` behind `base`. -/
def insertAfter (m : Memory) (self : ListName) (base n : Name) : Option Memory := do
  let x ← m.nodes.get n
  let b ← m.nodes.get base
  check (b.label < x.label)
  let l ← m.lists.get self
  let m ← (if l.tail = some base then do
      let m ← m.setList self fun l => { l with tail := some n }
      m.setNode n fun x => { x with next := none }
    else do
      let m ← m.setNode n fun x => { x with next := b.next }
      let b ← m.nodes.get base
      let next ← b.next
      m.setNode next fun x => { x with prev := some n })
  let m ← m.setNode base fun x => { x with next := some n }
  m.setNode n fun x => { x with prev := some base }

/-- `insert_internal`. -/
def insertInternal (m : Memory) (self : ListName) (base : Option Name) (n : Name) : Option Memory := do
  let m ← (match base with
    | none => insertFirst m self n
    | some base => insertAfter m self base n)
  m.setNode n fun x => { x with list := some self }

/-- The inner loop: at most `k` more nodes go into the list, from `current_node` on. -/
def fill (m : Memory) (list : ListName) : Nat → Option Name → Nat → Option (Memory × Option Name)
  | _, none, _ => some (m, none)
  | 0, some current, _ => some (m, some current)
  | k + 1, some current, label => do
      let next := (← m.nodes.get current).next
      let m ← m.setNode current fun x => { x with label := label }
      let x ← m.nodes.get current
      let m ← insertInternal m list x.prev current
      fill m list k next ((label + nodeInterval) % 2 ^ 64)

/-- One round of the outer loop: the new leaf, the rest of the nodes. -/
def splitOne (m : Memory) (above : TlName) (current : Name) (prev : Option TlName) :
    Option (Memory × TlName × Option Name) := do
  let n := m.leaves.next
  let list := m.lists.next
  let m : Memory := { m with leaves := m.leaves.alloc ⟨maxLevel, 1, prev, none, .below list⟩ }
  let m ← (match prev with
    | some prev => m.setLeaf prev fun x => { x with next := some n }
    | none => m.setLeaf above fun x => { x with under := .splitNodes n })
  let m : Memory := { m with lists := m.lists.alloc ⟨none, none, some n, false⟩ }
  let m ← m.setNode current fun x => { x with prev := none }
  let (m, current) ← fill m list sublistSize (some current) 0
  some (m, n, current)

/-- The outer loop. -/
def splitLoop (above : TlName) : Nat → Memory → Option Name → Option TlName → Nat → Option (Memory × Nat)
  | _, m, none, _, numLists => some (m, numLists)
  | 0, _, some _, _, _ => none
  | fuel + 1, m, some current, prev, numLists => do
      let (m, n, current) ← splitOne m above current prev
      splitLoop above fuel m current (some n) (numLists + 1)

/-- `split`; the result is the number of lists. -/
def split (fuel : Nat) (m : Memory) (self : ListName) : Option (Memory × Nat) := do
  let l ← m.lists.get self
  let above ← l.above
  let t ← m.leaves.get above
  check (t.under = .below self)
  check (l.head ≠ none)
  let (m, numLists) ← splitLoop above fuel m l.head none 0
  let m ← m.setList self fun l => { l with head := none, tail := none }
  let lists ← m.lists.free self
  some ({ m with lists := lists }, numLists)

/-- The fields that are only there for debugging. -/
def NodeCell.quiet (x : NodeCell) : Prop := x.inUse = 42 ∧ x.activeInsert = 0 ∧ x.lastInsertId = -1

instance (x : NodeCell) : Decidable x.quiet := inferInstanceAs (Decidable (_ ∧ _ ∧ _))

/-- The loop of `bl_verify`. -/
def verifyLoop (m : Memory) (self : ListName) (tail : Option Name) : Nat → Name → Option Unit
  | 0, _ => none
  | fuel + 1, n => do
      let x ← m.nodes.get n
      check x.quiet
      match x.next with
      | some next => do
          check (next ≠ n)
          let y ← m.nodes.get next
          check (x.label < y.label)
          check (x.list = some self)
          check (y.prev = some n)
          verifyLoop m self tail fuel next
      | none => do
          check (x.list = some self)
          check (tail = some n)

/-- `bl_verify`. -/
def verify (fuel : Nat) (m : Memory) (self : ListName) : Option Unit := do
  let l ← m.lists.get self
  match l.head with
  | none => do
      check (l.tail = none)
      check (l.heavy = false)
  | some n => do
      let x ← m.nodes.get n
      check (x.prev = none)
      verifyLoop m self l.tail fuel n

/-! ## What is in memory -/

def headName (bs : List BlNode) : Option Name := bs.head?.map BlNode.name

def lastName (bs : List BlNode) : Option Name := bs.getLast?.map BlNode.name

/-- The nodes `bs` are linked to each other; `prev` is before them and `next` behind them. -/
def Linked (s : Store NodeCell) (l : ListName) : Option Name → List BlNode → Option Name → Prop
  | _, [], _ => True
  | prev, b :: bs, next =>
      (∃ x, s.get b.name = some x ∧ x.label = b.label ∧ x.prev = prev ∧ x.next = (headName bs).or next ∧
        x.list = some l) ∧ Linked s l (some b.name) bs next

/-- The list at `l` is `b`. -/
structure IsBlist (m : Memory) (l : ListName) (b : Blist) : Prop where
  list : m.lists.get l = some ⟨headName b.nodes, lastName b.nodes, some b.above, b.heavy⟩
  linked : Linked m.nodes l none b.nodes none

end FOrder.OrderMaint.Pointers
