import FOrder.Rdtool.NodeList

/-!
# `Rdtool.Hash` — the hash tables of the predecessor lists in memory

`list.cpp`: a list is made in the memory of its worker: first `table_length` elements, then the overflow buffer,
and the groups that had to be merged in the array of nodes. The elements are linked in the order in which they are
stored. An element is an index here, counted from `hash.table`; a walk reads the elements of its own list only. The
indices of the worker's arrays that are written to are kept in a log.

Numbers are `Nat`s and do not wrap around. In the code the lengths and totals of a table are `int`s. The arrays hold
`20000000 * 16` nodes and twice as many elements, shared by the workers, and the elements of a table are written to the
array, so the total of a table is at most `640000000`; two tables of one array have `t1 + t2` at most that, and
`(t1 + t2) * 2` stays below `2 ^ 31` as long as an array does not run out. An id is a `uint32_t`, for fewer than
`2 ^ 32` futures; the indices of the arrays are 64-bit numbers.
-/

namespace FOrder.Rdtool

/-- A `HashElement` with its `next`. -/
structure HashCell extends HashElement where
  next : Option Nat

/-- `Hash`: the elements from `table` on, `none` where `group` is null. -/
structure Hash where
  tableLength : Nat
  bufferLength : Nat
  total : Nat
  cells : List (Option HashCell)
  head : Option Nat

/-- `PrivateMemory`: how much of the worker's arrays is used. -/
structure PrivateMemory where
  current : Nat
  size : Nat
  currentH : Nat
  sizeH : Nat
  deriving DecidableEq

/-- The elements of a list that is being made; `written` are the indices of `p_memory.hash` written so far. -/
structure Table where
  base : Nat
  hash : Hash
  pre : Option Nat
  written : List Nat

/-- The list that is being made; `written` are the indices of `p_memory.mem` written so far. -/
structure Building where
  table : Table
  memory : PrivateMemory
  written : List Nat

namespace Hash

/-- The element at an index, if its `group` is not null. -/
def at? (h : Hash) (i : Nat) : Option HashCell := (h.cells[i]?).join

/-- `List::List()`. -/
def new : Hash := ⟨0, 0, 0, [], none⟩

/-- The elements behind the table. -/
def buffer (h : Hash) : List HashElement :=
  (h.cells.drop h.tableLength).filterMap fun c => c.map HashCell.toHashElement

/-- The lookup of `List::Search`: the slot, then a binary search behind the table. -/
def findGroup (h : Hash) (futureId : Nat) : Option (List Node) :=
  match h.at? (futureId % h.tableLength) with
  | some c =>
      if c.futureId = futureId then some c.group
      else (binSearch (fun e => compare e.futureId futureId) h.buffer (h.bufferLength + 1) 0
        h.bufferLength).map HashElement.group
  | none => none

end Hash

/-! ## Storing an element -/

/-- The table with null groups. -/
def Table.empty (base tableLength : Nat) : Table where
  base := base
  hash := ⟨tableLength, 0, 0, List.replicate tableLength none, none⟩
  pre := none
  written := List.range' base tableLength

/-- Whether the slot of an id is taken. -/
def Hash.taken (h : Hash) (futureId : Nat) : Bool := (h.at? (futureId % h.tableLength)).isSome

/-- `addr`: the slot, or the next place behind the table when the slot is taken. -/
def Hash.addr (h : Hash) (futureId : Nat) : Nat :=
  if h.taken futureId then h.tableLength + h.bufferLength else futureId % h.tableLength

/-- The element is written to its place. -/
def Hash.store (h : Hash) (e : HashElement) : Hash :=
  if h.taken e.futureId then
    { h with bufferLength := h.bufferLength + 1, cells := h.cells ++ [some ⟨e, none⟩] }
  else { h with cells := h.cells.set (e.futureId % h.tableLength) (some ⟨e, none⟩) }

/-- `pre->next = &(hash.table[addr])`, or the head when there is no `pre`. -/
def Hash.linkTo (h : Hash) (pre : Option Nat) (addr : Nat) : Hash :=
  match pre with
  | some i => { h with cells := h.cells.modify i fun c => c.map fun c => { c with next := some addr } }
  | none => { h with head := some addr }

/-- The end of the body of each loop. -/
def Table.link (t : Table) (e : HashElement) : Table where
  base := t.base
  hash := { (t.hash.store e).linkTo t.pre (t.hash.addr e.futureId) with total := t.hash.total + 1 }
  pre := some (t.hash.addr e.futureId)
  written := t.written ++ [t.base + t.hash.addr e.futureId]

def Building.link (b : Building) (e : HashElement) : Building := { b with table := b.table.link e }

/-- A group is written to the array of nodes. -/
def Building.alloc (b : Building) (group : List Node) : Building where
  table := b.table
  memory := { b.memory with current := b.memory.current + group.length }
  written := b.written ++ List.range' b.memory.current group.length

/-- The element is used up at the end. -/
def Building.finish (b : Building) : Building :=
  { b with memory := { b.memory with
    currentH := b.memory.currentH + b.table.hash.tableLength + b.table.hash.bufferLength } }

/-! ## The loops -/

section Prec

variable (precE precH : OmNode → OmNode → Bool)

/-- The first loop, as long as both lists have elements. -/
def mergeLoop (h₁ h₂ : Hash) : Nat → Option Nat → Option Nat → Building →
    Option (Building × Option Nat × Option Nat)
  | fuel + 1, some i, some j, b => do
      let p₁ ← h₁.at? i
      let p₂ ← h₂.at? j
      if p₁.futureId < p₂.futureId then
        mergeLoop h₁ h₂ fuel p₁.next (some j) (b.link p₁.toHashElement)
      else if p₁.futureId = p₂.futureId then
        let e := NodeList.joinGroups precE precH p₁.toHashElement p₂.toHashElement
        mergeLoop h₁ h₂ fuel p₁.next p₂.next ((b.alloc e.group).link e)
      else mergeLoop h₁ h₂ fuel (some i) p₂.next (b.link p₂.toHashElement)
  | 0, some _, some _, _ => none
  | _, p₁, none, b => some (b, p₁, none)
  | _, none, p₂, b => some (b, none, p₂)

/-- The second and the third loop. -/
def restLoop (h : Hash) : Nat → Option Nat → Building → Option Building
  | _, none, b => some b
  | 0, some _, _ => none
  | fuel + 1, some i, b => do
      let p ← h.at? i
      restLoop h fuel p.next (b.link p.toHashElement)

/-- `assert`. -/
def require (c : Prop) [Decidable c] : Option Unit :=
  if c then some () else none

/-- `List::List(l1, l2)` and `this->Merge(ori)`: the list that is made does not share memory with the old ones. When
both lists are empty the head is not written: `Merge` keeps the null head of an empty list, and the constructor is
only called with the list of a finished future, which is not empty. -/
def Hash.union (fuel : Nat) (memory : PrivateMemory) (l₁ l₂ : Hash) : Option Building := do
  require (memory.current < memory.size)
  require (memory.currentH < memory.sizeH)
  let tableLength := (l₁.total + l₂.total) * 2
  -- `id % table_length` is a fault when the table is empty
  require (tableLength ≠ 0 ∨ (l₁.head = none ∧ l₂.head = none))
  let (b, p₁, p₂) ← mergeLoop precE precH l₁ l₂ fuel l₁.head l₂.head
    ⟨Table.empty memory.currentH tableLength, memory, []⟩
  let b ← restLoop l₁ fuel p₁ b
  let b ← restLoop l₂ fuel p₂ b
  some b.finish

/-- The loop of `List(l, n, future_id)`; the result says whether the node is in. -/
def insertLoop (h : Hash) (n : Node) (futureId : Nat) : Nat → Option Nat → Bool → Building →
    Option (Building × Bool)
  | _, none, inserted, b => some (b, inserted)
  | 0, some _, _, _ => none
  | fuel + 1, some i, inserted, b => do
      let p ← h.at? i
      if p.futureId < futureId then
        insertLoop h n futureId fuel p.next inserted (b.link p.toHashElement)
      else if p.futureId = futureId then
        let group := NodeList.mergeGroupSingle precE precH n p.group
        insertLoop h n futureId fuel p.next true ((b.alloc group).link ⟨p.futureId, group⟩)
      else if inserted then insertLoop h n futureId fuel p.next inserted (b.link p.toHashElement)
      else insertLoop h n futureId fuel (some i) true ((b.alloc [n]).link ⟨futureId, [n]⟩)

/-- `List::List(l, n, future_id)`; only the elements are asserted to have room. -/
def Hash.insert (fuel : Nat) (memory : PrivateMemory) (l : Hash) (n : Node) (futureId : Nat) : Option Building := do
  require (memory.currentH < memory.sizeH)
  let (b, inserted) ← insertLoop precE precH l n futureId fuel l.head false
    ⟨Table.empty memory.currentH ((l.total + 1) * 2), memory, []⟩
  let b := if inserted then b else (b.alloc [n]).link ⟨futureId, [n]⟩
  some b.finish

end Prec

/-! ## What a list is -/

/-- A walk along `next`, with the indices and the elements it meets. -/
def Walk (h : Hash) : Option Nat → List (Nat × HashElement) → Prop
  | p, [] => p = none
  | p, (i, e) :: w => p = some i ∧ ∃ c, h.at? i = some c ∧ c.toHashElement = e ∧ Walk h c.next w

/-- A well-formed list; `w` is the walk from `hash.head`. -/
structure Hash.WellFormedBy (h : Hash) (w : List (Nat × HashElement)) : Prop where
  walk : Walk h h.head w
  increasing : w.Pairwise fun x y => x.2.futureId < y.2.futureId
  /-- The walk visits exactly the elements whose group is not null. -/
  exact : ∀ i, (h.at? i).isSome ↔ i ∈ w.map Prod.fst
  total : h.total = w.length
  length : h.cells.length = h.tableLength + h.bufferLength
  filled : ∀ i, h.tableLength ≤ i → i < h.tableLength + h.bufferLength → (h.at? i).isSome
  slot : ∀ i c, h.at? i = some c → i < h.tableLength → i = c.futureId % h.tableLength
  /-- An id is in the buffer only if its slot holds another id. -/
  clash : ∀ i c, h.at? i = some c → h.tableLength ≤ i →
    ∃ c', h.at? (c.futureId % h.tableLength) = some c' ∧ c'.futureId ≠ c.futureId
  sorted : h.buffer.Pairwise fun e e' => e.futureId < e'.futureId

def Hash.WellFormed (h : Hash) : Prop := ∃ w, h.WellFormedBy w

/-- The list has `group` for the future. -/
def Hash.Has (h : Hash) (futureId : Nat) (group : List Node) : Prop :=
  ∃ i c, h.at? i = some c ∧ c.futureId = futureId ∧ c.group = group

end FOrder.Rdtool
