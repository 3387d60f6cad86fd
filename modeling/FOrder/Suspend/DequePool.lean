import FOrder.Lib.Run
import Mathlib.Logic.Function.Basic
import Mathlib.Tactic.Common

/-!
# `Suspend.DequePool` — the deque pools of the workers

`deque_pool.c`: every worker has a pool of suspended and a pool of resumable deques. A pool is an array that
grows by doubling; a deque knows its index in the array and the worker of its pool, and is taken out by moving
the last deque of the array into its place. Each operation runs under the lock of the worker whose pool it
changes, so that a whole operation is one step. What `malloc` leaves in a new array is `none`.

Sizes and capacities are `size_t` in the code, and a deque keeps its index as an `int`, as `deque_pool_remove` does with
that of the last deque. Here they are `Nat` and `Int`, which agrees with the code for pools of fewer than `2 ^ 31` deques.
-/

namespace FOrder.Suspend

/-! ## The runtime -/

/-- Which of the two pools of a worker. -/
inductive PoolKind where
  | suspended
  | resumable
  deriving DecidableEq

/-- A `deque_pool *`: the pools are fields of the workers' local states. -/
abbrev PoolPtr (W : Type) := W × PoolKind

structure DequePool (D : Type) where
  array : List (Option D)
  size : Nat
  capacity : Nat

/-- The fields of a `deque` that the pools use. -/
structure Deque (W : Type) where
  self : Int
  worker : Option W
  resumable : Bool

def activeDequeIndex : Int := -1

def invalidDequeIndex : Int := -2

/-- `g->ltqsize`, the first capacity of every pool. -/
def ltqsize : Nat := 1024

structure Runtime (W D : Type) where
  pool : PoolPtr W → DequePool D
  deque : D → Deque W

variable {W D : Type}

/-- `CILK_ASSERT`: a run whose assertion fails stops. -/
def cilkAssert (c : Prop) [Decidable c] : Option Unit :=
  if c then some () else none

theorem cilkAssert_pos {c : Prop} [Decidable c] (h : c) : cilkAssert c = some () := if_pos h

/-- The pool that a deque may be added to. -/
def Deque.kind (x : Deque W) : PoolKind :=
  if x.resumable then .resumable else .suspended

/-- `resize`: the new array holds the old deques and a `NULL` behind them. -/
def DequePool.resize (p : DequePool D) (cap : Nat) : Option (DequePool D) :=
  -- `new_array[p->size] = NULL` must stay inside the new array
  if p.size < cap then
    some { p with array := p.array.take p.size ++ List.replicate (cap - p.size) none, capacity := cap }
  else
    none

/-- A full pool doubles before a deque is added. -/
def DequePool.grow (p : DequePool D) : Option (DequePool D) :=
  if p.size = p.capacity then p.resize (2 * p.capacity) else some p

/-- `deque_pool_init`. -/
def dequePoolInit (ltqsize : Nat) : Option (DequePool D) :=
  DequePool.resize ⟨[], 0, 0⟩ ltqsize

/-- `deque_pool_validate`: no slot in use is `NULL`. -/
def DequePool.validate (p : DequePool D) : Option Unit :=
  cilkAssert ((p.array.take p.size).all Option.isSome = true)

section

variable [DecidableEq W] [DecidableEq D]

def Runtime.setDeque (s : Runtime W D) (d : D) (x : Deque W) : Runtime W D :=
  { s with deque := Function.update s.deque d x }

def Runtime.setPool (s : Runtime W D) (p : PoolPtr W) (q : DequePool D) : Runtime W D :=
  { s with pool := Function.update s.pool p q }

/-- `deque_pool_add`. -/
def Runtime.dequePoolAdd (s : Runtime W D) (victim : W) (p : PoolPtr W) (d : D) : Option (Runtime W D) := do
  cilkAssert (p = (victim, (s.deque d).kind))
  let q ← (s.pool p).grow
  let s := s.setDeque d { s.deque d with self := q.size, worker := some victim }
  let q := { q with array := q.array.set q.size (some d), size := q.size + 1 }
  cilkAssert (q.size ≤ q.capacity)
  q.validate
  some (s.setPool p q)

/-- `deque_pool_remove`. -/
def Runtime.dequePoolRemove (s : Runtime W D) (p : PoolPtr W) (d : D) : Option (Runtime W D) := do
  let q := s.pool p
  let self := (s.deque d).self
  cilkAssert (0 ≤ self ∧ self < q.size)
  cilkAssert (q.array[self.toNat]? = some (some d))
  let last := q.size - 1
  let array := q.array.set self.toNat (q.array[last]?).join
  -- the deque at the end learns its new place; it is `d` itself when `d` is the last one
  let moved ← (array[last]?).join
  let s := s.setDeque moved { s.deque moved with self := self }
  let q := { q with array := array.set last none, size := last }
  let s := s.setDeque d { s.deque d with self := invalidDequeIndex }
  -- `deque_pool_validate(p, d->worker)` looks at the lock of the worker
  cilkAssert ((s.deque d).worker ≠ none)
  q.validate
  some ((s.setDeque d { s.deque d with worker := none }).setPool p q)

/-- `deque_mug`: the pool is the one that the flag of the deque names. -/
def Runtime.dequeMug (s : Runtime W D) (d : D) : Option (Runtime W D) := do
  let w ← (s.deque d).worker
  (s.pool (w, (s.deque d).kind)).validate
  s.dequePoolRemove (w, (s.deque d).kind) d

/-- `__cilkrts_make_resumable`; `victim` is the worker picked for a deque that is in no pool. -/
def Runtime.makeResumable (s : Runtime W D) (victim : W) (d : D) : Option (Runtime W D) := do
  cilkAssert ((s.deque d).resumable = false)
  match (s.deque d).worker with
  | some w =>
      let s ← s.dequePoolRemove (w, .suspended) d
      cilkAssert ((s.deque d).self = invalidDequeIndex)
      (s.setDeque d { s.deque d with resumable := true }).dequePoolAdd w (w, .resumable) d
  | none =>
      cilkAssert ((s.deque d).self = invalidDequeIndex)
      (s.setDeque d { s.deque d with resumable := true, worker := some victim }).dequePoolAdd victim
        (victim, .resumable) d

/-- `deque_switch`: the worker goes on with the deque. -/
def Runtime.dequeSwitch (s : Runtime W D) (w : W) (d : D) : Option (Runtime W D) := do
  cilkAssert ((s.deque d).worker = none)
  some (s.setDeque d { s.deque d with self := activeDequeIndex, worker := some w })

/-- What happens to the pools, and to the fields of a deque between two operations on them. -/
inductive PoolEvent (W D : Type) where
  | add (victim : W) (p : PoolPtr W) (d : D)
  | remove (p : PoolPtr W) (d : D)
  | mug (d : D)
  | makeResumable (victim : W) (d : D)
  /-- `deque_init` on a new deque, then `deque_switch`. -/
  | create (w : W) (d : D)
  | switch (w : W) (d : D)
  /-- The end of `deque_suspend` for a deque that goes into no pool. -/
  | park (d : D)
  /-- `d->resumable` is written. -/
  | mark (d : D) (resumable : Bool)

def Runtime.step (s : Runtime W D) : PoolEvent W D → Option (Runtime W D)
  | .add victim p d => s.dequePoolAdd victim p d
  | .remove p d => s.dequePoolRemove p d
  | .mug d => s.dequeMug d
  | .makeResumable victim d => s.makeResumable victim d
  | .create w d => (s.setDeque d ⟨0, none, false⟩).dequeSwitch w d
  | .switch w d => s.dequeSwitch w d
  | .park d => some (s.setDeque d { s.deque d with self := invalidDequeIndex, worker := none })
  | .mark d resumable => some (s.setDeque d { s.deque d with resumable := resumable })

end

/-! ## What the pools are for -/

/-- `d` is at index `i` of the pool. -/
def Runtime.Sits (s : Runtime W D) (p : PoolPtr W) (i : Nat) (d : D) : Prop :=
  i < (s.pool p).size ∧ (s.pool p).array[i]? = some (some d)

/-- The pool holds `d`. -/
def Runtime.Holds (s : Runtime W D) (p : PoolPtr W) (d : D) : Prop :=
  ∃ i, s.Sits p i d

/-- The deque is in no pool. -/
def Runtime.Free (s : Runtime W D) (d : D) : Prop :=
  ∀ p, ¬s.Holds p d

/-- No deque is lost and none is there twice. -/
structure Runtime.Kept (s : Runtime W D) : Prop where
  size_le : ∀ p, (s.pool p).size ≤ (s.pool p).capacity ∧ (s.pool p).capacity = (s.pool p).array.length
  filled : ∀ p i, i < (s.pool p).size → ∃ d, s.Sits p i d
  distinct : ∀ p i j d, s.Sits p i d → s.Sits p j d → i = j
  back : ∀ p d, s.Holds p d → ∃ i : Nat, (s.deque d).self = i ∧ s.Sits p i d ∧ (s.deque d).worker = some p.1
  once : ∀ p p' d, s.Holds p d → s.Holds p' d → p = p'
  outside : ∀ d, s.Free d → (s.deque d).self = invalidDequeIndex ∨ (s.deque d).self = activeDequeIndex

/-- A deque is added only when it is in no pool, and to a pool of its kind, which is asserted; it is taken only
out of the pool that holds it, and its other fields are written outside the pools. -/
def Runtime.Allowed (s : Runtime W D) : PoolEvent W D → Prop
  | .add victim p d => s.Free d ∧ p = (victim, (s.deque d).kind)
  | .remove p d => s.Holds p d
  | .mug d => ∃ p, s.Holds p d
  | .makeResumable _ d => (s.deque d).resumable = false ∧ (s.deque d).self ≠ activeDequeIndex
  | .create _ d => s.Free d
  | .switch _ d => s.Free d ∧ (s.deque d).worker = none
  | .park d => s.Free d
  | .mark d _ => s.Free d

/-- What the pools hold after the event. -/
def Runtime.HoldsAfter (s : Runtime W D) (p : PoolPtr W) (d : D) : PoolEvent W D → Prop
  | .add _ p' d' => s.Holds p d ∨ (p = p' ∧ d = d')
  | .remove p' d' => s.Holds p d ∧ ¬(p = p' ∧ d = d')
  | .mug d' => s.Holds p d ∧ d ≠ d'
  | .makeResumable victim d' =>
      (s.Holds p d ∧ d ≠ d') ∨ (p = (((s.deque d').worker).getD victim, .resumable) ∧ d = d')
  | _ => s.Holds p d

/-- At the start the pools are fresh and every deque is active or idle. -/
structure Runtime.Start (s : Runtime W D) : Prop where
  pool : ∀ p, dequePoolInit ltqsize = some (s.pool p)
  deque : ∀ d, ((s.deque d).self = invalidDequeIndex ∧ (s.deque d).worker = none) ∨
    (s.deque d).self = activeDequeIndex

end FOrder.Suspend
