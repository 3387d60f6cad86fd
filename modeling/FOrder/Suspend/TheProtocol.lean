import FOrder.Lib.Simulation
import FOrder.Lib.StoreBuffer

/-!
# `Suspend.TheProtocol` — the THE protocol of a worker and its thieves

`deque.c`, `cilk-abi.c` and `scheduler.c`: a worker pushes and pops continuations at the tail of its deque without
a lock, thieves take them from the head under the worker's lock, and `exc` tells the worker that it may have lost
the last one. One thread makes one store, or loads from locations that others write, in one step; stores go through
store buffers, `__cilkrts_fence` and the locked instructions wait for them. A deque pointer is its distance from
`ltq`, a frame is a number, `0` the null pointer. The worker is thread `none`, the thieves are the threads `some i`.

The value `EXC_INFINITY` is never stored (`signal_THE_exception` is not compiled), so it is left out.
-/

namespace FOrder.The

/-- The fields of a `deque` that the protocol uses, and the cells of `ltq`. -/
inductive Loc where
  | head
  | tail
  | exc
  | protectedTail
  | slot (i : Nat)
  deriving DecidableEq

abbrev Thread := Option Nat

abbrev Mem := StoreBuffer Thread Loc Nat

/-- Where the worker is while it holds its lock. -/
inductive OwnerInside where
  /-- `__cilkrts_c_THE_exception_check`, then `reset_THE_exception` before and after its fence -/
  | checkEnter
  | checkReset
  | checkFenced
  | checkLeave (won : Bool)
  /-- `__cilkrts_pop_tail` -/
  | popEnter
  | popLeave (sf : Nat)
  /-- `setup_for_execution`: `tail`, `head` and `exc` are set back to `ltq` -/
  | setupEnter
  | setupTail
  | setupHead
  | setupReset
  | setupLeave
  deriving DecidableEq

inductive OwnerPc where
  /-- user code -/
  | running
  /-- `__cilkrts_detach`, between its two stores -/
  | detaching (sf : Nat)
  /-- `__cilkrts_disallow_stealing` and `__cilkrts_restore_stealing`, before the fence -/
  | protecting
  /-- `__cilkrts_undo_detach`, before and after the fence -/
  | undoing
  | undone
  /-- waiting for the lock in `__cilkrts_c_THE_exception_check`, `__cilkrts_pop_tail`, `setup_for_execution` -/
  | checkWait
  | popWait
  | setupWait
  /-- in the scheduler, after its parent was stolen -/
  | away
  | inside (p : OwnerInside)
  deriving DecidableEq

/-- Where a thief is while it holds the lock. -/
inductive ThiefInside where
  | locked
  /-- `increment_E`, before and after the fence -/
  | incremented
  | fenced
  /-- `can_steal_from`, after the first comparison; then `dekker_protocol` has succeeded -/
  | belowTail
  | success
  /-- `detach_for_steal`, after the store to `head`; then the frame is loaded -/
  | detached (h : Nat)
  | taken (sf : Nat)
  /-- `decrement_E`, before and after the store -/
  | failing
  | decremented
  /-- the lock is given back, without a frame -/
  | leaving
  /-- a failed `CILK_ASSERT(*h)` -/
  | failed
  deriving DecidableEq

inductive ThiefPc where
  | idle
  | trying
  | inside (p : ThiefInside)
  deriving DecidableEq

structure State where
  mem : Mem
  /-- `lock.owner` -/
  lock : Option Thread
  owner : OwnerPc
  thief : Nat → ThiefPc

/-- What the callers see. -/
inductive Label where
  /-- `__cilkrts_detach` returns -/
  | pushed (sf : Nat)
  /-- `__cilkrts_leave_frame` calls `__cilkrts_undo_detach`; it returns into the frame, or finds it stolen -/
  | undo
  | undone (sf : Option Nat)
  /-- `__cilkrts_pop_tail`; `0` is the empty deque -/
  | pop
  | popped (sf : Nat)
  /-- the worker has new work -/
  | setup
  /-- a steal attempt, and its loot if it has some -/
  | steal (i : Nat)
  | stolen (i : Nat) (sf : Option Nat)
  deriving DecidableEq

inductive Action where
  /-- the worker begins an operation -/
  | detach (sf : Nat)
  | undo
  | pop
  | protect (newTail : Nat)
  | setup
  /-- the worker goes on with its operation -/
  | owner
  /-- thief `i` begins to steal, goes on, gives up before the protocol (no fiber, another team, an empty deque), gives
      up after it (the pedigree to replay is another) -/
  | steal (i : Nat)
  | thief (i : Nat)
  | giveUp (i : Nat)
  | abort (i : Nat)
  /-- a store reaches memory -/
  | flush (t : Thread)
  deriving DecidableEq

/-- `deque_init`: an empty deque with `ltqsize` cells. -/
def init (ltqsize : Nat) : State where
  mem := ⟨fun l => if l = .protectedTail then ltqsize else 0, fun _ => []⟩
  lock := none
  owner := .running
  thief := fun _ => .idle

namespace State

variable (s : State)

/-- The worker loads. -/
def load (l : Loc) : Nat := s.mem.view none l

/-- The worker stores and goes on. -/
def put (l : Loc) (v : Nat) (pc : OwnerPc) : State := { s with mem := s.mem.store none l v, owner := pc }

/-- Thief `i` goes on. -/
def goes (i : Nat) (pc : ThiefPc) : State := { s with thief := Function.update s.thief i pc }

/-- `__cilkrts_mutex_lock`: an exchange. -/
def lockOwner (pc : OwnerInside) : Option State :=
  if s.mem.buf none = [] ∧ s.lock = none then some { s with lock := some none, owner := .inside pc } else none

/-- `__cilkrts_mutex_unlock`. -/
def unlockOwner (pc : OwnerPc) : Option State :=
  if s.mem.buf none = [] then some { s with lock := none, owner := pc } else none

def unlockThief (i : Nat) : Option State :=
  if s.mem.buf (some i) = [] then some { s.goes i .idle with lock := none } else none

/-- The worker passes a fence. -/
def fenceOwner (pc : OwnerPc) : Option State :=
  if s.mem.buf none = [] then some { s with owner := pc } else none

def fenceThief (i : Nat) (pc : ThiefInside) : Option State :=
  if s.mem.buf (some i) = [] then some (s.goes i (.inside pc)) else none

end State

/-- A step without a label. -/
def silent (s : State) : State × Option Label := (s, none)

/-- A step of the worker inside its lock. -/
def stepOwnerInside (s : State) : OwnerInside → Option (State × Option Label)
  -- reset_THE_exception
  | .checkEnter => some (silent (s.put .exc (s.load .head) (.inside .checkReset)))
  | .checkReset => (s.fenceOwner (.inside .checkFenced)).map silent
  -- stolen_p = !(*w->head < (*w->tail + 1))
  | .checkFenced =>
      if s.load .head < s.load .tail + 1 then some (silent { s with owner := .inside (.checkLeave true) })
      else some (silent (s.put .tail (s.load .tail + 1) (.inside (.checkLeave false))))
  | .checkLeave won => do
      let s' ← s.unlockOwner (if won then .running else .away)
      some (s', some (.undone (if won then some (s.load (.slot (s.load .tail))) else none)))
  | .popEnter =>
      if s.load .head < s.load .tail then
        some (silent (s.put .tail (s.load .tail - 1) (.inside (.popLeave (s.load (.slot (s.load .tail - 1)))))))
      else some (silent { s with owner := .inside (.popLeave 0) })
  | .popLeave sf => do
      let s' ← s.unlockOwner .running
      some (s', some (.popped sf))
  | .setupEnter => some (silent (s.put .tail 0 (.inside .setupTail)))
  | .setupTail => some (silent (s.put .head 0 (.inside .setupHead)))
  | .setupHead => some (silent (s.put .exc (s.load .head) (.inside .setupReset)))
  | .setupReset => (s.fenceOwner (.inside .setupLeave)).map silent
  | .setupLeave => do
      let s' ← s.unlockOwner .running
      some (s', some .setup)

/-- The worker goes on with its operation. -/
def stepOwner (s : State) : Option (State × Option Label) :=
  match s.owner with
  | .running => none
  | .detaching sf => some (s.put .tail (s.load .tail + 1) .running, some (.pushed sf))
  | .protecting => (s.fenceOwner .running).map silent
  | .undoing => (s.fenceOwner .undone).map silent
  -- return t < *w->exc
  | .undone =>
      if s.load .tail < s.load .exc then some (silent { s with owner := .checkWait })
      else some ({ s with owner := .running }, some (.undone (some (s.load (.slot (s.load .tail))))))
  | .checkWait => (s.lockOwner .checkEnter).map silent
  | .popWait => (s.lockOwner .popEnter).map silent
  | .setupWait => (s.lockOwner .setupEnter).map silent
  | .away => none
  | .inside p => stepOwnerInside s p

/-- What thief `i` loads. -/
def State.loadThief (s : State) (i : Nat) (l : Loc) : Nat := s.mem.view (some i) l

/-- Thief `i` stores and goes on. -/
def State.putThief (s : State) (i : Nat) (l : Loc) (v : Nat) (pc : ThiefInside) : State :=
  { s.goes i (.inside pc) with mem := s.mem.store (some i) l v }

/-- A step of thief `i` inside the lock. -/
def stepThiefInside (s : State) (i : Nat) : ThiefInside → Option (State × Option Label)
  | .locked => some (silent (s.putThief i .exc (s.loadThief i .exc + 1) .incremented))
  | .incremented => (s.fenceThief i .fenced).map silent
  | .fenced =>
      if s.loadThief i .head < s.loadThief i .tail then some (silent (s.goes i (.inside .belowTail)))
      else some (silent (s.goes i (.inside .failing)))
  | .belowTail =>
      if s.loadThief i .head < s.loadThief i .protectedTail then some (silent (s.goes i (.inside .success)))
      else some (silent (s.goes i (.inside .failing)))
  | .success =>
      let h := s.loadThief i .head
      if s.loadThief i (.slot h) = 0 then some (silent (s.goes i (.inside .failed)))
      else some (silent (s.putThief i .head (h + 1) (.detached h)))
  | .detached h => some (silent (s.goes i (.inside (.taken (s.loadThief i (.slot h))))))
  | .taken sf => do
      let s' ← s.unlockThief i
      some (s', some (.stolen i (some sf)))
  | .failing => some (silent (s.putThief i .exc (s.loadThief i .exc - 1) .decremented))
  | .decremented => (s.fenceThief i .leaving).map silent
  | .leaving => do
      let s' ← s.unlockThief i
      some (s', some (.stolen i none))
  | .failed => none

/-- Thief `i` goes on; `__cilkrts_mutex_trylock` is an exchange too. -/
def stepThief (s : State) (i : Nat) : Option (State × Option Label) :=
  match s.thief i with
  | .idle => none
  | .trying =>
      if s.mem.buf (some i) = [] then
        if s.lock = none then some (silent { s.goes i (.inside .locked) with lock := some (some i) })
        else some (s.goes i .idle, some (.stolen i none))
      else none
  | .inside p => stepThiefInside s i p

/-- One step of one thread. -/
def step (ltqsize : Nat) : Machine State Action Label := fun s a =>
  match a with
  -- CILK_ASSERT(tail < *w->ltq_limit) is left to the caller: a detach that does not fit is no step
  | .detach sf =>
      if s.owner = .running ∧ sf ≠ 0 ∧ s.load .tail < ltqsize then
        some (silent (s.put (.slot (s.load .tail)) sf (.detaching sf)))
      else none
  | .undo =>
      -- a detached frame has its parent on the deque
      if s.owner = .running ∧ 0 < s.load .tail then some (s.put .tail (s.load .tail - 1) .undoing, some .undo) else none
  | .pop => if s.owner = .running then some ({ s with owner := .popWait }, some .pop) else none
  | .protect newTail => if s.owner = .running then some (silent (s.put .protectedTail newTail .protecting)) else none
  -- new work for a worker whose parent was stolen; not modelled are the other ways into setup_for_execution: after a
  -- sync that suspends, after a return, and when the worker starts
  | .setup => if s.owner = .away then some (silent { s with owner := .setupWait }) else none
  | .owner => stepOwner s
  | .steal i => if s.thief i = .idle then some (s.goes i .trying, some (.steal i)) else none
  | .thief i => stepThief s i
  | .giveUp i => if s.thief i = .inside .locked then some (silent (s.goes i (.inside .leaving))) else none
  | .abort i => if s.thief i = .inside .success then some (silent (s.goes i (.inside .failing))) else none
  | .flush t => (s.mem.flush t).map fun mem => silent { s with mem := mem }

/-! ## The deque they implement

Every operation takes effect at one instant between its call and its return. -/

/-- What an operation in progress has done so far. -/
inductive Progress (α : Type) where
  | idle
  | called
  | done (result : α)
  deriving DecidableEq

/-- The frames, oldest first, and the operations in progress. -/
structure Deque where
  items : List Nat
  undo : Progress (Option Nat)
  pop : Progress Nat
  steal : Nat → Progress Nat

namespace Deque

inductive Action where
  | push (sf : Nat)
  | undo
  | undoTakes
  | undoReturns
  | pop
  | popTakes
  | popReturns
  | setup
  | steal (i : Nat)
  | stealTakes (i : Nat)
  | stealReturns (i : Nat)
  | stealFails (i : Nat)

def init : Deque := ⟨[], .idle, .idle, fun _ => .idle⟩

/-- The worker takes the newest frame, a thief the oldest; nothing comes from an empty deque. A thief may also give
    up. New work is set up on an empty deque only. -/
def step : Machine Deque Action Label := fun d a =>
  match a with
  | .push sf =>
      if d.undo = .idle ∧ d.pop = .idle ∧ sf ≠ 0 then some ({ d with items := d.items ++ [sf] }, some (.pushed sf)) else none
  | .undo => if d.undo = .idle ∧ d.pop = .idle then some ({ d with undo := .called }, some .undo) else none
  | .undoTakes =>
      if d.undo = .called then some ({ d with items := d.items.dropLast, undo := .done d.items.getLast? }, none) else none
  | .undoReturns =>
      match d.undo with
      | .done r => some ({ d with undo := .idle }, some (.undone r))
      | _ => none
  | .pop => if d.undo = .idle ∧ d.pop = .idle then some ({ d with pop := .called }, some .pop) else none
  | .popTakes =>
      if d.pop = .called then
        some ({ d with items := d.items.dropLast, pop := .done (d.items.getLast?.getD 0) }, none)
      else none
  | .popReturns =>
      match d.pop with
      | .done sf => some ({ d with pop := .idle }, some (.popped sf))
      | _ => none
  | .setup => if d.undo = .idle ∧ d.pop = .idle ∧ d.items = [] then some (d, some .setup) else none
  | .steal i =>
      if d.steal i = .idle then some ({ d with steal := Function.update d.steal i .called }, some (.steal i)) else none
  | .stealTakes i =>
      match d.items with
      | sf :: rest =>
          if d.steal i = .called then some ({ d with items := rest, steal := Function.update d.steal i (.done sf) }, none)
          else none
      | [] => none
  | .stealReturns i =>
      match d.steal i with
      | .done sf => some ({ d with steal := Function.update d.steal i .idle }, some (.stolen i (some sf)))
      | _ => none
  | .stealFails i =>
      if d.steal i = .called then some ({ d with steal := Function.update d.steal i .idle }, some (.stolen i none)) else none

end Deque
end FOrder.The
