import FOrder.Lib.Simulation
import FOrder.OrderMaint.Omrd

/-!
# `OrderMaint.Batcher` — inserts by many workers, and the batches that relabel

`omrd.cpp` and `batcher.c`: a worker inserts under a mutex of its own. One whose insert is refused may become the owner
of the next batch: it takes the mutexes of all workers and relabels, and who meets a taken mutex helps with the batch.
A worker makes one access to what others write in one step. `om_insert` is one step: it writes between its base and
the next node only, and no two workers insert after one base. So is the relabelling of one structure, whose spawns
stay with the worker.

`batch_records[self].status` is `ITEM_WAITING` from the first call on, so `try_to_start_batch` never gives the lock
back.
-/

namespace FOrder.Batcher

open OrderMaint

/-- `struct mutex`. -/
structure Mutex where
  lock : Bool
  owner : Option Nat
  deriving DecidableEq

/-- The arguments of `omrd_t::insert`, and the node that it makes. -/
structure Req where
  order : Order
  base : Name
  new : Name
  deriving DecidableEq

/-- Which of the two calls of `try_insert`. -/
inductive Path where
  | fast
  | slow
  deriving DecidableEq

/-- Which of the three calls of `join_batch`: on the fast path; in the slow path, after the own mutex was given back,
    and when it is not free. -/
inductive Site where
  | fast
  | gaveUp
  | retry
  deriving DecidableEq

/-- Where a worker is in `join_batch`. -/
inductive Join where
  /-- `cilk_batchify`, up to `try_to_start_batch` -/
  | batchify
  /-- `cilk_tool_om_try_lock_all` -/
  | tryLockAll
  | tryRelabelMutex
  | ownRelabelMutex
  /-- `cilk_set_next_batch_owner` -/
  | setNextBatchOwner
  | ownBatchLock
  | lockMutex (n : Nat)
  | setBatchOwnerId
  /-- `invoke_batch` -/
  | invoke
  /-- runs a part of the batch -/
  | busy
  /-- `execute_batch`: the two tests of the loop, and its body -/
  | waitId
  | waitOwner
  | steal
  /-- `switch_to_core_deque` -/
  | leave
  /-- back in `join_batch` -/
  | compare
  | stop
  | disown
  | unlockMutex (n : Nat)
  | disownRelabelMutex
  | unlockRelabelMutex
  deriving DecidableEq

/-- Who marks a list as heavy: `slow_path`, or the end of `insert`. -/
inductive Caller where
  | slowPath
  | last
  deriving DecidableEq

/-- The assertions that may fail. -/
inductive Assertion where
  /-- `assert(g_batch_in_progress == 0)` -/
  | batchInProgress
  /-- those of `om_insert`, and of `om_relabel` -/
  | om
  | relabel
  /-- `om_assert(base->list->above->level == MAX_LEVEL)` -/
  | level
  /-- `assert(insert_failed == 0)` -/
  | insertFailed
  /-- `assert(!is_heavy(n))` -/
  | heavyNode
  /-- `assert(n->list == base->list)` -/
  | sameList
  /-- `CILK_ASSERT(m->owner == 0)` and `CILK_ASSERT(m->owner == w)` -/
  | mutexOwner
  /-- `CILK_ASSERT(result)` of `cilk_set_next_batch_owner` -/
  | nextBatchOwner
  /-- `om_assert(g_batch_owner_id == -1)` -/
  | batchOwnerId
  deriving DecidableEq

/-- Where a worker is in `omrd_t::insert`. -/
inductive Pc where
  | idle
  /-- `pthread_spin_trylock(mut)` -/
  | trylock (p : Path)
  | tryInsert (p : Path)
  /-- the loop of `slow_path` -/
  | refused
  | cas (c : Caller)
  | addHeavy (c : Caller)
  | setBatchId
  | giveUp
  | join (site : Site) (j : Join)
  | clearFailed
  /-- `try_insert` has returned a node -/
  | accepted (p : Path)
  | unlock
  | failed (a : Assertion)
  deriving DecidableEq

structure Worker where
  pc : Pc
  req : Req
  /-- `insert_failed` -/
  insertFailed : Bool
  /-- `w->l->batch_id`; `none` is `-1` -/
  batchId : Option Nat

/-- Where the batch is, and the workers that run it. -/
inductive Batch where
  /-- `batch_relabel`, before `cilk_spawn`, and in the spawned call -/
  | starting (k : Nat)
  | spawned (k : Nat)
  /-- the second call, after the first, or stolen by `j`; which of the two has returned -/
  | continued (k : Nat)
  | stolen (k j : Nat) (english hebrew : Bool)
  /-- after `cilk_sync` -/
  | stopping (k : Nat)
  /-- `terminate_batch`, before each of its stores -/
  | terminating (k : Nat)
  | releasing (k : Nat)
  | unlocking (k : Nat)
  deriving DecidableEq

structure State where
  /-- `g_english` and `g_hebrew` -/
  orders : Orders
  /-- `g_worker_mutexes` -/
  muts : Nat → Bool
  /-- `g_relabel_mutex` -/
  relabelMutex : Mutex
  /-- `batch_lock` -/
  batchLock : Mutex
  /-- `g_batch_in_progress` -/
  inProgress : Bool
  /-- `g_relabel_id` -/
  relabelId : Nat
  /-- `g_batch_owner_id`; `none` is `-1` -/
  ownerId : Option Nat
  /-- `pending_batch.id` -/
  pendingId : Nat
  batch : Option Batch
  worker : Nat → Worker

/-- What the callers see. -/
inductive Label where
  | call (i : Nat) (r : Req)
  | ret (i : Nat)
  deriving DecidableEq

inductive Action where
  /-- worker `i` calls `insert`, goes on with it, goes on with its part of the batch, steals the second call -/
  | insert (i : Nat) (r : Req)
  | worker (i : Nat)
  | batch (i : Nat)
  | steal (i : Nat)
  deriving DecidableEq

/-- Before the first insert. -/
def init (orders : Orders) : State where
  orders := orders
  muts := fun _ => false
  relabelMutex := ⟨false, none⟩
  batchLock := ⟨false, none⟩
  inProgress := false
  relabelId := 0
  ownerId := none
  pendingId := 0
  batch := none
  worker := fun _ => ⟨.idle, ⟨.english, 0, 0⟩, false, none⟩

namespace State

variable (s : State)

def pc (i : Nat) : Pc := (s.worker i).pc

/-- Worker `i` goes on. -/
def goes (i : Nat) (pc : Pc) : State := { s with worker := Function.update s.worker i { s.worker i with pc := pc } }

/-- The structure that worker `i` inserts into. -/
def omrd (i : Nat) : Omrd := s.orders (s.worker i).req.order

def setOrder (o : Order) (omrd : Omrd) : State := { s with orders := Function.update s.orders o omrd }

def setFailed (i : Nat) (v : Bool) : State :=
  { s with worker := Function.update s.worker i { s.worker i with insertFailed := v } }

def setBatchId (i : Nat) (v : Option Nat) : State :=
  { s with worker := Function.update s.worker i { s.worker i with batchId := v } }

/-- The mutex of worker `j`. -/
def setMut (j : Nat) (v : Bool) : State := { s with muts := Function.update s.muts j v }

end State

def Site.next : Site → Pc
  | .fast => .trylock .fast
  | .gaveUp => .clearFailed
  | .retry => .trylock .slow

def Path.site : Path → Site
  | .fast => .fast
  | .slow => .retry

def Caller.next : Caller → Pc
  | .slowPath => .setBatchId
  | .last => .unlock

/-- A step of worker `i` in `join_batch`, of `p` workers. -/
def stepJoin (p : Nat) (s : State) (i : Nat) (site : Site) : Join → Option State
  | .batchify =>
      let s' := if (s.worker i).batchId = none then s.setBatchId i (some s.pendingId) else s
      some (s'.goes i (.join site .tryLockAll))
  | .tryLockAll =>
      if (s.worker i).insertFailed = false ∨ s.relabelId % 2 = 1 then some (s.goes i (.join site .waitId))
      else some (s.goes i (.join site .tryRelabelMutex))
  | .tryRelabelMutex =>
      if s.relabelMutex.lock then some (s.goes i (.join site .waitId))
      else some { s.goes i (.join site .ownRelabelMutex) with relabelMutex := { s.relabelMutex with lock := true } }
  | .ownRelabelMutex =>
      if s.relabelMutex.owner = none then
        some { s.goes i (.join site .setNextBatchOwner) with relabelMutex := { s.relabelMutex with owner := some i } }
      else some (s.goes i (.failed .mutexOwner))
  | .setNextBatchOwner =>
      if s.batchLock.lock then some (s.goes i (.failed .nextBatchOwner))
      else some { s.goes i (.join site .ownBatchLock) with batchLock := { s.batchLock with lock := true } }
  | .ownBatchLock =>
      if s.batchLock.owner = none then
        some { s.goes i (.join site (.lockMutex 0)) with batchLock := { s.batchLock with owner := some i } }
      else some (s.goes i (.failed .mutexOwner))
  | .lockMutex n =>
      if n < p then
        if s.muts n then none else some ((s.setMut n true).goes i (.join site (.lockMutex (n + 1))))
      else some { s.goes i (.join site .setBatchOwnerId) with inProgress := true }
  | .setBatchOwnerId =>
      if s.ownerId = none then some { s.goes i (.join site .invoke) with ownerId := some i }
      else some (s.goes i (.failed .batchOwnerId))
  | .invoke =>
      some { (s.setBatchId i (some s.pendingId)).goes i (.join site .busy) with batch := some (.starting i) }
  | .busy => none
  -- *global_batch_id <= batch_id && batch_lock.owner
  | .waitId =>
      match (s.worker i).batchId with
      | some b => if s.pendingId ≤ b then some (s.goes i (.join site .waitOwner)) else some (s.goes i (.join site .leave))
      | none => some (s.goes i (.join site .leave))
  | .waitOwner =>
      if s.batchLock.owner = none then some (s.goes i (.join site .leave)) else some (s.goes i (.join site .steal))
  | .steal => some (s.goes i (.join site .waitId))
  | .leave => some ((s.setBatchId i none).goes i (.join site .compare))
  | .compare => if s.ownerId = some i then some (s.goes i (.join site .stop)) else some (s.goes i site.next)
  | .stop => some { s.goes i (.join site .disown) with inProgress := false }
  | .disown => some { s.goes i (.join site (.unlockMutex 0)) with ownerId := none }
  | .unlockMutex n =>
      if n < p then some ((s.setMut n false).goes i (.join site (.unlockMutex (n + 1))))
      else some (s.goes i (.join site .disownRelabelMutex))
  | .disownRelabelMutex =>
      if s.relabelMutex.owner = some i then
        some { s.goes i (.join site .unlockRelabelMutex) with relabelMutex := { s.relabelMutex with owner := none } }
      else some (s.goes i (.failed .mutexOwner))
  | .unlockRelabelMutex => some { s.goes i site.next with relabelMutex := { s.relabelMutex with lock := false } }

/-- `!base->list->heavy`. -/
def heavyList (omrd : Omrd) (base : Name) : Option Bool := (locate omrd.ds base).map fun l => l.1.list.heavy

/-- `om_get_tl(base)`. -/
def getTl (omrd : Omrd) (base : Name) : Option Leaf := (locate omrd.ds base).map Prod.fst

/-- The mark of `CAS(&base->list->heavy, 0, 1)`. -/
def setHeavy (omrd : Omrd) (a : Leaf) : Omrd :=
  { omrd with ds := { omrd.ds with root := omrd.ds.root.setHeavy a.list.above } }

/-- The end of `insert`, before `cas`: where it goes on, or the assertion that fails. -/
def checkAccepted (s : State) (i : Nat) (p : Path) : Pc :=
  let r := (s.worker i).req
  match getTl (s.omrd i) r.new, getTl (s.omrd i) r.base, isHeavy (s.omrd i).ds r.new with
  | some a, some b, some heavy =>
      if p = .slow ∧ (s.worker i).insertFailed then .failed .insertFailed
      else if p = .slow ∧ heavy then .failed .heavyNode
      else if a.list.above ≠ b.list.above then .failed .sameList
      else if !a.list.heavy && heavy then .cas .last
      else .unlock
  | _, _, _ => .failed .om

/-- A step of worker `i`. -/
def stepWorker (p : Nat) (s : State) (i : Nat) : Option (State × Option Label) :=
  let r := (s.worker i).req
  match s.pc i with
  | .idle => none
  | .trylock path =>
      if s.muts i then some (s.goes i (.join path.site .batchify), none)
      else some ((s.setMut i true).goes i (.tryInsert path), none)
  | .tryInsert path =>
      if s.inProgress then some (s.goes i (.failed .batchInProgress), none)
      else
        match (s.omrd i).tryInsert r.base r.new with
        | none => some (s.goes i (.failed .om), none)
        | some none => some (s.goes i .refused, none)
        | some (some omrd) => some ((s.setOrder r.order omrd).goes i (.accepted path), none)
  | .refused =>
      match heavyList (s.omrd i) r.base with
      | none => some (s.goes i (.failed .om), none)
      | some heavy => some ((s.setFailed i true).goes i (if heavy then .setBatchId else .cas .slowPath), none)
  | .cas c =>
      match getTl (s.omrd i) r.base with
      | none => some (s.goes i (.failed .om), none)
      | some a =>
          if a.list.heavy then some (s.goes i c.next, none)
          else some ((s.setOrder r.order (setHeavy (s.omrd i) a)).goes i (.addHeavy c), none)
  | .addHeavy c =>
      if s.inProgress then some (s.goes i (.failed .batchInProgress), none)
      else
        match getTl (s.omrd i) r.base with
        | none => some (s.goes i (.failed .om), none)
        | some a =>
            let omrd := { s.omrd i with heavyNodes := (s.omrd i).heavyNodes ++ [a.list.above] }
            some ((s.setOrder r.order omrd).goes i (if a.node.level = maxLevel then c.next else .failed .level), none)
  | .setBatchId => some ((s.setBatchId i (some s.pendingId)).goes i .giveUp, none)
  | .giveUp => some ((s.setMut i false).goes i (.join .gaveUp .batchify), none)
  | .join site j => (stepJoin p s i site j).map fun s' => (s', none)
  | .clearFailed => some ((s.setFailed i false).goes i (.trylock .slow), none)
  | .accepted path => some (s.goes i (checkAccepted s i path), none)
  | .unlock => some ((s.setMut i false).goes i .idle, some (.ret i))
  | .failed _ => none

section

variable (shl : Nat → Nat)

/-- `relabel`, run by worker `i`; then the batch goes on. -/
def State.relabel (s : State) (i : Nat) (o : Order) (next : State → State) : State :=
  match (s.orders o).relabel shl with
  | some omrd => next (s.setOrder o omrd)
  | none => s.goes i (.failed .relabel)

/-- A step of the batch, by worker `i`; without more to do for it, it returns to the loop of `execute_batch`. -/
def stepBusy (s : State) (i : Nat) (site : Site) : Batch → Option State
  | .starting k =>
      if i = k then some { s with relabelId := s.relabelId + 1, batch := some (.spawned k) } else none
  | .spawned k =>
      if i = k then some (s.relabel shl i .english fun s => { s with batch := some (.continued k) }) else none
  | .continued k =>
      if i = k then some (s.relabel shl i .hebrew fun s => { s with batch := some (.stopping k) }) else none
  -- who comes second to `cilk_sync` goes on
  | .stolen k j english hebrew =>
      if i = k ∧ english = false then
        some (s.relabel shl i .english fun s =>
          if hebrew then { s with batch := some (.stopping k) }
          else { s.goes i (.join site .waitId) with batch := some (.stolen k j true false) })
      else if i = j ∧ hebrew = false then
        some (s.relabel shl i .hebrew fun s =>
          if english then { s with batch := some (.stopping j) }
          else { s.goes i (.join site .waitId) with batch := some (.stolen k j false true) })
      else none
  | .stopping k =>
      if i = k then some { s with relabelId := s.relabelId + 1, batch := some (.terminating k) } else none
  | .terminating k =>
      if i = k then some { s with pendingId := s.pendingId + 1, batch := some (.releasing k) } else none
  | .releasing k =>
      if i = k then some { s with batchLock := { s.batchLock with owner := none }, batch := some (.unlocking k) }
      else none
  | .unlocking k =>
      if i = k then
        some { s.goes i (.join site .waitId) with batchLock := { s.batchLock with lock := false }, batch := none }
      else none

def stepBatch (s : State) (i : Nat) : Option State :=
  match s.batch, s.pc i with
  | some b, .join site .busy => stepBusy shl s i site b
  | _, _ => none

/-- Worker `j` steals the second call. -/
def stepSteal (s : State) (j : Nat) : Option State :=
  match s.batch, s.pc j with
  | some (.spawned k), .join site .steal =>
      some { s.goes j (.join site .busy) with batch := some (.stolen k j false false) }
  | _, _ => none

/-- The callers insert after nodes that have been returned to them, and no two of them after the same. -/
def CanInsert (p : Nat) (s : State) (r : Req) : Prop :=
  r.base ∈ (s.orders r.order).ds.root.names ∧ r.new ∉ (s.orders r.order).ds.root.names ∧
    ∀ j < p, s.pc j ≠ .idle → (s.worker j).req.order = r.order →
      (s.worker j).req.base ≠ r.base ∧ (s.worker j).req.new ≠ r.base ∧ (s.worker j).req.new ≠ r.new

instance (p : Nat) (s : State) (r : Req) : Decidable (CanInsert p s r) := by
  unfold CanInsert
  infer_instance

/-- One step of one of `p` workers. -/
def step (p : Nat) : Machine State Action Label := fun s a =>
  match a with
  | .insert i r =>
      if i < p ∧ s.pc i = .idle ∧ CanInsert p s r then
        some ({ s with worker := Function.update s.worker i { s.worker i with pc := .trylock .fast, req := r } },
          some (.call i r))
      else none
  | .worker i => if i < p then stepWorker p s i else none
  | .batch i => if i < p then (stepBatch shl s i).map fun s' => (s', none) else none
  | .steal i => if i < p then (stepSteal s i).map fun s' => (s', none) else none

end

/-! ## The lists they implement -/

/-- What an insert in progress has done so far. -/
inductive Progress where
  | idle
  | called (r : Req)
  | done
  deriving DecidableEq

/-- The abstract lists, and the inserts in progress. -/
structure Lists where
  lists : Order → List Name
  progress : Nat → Progress

namespace Lists

inductive Action where
  | call (i : Nat) (r : Req)
  | takes (i : Nat)
  | returns (i : Nat)

def init (bases : Order → Name) : Lists := ⟨fun o => [bases o], fun _ => .idle⟩

/-- An insert takes effect at one instant between its call and its return, and puts the new node right after its
    base. -/
def step : Machine Lists Action Label := fun d a =>
  match a with
  | .call i r =>
      if d.progress i = .idle ∧ r.base ∈ d.lists r.order then
        some ({ d with progress := Function.update d.progress i (.called r) }, some (.call i r))
      else none
  | .takes i =>
      match d.progress i with
      | .called r =>
          if r.base ∈ d.lists r.order ∧ r.new ∉ d.lists r.order then
            some (⟨Function.update d.lists r.order (insertAfter r.base r.new (d.lists r.order)),
              Function.update d.progress i .done⟩, none)
          else none
      | _ => none
  | .returns i =>
      if d.progress i = .done then some ({ d with progress := Function.update d.progress i .idle }, some (.ret i))
      else none

end Lists
end FOrder.Batcher
