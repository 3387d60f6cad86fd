import FOrder.OrderMaint.Batcher
import Mathlib.Tactic.Common

/-!
# `OrderMaint.BatcherLocks` — who holds which mutex

At any time at most one worker, the leader, has got the relabel mutex. Where it is in its code says what it has done
to the shared variables, as far as no batch runs; a batch runs for the leader, but for the last stores of
`terminate_batch`.

## The invariant

`Locks p s leader` has four parts.

- `Crew`: the workers that are in the batch are those that `Batch.Runs` names, and `g_relabel_id` is odd exactly
  between its two increments.
- `Shared`: the relabel mutex, `g_batch_in_progress`, `g_batch_owner_id` and the mutexes of the workers are what the
  leader has made them. A mutex of a worker is held by the worker, when it is in its critical section, or by the
  leader, when it is in the range that the leader has locked, and never by both.
- `BatchLock`: without a batch the lock of batches is what the leader has made it; with one it is locked, and owned
  until the store before the last.
- `Leads`: who is at a place of `Pc.leads` is the leader; the leader is at a place of `Pc.canLead`; and an active
  batch has a leader that waits for it, with its id.

What the leader has done is a function of its place, `Pc.board`. So a step of the leader is checked by comparing two
boards, and a step of anybody else changes no board at all.

## The steps

The leader's way through `join_batch` is cut into pieces: it becomes the leader (`Locks.becomeLeader`), locks
everything (`Locks.before`), starts its batch (`Locks.invoke`), waits for it with the others (`Locks.loop`), gives
everything back (`Locks.after`), and is the leader no more (`Locks.unlead`). Steps that write nothing shared are
`Locks.follow` and `Locks.lead`, and a step of the leader that writes is `Locks.advance`, which asks for the new
board only.

The delicate point is `terminate_batch`. With the store to `pending_batch.id` the leader may go on, while another
worker, which has taken the batch over, has two more stores to make. So a batch is called `active` only up to that
store, and nothing is said of a leader after it.
-/

namespace FOrder.Batcher

open OrderMaint

/-! ## What a place in the code means -/

/-- Assertions that fail under the own mutex. -/
def Assertion.inside : Assertion → Bool
  | .batchInProgress | .om | .level | .insertFailed | .heavyNode | .sameList => true
  | _ => false

/-- Between the lock and the unlock of its own mutex. -/
def Pc.critical : Pc → Bool
  | .tryInsert _ | .refused | .cas _ | .addHeavy _ | .setBatchId | .giveUp | .accepted _ | .unlock => true
  | .failed a => a.inside
  | _ => false

/-- Running a part of the batch; a relabel that has failed stays here for ever. -/
def Pc.inBatch : Pc → Bool
  | .join _ .busy | .failed .relabel => true
  | _ => false

/-- In the loop of `execute_batch`, or running a part of the batch. -/
def Pc.joined : Pc → Bool
  | .join _ .busy | .failed .relabel | .join _ .waitId | .join _ .waitOwner | .join _ .steal => true
  | _ => false

/-- Only the leader is here: from the relabel mutex to the start of its batch, and from the end of the batch until
    the relabel mutex is free again. An assertion on a mutex can only fail there. -/
def Pc.leads : Pc → Bool
  | .join _ j =>
      match j with
      | .batchify | .tryLockAll | .tryRelabelMutex | .busy | .waitId | .waitOwner | .steal | .leave | .compare => false
      | _ => true
  | .failed a =>
      match a with
      | .mutexOwner | .nextBatchOwner | .batchOwnerId => true
      | _ => false
  | _ => false

/-- The leader may be here: at its own places, and in the loop of `execute_batch` with everybody else. It does not
    fail at a mutex. -/
def Pc.canLead (pc : Pc) : Bool :=
  match pc with
  | .join _ .leave | .join _ .compare => true
  | .failed .mutexOwner | .failed .batchOwnerId => false
  | _ => pc.leads || pc.joined

/-- Not yet at `pending_batch.id++`. As long as a batch is active its leader cannot leave the loop of
    `execute_batch`. -/
def Batch.active : Batch → Bool
  | .releasing _ | .unlocking _ => false
  | _ => true

/-- Between the two `g_relabel_id++`. -/
def Batch.relabelling : Batch → Bool
  | .spawned _ | .continued _ | .stolen _ _ _ _ | .stopping _ => true
  | _ => false

/-- The workers that run it. After a steal there are two of them, until one has returned. -/
def Batch.Runs (i : Nat) : Batch → Prop
  | .stolen k j english hebrew => (i = k ∧ english = false) ∨ (i = j ∧ hebrew = false)
  | .starting k | .spawned k | .continued k | .stopping k | .terminating k | .releasing k | .unlocking k => i = k

/-- A batch that one of the two has not returned to. Who returns second ends it, so both have never returned. -/
def Batch.Sound : Batch → Prop
  | .stolen k j english hebrew => k ≠ j ∧ (english && hebrew) = false
  | _ => True

/-- What the leader has done to the shared variables. It holds the mutexes from `lo` up to `hi`: `hi` grows while it
    locks them, and `lo` while it unlocks them. -/
structure Board where
  relabelMutex : Mutex
  lo : Nat
  hi : Nat
  inProgress : Bool
  ownerId : Option Nat
  /-- if no batch runs -/
  batchLock : Mutex

/-- Nobody leads: no mutex is held by a leader, and no batch is in progress. -/
def Board.free : Board := ⟨⟨false, none⟩, 0, 0, false, none, ⟨false, none⟩⟩

/-- What the leader `k` has done when it is here. -/
def Pc.board (p k : Nat) : Pc → Board
  | .join _ .ownRelabelMutex | .join _ .unlockRelabelMutex => { Board.free with relabelMutex := ⟨true, none⟩ }
  | .join _ .setNextBatchOwner | .failed .nextBatchOwner | .join _ .disownRelabelMutex =>
      { Board.free with relabelMutex := ⟨true, some k⟩ }
  | .join _ .ownBatchLock => { Board.free with relabelMutex := ⟨true, some k⟩, batchLock := ⟨true, none⟩ }
  | .join _ (.lockMutex n) => ⟨⟨true, some k⟩, 0, n, false, none, ⟨true, some k⟩⟩
  | .join _ .setBatchOwnerId => ⟨⟨true, some k⟩, 0, p, true, none, ⟨true, some k⟩⟩
  | .join _ .invoke => ⟨⟨true, some k⟩, 0, p, true, some k, ⟨true, some k⟩⟩
  | .join _ .disown => ⟨⟨true, some k⟩, 0, p, false, some k, ⟨false, none⟩⟩
  | .join _ (.unlockMutex n) => ⟨⟨true, some k⟩, n, p, false, none, ⟨false, none⟩⟩
  | _ => ⟨⟨true, some k⟩, 0, p, true, some k, ⟨false, none⟩⟩

/-- What has been done to the shared variables, by the leader or by nobody. -/
def State.board (s : State) (p : Nat) : Option Nat → Board
  | none => .free
  | some k => (s.pc k).board p k

/-! ## The invariant -/

/-- What does not depend on the leader: who runs the batch, and the parity of `g_relabel_id`. -/
structure Crew (p : Nat) (s : State) : Prop where
  workers : ∀ i, p ≤ i → s.pc i = .idle
  runs : ∀ i, (s.pc i).inBatch = true ↔ ∃ b, s.batch = some b ∧ b.Runs i
  sound : ∀ b, s.batch = some b → b.Sound
  parity : s.relabelId % 2 = 1 ↔ ∃ b, s.batch = some b ∧ b.relabelling = true

/-- The mutexes of the workers: each is held by its worker, by the leader, or by nobody. -/
structure Mutexes (p : Nat) (s : State) (b : Board) : Prop where
  held : ∀ j, s.muts j = true ↔ (s.pc j).critical = true ∨ (b.lo ≤ j ∧ j < b.hi)
  apart : ∀ j, (s.pc j).critical = true → ¬(b.lo ≤ j ∧ j < b.hi)
  hi_le : b.hi ≤ p

/-- The shared variables are what the leader has made them. -/
structure Shared (p : Nat) (s : State) (b : Board) : Prop extends Mutexes p s b where
  relabelMutex : s.relabelMutex = b.relabelMutex
  inProgress : s.inProgress = b.inProgress
  ownerId : s.ownerId = b.ownerId

/-- `batch_lock`, with and without a batch. -/
structure BatchLock (s : State) (b : Board) : Prop where
  quiet : s.batch = none → s.batchLock = b.batchLock
  running : ∀ c, s.batch = some c → s.batchLock.lock = true ∧ (s.batchLock.owner = none ↔ ∃ k, c = .unlocking k) ∧
    b.batchLock = ⟨false, none⟩

/-- The leader, and the batch that runs for it. `active` has the id that the leader waits for: the loop of
    `execute_batch` compares it with `pending_batch.id`. -/
structure Leads (s : State) (leader : Option Nat) : Prop where
  leads : ∀ i, (s.pc i).leads = true → leader = some i
  role : ∀ k, leader = some k → (s.pc k).canLead = true
  active : ∀ c, s.batch = some c → c.active = true →
    ∃ k, leader = some k ∧ (s.pc k).joined = true ∧ (s.worker k).batchId = some s.pendingId

/-- The invariant, for a leader or none. It does not mention the structures. -/
structure Locks (p : Nat) (s : State) (leader : Option Nat) : Prop where
  crew : Crew p s
  shared : Shared p s (s.board p leader)
  batchLock : BatchLock s (s.board p leader)
  leads : Leads s leader

/-- Before the first insert everything is free and everybody is idle. -/
theorem locks_init (p : Nat) (orders : Orders) : Locks p (init orders) none where
  crew := by
    refine ⟨fun _ _ => rfl, ?_, ?_, ?_⟩
    · intro i
      simp [init, State.pc, Pc.inBatch]
    · intro b hb
      cases hb
    · simp [init]
  shared := by
    refine ⟨⟨?_, ?_, Nat.zero_le p⟩, rfl, rfl, rfl⟩
    · intro j
      simp [init, State.pc, Pc.critical, State.board, Board.free]
    · intro j hj
      cases hj
  batchLock := by
    refine ⟨fun _ => rfl, ?_⟩
    intro c hc
    cases hc
  leads := by
    refine ⟨?_, ?_, ?_⟩
    · intro i hi
      cases hi
    · intro k hk
      cases hk
    · intro c hc
      cases hc

/-! ## One worker moves -/

/-- Only worker `i` is somewhere else. -/
structure Moves (s s' : State) (i : Nat) (pc : Pc) : Prop where
  here : s'.pc i = pc
  others : ∀ j, j ≠ i → s'.worker j = s.worker j

variable {p : Nat} {s s' : State} {leader : Option Nat} {i : Nat} {pc : Pc}

/-- The others stay where they are. -/
theorem Moves.elsewhere (h : Moves s s' i pc) {j : Nat} (hj : j ≠ i) : s'.pc j = s.pc j := congrArg Worker.pc (h.others j hj)

/-- A state that updates worker `i` only. -/
theorem Moves.of_update {w : Worker} (hw : s'.worker = Function.update s.worker i w) (hpc : w.pc = pc) :
    Moves s s' i pc where
  here := by
    unfold State.pc
    rw [hw, Function.update_self]
    exact hpc
  others j hj := by rw [hw, Function.update_of_ne hj]

/-- A worker moves that stays in the batch, or stays out of it. -/
theorem Crew.move (h : Crew p s) (hm : Moves s s' i pc) (hi : i < p) (hin : pc.inBatch = (s.pc i).inBatch)
    (hbatch : s'.batch = s.batch) (hid : s'.relabelId = s.relabelId) : Crew p s' where
  workers j hj := by
    have hne : j ≠ i := by omega
    rw [hm.elsewhere hne]
    exact h.workers j hj
  runs j := by
    rw [hbatch, ← h.runs j]
    by_cases hj : j = i
    · subst hj
      rw [hm.here, hin]
    · rw [hm.elsewhere hj]
  sound := by
    rw [hbatch]
    exact h.sound
  parity := by
    rw [hbatch, hid]
    exact h.parity

/-- A leader that is not the one that moves stays where it is. -/
theorem board_other (hm : Moves s s' i pc) (hl : leader ≠ some i) : s'.board p leader = s.board p leader := by
  cases leader with
  | none => rfl
  | some k =>
      have hk : k ≠ i := fun hki => hl (congrArg some hki)
      simp only [State.board]
      rw [hm.elsewhere hk]

/-- The leader moves: its new place is the new board. -/
theorem board_self (hm : Moves s s' i pc) : s'.board p (some i) = pc.board p i := by
  simp only [State.board]
  rw [hm.here]

/-- Worker `i` goes in or out of its critical section, or stays. Only its own mutex may be written; `hmut` and `hin`
    are the two clauses of `Mutexes` for it. -/
theorem Mutexes.own {b : Board} (h : Mutexes p s b) (hm : Moves s s' i pc)
    (hothers : ∀ j, j ≠ i → s'.muts j = s.muts j) (hmut : s'.muts i = true ↔ pc.critical = true ∨ (b.lo ≤ i ∧ i < b.hi))
    (hin : pc.critical = true → ¬(b.lo ≤ i ∧ i < b.hi)) : Mutexes p s' b where
  held j := by
    by_cases hj : j = i
    · subst hj
      rw [hm.here]
      exact hmut
    · rw [hothers j hj, hm.elsewhere hj]
      exact h.held j
  apart j := by
    by_cases hj : j = i
    · subst hj
      rw [hm.here]
      exact hin
    · rw [hm.elsewhere hj]
      exact h.apart j
  hi_le := h.hi_le

/-- Nothing shared is written. -/
structure SameShared (s s' : State) : Prop where
  muts : s'.muts = s.muts
  relabelMutex : s'.relabelMutex = s.relabelMutex
  batchLock : s'.batchLock = s.batchLock
  inProgress : s'.inProgress = s.inProgress
  relabelId : s'.relabelId = s.relabelId
  ownerId : s'.ownerId = s.ownerId
  pendingId : s'.pendingId = s.pendingId
  batch : s'.batch = s.batch

/-- No mutex is written, and the worker stays in or out of its critical section. -/
theorem Mutexes.stay {b : Board} (h : Mutexes p s b) (hm : Moves s s' i pc) (hmuts : s'.muts = s.muts)
    (hcrit : pc.critical = (s.pc i).critical) : Mutexes p s' b := by
  apply h.own hm
  · intro j _
    rw [hmuts]
  · rw [hmuts, hcrit]
    exact h.held i
  · rw [hcrit]
    exact h.apart i

/-- Nothing shared is written at all. -/
theorem Shared.stay {b : Board} (h : Shared p s b) (hm : Moves s s' i pc) (hs : SameShared s s')
    (hcrit : pc.critical = (s.pc i).critical) : Shared p s' b where
  toMutexes := h.toMutexes.stay hm hs.muts hcrit
  relabelMutex := hs.relabelMutex.trans h.relabelMutex
  inProgress := hs.inProgress.trans h.inProgress
  ownerId := hs.ownerId.trans h.ownerId

/-- Neither the batch nor its lock is written. -/
theorem BatchLock.stay {b b' : Board} (h : BatchLock s b) (hbatch : s'.batch = s.batch)
    (hlock : s'.batchLock = s.batchLock) (hb : b'.batchLock = b.batchLock) : BatchLock s' b' where
  quiet := by
    rw [hbatch, hlock, hb]
    exact h.quiet
  running := by
    rw [hbatch, hlock, hb]
    exact h.running

/-- A worker that is not the leader moves on, to a place that is not for the leader. -/
theorem Leads.follow (h : Leads s leader) (hm : Moves s s' i pc) (hl : leader ≠ some i) (hleads : pc.leads = false)
    (hbatch : s'.batch = s.batch) (hid : s'.pendingId = s.pendingId) : Leads s' leader where
  leads j hj := by
    by_cases hji : j = i
    · subst hji
      rw [hm.here, hleads] at hj
      cases hj
    · rw [hm.elsewhere hji] at hj
      exact h.leads j hj
  role k hk := by
    have hki : k ≠ i := fun hki => hl (hki ▸ hk)
    rw [hm.elsewhere hki]
    exact h.role k hk
  active c hc hactive := by
    rw [hbatch] at hc
    obtain ⟨k, hk, hjoined, hbid⟩ := h.active c hc hactive
    have hki : k ≠ i := fun hki => hl (hki ▸ hk)
    refine ⟨k, hk, ?_, ?_⟩
    · rw [hm.elsewhere hki]
      exact hjoined
    · rw [hm.others k hki, hid]
      exact hbid

/-- The leader moves on. While its batch is active it stays in the loop, with the same id. -/
theorem Leads.lead (h : Leads s (some i)) (hm : Moves s s' i pc) (hcan : pc.canLead = true)
    (hactive : ∀ c, s.batch = some c → c.active = true → pc.joined = true ∧ (s'.worker i).batchId = (s.worker i).batchId)
    (hbatch : s'.batch = s.batch) (hid : s'.pendingId = s.pendingId) : Leads s' (some i) where
  leads j hj := by
    by_cases hji : j = i
    · rw [hji]
    · rw [hm.elsewhere hji] at hj
      exact h.leads j hj
  role k hk := by
    cases hk
    rw [hm.here]
    exact hcan
  active c hc hact := by
    rw [hbatch] at hc
    obtain ⟨k, hk, -, hbid⟩ := h.active c hc hact
    cases hk
    obtain ⟨hjoined, hsame⟩ := hactive c hc hact
    refine ⟨i, rfl, ?_, ?_⟩
    · rw [hm.here]
      exact hjoined
    · rw [hsame, hid]
      exact hbid

/-- **A step that writes nothing shared**, by a worker that is not the leader. -/
theorem Locks.follow (h : Locks p s leader) (hm : Moves s s' i pc) (hi : i < p) (hl : leader ≠ some i)
    (hs : SameShared s s') (hleads : pc.leads = false) (hcrit : pc.critical = (s.pc i).critical)
    (hin : pc.inBatch = (s.pc i).inBatch) : Locks p s' leader where
  crew := h.crew.move hm hi hin hs.batch hs.relabelId
  shared := by
    rw [board_other hm hl]
    exact h.shared.stay hm hs hcrit
  batchLock := by
    rw [board_other hm hl]
    exact h.batchLock.stay hs.batch hs.batchLock rfl
  leads := h.leads.follow hm hl hleads hs.batch hs.pendingId

/-- **A step that writes nothing shared**, by the leader. -/
theorem Locks.lead (h : Locks p s (some i)) (hm : Moves s s' i pc) (hi : i < p) (hs : SameShared s s')
    (hboard : pc.board p i = (s.pc i).board p i) (hcan : pc.canLead = true)
    (hactive : ∀ c, s.batch = some c → c.active = true → pc.joined = true ∧ (s'.worker i).batchId = (s.worker i).batchId)
    (hcrit : pc.critical = (s.pc i).critical) (hin : pc.inBatch = (s.pc i).inBatch) : Locks p s' (some i) where
  crew := h.crew.move hm hi hin hs.batch hs.relabelId
  shared := by
    rw [board_self hm, hboard]
    exact h.shared.stay hm hs hcrit
  batchLock := by
    rw [board_self hm, hboard]
    exact h.batchLock.stay hs.batch hs.batchLock rfl
  leads := h.leads.lead hm hcan hactive hs.batch hs.pendingId

/-! ## `join_batch` -/

theorem Moves.goes {t : State} (ht : ∀ j, j ≠ i → t.worker j = s.worker j) : Moves s (t.goes i pc) i pc where
  here := by simp [State.goes, State.pc]
  others j hj := by
    simp only [State.goes]
    rw [Function.update_of_ne hj]
    exact ht j hj

/-- A worker that goes on, with nothing written. -/
theorem moves_goes : Moves s (s.goes i pc) i pc := Moves.goes fun _ _ => rfl

/-- Going on writes the place of the worker only. -/
theorem sameShared_goes : SameShared s (s.goes i pc) := ⟨rfl, rfl, rfl, rfl, rfl, rfl, rfl, rfl⟩

/-- `batch_id` is the worker's own. -/
theorem moves_setBatchId {v : Option Nat} : Moves s ((s.setBatchId i v).goes i pc) i pc :=
  Moves.goes fun j hj => by
    simp only [State.setBatchId]
    rw [Function.update_of_ne hj]

/-- So nothing shared is written either. -/
theorem sameShared_setBatchId {v : Option Nat} : SameShared s ((s.setBatchId i v).goes i pc) :=
  ⟨rfl, rfl, rfl, rfl, rfl, rfl, rfl, rfl⟩

/-- In front of the relabel mutex nobody leads. -/
theorem Leads.not_leader (h : Leads s leader) (hcan : (s.pc i).canLead = false) : leader ≠ some i := by
  intro hl
  rw [h.role i hl] at hcan
  cases hcan

/-- At a place for the leader is the leader. -/
theorem Leads.is_leader (h : Leads s leader) (hleads : (s.pc i).leads = true) : leader = some i := h.leads i hleads

/-- No batch is active while the leader is not in it. -/
theorem Leads.not_active (h : Leads s (some i)) (hjoined : (s.pc i).joined = false) {c : Batch} (hc : s.batch = some c) :
    c.active ≠ true := by
  intro hact
  obtain ⟨k, hk, hj, -⟩ := h.active c hc hact
  cases hk
  rw [hj] at hjoined
  cases hjoined

/-- **The leader moves on** and writes something shared. It is not in the loop, so no batch is active; what is left
    to show is that the shared variables are as its new board has them. -/
theorem Locks.advance (h : Locks p s (some i)) (hm : Moves s s' i pc) (hi : i < p) (hbatch : s'.batch = s.batch)
    (hrid : s'.relabelId = s.relabelId) (hpid : s'.pendingId = s.pendingId) (hcan : pc.canLead = true)
    (hjoined : (s.pc i).joined = false) (hin : pc.inBatch = (s.pc i).inBatch) (hshared : Shared p s' (pc.board p i))
    (hlock : BatchLock s' (pc.board p i)) : Locks p s' (some i) where
  crew := h.crew.move hm hi hin hbatch hrid
  shared := by
    rw [board_self hm]
    exact hshared
  batchLock := by
    rw [board_self hm]
    exact hlock
  leads := h.leads.lead hm hcan (fun c hc hact => absurd hact (h.leads.not_active hjoined hc)) hbatch hpid

/-- The leader holds the same mutexes of workers as before. -/
theorem Mutexes.sameRange {b b' : Board} (h : Mutexes p s b) (hlo : b'.lo = b.lo) (hhi : b'.hi = b.hi) :
    Mutexes p s b' where
  held := by
    rw [hlo, hhi]
    exact h.held
  apart := by
    rw [hlo, hhi]
    exact h.apart
  hi_le := by
    rw [hhi]
    exact h.hi_le

/-- The leader takes one more mutex. It was free, so its worker is not in its critical section, and it stays out of
    it until the mutex is given back. -/
theorem Mutexes.lockNext {b b' : Board} (h : Mutexes p s b) (hm : Moves s ((s.setMut b.hi true).goes i pc) i pc)
    (hcrit : pc.critical = (s.pc i).critical) (hn : b.hi < p) (hlo : b.lo ≤ b.hi) (hfree : s.muts b.hi = false)
    (hlo' : b'.lo = b.lo) (hhi' : b'.hi = b.hi + 1) : Mutexes p ((s.setMut b.hi true).goes i pc) b' := by
  have hpc : ∀ j, (((s.setMut b.hi true).goes i pc).pc j).critical = (s.pc j).critical := by
    intro j
    by_cases hj : j = i
    · subst hj
      rw [hm.here, hcrit]
    · rw [hm.elsewhere hj]
  have hnot : (s.pc b.hi).critical = false := by
    by_contra hc
    have hheld := (h.held b.hi).mpr (Or.inl (by simpa using hc))
    rw [hfree] at hheld
    cases hheld
  refine ⟨?_, ?_, by omega⟩
  · intro j
    rw [hpc j, hlo', hhi']
    show Function.update s.muts b.hi true j = true ↔ _
    by_cases hj : j = b.hi
    · subst hj
      rw [Function.update_self]
      simp [hlo]
    · rw [Function.update_of_ne hj, h.held j]
      have hiff : (b.lo ≤ j ∧ j < b.hi + 1) ↔ (b.lo ≤ j ∧ j < b.hi) := by omega
      rw [hiff]
  · intro j hj
    rw [hpc j] at hj
    rw [hlo', hhi']
    have hne : j ≠ b.hi := by
      rintro rfl
      rw [hnot] at hj
      cases hj
    have hap := h.apart j hj
    omega

/-- The leader gives one mutex back. Its worker was kept out of its critical section, so afterwards nobody holds it.
    -/
theorem Mutexes.unlockNext {b b' : Board} (h : Mutexes p s b) (hm : Moves s ((s.setMut b.lo false).goes i pc) i pc)
    (hcrit : pc.critical = (s.pc i).critical) (hlo : b.lo < b.hi) (hlo' : b'.lo = b.lo + 1) (hhi' : b'.hi = b.hi) :
    Mutexes p ((s.setMut b.lo false).goes i pc) b' := by
  have hpc : ∀ j, (((s.setMut b.lo false).goes i pc).pc j).critical = (s.pc j).critical := by
    intro j
    by_cases hj : j = i
    · subst hj
      rw [hm.here, hcrit]
    · rw [hm.elsewhere hj]
  have hnot : (s.pc b.lo).critical = false := by
    by_contra hc
    exact h.apart b.lo (by simpa using hc) ⟨Nat.le_refl _, hlo⟩
  refine ⟨?_, ?_, hhi' ▸ h.hi_le⟩
  · intro j
    rw [hpc j, hlo', hhi']
    show Function.update s.muts b.lo false j = true ↔ _
    by_cases hj : j = b.lo
    · subst hj
      rw [Function.update_self, hnot]
      simp
    · rw [Function.update_of_ne hj, h.held j]
      have hiff : (b.lo + 1 ≤ j ∧ j < b.hi) ↔ (b.lo ≤ j ∧ j < b.hi) := by omega
      rw [hiff]
  · intro j hj
    rw [hpc j] at hj
    rw [hlo', hhi']
    have hap := h.apart j hj
    omega

/-- The leader at a place of its own: nothing of a batch. The invariant with its board written out, as every proof
    for such a place starts. -/
theorem Locks.atBoard (h : Locks p s leader) (hleads : (s.pc i).leads = true) :
    leader = some i ∧ Locks p s (some i) ∧ Shared p s ((s.pc i).board p i) ∧ BatchLock s ((s.pc i).board p i) := by
  obtain rfl := h.leads.is_leader hleads
  exact ⟨rfl, h, h.shared, h.batchLock⟩

variable {site : Site}

/-- Before the relabel mutex, and in the loop of `execute_batch`, but for the leader. -/
theorem Locks.approach (h : Locks p s leader) (hi : i < p) (hl : leader ≠ some i)
    (hcrit : (s.pc i).critical = false) (hin : (s.pc i).inBatch = false) (hleads' : pc.leads = false)
    (hcrit' : pc.critical = false) (hin' : pc.inBatch = false) : Locks p (s.goes i pc) leader :=
  h.follow moves_goes hi hl sameShared_goes hleads' (hcrit'.trans hcrit.symm) (hin'.trans hin.symm)

/-- `__cilkrts_mutex_trylock` of the relabel mutex succeeds. The mutex was free, so there was no leader: the board
    of any leader has the relabel mutex locked. -/
theorem Locks.becomeLeader (h : Locks p s leader) (hi : i < p) (hpc : s.pc i = .join site .tryRelabelMutex)
    (hfree : s.relabelMutex.lock = false) :
    Locks p { s.goes i (.join site .ownRelabelMutex) with relabelMutex := { s.relabelMutex with lock := true } }
      (some i) := by
  have hnone : leader = none := by
    cases leader with
    | none => rfl
    | some k =>
        have hrole := h.leads.role k rfl
        have hmutex := h.shared.relabelMutex
        rw [hmutex] at hfree
        simp only [State.board] at hfree
        revert hrole hfree
        cases s.pc k with
        | join _ j => cases j <;> simp [Pc.canLead, Pc.board, Board.free, Pc.leads, Pc.joined]
        | failed a => cases a <;> simp [Pc.canLead, Pc.board, Board.free, Pc.leads, Pc.joined]
        | _ => simp [Pc.canLead, Pc.leads, Pc.joined]
  subst hnone
  have hm : Moves s { s.goes i (.join site .ownRelabelMutex) with relabelMutex := { s.relabelMutex with lock := true } }
      i (.join site .ownRelabelMutex) := .of_update rfl rfl
  refine ⟨h.crew.move hm hi (by rw [hpc]; rfl) rfl rfl, ?_, ?_, ?_, ?_, ?_⟩
  · rw [board_self hm]
    refine ⟨(h.shared.toMutexes.stay hm rfl (by rw [hpc]; rfl)).sameRange rfl rfl, ?_, h.shared.inProgress,
      h.shared.ownerId⟩
    have hmutex := h.shared.relabelMutex
    simp only [hmutex]
    rfl
  · rw [board_self hm]
    exact h.batchLock.stay rfl rfl rfl
  · intro j hj
    by_cases hji : j = i
    · rw [hji]
    · rw [hm.elsewhere hji] at hj
      cases h.leads.leads j hj
  · intro k hk
    cases hk
    rw [hm.here]
    rfl
  · intro c hc hact
    obtain ⟨k, hk, -⟩ := h.leads.active c hc hact
    cases hk

/-- Without a batch the lock of batches is what the leader has made it. Conversely, where the board has something
    other than a free lock, no batch runs. -/
theorem BatchLock.no_batch {b : Board} (h : BatchLock s b) (hb : b.batchLock ≠ ⟨false, none⟩) : s.batch = none := by
  cases hc : s.batch with
  | none => rfl
  | some c => exact absurd (h.running c hc).2.2 hb

/-- The leader writes to the lock of batches, without a batch. -/
theorem BatchLock.write {b : Board} (hbatch : s'.batch = none) (hlock : s'.batchLock = b.batchLock) :
    BatchLock s' b where
  quiet _ := hlock
  running c hc := by
    rw [hbatch] at hc
    cases hc

/-- **The leader, up to its batch**, at five places of the code. The assertions on owners hold, as the board has no
    owner there yet; `setNextBatchOwner` fails when the last batch has not released its lock, and then the leader
    stays where it has failed. -/
theorem Locks.before (h : Locks p s leader) (hi : i < p) {j : Join} (hpc : s.pc i = .join site j)
    (hj : j = .ownRelabelMutex ∨ j = .setNextBatchOwner ∨ j = .ownBatchLock ∨ (∃ n, j = .lockMutex n) ∨
      j = .setBatchOwnerId)
    (hstep : stepJoin p s i site j = some s') : Locks p s' (some i) := by
  have hleads : (s.pc i).leads = true := by
    rw [hpc]
    rcases hj with rfl | rfl | rfl | ⟨n, rfl⟩ | rfl <;> rfl
  obtain ⟨rfl, h, hshared, hlock⟩ := h.atBoard hleads
  have hjoined : (s.pc i).joined = false := by
    rw [hpc]
    rcases hj with rfl | rfl | rfl | ⟨n, rfl⟩ | rfl <;> rfl
  have hin : (s.pc i).inBatch = false := by
    rw [hpc]
    rcases hj with rfl | rfl | rfl | ⟨n, rfl⟩ | rfl <;> rfl
  have hcrit : (s.pc i).critical = false := by
    rw [hpc]
    rcases hj with rfl | rfl | rfl | ⟨n, rfl⟩ | rfl <;> rfl
  rcases hj with rfl | rfl | rfl | ⟨n, rfl⟩ | rfl
  · rw [hpc] at hshared hlock
    have howner : s.relabelMutex.owner = none := by rw [hshared.relabelMutex]; rfl
    simp only [stepJoin, howner, if_true, Option.some.injEq] at hstep
    subst hstep
    have hm : Moves s { s.goes i (.join site .setNextBatchOwner) with
        relabelMutex := { s.relabelMutex with owner := some i } } i (.join site .setNextBatchOwner) :=
      .of_update rfl rfl
    refine h.advance hm hi rfl rfl rfl rfl hjoined hin.symm ⟨?_, ?_, hshared.inProgress, hshared.ownerId⟩ ?_
    · exact (hshared.toMutexes.stay hm rfl hcrit.symm).sameRange rfl rfl
    · simp only [hshared.relabelMutex]
      rfl
    · exact hlock.stay rfl rfl rfl
  · rw [hpc] at hshared hlock
    simp only [stepJoin] at hstep
    split at hstep
    · cases hstep
      have hm : Moves s (s.goes i (.failed .nextBatchOwner)) i (.failed .nextBatchOwner) := moves_goes
      refine h.advance hm hi rfl rfl rfl rfl hjoined hin.symm ?_ ?_
      · exact hshared.stay hm sameShared_goes hcrit.symm
      · exact hlock.stay rfl rfl rfl
    · rename_i hfree
      cases hstep
      have hm : Moves s { s.goes i (.join site .ownBatchLock) with batchLock := { s.batchLock with lock := true } } i
          (.join site .ownBatchLock) := .of_update rfl rfl
      have hnone : s.batch = none := by
        cases hc : s.batch with
        | none => rfl
        | some c => exact absurd (hlock.running c hc).1 hfree
      refine h.advance hm hi rfl rfl rfl rfl hjoined hin.symm
        ⟨?_, hshared.relabelMutex, hshared.inProgress, hshared.ownerId⟩ ?_
      · exact (hshared.toMutexes.stay hm rfl hcrit.symm).sameRange rfl rfl
      · apply BatchLock.write
        · exact hnone
        · simp only [hlock.quiet hnone]
          rfl
  · rw [hpc] at hshared hlock
    have hnone : s.batch = none := hlock.no_batch (by simp [Pc.board])
    have howner : s.batchLock.owner = none := by rw [hlock.quiet hnone]; rfl
    simp only [stepJoin, howner, if_true, Option.some.injEq] at hstep
    subst hstep
    have hm : Moves s { s.goes i (.join site (.lockMutex 0)) with batchLock := { s.batchLock with owner := some i } } i
        (.join site (.lockMutex 0)) := .of_update rfl rfl
    refine h.advance hm hi rfl rfl rfl rfl hjoined hin.symm
      ⟨?_, hshared.relabelMutex, hshared.inProgress, hshared.ownerId⟩ ?_
    · exact (hshared.toMutexes.stay hm rfl hcrit.symm).sameRange rfl rfl
    · apply BatchLock.write
      · exact hnone
      · simp only [hlock.quiet hnone]
        rfl
  · rw [hpc] at hshared hlock
    have hnone : s.batch = none := hlock.no_batch (by simp [Pc.board])
    simp only [stepJoin] at hstep
    split at hstep
    · rename_i hn
      split at hstep
      · cases hstep
      · rename_i hmut
        have hfree : s.muts n = false := by simpa using hmut
        cases hstep
        have hm : Moves s ((s.setMut n true).goes i (.join site (.lockMutex (n + 1)))) i
            (.join site (.lockMutex (n + 1))) := .of_update rfl rfl
        refine h.advance hm hi rfl rfl rfl rfl hjoined hin.symm
          ⟨?_, hshared.relabelMutex, hshared.inProgress, hshared.ownerId⟩ ?_
        · exact hshared.toMutexes.lockNext hm hcrit.symm hn (Nat.zero_le n) hfree rfl rfl
        · exact BatchLock.write hnone (hlock.quiet hnone)
    · rename_i hn
      cases hstep
      have hm : Moves s { s.goes i (.join site .setBatchOwnerId) with inProgress := true } i
          (.join site .setBatchOwnerId) := .of_update rfl rfl
      have hhi : n = p := Nat.le_antisymm hshared.hi_le (Nat.le_of_not_lt hn)
      refine h.advance hm hi rfl rfl rfl rfl hjoined hin.symm ⟨?_, hshared.relabelMutex, rfl, hshared.ownerId⟩ ?_
      · exact (hshared.toMutexes.stay hm rfl hcrit.symm).sameRange rfl hhi.symm
      · exact BatchLock.write hnone (hlock.quiet hnone)
  · rw [hpc] at hshared hlock
    have hnone : s.batch = none := hlock.no_batch (by simp [Pc.board])
    have howner : s.ownerId = none := hshared.ownerId
    simp only [stepJoin, howner, if_true, Option.some.injEq] at hstep
    subst hstep
    have hm : Moves s { s.goes i (.join site .invoke) with ownerId := some i } i (.join site .invoke) :=
      .of_update rfl rfl
    refine h.advance hm hi rfl rfl rfl rfl hjoined hin.symm ⟨?_, hshared.relabelMutex, hshared.inProgress, rfl⟩ ?_
    · exact (hshared.toMutexes.stay hm rfl hcrit.symm).sameRange rfl rfl
    · exact BatchLock.write hnone (hlock.quiet hnone)

/-- **The leader starts its batch.** It runs it alone at first, and it takes the id of the batch, for which it waits
    later. -/
theorem Locks.invoke (h : Locks p s leader) (hi : i < p) (hpc : s.pc i = .join site .invoke)
    (hstep : stepJoin p s i site .invoke = some s') : Locks p s' (some i) := by
  obtain ⟨rfl, h, hshared, hlock⟩ := h.atBoard (i := i) (by rw [hpc]; rfl)
  rw [hpc] at hshared hlock
  have hnone : s.batch = none := hlock.no_batch (by simp [Pc.board])
  simp only [stepJoin, Option.some.injEq] at hstep
  subst hstep
  have hm : Moves s { (s.setBatchId i (some s.pendingId)).goes i (.join site .busy) with batch := some (.starting i) } i
      (.join site .busy) := by
    refine .of_update (w := { s.worker i with batchId := some s.pendingId, pc := .join site .busy }) ?_ rfl
    simp [State.goes, State.setBatchId]
  refine ⟨⟨?_, ?_, ?_, ?_⟩, ?_, ?_, ?_, ?_, ?_⟩
  · intro j hj
    rw [hm.elsewhere (by omega)]
    exact h.crew.workers j hj
  · intro j
    by_cases hji : j = i
    · subst hji
      rw [hm.here]
      exact ⟨fun _ => ⟨_, rfl, rfl⟩, fun _ => rfl⟩
    · rw [hm.elsewhere hji, h.crew.runs j, hnone]
      constructor
      · rintro ⟨c, hc, -⟩
        cases hc
      · rintro ⟨c, hc, hrun⟩
        cases hc
        exact absurd hrun hji
  · rintro c ⟨⟩
    trivial
  · have hold := h.crew.parity
    rw [hnone] at hold
    show s.relabelId % 2 = 1 ↔ _
    rw [hold]
    constructor
    · rintro ⟨c, hc, -⟩
      cases hc
    · rintro ⟨c, hc, hrel⟩
      cases hc
      cases hrel
  · rw [board_self hm]
    refine ⟨?_, hshared.relabelMutex, hshared.inProgress, hshared.ownerId⟩
    exact (hshared.toMutexes.stay hm rfl (by rw [hpc]; rfl)).sameRange rfl rfl
  · rw [board_self hm]
    refine ⟨?_, ?_⟩
    · rintro ⟨⟩
    · rintro c ⟨⟩
      have hwas := hlock.quiet hnone
      refine ⟨?_, ?_, rfl⟩
      · show s.batchLock.lock = true
        rw [hwas]
        rfl
      · show s.batchLock.owner = none ↔ _
        rw [hwas]
        simp [Pc.board]
  · intro j hj
    by_cases hji : j = i
    · rw [hji]
    · rw [hm.elsewhere hji] at hj
      exact h.leads.leads j hj
  · intro k hk
    cases hk
    rw [hm.here]
    rfl
  · intro c hc hact
    refine ⟨i, rfl, ?_, ?_⟩
    · rw [hm.here]
      rfl
    · simp [State.goes, State.setBatchId]

/-- The leader is at the end of `join_batch`, and no batch is active. It clears the flag and the owner, gives the
    mutexes of the workers back one by one, and lets go of the relabel mutex. The lock of batches is not its own any
    more. -/
theorem Locks.after (h : Locks p s leader) (hi : i < p) {j : Join} (hpc : s.pc i = .join site j)
    (hj : j = .stop ∨ j = .disown ∨ (∃ n, j = .unlockMutex n) ∨ j = .disownRelabelMutex)
    (hstep : stepJoin p s i site j = some s') : Locks p s' (some i) := by
  have hleads : (s.pc i).leads = true := by
    rw [hpc]
    rcases hj with rfl | rfl | ⟨n, rfl⟩ | rfl <;> rfl
  obtain ⟨rfl, h, hshared, hlock⟩ := h.atBoard hleads
  have hjoined : (s.pc i).joined = false := by
    rw [hpc]
    rcases hj with rfl | rfl | ⟨n, rfl⟩ | rfl <;> rfl
  have hin : (s.pc i).inBatch = false := by
    rw [hpc]
    rcases hj with rfl | rfl | ⟨n, rfl⟩ | rfl <;> rfl
  have hcrit : (s.pc i).critical = false := by
    rw [hpc]
    rcases hj with rfl | rfl | ⟨n, rfl⟩ | rfl <;> rfl
  rcases hj with rfl | rfl | ⟨n, rfl⟩ | rfl
  · rw [hpc] at hshared hlock
    cases hstep
    have hm : Moves s { s.goes i (.join site .disown) with inProgress := false } i (.join site .disown) :=
      .of_update rfl rfl
    refine h.advance hm hi rfl rfl rfl rfl hjoined hin.symm ⟨?_, hshared.relabelMutex, rfl, hshared.ownerId⟩ ?_
    · exact (hshared.toMutexes.stay hm rfl hcrit.symm).sameRange rfl rfl
    · exact hlock.stay rfl rfl rfl
  · rw [hpc] at hshared hlock
    cases hstep
    have hm : Moves s { s.goes i (.join site (.unlockMutex 0)) with ownerId := none } i (.join site (.unlockMutex 0)) :=
      .of_update rfl rfl
    refine h.advance hm hi rfl rfl rfl rfl hjoined hin.symm ⟨?_, hshared.relabelMutex, hshared.inProgress, rfl⟩ ?_
    · exact (hshared.toMutexes.stay hm rfl hcrit.symm).sameRange rfl rfl
    · exact hlock.stay rfl rfl rfl
  · rw [hpc] at hshared hlock
    simp only [stepJoin] at hstep
    split at hstep
    · rename_i hn
      cases hstep
      have hm : Moves s ((s.setMut n false).goes i (.join site (.unlockMutex (n + 1)))) i
          (.join site (.unlockMutex (n + 1))) := .of_update rfl rfl
      refine h.advance hm hi rfl rfl rfl rfl hjoined hin.symm
        ⟨?_, hshared.relabelMutex, hshared.inProgress, hshared.ownerId⟩ ?_
      · exact hshared.toMutexes.unlockNext hm hcrit.symm hn rfl rfl
      · exact hlock.stay rfl rfl rfl
    · rename_i hn
      cases hstep
      have hm : Moves s (s.goes i (.join site .disownRelabelMutex)) i (.join site .disownRelabelMutex) := moves_goes
      refine h.advance hm hi rfl rfl rfl rfl hjoined hin.symm
        ⟨?_, hshared.relabelMutex, hshared.inProgress, hshared.ownerId⟩ ?_
      · have hstay := hshared.toMutexes.stay hm rfl hcrit.symm
        have hempty : ∀ j, ¬(n ≤ j ∧ j < p) := by omega
        refine ⟨?_, ?_, Nat.zero_le p⟩
        · intro j
          rw [hstay.held j]
          simp [Pc.board, Board.free, hempty j]
        · intro j _
          simp [Pc.board, Board.free]
      · exact hlock.stay rfl rfl rfl
  · rw [hpc] at hshared hlock
    have howner : s.relabelMutex.owner = some i := by rw [hshared.relabelMutex]; rfl
    simp only [stepJoin, howner, if_true, Option.some.injEq] at hstep
    subst hstep
    have hm : Moves s { s.goes i (.join site .unlockRelabelMutex) with
        relabelMutex := { s.relabelMutex with owner := none } } i (.join site .unlockRelabelMutex) :=
      .of_update rfl rfl
    refine h.advance hm hi rfl rfl rfl rfl hjoined hin.symm ⟨?_, ?_, hshared.inProgress, hshared.ownerId⟩ ?_
    · exact (hshared.toMutexes.stay hm rfl hcrit.symm).sameRange rfl rfl
    · simp only [hshared.relabelMutex]
      rfl
    · exact hlock.stay rfl rfl rfl

/-- Behind `join_batch` a worker is outside everything. -/
theorem next_plain (site : Site) : site.next.leads = false ∧ site.next.critical = false ∧ site.next.inBatch = false := by
  cases site <;> exact ⟨rfl, rfl, rfl⟩

/-- **The leader gives the relabel mutex back.** Its board is the free one, but for that mutex. -/
theorem Locks.unlead (h : Locks p s leader) (hi : i < p) (hpc : s.pc i = .join site .unlockRelabelMutex)
    (hstep : stepJoin p s i site .unlockRelabelMutex = some s') : Locks p s' none := by
  obtain ⟨rfl, h, hshared, hlock⟩ := h.atBoard (i := i) (by rw [hpc]; rfl)
  have hjoined : (s.pc i).joined = false := by rw [hpc]; rfl
  have hnot : ∀ c, s.batch = some c → c.active ≠ true := fun c hc => h.leads.not_active hjoined hc
  rw [hpc] at hshared hlock
  cases hstep
  obtain ⟨hleads', hcrit', hin'⟩ := next_plain site
  have hm : Moves s { s.goes i site.next with relabelMutex := { s.relabelMutex with lock := false } } i site.next :=
    .of_update rfl rfl
  refine ⟨h.crew.move hm hi (by rw [hpc, hin']; rfl) rfl rfl, ⟨?_, ?_, hshared.inProgress, hshared.ownerId⟩, ?_, ?_, ?_,
    ?_⟩
  · exact (hshared.toMutexes.stay hm rfl (by rw [hpc, hcrit']; rfl)).sameRange rfl rfl
  · simp only [hshared.relabelMutex]
    rfl
  · exact hlock.stay rfl rfl rfl
  · intro j hj
    by_cases hji : j = i
    · subst hji
      rw [hm.here, hleads'] at hj
      cases hj
    · rw [hm.elsewhere hji] at hj
      exact absurd (Option.some.inj (h.leads.leads j hj)) fun heq => hji heq.symm
  · intro k hk
    cases hk
  · intro c hc hact
    exact absurd hact (hnot c hc)

/-- `g_batch_owner_id` is the leader: the board of a leader has its own number there or none. So `compare` sends the
    leader, and no one else, to the end of the batch. -/
theorem Locks.ownerId_leader (h : Locks p s leader) {k : Nat} (howner : s.ownerId = some k) : leader = some k := by
  have hboard := h.shared.ownerId
  rw [howner] at hboard
  cases leader with
  | none => cases hboard
  | some l =>
      have hid : ((s.pc l).board p l).ownerId = none ∨ ((s.pc l).board p l).ownerId = some l := by
        cases s.pc l with
        | join _ j => cases j <;> simp [Pc.board, Board.free]
        | failed a => cases a <;> simp [Pc.board, Board.free]
        | _ => simp [Pc.board]
      simp only [State.board] at hboard
      rcases hid with hid | hid
      · rw [hid] at hboard
        cases hboard
      · exact (hboard.trans hid).symm

/-- **The loop of `execute_batch`**, for the leader and for the others. The leader leaves it only with
    `pending_batch.id` beyond its own id, or with no owner of the lock of batches; in both cases its batch is not
    active any more. Everybody else may leave it at any time. -/
theorem Locks.loop (h : Locks p s leader) (hi : i < p) {j : Join} (hpc : s.pc i = .join site j)
    (hj : j = .waitId ∨ j = .waitOwner ∨ j = .steal ∨ j = .leave ∨ j = .compare)
    (hstep : stepJoin p s i site j = some s') : Locks p s' leader := by
  have hcrit : (s.pc i).critical = false := by
    rw [hpc]
    rcases hj with rfl | rfl | rfl | rfl | rfl <;> rfl
  have hin : (s.pc i).inBatch = false := by
    rw [hpc]
    rcases hj with rfl | rfl | rfl | rfl | rfl <;> rfl
  by_cases hl : leader = some i
  · subst hl
    rcases hj with rfl | rfl | rfl | rfl | rfl
    · -- the batch that the leader waits for is active as long as its number is pending
      have hleave : ∀ b, (s.worker i).batchId = b → (∀ n, b = some n → ¬s.pendingId ≤ n) →
          Locks p (s.goes i (.join site .leave)) (some i) := by
        intro b hb hout
        refine h.lead moves_goes hi sameShared_goes (by rw [hpc]; rfl) rfl ?_ hcrit.symm hin.symm
        intro c hc hact
        obtain ⟨k, hk, -, hbid⟩ := h.leads.active c hc hact
        cases hk
        exact absurd (Nat.le_refl _) (hout _ (hb.symm.trans hbid))
      simp only [stepJoin] at hstep
      cases hb : (s.worker i).batchId with
      | none =>
          simp only [hb] at hstep
          cases hstep
          exact hleave none hb (fun n hn => by cases hn)
      | some n =>
          simp only [hb] at hstep
          split at hstep
          · cases hstep
            exact h.lead moves_goes hi sameShared_goes (by rw [hpc]; rfl) rfl
              (fun _ _ _ => ⟨rfl, by simp [State.goes]⟩) hcrit.symm hin.symm
          · rename_i hlt
            cases hstep
            exact hleave (some n) hb (fun m hm => by cases hm; exact hlt)
    · simp only [stepJoin] at hstep
      split at hstep
      · rename_i howner
        cases hstep
        refine h.lead moves_goes hi sameShared_goes (by rw [hpc]; rfl) rfl ?_ hcrit.symm hin.symm
        intro c hc hact
        obtain ⟨k, rfl⟩ := (h.batchLock.running c hc).2.1.mp howner
        cases hact
      · cases hstep
        exact h.lead moves_goes hi sameShared_goes (by rw [hpc]; rfl) rfl (fun _ _ _ => ⟨rfl, by simp [State.goes]⟩)
          hcrit.symm hin.symm
    · cases hstep
      exact h.lead moves_goes hi sameShared_goes (by rw [hpc]; rfl) rfl (fun _ _ _ => ⟨rfl, by simp [State.goes]⟩)
        hcrit.symm hin.symm
    · cases hstep
      exact h.lead moves_setBatchId hi sameShared_setBatchId (by rw [hpc]; rfl) rfl
        (fun c hc hact => absurd hact (h.leads.not_active (by rw [hpc]; rfl) hc)) hcrit.symm hin.symm
    · have howner : s.ownerId = some i := by
        rw [h.shared.ownerId]
        simp only [State.board]
        rw [hpc]
        rfl
      simp only [stepJoin, howner, if_true, Option.some.injEq] at hstep
      subst hstep
      exact h.lead moves_goes hi sameShared_goes (by rw [hpc]; rfl) rfl
        (fun c hc hact => absurd hact (h.leads.not_active (by rw [hpc]; rfl) hc)) hcrit.symm hin.symm
  · rcases hj with rfl | rfl | rfl | rfl | rfl
    · simp only [stepJoin] at hstep
      split at hstep
      · split at hstep
        · cases hstep
          exact h.approach hi hl hcrit hin rfl rfl rfl
        · cases hstep
          exact h.approach hi hl hcrit hin rfl rfl rfl
      · cases hstep
        exact h.approach hi hl hcrit hin rfl rfl rfl
    · simp only [stepJoin] at hstep
      split at hstep
      · cases hstep
        exact h.approach hi hl hcrit hin rfl rfl rfl
      · cases hstep
        exact h.approach hi hl hcrit hin rfl rfl rfl
    · cases hstep
      exact h.approach hi hl hcrit hin rfl rfl rfl
    · cases hstep
      exact h.follow moves_setBatchId hi hl sameShared_setBatchId rfl hcrit.symm hin.symm
    · simp only [stepJoin] at hstep
      split at hstep
      · rename_i howner
        exact absurd (h.ownerId_leader howner) hl
      · cases hstep
        obtain ⟨hleads', hcrit', hin'⟩ := next_plain site
        exact h.approach hi hl hcrit hin hleads' hcrit' hin'

/-- **`join_batch`**, one case for each place. The leader may change in two of them. -/
theorem Locks.stepJoin (h : Locks p s leader) (hi : i < p) {j : Join} (hpc : s.pc i = .join site j)
    (hstep : Batcher.stepJoin p s i site j = some s') : ∃ leader', Locks p s' leader' := by
  have hplain : ∀ j', s.pc i = .join site j' → j' = .batchify ∨ j' = .tryLockAll ∨ j' = .tryRelabelMutex →
      leader ≠ some i ∧ (s.pc i).critical = false ∧ (s.pc i).inBatch = false := by
    rintro j' hpc (rfl | rfl | rfl)
    · exact ⟨h.leads.not_leader (by rw [hpc]; rfl), by rw [hpc]; rfl, by rw [hpc]; rfl⟩
    · exact ⟨h.leads.not_leader (by rw [hpc]; rfl), by rw [hpc]; rfl, by rw [hpc]; rfl⟩
    · exact ⟨h.leads.not_leader (by rw [hpc]; rfl), by rw [hpc]; rfl, by rw [hpc]; rfl⟩
  cases j with
  | batchify =>
      obtain ⟨hl, hcrit, hin⟩ := hplain _ hpc (Or.inl rfl)
      simp only [Batcher.stepJoin] at hstep
      split at hstep
      · cases hstep
        exact ⟨leader, h.follow moves_setBatchId hi hl sameShared_setBatchId rfl hcrit.symm hin.symm⟩
      · cases hstep
        exact ⟨leader, h.approach hi hl hcrit hin rfl rfl rfl⟩
  | tryLockAll =>
      obtain ⟨hl, hcrit, hin⟩ := hplain _ hpc (Or.inr (Or.inl rfl))
      simp only [Batcher.stepJoin] at hstep
      split at hstep
      · cases hstep
        exact ⟨leader, h.approach hi hl hcrit hin rfl rfl rfl⟩
      · cases hstep
        exact ⟨leader, h.approach hi hl hcrit hin rfl rfl rfl⟩
  | tryRelabelMutex =>
      obtain ⟨hl, hcrit, hin⟩ := hplain _ hpc (Or.inr (Or.inr rfl))
      simp only [Batcher.stepJoin] at hstep
      split at hstep
      · cases hstep
        exact ⟨leader, h.approach hi hl hcrit hin rfl rfl rfl⟩
      · rename_i hfree
        cases hstep
        exact ⟨some i, h.becomeLeader hi hpc (by simpa using hfree)⟩
  | ownRelabelMutex => exact ⟨some i, h.before hi hpc (by simp) hstep⟩
  | setNextBatchOwner => exact ⟨some i, h.before hi hpc (by simp) hstep⟩
  | ownBatchLock => exact ⟨some i, h.before hi hpc (by simp) hstep⟩
  | lockMutex n => exact ⟨some i, h.before hi hpc (by simp) hstep⟩
  | setBatchOwnerId => exact ⟨some i, h.before hi hpc (by simp) hstep⟩
  | invoke => exact ⟨some i, h.invoke hi hpc hstep⟩
  | busy => cases hstep
  | waitId => exact ⟨leader, h.loop hi hpc (by simp) hstep⟩
  | waitOwner => exact ⟨leader, h.loop hi hpc (by simp) hstep⟩
  | steal => exact ⟨leader, h.loop hi hpc (by simp) hstep⟩
  | leave => exact ⟨leader, h.loop hi hpc (by simp) hstep⟩
  | compare => exact ⟨leader, h.loop hi hpc (by simp) hstep⟩
  | stop => exact ⟨some i, h.after hi hpc (by simp) hstep⟩
  | disown => exact ⟨some i, h.after hi hpc (by simp) hstep⟩
  | unlockMutex n => exact ⟨some i, h.after hi hpc (by simp) hstep⟩
  | disownRelabelMutex => exact ⟨some i, h.after hi hpc (by simp) hstep⟩
  | unlockRelabelMutex => exact ⟨none, h.unlead hi hpc hstep⟩

end FOrder.Batcher
